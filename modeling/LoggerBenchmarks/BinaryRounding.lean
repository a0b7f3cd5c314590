import Mathlib.Algebra.Order.Archimedean.Basic
import Mathlib.Data.Int.Log
import Mathlib.Data.Rat.Floor
import Mathlib.Tactic.FieldSimp
import Mathlib.Tactic.Linarith
import Mathlib.Tactic.Positivity
import Mathlib.Tactic.Ring

set_option autoImplicit false

/-!
# Rounding to integers and to doubles

Round half to even on the rationals, and the double that correct rounding gives
for a nonnegative rational.
-/
namespace BinaryRounding

def halfEven (q : ℚ) : ℤ :=
  if Int.fract q < 1 / 2 then ⌊q⌋
  else if 1 / 2 < Int.fract q then ⌊q⌋ + 1
  else if Even ⌊q⌋ then ⌊q⌋ else ⌊q⌋ + 1

def spacing (q : ℚ) : ℚ := 2 ^ (max (Int.log 2 q) (-1022) - 52)

def nearest (q : ℚ) : ℚ := halfEven (q / spacing q) * spacing q

/-- The double nearest to a nonnegative `q`, unless it is too large for one. -/
def toDouble (q : ℚ) : Option ℚ := if nearest q < 2 ^ 1024 then some (nearest q) else none

theorem halfEven_cases (q : ℚ) : |q - halfEven q| < 1 / 2 ∨ |q - halfEven q| = 1 / 2 ∧ Even (halfEven q) := by
  have hfloor : q = ⌊q⌋ + Int.fract q := (Int.floor_add_fract q).symm
  have hnonneg := Int.fract_nonneg q
  have hlt := Int.fract_lt_one q
  unfold halfEven
  split_ifs with h₁ h₂ h₃
  · left
    rw [abs_lt]
    constructor <;> linarith
  · left
    push_cast
    rw [abs_lt]
    constructor <;> linarith
  · right
    refine ⟨?_, h₃⟩
    rw [abs_eq (by norm_num)]
    left
    linarith
  · right
    refine ⟨?_, (Int.not_even_iff_odd.1 h₃).add_one⟩
    push_cast
    rw [abs_eq (by norm_num)]
    right
    linarith

theorem halfEven_near (q : ℚ) : |q - halfEven q| ≤ 1 / 2 := by
  rcases halfEven_cases q with h | ⟨h, -⟩
  · exact h.le
  · exact h.le

theorem halfEven_eq {q : ℚ} {n : ℤ} (h : |q - n| < 1 / 2 ∨ |q - n| = 1 / 2 ∧ Even n) :
    halfEven q = n := by
  have hnear := halfEven_cases q
  have hdist : |(halfEven q : ℚ) - n| ≤ |q - halfEven q| + |q - n| := by
    have := abs_sub_le (halfEven q : ℚ) q n
    rwa [abs_sub_comm (halfEven q : ℚ) q] at this
  rcases h with h | ⟨h, hn⟩
  · have hlt : |(halfEven q : ℚ) - n| < 1 := by
      have := halfEven_near q
      linarith
    have hint : |halfEven q - n| < 1 := by exact_mod_cast hlt
    rw [abs_lt] at hint
    omega
  · rcases hnear with hq | ⟨hq, heven⟩
    · have hlt : |(halfEven q : ℚ) - n| < 1 := by linarith
      have hint : |halfEven q - n| < 1 := by exact_mod_cast hlt
      rw [abs_lt] at hint
      omega
    · have hle : |(halfEven q : ℚ) - n| ≤ 1 := by linarith
      have hint : |halfEven q - n| ≤ 1 := by exact_mod_cast hle
      rw [abs_le] at hint
      obtain ⟨k, hk⟩ := hn
      obtain ⟨l, hl⟩ := heven
      omega

theorem halfEven_int (n : ℤ) : halfEven n = n := halfEven_eq (by left; simp)

theorem halfEven_mono {p q : ℚ} (h : p ≤ q) : halfEven p ≤ halfEven q := by
  by_contra hlt
  have hp := halfEven_near p
  have hq := halfEven_near q
  rw [abs_le] at hp hq
  have hgap : (halfEven q : ℚ) + 1 ≤ halfEven p := by exact_mod_cast (not_le.1 hlt)
  obtain rfl : p = q := le_antisymm h (by linarith)
  exact hlt le_rfl

/-- Two numbers round alike if no half lies between them or on just one of them. -/
theorem halfEven_congr {q d : ℚ} (hlt : ∀ n : ℤ, q < n + 1 / 2 → d < n + 1 / 2)
    (hgt : ∀ n : ℤ, (n : ℚ) + 1 / 2 < q → (n : ℚ) + 1 / 2 < d)
    (heq : ∀ n : ℤ, q = n + 1 / 2 → d = n + 1 / 2) : halfEven d = halfEven q := by
  apply halfEven_eq
  rcases halfEven_cases q with h | ⟨h, heven⟩
  · left
    rw [abs_lt] at h ⊢
    have hup := hlt (halfEven q) (by linarith)
    have hdown := hgt (halfEven q - 1) (by push_cast; linarith)
    push_cast at hdown
    constructor <;> linarith
  · right
    refine ⟨?_, heven⟩
    rw [abs_eq (by norm_num)] at h ⊢
    rcases h with h | h
    · left
      have := heq (halfEven q) (by linarith)
      linarith
    · right
      have := heq (halfEven q - 1) (by push_cast; linarith)
      push_cast at this
      linarith

theorem spacing_pos (q : ℚ) : 0 < spacing q := by
  unfold spacing
  exact zpow_pos (by norm_num) _

theorem nearest_near (q : ℚ) : |nearest q - q| ≤ spacing q / 2 := by
  have hs := spacing_pos q
  have hq : nearest q - q = -((q / spacing q - halfEven (q / spacing q)) * spacing q) := by
    unfold nearest
    field_simp
    ring
  rw [hq, abs_neg, abs_mul, abs_of_pos hs]
  have := halfEven_near (q / spacing q)
  nlinarith

theorem nearest_of_multiple {q : ℚ} {k : ℤ} (h : q = k * spacing q) : nearest q = q := by
  have hs := spacing_pos q
  have hk : q / spacing q = k := by
    rw [div_eq_iff hs.ne']
    exact h
  rw [nearest, hk, halfEven_int, ← h]

theorem log_le {q : ℚ} {k : ℤ} (hq : 0 ≤ q) (hk : 0 ≤ k) (h : q < 2 ^ (k + 1)) : Int.log 2 q ≤ k := by
  rcases hq.eq_or_lt with rfl | hpos
  · simpa using hk
  · have := (Int.lt_zpow_iff_log_lt (b := 2) (by norm_num) hpos).1 (by exact_mod_cast h)
    omega

theorem half_gap {a b : ℕ} {n : ℤ} (hb : 0 < b) (h : (a / b : ℚ) < n + 1 / 2) :
    (a / b : ℚ) + 1 / (2 * b) ≤ n + 1 / 2 := by
  have hb' : (0 : ℚ) < b := by exact_mod_cast hb
  have hmul : (a : ℚ) < (n + 1 / 2) * b := (div_lt_iff₀ hb').1 h
  have hint : 2 * (a : ℤ) < (2 * n + 1) * b := by
    have : (2 * a : ℚ) < (2 * n + 1) * b := by linarith
    exact_mod_cast this
  have hstep : (2 * a + 1 : ℚ) ≤ (2 * n + 1) * b := by exact_mod_cast hint
  have heq : (a / b : ℚ) + 1 / (2 * b) = (2 * a + 1) / (2 * b) := by
    field_simp
  rw [heq, div_le_iff₀ (by linarith)]
  linarith

theorem half_gap_below {a b : ℕ} {n : ℤ} (hb : 0 < b) (h : (n : ℚ) + 1 / 2 < a / b) :
    (n : ℚ) + 1 / 2 ≤ a / b - 1 / (2 * b) := by
  have hb' : (0 : ℚ) < b := by exact_mod_cast hb
  have hmul : ((n : ℚ) + 1 / 2) * b < a := (lt_div_iff₀ hb').1 h
  have hint : (2 * n + 1) * b < 2 * (a : ℤ) := by
    have : (2 * n + 1 : ℚ) * b < 2 * a := by linarith
    exact_mod_cast this
  have hstep : (2 * n + 1 : ℚ) * b + 1 ≤ 2 * a := by exact_mod_cast hint
  have heq : (a / b : ℚ) - 1 / (2 * b) = (2 * a - 1) / (2 * b) := by
    field_simp
  rw [heq, le_div_iff₀ (by linarith)]
  linarith

theorem nearest_le {q : ℚ} : nearest q ≤ q + spacing q / 2 := by
  have := abs_le.1 (nearest_near q)
  linarith

theorem le_nearest {q : ℚ} : q - spacing q / 2 ≤ nearest q := by
  have := abs_le.1 (nearest_near q)
  linarith

/-- Between a quarter and `2 ^ 52` the halves are doubles. -/
theorem half_multiple {q : ℚ} (hlow : 1 / 4 ≤ q) (hhigh : q < 2 ^ 52) (n : ℤ) :
    ∃ k : ℤ, (n : ℚ) + 1 / 2 = k * spacing q := by
  have hlog : -2 ≤ Int.log 2 q :=
    (Int.zpow_le_iff_le_log (by norm_num) (by linarith)).1 (by norm_num; linarith)
  have hlog' : Int.log 2 q ≤ 51 := log_le (by linarith) (by norm_num) (by exact_mod_cast hhigh)
  obtain ⟨m, hm⟩ : ∃ m : ℕ, (m : ℤ) = 51 - Int.log 2 q := ⟨(51 - Int.log 2 q).toNat, by omega⟩
  refine ⟨(2 * n + 1) * 2 ^ m, ?_⟩
  have hexp : (2 : ℚ) ^ m * spacing q = 1 / 2 := by
    unfold spacing
    rw [max_eq_left (by omega), ← zpow_natCast, ← zpow_add₀ (by norm_num), hm]
    have : 51 - Int.log 2 q + (Int.log 2 q - 52) = -1 := by ring
    rw [this]
    norm_num
  push_cast
  rw [mul_assoc, hexp]
  ring

theorem spacing_le {q : ℚ} (hlow : 1 / 4 ≤ q) : spacing q * 2 ^ 52 ≤ q := by
  have hpos : 0 < q := by linarith
  have hlog : -2 ≤ Int.log 2 q :=
    (Int.zpow_le_iff_le_log (by norm_num) hpos).1 (by norm_num; linarith)
  unfold spacing
  rw [max_eq_left (by omega), zpow_sub₀ (by norm_num)]
  have hle := Int.zpow_log_le_self (b := 2) (by norm_num) hpos
  norm_num at hle ⊢
  linarith

/-- The double of a quotient with a small numerator rounds to the same integer. -/
theorem halfEven_nearest {a b : ℕ} (hb : 0 < b) (ha : a < 2 ^ 52) :
    halfEven (nearest (a / b)) = halfEven (a / b) := by
  have hb' : (1 : ℚ) ≤ b := by exact_mod_cast hb
  have ha' : (a : ℚ) < 2 ^ 52 := by exact_mod_cast ha
  have hq : (0 : ℚ) ≤ a / b := by positivity
  have hsmall : (a / b : ℚ) < 2 ^ 52 := lt_of_le_of_lt (div_le_self (by positivity) hb') ha'
  by_cases hlow : (1 / 4 : ℚ) ≤ a / b
  · -- the spacing is below the distance of the quotient from any half it is not
    have hgap : spacing (a / b) / 2 < 1 / (2 * b) := by
      have hle := spacing_le hlow
      rw [le_div_iff₀ (by linarith)] at hle
      rw [lt_div_iff₀ (by linarith)]
      nlinarith [spacing_pos (a / b : ℚ)]
    apply halfEven_congr
    · intro n hn
      have := half_gap hb hn
      have := nearest_le (q := (a / b : ℚ))
      linarith
    · intro n hn
      have := half_gap_below hb hn
      have := le_nearest (q := (a / b : ℚ))
      linarith
    · intro n hn
      obtain ⟨k, hk⟩ := half_multiple hlow hsmall n
      rw [nearest_of_multiple (k := k) (hn.trans hk), hn]
  · have hlog : Int.log 2 (a / b : ℚ) ≤ 0 := log_le hq (by norm_num) (by norm_num; linarith)
    have hspacing : spacing (a / b) ≤ 1 / 4 := by
      unfold spacing
      have hmono : (2 : ℚ) ^ (max (Int.log 2 (a / b : ℚ)) (-1022) - 52) ≤ 2 ^ (-2 : ℤ) :=
        zpow_le_zpow_right₀ (by norm_num) (by omega)
      norm_num at hmono ⊢
      exact hmono
    have hup := nearest_le (q := (a / b : ℚ))
    have hdown := le_nearest (q := (a / b : ℚ))
    rw [halfEven_eq (q := (a / b : ℚ)) (n := 0) (by left; rw [abs_lt]; push_cast; constructor <;> linarith)]
    exact halfEven_eq (by left; rw [abs_lt]; push_cast; constructor <;> linarith)

theorem toDouble_small {a b : ℕ} (hb : 0 < b) (ha : a < 2 ^ 52) :
    toDouble (a / b) = some (nearest (a / b)) := by
  have hb' : (1 : ℚ) ≤ b := by exact_mod_cast hb
  have ha' : (a : ℚ) < 2 ^ 52 := by exact_mod_cast ha
  have hq : (0 : ℚ) ≤ a / b := by positivity
  have hsmall : (a / b : ℚ) < 2 ^ 52 := lt_of_le_of_lt (div_le_self (by positivity) hb') ha'
  have hlog : Int.log 2 (a / b : ℚ) ≤ 51 := log_le hq (by norm_num) (by exact_mod_cast hsmall)
  have hspacing : spacing (a / b) ≤ 1 := by
    have hmono : (2 : ℚ) ^ (max (Int.log 2 (a / b : ℚ)) (-1022) - 52) ≤ 2 ^ (0 : ℤ) :=
      zpow_le_zpow_right₀ (by norm_num) (by omega)
    rwa [zpow_zero] at hmono
  have hle := nearest_le (q := (a / b : ℚ))
  have hmax : (2 : ℚ) ^ 53 ≤ 2 ^ 1024 := pow_le_pow_right₀ (by norm_num) (by norm_num)
  have hlt : nearest (a / b) < 2 ^ 53 := by linarith
  exact if_pos (lt_of_lt_of_le hlt hmax)

end BinaryRounding
