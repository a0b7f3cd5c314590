import Mathlib.Algebra.Group.Nat.Defs
import Mathlib.Data.List.Basic
import Mathlib.Data.List.Infix

set_option autoImplicit false

/-!
# Python text

A `str` is a list of characters. `\\d` and `int` accept every Unicode decimal
digit, `\\s` and `strip` every Unicode space, and opening a file in text mode
rewrites `\\r\\n` and `\\r` to `\\n`.
-/
namespace PythonText

abbrev Text := List Char

instance decidableMemTexts (t : Text) (ts : List Text) : Decidable (t ∈ ts) := inferInstance

/-- The zeros of the decimal digit blocks; the digits of a block are consecutive. -/
def decimalZeros : List ℕ :=
  [0x30, 0x660, 0x6f0, 0x7c0, 0x966, 0x9e6, 0xa66, 0xae6, 0xb66, 0xbe6, 0xc66, 0xce6, 0xd66, 0xde6,
    0xe50, 0xed0, 0xf20, 0x1040, 0x1090, 0x17e0, 0x1810, 0x1946, 0x19d0, 0x1a80, 0x1a90, 0x1b50,
    0x1bb0, 0x1c40, 0x1c50, 0xa620, 0xa8d0, 0xa900, 0xa9d0, 0xa9f0, 0xaa50, 0xabf0, 0xff10] ++
  [0x104a0, 0x10d30, 0x11066, 0x110f0, 0x11136, 0x111d0, 0x112f0, 0x11450, 0x114d0, 0x11650, 0x116c0,
    0x11730, 0x118e0, 0x11950, 0x11c50, 0x11d50, 0x11da0, 0x16a60, 0x16ac0, 0x16b50, 0x1d7ce,
    0x1d7d8, 0x1d7e2, 0x1d7ec, 0x1d7f6, 0x1e140, 0x1e2f0, 0x1e950, 0x1fbf0]

def decimalValue (c : Char) : Option ℕ :=
  (decimalZeros.find? fun z => z ≤ c.toNat && c.toNat < z + 10).map fun z => c.toNat - z

def isDecimal (c : Char) : Bool := (decimalValue c).isSome

def spaceRuns : List (ℕ × ℕ) :=
  [(0x9, 0xd), (0x1c, 0x20), (0x85, 0x85), (0xa0, 0xa0), (0x1680, 0x1680), (0x2000, 0x200a),
    (0x2028, 0x2029), (0x202f, 0x202f), (0x205f, 0x205f), (0x3000, 0x3000)]

def isSpace (c : Char) : Bool := spaceRuns.any fun r => r.1 ≤ c.toNat && c.toNat ≤ r.2

def strip (t : Text) : Text := ((t.dropWhile isSpace).reverse.dropWhile isSpace).reverse

/-- `sys.get_int_max_str_digits()` -/
def intMaxStrDigits : ℕ := 4300

/-- `int` of a run of decimal digits; of more than `intMaxStrDigits` digits it raises `ValueError`. -/
def int (t : Text) : ℕ := t.foldl (fun n c => 10 * n + (decimalValue c).getD 0) 0

/-- `str` of a natural number; the stream output of an unsigned integer is the same. -/
def str (n : ℕ) : Text := Nat.toDigits 10 n

/-- `needle in text`. -/
def contains (needle text : Text) : Bool := decide (needle <:+: text)

def universalNewlines : Text → Text
  | [] => []
  | '\r' :: '\n' :: t => '\n' :: universalNewlines t
  | c :: t => (if c = '\r' then '\n' else c) :: universalNewlines t

/-- `a <= b`: strings are compared by code points. -/
def textLe : Text → Text → Bool
  | [], _ => true
  | _ :: _, [] => false
  | c :: s, d :: t => c.toNat < d.toNat || (c.toNat == d.toNat && textLe s t)

theorem contains_iff (needle text : Text) : contains needle text = true ↔ needle <:+: text := by
  simp [contains]

theorem decimalValue_of_isDigit {c : Char} (h : c.isDigit = true) :
    decimalValue c = some (c.toNat - '0'.toNat) := by
  simp only [Char.isDigit, Bool.and_eq_true, decide_eq_true_eq] at h
  have hlo : 0x30 ≤ c.toNat := h.1
  have hhi : c.toNat ≤ 0x39 := h.2
  have hz : ((0x30 : ℕ) ≤ c.toNat && c.toNat < 0x30 + 10) = true := by
    simp only [Bool.and_eq_true, decide_eq_true_eq]
    omega
  rw [decimalValue, decimalZeros, List.cons_append,
    List.find?_cons_of_pos (p := fun z => decide (z ≤ c.toNat) && decide (c.toNat < z + 10)) hz]
  rfl

theorem isDecimal_of_isDigit {c : Char} (h : c.isDigit = true) : isDecimal c = true := by
  simp [isDecimal, decimalValue_of_isDigit h]

theorem isSpace_of_isDigit {c : Char} (h : c.isDigit = true) : isSpace c = false := by
  simp only [Char.isDigit, Bool.and_eq_true, decide_eq_true_eq] at h
  have hlo : 0x30 ≤ c.toNat := h.1
  have hhi : c.toNat ≤ 0x39 := h.2
  rw [Bool.eq_false_iff]
  simp only [isSpace, spaceRuns, ne_eq, List.any_eq_true, not_exists, not_and, Bool.and_eq_true,
    decide_eq_true_eq, List.mem_cons, List.not_mem_nil, or_false]
  rintro r (rfl | rfl | rfl | rfl | rfl | rfl | rfl | rfl | rfl | rfl) <;> omega

theorem str_isDigit {n : ℕ} {c : Char} (h : c ∈ str n) : c.isDigit = true :=
  Nat.isDigit_of_mem_toDigits (by decide) (by decide) h

theorem str_ne_nil (n : ℕ) : str n ≠ [] := Nat.toDigits_ne_nil

theorem int_str (n : ℕ) : int (str n) = n := by
  have hfold : ∀ (t : Text) (k : ℕ), (∀ c ∈ t, c.isDigit = true) →
      t.foldl (fun n c => 10 * n + (decimalValue c).getD 0) k = Nat.ofDigitChars 10 t k := by
    intro t
    induction t with
    | nil => exact fun _ _ => rfl
    | cons c t ih =>
      intro k hc
      rw [List.foldl_cons, decimalValue_of_isDigit (hc c List.mem_cons_self), Option.getD_some,
        ih _ fun d hd => hc d (List.mem_cons_of_mem c hd), Nat.ofDigitChars_cons]
  rw [int, hfold _ _ fun _ => str_isDigit]
  exact Nat.ofDigitChars_ten_toDigits

theorem decimalValue_lt {c : Char} {v : ℕ} (h : decimalValue c = some v) : v < 10 := by
  obtain ⟨z, hz, rfl⟩ := Option.map_eq_some_iff.1 h
  have hblock := List.find?_some hz
  simp only [Bool.and_eq_true, decide_eq_true_eq] at hblock
  omega

theorem int_lt (t : Text) : int t < 10 ^ t.length := by
  have hfold : ∀ (t : Text) (k : ℕ),
      t.foldl (fun n c => 10 * n + (decimalValue c).getD 0) k < (k + 1) * 10 ^ t.length := by
    intro t
    induction t with
    | nil => simp
    | cons c t ih =>
      intro k
      have hdigit : (decimalValue c).getD 0 < 10 := by
        cases hc : decimalValue c with
        | none => decide
        | some v => exact decimalValue_lt hc
      rw [List.foldl_cons, List.length_cons, Nat.pow_succ']
      calc _ < (10 * k + (decimalValue c).getD 0 + 1) * 10 ^ t.length := ih _
        _ ≤ ((k + 1) * 10) * 10 ^ t.length := Nat.mul_le_mul_right _ (by omega)
        _ = _ := Nat.mul_assoc _ _ _
  simpa [int] using hfold t 0

theorem str_length_le_iff {n k : ℕ} (hk : 0 < k) : (str n).length ≤ k ↔ n < 10 ^ k :=
  Nat.length_toDigits_le_iff (by decide) hk

theorem dropWhile_of_head {p : Char → Bool} {t : Text} (h : ∀ c ∈ t.head?, p c = false) :
    t.dropWhile p = t := by
  cases t with
  | nil => rfl
  | cons c t => rw [List.dropWhile_cons_of_neg (by simp [h c rfl])]

theorem strip_eq_self {t : Text} (hhead : ∀ c ∈ t.head?, isSpace c = false)
    (hlast : ∀ c ∈ t.getLast?, isSpace c = false) : strip t = t := by
  have hrev : ∀ c ∈ t.reverse.head?, isSpace c = false := by
    rw [List.head?_reverse]
    exact hlast
  rw [strip, dropWhile_of_head hhead, dropWhile_of_head hrev, List.reverse_reverse]

theorem universalNewlines_cons {c : Char} (t : Text) (h : c ≠ '\r') :
    universalNewlines (c :: t) = c :: universalNewlines t := by
  rw [universalNewlines]
  · rw [if_neg h]
  · rintro t' rfl
    exact absurd rfl h

/-- Text without a carriage return passes unchanged, whatever follows it. -/
theorem universalNewlines_append (s t : Text) (h : '\r' ∉ s) :
    universalNewlines (s ++ t) = s ++ universalNewlines t := by
  induction s with
  | nil => rfl
  | cons c s ih =>
    obtain ⟨hc, hs⟩ := List.ne_and_not_mem_of_not_mem_cons h
    rw [List.cons_append, universalNewlines_cons _ (Ne.symm hc), ih hs, List.cons_append]

/-- A text that does not begin with a line feed is read on its own. -/
theorem universalNewlines_append_cons (s t : Text) {c : Char} (hc : c ≠ '\n') :
    universalNewlines (s ++ c :: t) = universalNewlines s ++ universalNewlines (c :: t) := by
  induction s using universalNewlines.induct with
  | case1 => rfl
  | case2 s ih =>
    rw [List.cons_append, List.cons_append, universalNewlines, universalNewlines, ih, List.cons_append]
  | case3 d s hd ih =>
    rw [List.cons_append, universalNewlines, universalNewlines, ih, List.cons_append]
    · exact hd
    · rintro u rfl h
      cases s with
      | nil => exact hc (List.cons.inj h).1
      | cons e s => exact hd s rfl (by rw [(List.cons.inj h).1])

theorem universalNewlines_eq_self {s : Text} (h : '\r' ∉ s) : universalNewlines s = s := by
  have := universalNewlines_append s [] h
  simpa [universalNewlines] using this

theorem prefix_of_universalNewlines {w t : Text} (hw : '\n' ∉ w) (h : w <+: universalNewlines t) : w <+: t := by
  induction t using universalNewlines.induct generalizing w with
  | case1 => exact h
  | case2 s ih =>
    rw [universalNewlines] at h
    rcases List.prefix_cons_iff.1 h with rfl | ⟨v, rfl, -⟩
    · exact List.nil_prefix
    · exact absurd List.mem_cons_self hw
  | case3 c s hc ih =>
    rw [universalNewlines] at h
    · rcases List.prefix_cons_iff.1 h with rfl | ⟨v, rfl, hv⟩
      · exact List.nil_prefix
      · obtain ⟨hhead, htail⟩ := List.ne_and_not_mem_of_not_mem_cons hw
        by_cases hcr : c = '\r'
        · rw [if_pos hcr] at hhead
          exact absurd rfl hhead
        · rw [if_neg hcr]
          exact List.cons_prefix_cons.2 ⟨rfl, ih htail hv⟩
    · exact hc

theorem infix_of_universalNewlines {w t : Text} (hw : '\n' ∉ w) (h : w <:+: universalNewlines t) : w <:+: t := by
  induction t using universalNewlines.induct with
  | case1 => exact h
  | case2 s ih =>
    rw [universalNewlines] at h
    rcases List.infix_cons_iff.1 h with hprefix | hlater
    · rcases List.prefix_cons_iff.1 hprefix with rfl | ⟨v, rfl, -⟩
      · exact List.nil_infix
      · exact absurd List.mem_cons_self hw
    · exact (ih hlater).trans ⟨['\r', '\n'], [], by simp⟩
  | case3 c s hc ih =>
    have hcons : universalNewlines (c :: s) = (if c = '\r' then '\n' else c) :: universalNewlines s := by
      rw [universalNewlines]
      exact hc
    rw [hcons] at h
    rcases List.infix_cons_iff.1 h with hprefix | hlater
    · rw [← hcons] at hprefix
      exact (prefix_of_universalNewlines hw hprefix).isInfix
    · exact (ih hlater).trans (List.suffix_cons c s).isInfix

end PythonText
