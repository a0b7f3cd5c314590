import Mathlib.Data.List.Basic
import Mathlib.Tactic.Ring

set_option autoImplicit false

/-!
# Readers of byte strings

Numbers in little-endian bytes, and readers that take what they read from the front of
their input. `Reads r bytes a`: whatever follows, `r` takes exactly `bytes` and returns `a`.
-/
namespace ByteReaders

def littleEndian : ℕ → ℕ → List UInt8
  | 0, _ => []
  | width + 1, n => UInt8.ofNat n :: littleEndian width (n / 256)

def value : List UInt8 → ℕ
  | [] => 0
  | b :: bytes => b.toNat + 256 * value bytes

@[simp] theorem length_littleEndian (width n : ℕ) : (littleEndian width n).length = width := by
  induction width generalizing n with
  | zero => rfl
  | succ width ih =>
    rw [littleEndian, List.length_cons, ih]

theorem value_littleEndian (width n : ℕ) : value (littleEndian width n) = n % 256 ^ width := by
  induction width generalizing n with
  | zero =>
    rw [pow_zero, Nat.mod_one]
    rfl
  | succ width ih =>
    rw [littleEndian, value, ih, UInt8.toNat_ofNat', pow_succ' 256 width, Nat.mod_mul]

theorem value_of_lt {width n : ℕ} (h : n < 256 ^ width) : value (littleEndian width n) = n := by
  rw [value_littleEndian, Nat.mod_eq_of_lt h]

abbrev Reader (ε α : Type) := StateT (List UInt8) (Except ε) α

variable {ε α γ : Type}

def Reads (r : Reader ε α) (bytes : List UInt8) (a : α) : Prop := ∀ rest, r.run (bytes ++ rest) = .ok (a, rest)

section Reads

variable {r : Reader ε α} {f : α → Reader ε γ} {xs ys : List UInt8} {a : α} {c : γ}

theorem Reads.pure (a : α) : Reads (pure a : Reader ε α) [] a := fun _ => rfl

theorem Reads.bind (h : Reads r xs a) (hf : Reads (f a) ys c) : Reads (r >>= f) (xs ++ ys) c := by
  intro rest
  rw [List.append_assoc, StateT.run_bind, h (ys ++ rest)]
  exact hf rest

theorem Reads.map (h : Reads r xs a) (g : α → γ) : Reads (g <$> r) xs (g a) := by
  intro rest
  rw [StateT.run_map, h rest]
  rfl

theorem Reads.last (h : Reads r xs a) (hf : Reads (f a) [] c) : Reads (r >>= f) xs c := by
  have hbind := h.bind hf
  rwa [List.append_nil] at hbind

theorem Reads.run (h : Reads r xs a) : r.run xs = .ok (a, []) := by
  have hnil := h []
  rwa [List.append_nil] at hnil

end Reads

end ByteReaders
