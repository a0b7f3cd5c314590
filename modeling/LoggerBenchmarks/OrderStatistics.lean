import Mathlib.Data.List.Count
import Mathlib.Data.List.Perm.Basic
import Mathlib.Order.Lattice
import Mathlib.Order.Monotone.Basic

set_option autoImplicit false

/-!
# Order statistics of a list

How many elements lie at or below an element of a sorted list, how many strictly
below, and why two such counts around a threshold leave one value only.
-/
namespace OrderStatistics

variable {α : Type*} [LinearOrder α] {xs : List α}

theorem getElem_mono (h : xs.Pairwise (· ≤ ·)) {i j : ℕ} (hij : i ≤ j) (hj : j < xs.length) :
    xs[i] ≤ xs[j] := by
  rcases hij.eq_or_lt with rfl | hlt
  · exact le_rfl
  · exact List.pairwise_iff_getElem.1 h i j (by omega) hj hlt

theorem succ_le_countP_le (h : xs.Pairwise (· ≤ ·)) {i : ℕ} (hi : i < xs.length) :
    i + 1 ≤ xs.countP (· ≤ xs[i]) := by
  have hfront : (xs.take (i + 1)).countP (· ≤ xs[i]) = i + 1 := by
    rw [List.countP_eq_length.2, List.length_take_of_le hi]
    intro a ha
    obtain ⟨j, hj, rfl⟩ := List.mem_iff_getElem.1 ha
    rw [List.length_take] at hj
    rw [List.getElem_take]
    exact decide_eq_true (getElem_mono h (by omega) hi)
  have hsub := (List.take_sublist (i + 1) xs).countP_le (p := fun a => decide (a ≤ xs[i]))
  omega

theorem countP_lt_le (h : xs.Pairwise (· ≤ ·)) {i : ℕ} (hi : i < xs.length) :
    xs.countP (· < xs[i]) ≤ i := by
  have hback : (xs.drop i).countP (· < xs[i]) = 0 := by
    rw [List.countP_eq_zero]
    intro a ha
    obtain ⟨j, hj, rfl⟩ := List.mem_iff_getElem.1 ha
    rw [List.length_drop] at hj
    rw [List.getElem_drop, decide_eq_true_eq, not_lt]
    exact getElem_mono h (by omega) (by omega)
  have hsplit := @List.countP_append _ (fun a => decide (a < xs[i])) (xs.take i) (xs.drop i)
  rw [List.take_append_drop, hback, Nat.add_zero] at hsplit
  have hfront := List.countP_le_length (p := fun a => decide (a < xs[i])) (l := xs.take i)
  rw [List.length_take] at hfront
  omega

theorem countP_le_le_countP_lt {a b : α} (h : a < b) (xs : List α) :
    xs.countP (· ≤ a) ≤ xs.countP (· < b) := by
  apply List.countP_mono_left
  intro x _ hx
  simp only [decide_eq_true_eq] at hx ⊢
  exact lt_of_le_of_lt hx h

/-- At most one value has at least `r` elements at or below it and fewer than `r` below it. -/
theorem rank_unique {β : Type*} [LinearOrder β] {r : β} {count : ℕ → β} (hmono : Monotone count) {a b : α}
    (ha : r ≤ count (xs.countP (· ≤ a))) (ha' : count (xs.countP (· < a)) < r)
    (hb : r ≤ count (xs.countP (· ≤ b))) (hb' : count (xs.countP (· < b)) < r) : a = b := by
  rcases lt_trichotomy a b with h | h | h
  · exact absurd (ha.trans (hmono (countP_le_le_countP_lt h xs))) (not_le.2 hb')
  · exact h
  · exact absurd (hb.trans (hmono (countP_le_le_countP_lt h xs))) (not_le.2 ha')

end OrderStatistics
