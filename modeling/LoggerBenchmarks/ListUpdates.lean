import Mathlib.Data.List.Basic
import Mathlib.Tactic.Common

set_option autoImplicit false

/-!
# Updates of one component

A state made of components, one of which is replaced: what is at each index afterwards,
and what becomes of a map, a concatenation and a count over the components.
-/
namespace ListUpdates

variable {α β : Type} {xs : List α} {i j : ℕ} {x y z : α}

theorem get_set_cases (h : (xs.set i y)[j]? = some z) : j = i ∧ z = y ∨ j ≠ i ∧ xs[j]? = some z := by
  by_cases hij : i = j
  · subst hij
    rw [List.getElem?_set_self'] at h
    obtain ⟨x, -, hz⟩ := Option.map_eq_some_iff.1 h
    exact .inl ⟨rfl, hz.symm⟩
  · rw [List.getElem?_set_ne hij] at h
    exact .inr ⟨fun hji => hij hji.symm, h⟩

theorem get_set_self (h : xs[i]? = some x) : (xs.set i y)[i]? = some y := by
  rw [List.getElem?_set_self', h]
  rfl

theorem map_set_same {f : α → β} (hx : xs[i]? = some x) (hf : f y = f x) : (xs.set i y).map f = xs.map f := by
  refine List.ext_getElem? fun k => ?_
  rw [List.getElem?_map, List.getElem?_map]
  by_cases hik : i = k
  · subst hik
    rw [get_set_self hx, hx, Option.map_some, Option.map_some, hf]
  · rw [List.getElem?_set_ne hik]

theorem flatMap_split (f : α → List β) (hx : xs[i]? = some x) :
    xs.flatMap f = (xs.take i).flatMap f ++ f x ++ (xs.drop (i + 1)).flatMap f := by
  obtain ⟨hlength, rfl⟩ := List.getElem?_eq_some_iff.1 hx
  conv_lhs => rw [← List.take_append_drop i xs, List.drop_eq_getElem_cons hlength]
  rw [List.flatMap_append, List.flatMap_cons, List.append_assoc]

theorem flatMap_set (f : α → List β) (hx : xs[i]? = some x) :
    (xs.set i y).flatMap f = (xs.take i).flatMap f ++ f y ++ (xs.drop (i + 1)).flatMap f := by
  rw [flatMap_split f (get_set_self hx), List.take_set_of_le (Nat.le_refl i), List.drop_set_of_lt (Nat.lt_succ_self i)]

theorem countP_set {p : α → Bool} (hx : xs[i]? = some x) :
    (xs.set i y).countP p + (if p x then 1 else 0) = xs.countP p + if p y then 1 else 0 := by
  induction xs generalizing i with
  | nil => cases hx
  | cons z xs ih =>
    cases i with
    | zero =>
      obtain rfl := Option.some.inj hx
      rw [List.set_cons_zero, List.countP_cons, List.countP_cons]
      omega
    | succ i =>
      have h := ih hx
      rw [List.set_cons_succ, List.countP_cons, List.countP_cons]
      omega

end ListUpdates
