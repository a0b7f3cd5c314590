import Mathlib.Data.List.Nodup
import Mathlib.Data.List.Perm.Basic
import Mathlib.Order.Lattice

set_option autoImplicit false

/-!
# Stable sorting

Sorting by a key depends on the order of the input only among the elements that share
a key.
-/
namespace StableSorting

variable {α κ : Type*}

/-- `l.sort(key=key)` -/
def sortBy [LinearOrder κ] (key : α → κ) (l : List α) : List α := l.mergeSort fun a b => decide (key a ≤ key b)

def withKey [LinearOrder κ] (key : α → κ) (k : κ) (l : List α) : List α := l.filter fun a => decide (key a = k)

theorem eq_of_perm_of_all_eq {l m : List α} (h : l.Perm m) (hall : ∀ a ∈ l, ∀ b ∈ l, a = b) : l = m := by
  cases l with
  | nil => exact (List.nil_perm.1 h).symm
  | cons a l =>
    have hl : a :: l = List.replicate (l.length + 1) a :=
      List.eq_replicate_iff.2 ⟨rfl, fun b hb => hall b hb a List.mem_cons_self⟩
    rw [hl] at h ⊢
    exact (List.perm_replicate.1 h.symm).symm

section Order

variable [LinearOrder κ] {key : α → κ} {l m : List α}

theorem sortBy_perm (key : α → κ) (l : List α) : (sortBy key l).Perm l := List.mergeSort_perm _ _

theorem key_trans (a b c : α) (hab : decide (key a ≤ key b) = true) (hbc : decide (key b ≤ key c) = true) :
    decide (key a ≤ key c) = true :=
  decide_eq_true ((of_decide_eq_true hab).trans (of_decide_eq_true hbc))

theorem key_total (a b : α) : (decide (key a ≤ key b) || decide (key b ≤ key a)) = true := by
  rw [Bool.or_eq_true, decide_eq_true_eq, decide_eq_true_eq]
  exact le_total _ _

theorem sortBy_pairwise (key : α → κ) (l : List α) : (sortBy key l).Pairwise fun a b => key a ≤ key b :=
  (List.pairwise_mergeSort key_trans key_total l).imp fun h => of_decide_eq_true h

theorem mem_withKey {k : κ} {a : α} : a ∈ withKey key k l ↔ a ∈ l ∧ key a = k := by
  rw [withKey, List.mem_filter, decide_eq_true_eq]

theorem withKey_cons (a : α) (l : List α) (k : κ) :
    withKey key k (a :: l) = if key a = k then a :: withKey key k l else withKey key k l := by
  rw [withKey, List.filter_cons]
  simp only [decide_eq_true_eq]
  rfl

/-- Elements with the same key keep their order. -/
theorem withKey_sortBy (key : α → κ) (l : List α) (k : κ) : withKey key k (sortBy key l) = withKey key k l := by
  have hpairwise : (withKey key k l).Pairwise fun a b => decide (key a ≤ key b) = true := by
    refine List.pairwise_of_forall_mem_list fun a ha b hb => decide_eq_true ?_
    rw [(mem_withKey.1 ha).2, (mem_withKey.1 hb).2]
  have hsub := (List.sublist_mergeSort key_trans key_total hpairwise List.filter_sublist).filter (key · = k)
  rw [withKey, List.filter_filter] at hsub
  simp only [Bool.and_self] at hsub
  exact (hsub.eq_of_length ((sortBy_perm key l).symm.filter _).length_eq).symm

theorem mem_iff_of_withKey (h : ∀ k, withKey key k l = withKey key k m) (a : α) : a ∈ l ↔ a ∈ m := by
  have ha := congrArg (a ∈ ·) (h (key a))
  simpa [mem_withKey] using ha

theorem eq_of_withKey (hl : l.Pairwise fun a b => key a ≤ key b) (hm : m.Pairwise fun a b => key a ≤ key b)
    (h : ∀ k, withKey key k l = withKey key k m) : l = m := by
  have hmem := mem_iff_of_withKey h
  induction l generalizing m with
  | nil =>
    refine (List.eq_nil_iff_forall_not_mem.2 fun a ha => ?_).symm
    exact List.not_mem_nil ((hmem a).2 ha)
  | cons a l ih =>
    cases m with
    | nil => exact absurd ((hmem a).1 List.mem_cons_self) List.not_mem_nil
    | cons b m =>
      rw [List.pairwise_cons] at hl hm
      -- each of the two heads is a least element of the other list
      have hle : key a ≤ key b := by
        rcases List.mem_cons.1 ((hmem b).2 List.mem_cons_self) with rfl | hb
        · exact le_rfl
        · exact hl.1 b hb
      have hge : key b ≤ key a := by
        rcases List.mem_cons.1 ((hmem a).1 List.mem_cons_self) with rfl | ha
        · exact le_rfl
        · exact hm.1 a ha
      have hhead := h (key a)
      rw [withKey_cons, withKey_cons, if_pos rfl, if_pos (le_antisymm hge hle)] at hhead
      obtain ⟨rfl, -⟩ := List.cons.inj hhead
      have htail : ∀ k, withKey key k l = withKey key k m := by
        intro k
        have hk := h k
        rw [withKey_cons, withKey_cons] at hk
        split at hk
        · exact (List.cons.inj hk).2
        · exact hk
      exact congrArg (a :: ·) (ih hl.2 hm.2 htail (mem_iff_of_withKey htail))

theorem sortBy_eq_iff : sortBy key l = sortBy key m ↔ ∀ k, withKey key k l = withKey key k m := by
  constructor
  · intro h k
    rw [← withKey_sortBy key l k, ← withKey_sortBy key m k, h]
  · intro h
    refine eq_of_withKey (sortBy_pairwise key l) (sortBy_pairwise key m) fun k => ?_
    rw [withKey_sortBy, withKey_sortBy, h k]

/-- Where all elements with the key are equal, their order does not matter. -/
theorem withKey_perm {k : κ} (h : l.Perm m) (hall : ∀ a ∈ withKey key k l, ∀ b ∈ withKey key k l, a = b) :
    withKey key k l = withKey key k m :=
  eq_of_perm_of_all_eq (h.filter _) hall

/-- Where the key tells all elements apart, the order of the input does not matter. -/
theorem sortBy_eq_of_perm (h : l.Perm m) (hinj : ∀ a ∈ l, ∀ b ∈ l, key a = key b → a = b) :
    sortBy key l = sortBy key m := by
  rw [sortBy_eq_iff]
  intro k
  refine withKey_perm h fun a ha b hb => ?_
  obtain ⟨hal, hak⟩ := mem_withKey.1 ha
  obtain ⟨hbl, hbk⟩ := mem_withKey.1 hb
  exact hinj a hal b hbl (hak.trans hbk.symm)

end Order

end StableSorting
