import Mathlib.Data.List.Basic
import Mathlib.Data.List.InsertIdx
import Mathlib.Data.List.TakeWhile
import Mathlib.Tactic.Common

set_option autoImplicit false

/-!
# SegmentedMap

The map of binlog from the ids of event sources to the sources: consecutive keys lie in one
segment, and a key that does not continue a segment begins one of its own.
-/
namespace LoggerBenchmarks.BinlogSegmentedMap

variable {V : Type}

abbrev Segment (V : Type) := ℕ × List V

def Precedes (a b : Segment V) : Prop := a.1 < b.1 ∧ a.1 + a.2.length ≤ b.1

/-- The offsets increase, and no segment reaches into the next one. -/
def Ordered (segments : List (Segment V)) : Prop := segments.Pairwise Precedes

structure SegmentedMap (V : Type) where
  segments : List (Segment V)
  first : segments.head?.map Prod.fst = some 0
  ordered : Ordered segments

def segmentIndex (segments : List (Segment V)) (key : ℕ) : ℕ := ((segments.drop 1).takeWhile fun s => s.1 ≤ key).length

def emplaced (segments : List (Segment V)) (key : ℕ) (v : V) : List (Segment V) :=
  let si := segmentIndex segments key
  match segments[si]? with
  | some (offset, segment) =>
    if segment.length = key - offset then segments.set si (offset, segment ++ [v])
    else if key - offset < segment.length then segments.set si (offset, segment.set (key - offset) v)
    else segments.insertIdx (si + 1) (key, [v])
  | none => segments

namespace SegmentedMap

def empty : SegmentedMap V where
  segments := [(0, [])]
  first := rfl
  ordered := List.pairwise_singleton _ _

def find (m : SegmentedMap V) (key : ℕ) : Option V :=
  match m.segments[segmentIndex m.segments key]? with
  | some (offset, segment) => segment[key - offset]?
  | none => none

end SegmentedMap

structure Located (segments : List (Segment V)) (key : ℕ) (before : List (Segment V)) (s : Segment V)
    (after : List (Segment V)) : Prop where
  split : segments = before ++ s :: after
  index : before.length = segmentIndex segments key
  below : s.1 ≤ key
  above : ∀ x ∈ after, key < x.1

section Located

variable {segments before after : List (Segment V)} {key k : ℕ} {s : Segment V} {v w : V}

theorem above_dropWhile (hordered : Ordered segments) (key : ℕ) :
    ∀ x ∈ segments.dropWhile (fun s => s.1 ≤ key), key < x.1 := by
  induction segments with
  | nil => nofun
  | cons s rest ih =>
    obtain ⟨hhead, hrest⟩ := List.pairwise_cons.1 hordered
    intro x hx
    rw [List.dropWhile_cons] at hx
    split at hx
    · exact ih hrest x hx
    · rename_i hstop
      have hbelow : key < s.1 := Nat.not_le.1 fun hle => hstop (decide_eq_true hle)
      rcases List.mem_cons.1 hx with rfl | hx
      · exact hbelow
      · exact Nat.lt_trans hbelow (hhead x hx).1

theorem exists_located (hfirst : segments.head?.map Prod.fst = some 0) (hordered : Ordered segments) (key : ℕ) :
    ∃ before s after, Located segments key before s after := by
  obtain ⟨s₀, hhead, hzero⟩ := Option.map_eq_some_iff.1 hfirst
  obtain ⟨rest, rfl⟩ := List.head?_eq_some_iff.1 hhead
  have hne : s₀ :: rest.takeWhile (fun s => s.1 ≤ key) ≠ [] := List.cons_ne_nil _ _
  refine ⟨(s₀ :: rest.takeWhile fun s => s.1 ≤ key).dropLast, (s₀ :: rest.takeWhile fun s => s.1 ≤ key).getLast hne,
    rest.dropWhile fun s => s.1 ≤ key, ?_, ?_, ?_, above_dropWhile (List.pairwise_cons.1 hordered).2 key⟩
  · rw [List.append_cons, List.dropLast_append_getLast, List.cons_append, List.takeWhile_append_dropWhile]
  · rw [List.length_dropLast]
    rfl
  · rcases List.mem_cons.1 (List.getLast_mem hne) with hlast | hlast
    · rw [hlast, hzero]
      exact Nat.zero_le key
    · exact of_decide_eq_true (List.mem_takeWhile_imp (p := fun s : Segment V => decide (s.1 ≤ key)) hlast)

theorem Located.get (h : Located segments key before s after) : segments[segmentIndex segments key]? = some s := by
  rw [← h.index, h.split, List.getElem?_append_right le_rfl, Nat.sub_self]
  rfl

theorem ordered_split : Ordered (before ++ s :: after) ↔ Ordered before ∧ Ordered after ∧ (∀ a ∈ before, Precedes a s) ∧
    (∀ b ∈ after, Precedes s b) ∧ ∀ a ∈ before, ∀ b ∈ after, Precedes a b := by
  unfold Ordered
  rw [List.pairwise_append, List.pairwise_cons]
  constructor
  · rintro ⟨hbefore, ⟨hhead, hafter⟩, hacross⟩
    exact ⟨hbefore, hafter, fun a ha => hacross a ha s List.mem_cons_self, hhead,
      fun a ha b hb => hacross a ha b (List.mem_cons_of_mem _ hb)⟩
  · rintro ⟨hbefore, hafter, hto, hfrom, hacross⟩
    exact ⟨hbefore, ⟨hfrom, hafter⟩, fun a ha => List.forall_mem_cons.2 ⟨hto a ha, hacross a ha⟩⟩

def At (segments : List (Segment V)) (k : ℕ) (v : V) : Prop := ∃ s ∈ segments, s.1 ≤ k ∧ s.2[k - s.1]? = some v

theorem at_split : At (before ++ s :: after) k v ↔ At before k v ∨ (s.1 ≤ k ∧ s.2[k - s.1]? = some v) ∨ At after k v := by
  unfold At
  constructor
  · rintro ⟨x, hx, hat⟩
    rcases List.mem_append.1 hx with hx | hx
    · exact .inl ⟨x, hx, hat⟩
    · rcases List.mem_cons.1 hx with rfl | hx
      · exact .inr (.inl hat)
      · exact .inr (.inr ⟨x, hx, hat⟩)
  · rintro (⟨x, hx, hat⟩ | hat | ⟨x, hx, hat⟩)
    · exact ⟨x, List.mem_append_left _ hx, hat⟩
    · exact ⟨s, List.mem_append_right _ List.mem_cons_self, hat⟩
    · exact ⟨x, List.mem_append_right _ (List.mem_cons_of_mem _ hx), hat⟩

theorem Located.at_iff (h : Located segments key before s after) (hordered : Ordered segments) :
    At segments key v ↔ s.2[key - s.1]? = some v := by
  rw [h.split] at hordered
  obtain ⟨-, -, hbefore, -, -⟩ := ordered_split.1 hordered
  have hbelow := h.below
  rw [h.split, at_split]
  constructor
  · rintro (⟨x, hx, hle, hget⟩ | ⟨-, hget⟩ | ⟨x, hx, hle, -⟩)
    · obtain ⟨hinside, -⟩ := List.getElem?_eq_some_iff.1 hget
      have hend := (hbefore x hx).2
      omega
    · exact hget
    · exact absurd hle (Nat.not_le.2 (h.above x hx))
  · exact fun hget => .inr (.inl ⟨hbelow, hget⟩)

theorem insertIdx_behind (before : List (Segment V)) (s x : Segment V) (after : List (Segment V)) :
    (before ++ s :: after).insertIdx (before.length + 1) x = before ++ s :: x :: after := by
  induction before with
  | nil => rfl
  | cons b before ih =>
    rw [List.cons_append, List.length_cons, List.insertIdx_succ_cons, ih]
    rfl

theorem Located.emplaced (h : Located segments key before s after) (v : V) :
    (s.2.length = key - s.1 ∧ emplaced segments key v = before ++ (s.1, s.2 ++ [v]) :: after) ∨
      (key - s.1 < s.2.length ∧ emplaced segments key v = before ++ (s.1, s.2.set (key - s.1) v) :: after) ∨
      (s.2.length < key - s.1 ∧ emplaced segments key v = before ++ s :: (key, [v]) :: after) := by
  have hset : ∀ x, segments.set (segmentIndex segments key) x = before ++ x :: after := by
    intro x
    rw [← h.index, h.split, List.set_append_right _ _ le_rfl, Nat.sub_self]
    rfl
  have hinsert : segments.insertIdx (segmentIndex segments key + 1) (key, [v]) = before ++ s :: (key, [v]) :: after := by
    rw [← h.index, h.split, insertIdx_behind]
  unfold BinlogSegmentedMap.emplaced
  dsimp only
  rw [h.get]
  dsimp only
  split_ifs with hend hinside
  · exact .inl ⟨hend, hset _⟩
  · exact .inr (.inl ⟨hinside, hset _⟩)
  · exact .inr (.inr ⟨by omega, hinsert⟩)

theorem Located.ordered_emplaced (h : Located segments key before s after) (hordered : Ordered segments) (v : V) :
    Ordered (BinlogSegmentedMap.emplaced segments key v) := by
  have hbelow := h.below
  rw [h.split] at hordered
  obtain ⟨hbefore, hafter, hto, hfrom, hacross⟩ := ordered_split.1 hordered
  rcases h.emplaced v with ⟨hend, heq⟩ | ⟨-, heq⟩ | ⟨hpast, heq⟩
  all_goals rw [heq]
  · refine ordered_split.2 ⟨hbefore, hafter, hto, fun b hb => ⟨(hfrom b hb).1, ?_⟩, hacross⟩
    have habove := h.above b hb
    rw [List.length_append, List.length_singleton]
    omega
  · refine ordered_split.2 ⟨hbefore, hafter, hto, fun b hb => ⟨(hfrom b hb).1, ?_⟩, hacross⟩
    rw [List.length_set]
    exact (hfrom b hb).2
  · have hnew : ∀ b ∈ after, Precedes (key, [v]) b := fun b hb => ⟨h.above b hb, h.above b hb⟩
    refine ordered_split.2 ⟨hbefore, List.pairwise_cons.2 ⟨hnew, hafter⟩, hto, ?_, fun a ha => ?_⟩
    · refine List.forall_mem_cons.2 ⟨⟨?_, ?_⟩, hfrom⟩
      · change s.1 < key
        omega
      · change s.1 + s.2.length ≤ key
        omega
    · obtain ⟨hlt, hle⟩ := hto a ha
      refine List.forall_mem_cons.2 ⟨⟨?_, ?_⟩, hacross a ha⟩
      · change a.1 < key
        omega
      · change a.1 + a.2.length ≤ key
        omega

theorem Located.first_emplaced (h : Located segments key before s after) (hfirst : segments.head?.map Prod.fst = some 0) (v : V) :
    (BinlogSegmentedMap.emplaced segments key v).head?.map Prod.fst = some 0 := by
  rw [h.split] at hfirst
  rcases h.emplaced v with ⟨-, heq⟩ | ⟨-, heq⟩ | ⟨-, heq⟩
  all_goals
    rw [heq]
    cases before
    · exact hfirst
    · exact hfirst

/-- A key that is emplaced has its value, and the other keys keep theirs. -/
theorem Located.at_emplaced (h : Located segments key before s after) (v : V) :
    At (BinlogSegmentedMap.emplaced segments key v) key v ∧
      ∀ k w, k ≠ key → (At (BinlogSegmentedMap.emplaced segments key v) k w ↔ At segments k w) := by
  have hbelow := h.below
  rcases h.emplaced v with ⟨hend, heq⟩ | ⟨hinside, heq⟩ | ⟨-, heq⟩
  all_goals rw [heq]
  · refine ⟨at_split.2 (.inr (.inl ⟨hbelow, ?_⟩)), fun k w hne => ?_⟩
    · rw [← hend, List.getElem?_append_right le_rfl, Nat.sub_self]
      rfl
    · rw [h.split, at_split, at_split]
      refine or_congr_right (or_congr_left (and_congr_right fun hle => ?_))
      dsimp only at hle ⊢
      rcases Nat.lt_or_ge (k - s.1) s.2.length with hlt | hge
      · rw [List.getElem?_append_left hlt]
      · rw [List.getElem?_eq_none hge, List.getElem?_eq_none (by rw [List.length_append, List.length_singleton]; omega)]
  · refine ⟨at_split.2 (.inr (.inl ⟨hbelow, List.getElem?_set_self hinside⟩)), fun k w hne => ?_⟩
    rw [h.split, at_split, at_split]
    refine or_congr_right (or_congr_left (and_congr_right fun hle => ?_))
    dsimp only at hle ⊢
    rw [List.getElem?_set_ne (by omega)]
  · have hnew : ∀ k w, At ((key, [v]) :: after) k w ↔ (key ≤ k ∧ [v][k - key]? = some w) ∨ At after k w := by
      intro k w
      have hsplit : At ([] ++ (key, [v]) :: after) k w ↔ _ := at_split
      rw [List.nil_append] at hsplit
      rw [hsplit]
      exact or_iff_right (fun ⟨_, hx, _⟩ => nomatch hx)
    refine ⟨at_split.2 (.inr (.inr ((hnew key v).2 (.inl ⟨le_rfl, ?_⟩)))), fun k w hne => ?_⟩
    · rw [Nat.sub_self]
      rfl
    · rw [h.split, at_split, at_split, hnew]
      refine or_congr_right (or_congr_right (or_iff_right ?_))
      rintro ⟨hle, hget⟩
      obtain ⟨hlength, -⟩ := List.getElem?_eq_some_iff.1 hget
      rw [List.length_singleton] at hlength
      omega

end Located

namespace SegmentedMap

theorem ordered_emplace (m : SegmentedMap V) (key : ℕ) (v : V) : Ordered (emplaced m.segments key v) := by
  obtain ⟨before, s, after, h⟩ := exists_located m.first m.ordered key
  exact h.ordered_emplaced m.ordered v

theorem first_emplace (m : SegmentedMap V) (key : ℕ) (v : V) : (emplaced m.segments key v).head?.map Prod.fst = some 0 := by
  obtain ⟨before, s, after, h⟩ := exists_located m.first m.ordered key
  exact h.first_emplaced m.first v

def emplace (m : SegmentedMap V) (key : ℕ) (v : V) : SegmentedMap V :=
  ⟨emplaced m.segments key v, m.first_emplace key v, m.ordered_emplace key v⟩

theorem find_iff (m : SegmentedMap V) {key : ℕ} {v : V} : m.find key = some v ↔ At m.segments key v := by
  obtain ⟨before, s, after, h⟩ := exists_located m.first m.ordered key
  rw [h.at_iff m.ordered, find, h.get]

/-- Whatever has been emplaced before, and in whatever order, `find` returns the last value of a key. -/
theorem find_emplace (m : SegmentedMap V) (key k : ℕ) (v : V) :
    (m.emplace key v).find k = if k = key then some v else m.find k := by
  obtain ⟨before, s, after, h⟩ := exists_located m.first m.ordered key
  obtain ⟨hself, hother⟩ := h.at_emplaced v
  split_ifs with hk
  · subst hk
    exact (m.emplace k v).find_iff.2 hself
  · refine Option.ext fun w => ?_
    rw [find_iff, find_iff]
    exact hother k w hk

end SegmentedMap

end LoggerBenchmarks.BinlogSegmentedMap
