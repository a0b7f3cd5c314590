import Mathlib.Data.List.Nodup

set_option autoImplicit false

/-!
# Dictionaries in insertion order

A dictionary keeps each key once, in the order of the first insertion. Folding
`modify` over a list groups it.
-/
namespace InsertionDict

variable {κ ν μ β : Type}

structure Dict (κ ν : Type) where
  entries : List (κ × ν)
  nodup : (entries.map Prod.fst).Nodup

def Dict.empty : Dict κ ν := ⟨[], List.nodup_nil⟩

section Lookup

variable [DecidableEq κ] [BEq κ] [LawfulBEq κ]

theorem lookup_cons_eq (k k₀ : κ) (v : ν) (es : List (κ × ν)) :
    ((k₀, v) :: es).lookup k = if k = k₀ then some v else es.lookup k := by
  by_cases h : k = k₀
  · subst k₀
    simp
  · have hne : (k == k₀) = false := by simpa using h
    simp [List.lookup_cons, h, hne]

theorem mem_iff_lookup {es : List (κ × ν)} (hes : (es.map Prod.fst).Nodup) (k : κ) (v : ν) :
    (k, v) ∈ es ↔ es.lookup k = some v := by
  induction es with
  | nil => simp
  | cons e es ih =>
    obtain ⟨k₀, v₀⟩ := e
    obtain ⟨hnot, htail⟩ := List.nodup_cons.1 hes
    rw [lookup_cons_eq, List.mem_cons, ih htail, Prod.mk.injEq]
    by_cases hk : k = k₀
    · subst k₀
      have hno : es.lookup k ≠ some v := by
        intro h
        exact hnot (List.mem_map.2 ⟨(k, v), (ih htail).2 h, rfl⟩)
      simp [hno, eq_comm]
    · simp [hk]

end Lookup

section Modify

variable [DecidableEq κ]

def Dict.get? (d : Dict κ ν) (k : κ) : Option ν := d.entries.lookup k

def modifyEntries (k : κ) (start : ν) (f : ν → ν) : List (κ × ν) → List (κ × ν)
  | [] => [(k, f start)]
  | e :: es => if e.1 = k then (k, f e.2) :: es else e :: modifyEntries k start f es

theorem modifyEntries_keys (k : κ) (start : ν) (f : ν → ν) (es : List (κ × ν)) :
    (modifyEntries k start f es).map Prod.fst =
      if k ∈ es.map Prod.fst then es.map Prod.fst else es.map Prod.fst ++ [k] := by
  induction es with
  | nil => rfl
  | cons e es ih =>
    by_cases he : e.1 = k
    · simp [modifyEntries, he]
    · have hk : k ≠ e.1 := fun h => he h.symm
      simp only [modifyEntries, he, if_false, List.map_cons, ih, List.mem_cons, hk, false_or]
      split <;> rfl

/-- Replace the value of a key by `f` of it, beginning with `start` for a new key. -/
def Dict.modify (d : Dict κ ν) (k : κ) (start : ν) (f : ν → ν) : Dict κ ν where
  entries := modifyEntries k start f d.entries
  nodup := by
    rw [modifyEntries_keys]
    split
    · exact d.nodup
    · rename_i hk
      exact List.nodup_append.2 ⟨d.nodup, List.nodup_singleton k, fun a ha b hb hab => by
        rw [List.mem_singleton.1 hb] at hab
        exact hk (hab ▸ ha)⟩

theorem lookup_modifyEntries (k k' : κ) (start : ν) (f : ν → ν) (es : List (κ × ν)) :
    (modifyEntries k start f es).lookup k' =
      if k' = k then some (f ((es.lookup k).getD start)) else es.lookup k' := by
  induction es with
  | nil =>
    rw [modifyEntries, lookup_cons_eq]
    rfl
  | cons e es ih =>
    obtain ⟨k₀, v⟩ := e
    rw [modifyEntries]
    split
    · rename_i h₀
      obtain rfl : k₀ = k := h₀
      rw [lookup_cons_eq, lookup_cons_eq, lookup_cons_eq, if_pos rfl]
      split <;> rfl
    · rename_i h₀
      have hk : ¬ k = k₀ := fun h => h₀ h.symm
      rw [lookup_cons_eq, lookup_cons_eq, lookup_cons_eq, ih, if_neg hk]
      by_cases h : k' = k
      · subst k'
        rw [if_neg hk, if_pos rfl, if_pos rfl]
      · rw [if_neg h, if_neg h]

theorem modifyEntries_new {k : κ} (start : ν) (f : ν → ν) {es : List (κ × ν)} (hk : k ∉ es.map Prod.fst) :
    modifyEntries k start f es = es ++ [(k, f start)] := by
  induction es with
  | nil => rfl
  | cons e es ih =>
    rw [List.map_cons, List.mem_cons, not_or] at hk
    rw [modifyEntries, if_neg (Ne.symm hk.1), ih hk.2, List.cons_append]

/-- Keys that are new and distinct are put at the end, each with its own value. -/
theorem entries_foldl_new (key : β → κ) (value : β → ν) (bs : List β) (d : Dict κ ν)
    (hnew : (d.entries.map Prod.fst ++ bs.map key).Nodup) :
    (bs.foldl (fun d b => d.modify (key b) (value b) fun _ => value b) d).entries =
      d.entries ++ bs.map fun b => (key b, value b) := by
  induction bs generalizing d with
  | nil => rw [List.map_nil, List.append_nil, List.foldl_nil]
  | cons b bs ih =>
    have hkey : key b ∉ d.entries.map Prod.fst := fun hm =>
      (List.nodup_append.1 hnew).2.2 _ hm _ (List.mem_map_of_mem List.mem_cons_self) rfl
    have hentries : (d.modify (key b) (value b) fun _ => value b).entries = d.entries ++ [(key b, value b)] :=
      modifyEntries_new _ _ hkey
    rw [List.foldl_cons, ih, hentries, List.append_assoc, List.map_cons, List.singleton_append]
    rw [hentries, List.map_append, List.append_assoc]
    exact hnew

@[simp] theorem get?_empty (k : κ) : (Dict.empty : Dict κ ν).get? k = none := rfl

theorem get?_modify (d : Dict κ ν) (k k' : κ) (start : ν) (f : ν → ν) :
    (d.modify k start f).get? k' = if k' = k then some (f ((d.get? k).getD start)) else d.get? k' :=
  lookup_modifyEntries k k' start f d.entries

theorem mem_entries (d : Dict κ ν) (k : κ) (v : ν) : (k, v) ∈ d.entries ↔ d.get? k = some v :=
  mem_iff_lookup d.nodup k v

/-- Folding `modify` over a list treats every key on its own. -/
theorem get?_foldl_modify (key : β → κ) (start : ν) (g : ν → β → ν) (bs : List β) (d : Dict κ ν)
    (k : κ) :
    (bs.foldl (fun d b => d.modify (key b) start fun v => g v b) d).get? k =
      if bs.filter (key · = k) = [] then d.get? k
      else some ((bs.filter (key · = k)).foldl g ((d.get? k).getD start)) := by
  induction bs generalizing d with
  | nil => rfl
  | cons b bs ih =>
    rw [List.foldl_cons, ih, get?_modify]
    by_cases hk : key b = k
    · simp only [hk, decide_true, List.filter_cons_of_pos, List.cons_ne_nil, if_true, if_false,
        Option.getD_some, List.foldl_cons]
      split
      · rename_i hnil
        rw [hnil]
        rfl
      · rfl
    · have hk' : ¬ k = key b := fun h => hk h.symm
      simp [hk, hk']

def group (key : β → κ) (bs : List β) : Dict κ (List β) :=
  bs.foldl (fun d b => d.modify (key b) [] fun items => items ++ [b]) Dict.empty

theorem foldl_append (bs start : List β) : bs.foldl (fun items b => items ++ [b]) start = start ++ bs := by
  induction bs generalizing start with
  | nil => simp
  | cons b bs ih => rw [List.foldl_cons, ih, List.append_assoc, List.singleton_append]

theorem get?_group (key : β → κ) (bs : List β) (k : κ) :
    (group key bs).get? k =
      if bs.filter (key · = k) = [] then none else some (bs.filter (key · = k)) := by
  have h := get?_foldl_modify key [] (fun items b => items ++ [b]) bs Dict.empty k
  rw [group, h, foldl_append]
  rfl

/-- The first key of a kind is the one that was inserted first. -/
theorem find?_group (key : β → κ) (bs : List β) (p : κ → Bool) :
    ((group key bs).entries.map Prod.fst).find? p = (bs.map key).find? p := by
  have h : ∀ d : Dict κ (List β),
      ((bs.foldl (fun d b => d.modify (key b) [] fun items => items ++ [b]) d).entries.map Prod.fst).find? p =
        ((d.entries.map Prod.fst).find? p).or ((bs.map key).find? p) := by
    induction bs with
    | nil => exact fun d => Option.or_none.symm
    | cons b bs ih =>
      intro d
      have hkeys : ((d.modify (key b) [] fun items => items ++ [b]).entries.map Prod.fst).find? p =
          ((d.entries.map Prod.fst).find? p).or ([key b].find? p) := by
        change ((modifyEntries (key b) [] _ d.entries).map Prod.fst).find? p = _
        rw [modifyEntries_keys]
        split
        · rename_i hmem
          by_cases hp : p (key b) = true
          · obtain ⟨k, hk⟩ := Option.isSome_iff_exists.1 (List.find?_isSome.2 ⟨key b, hmem, hp⟩)
            rw [hk, Option.some_or]
          · rw [List.find?_singleton, if_neg hp, Option.or_none]
        · rw [List.find?_append]
      rw [List.foldl_cons, ih, hkeys, Option.or_assoc, ← List.find?_append, List.map_cons, List.singleton_append]
  rw [group, h]
  rfl

/-- Dictionaries with the same values differ in the order of their keys only. -/
theorem entries_perm {d e : Dict κ ν} (h : ∀ k, d.get? k = e.get? k) : d.entries.Perm e.entries := by
  refine (List.perm_ext_iff_of_nodup (List.Nodup.of_map _ d.nodup) (List.Nodup.of_map _ e.nodup)).2 ?_
  rintro ⟨k, v⟩
  rw [mem_entries, mem_entries, h]

end Modify

def mapEntries (f : ν → Option μ) : List (κ × ν) → Option (List (κ × μ))
  | [] => some []
  | e :: es => (f e.2).bind fun w => (mapEntries f es).map fun ws => (e.1, w) :: ws

theorem mapEntries_keys {f : ν → Option μ} {es : List (κ × ν)} {ws : List (κ × μ)}
    (h : mapEntries f es = some ws) : ws.map Prod.fst = es.map Prod.fst := by
  induction es generalizing ws with
  | nil =>
    cases h
    rfl
  | cons e es ih =>
    obtain ⟨w, -, hrest⟩ := Option.bind_eq_some_iff.1 h
    obtain ⟨vs, hvs, rfl⟩ := Option.map_eq_some_iff.1 hrest
    rw [List.map_cons, List.map_cons, ih hvs]

def Dict.mapM (f : ν → Option μ) (d : Dict κ ν) : Option (Dict κ μ) :=
  (mapEntries f d.entries).pmap (fun ws h => ⟨ws, h⟩) fun ws h => by
    rw [mapEntries_keys h]
    exact d.nodup

theorem mapM_entries {f : ν → Option μ} {d : Dict κ ν} {e : Dict κ μ} (h : d.mapM f = some e) :
    mapEntries f d.entries = some e.entries := by
  obtain ⟨ws, -, hws, rfl⟩ := Option.pmap_eq_some_iff.1 h
  exact hws

theorem mapM_keys {f : ν → Option μ} {d : Dict κ ν} {e : Dict κ μ} (h : d.mapM f = some e) :
    e.entries.map Prod.fst = d.entries.map Prod.fst :=
  mapEntries_keys (mapM_entries h)

theorem mapEntries_isSome {f : ν → Option μ} {es : List (κ × ν)} :
    (mapEntries f es).isSome = true ↔ ∀ e ∈ es, (f e.2).isSome = true := by
  induction es with
  | nil => simp [mapEntries]
  | cons e es ih =>
    rw [List.forall_mem_cons, ← ih, mapEntries]
    cases f e.2 <;> simp

theorem mapM_isSome {f : ν → Option μ} {d : Dict κ ν} :
    (d.mapM f).isSome = true ↔ ∀ e ∈ d.entries, (f e.2).isSome = true := by
  rw [← mapEntries_isSome, Dict.mapM, Option.isSome_pmap]

theorem get?_mapM [DecidableEq κ] {f : ν → Option μ} {d : Dict κ ν} {e : Dict κ μ}
    (h : d.mapM f = some e) (k : κ) : e.get? k = (d.get? k).bind f := by
  have hes := mapM_entries h
  change e.entries.lookup k = (d.entries.lookup k).bind f
  generalize e.entries = ws at hes
  generalize d.entries = es at hes
  induction es generalizing ws with
  | nil =>
    cases hes
    rfl
  | cons x es ih =>
    obtain ⟨k₀, v⟩ := x
    obtain ⟨w, hw, hrest⟩ := Option.bind_eq_some_iff.1 hes
    obtain ⟨vs, hvs, rfl⟩ := Option.map_eq_some_iff.1 hrest
    rw [lookup_cons_eq, lookup_cons_eq, ih vs hvs]
    by_cases hk : k = k₀
    · rw [if_pos hk, if_pos hk, Option.bind_some]
      exact hw.symm
    · rw [if_neg hk, if_neg hk]

end InsertionDict
