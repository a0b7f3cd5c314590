import LoggerBenchmarks.PosixPaths
import Mathlib.Data.List.Forall2
import Mathlib.Data.List.Nodup

set_option autoImplicit false

/-!
# The vendor manifest

`vendor_manifest.json` as `update_vendor.py` keeps it in memory, and the selection
of dependencies from the command line. The keys the program does not know are
carried along as they are.
-/
namespace LoggerBenchmarks.VendorManifest
open PythonText PosixPaths

structure Entry where
  name : Text
  repoUrl : Text
  ref : Text
  targetDir : Text
  skipUpdate : Bool
  updateBranch : Option Text
  otherKeys : List (Text × Text)
  deriving DecidableEq

structure RawManifest where
  dependencies : List Entry
  otherKeys : List (Text × Text)
  deriving DecidableEq

structure Dependency where
  name : Text
  repoUrl : Text
  ref : Text
  targetDir : PurePath
  skipUpdate : Bool
  updateBranch : Option Text
  deriving DecidableEq

def dependencyOf (entry : Entry) : Dependency where
  name := entry.name
  repoUrl := entry.repoUrl
  ref := entry.ref
  targetDir := parse entry.targetDir
  skipUpdate := entry.skipUpdate
  updateBranch := entry.updateBranch

def loadManifest (raw : RawManifest) : List Dependency := raw.dependencies.map dependencyOf

def updateRef (name resolved : Text) : List Entry → Option (List Entry)
  | [] => none
  | e :: es =>
    if e.name = name then some ({ e with ref := resolved } :: es) else (updateRef name resolved es).map (e :: ·)

/-- `none` where no entry has the name. -/
def updateManifestRef (raw : RawManifest) (name resolved : Text) : Option RawManifest :=
  (updateRef name resolved raw.dependencies).map fun es => { raw with dependencies := es }

inductive Selection where
  | combined
  | nothing
  | unknown (names : List Text)
  | selected (dependencies : List Dependency)

/-- Of several dependencies with one name the last is in the map. -/
def lookupDependency (all : List Dependency) (name : Text) : Option Dependency :=
  all.reverse.find? fun d => d.name = name

def selectDependencies (all : List Dependency) (names : List Text) (allFlag : Bool) : Selection :=
  if allFlag then if names = [] then .selected all else .combined
  else if names = [] then .nothing
  else
    let missing := names.filter fun name => (lookupDependency all name).isNone
    if missing = [] then .selected (names.filterMap (lookupDependency all))
    else .unknown (missing.mergeSort textLe)

def lastIndex (name : Text) : List Entry → Option ℕ
  | [] => none
  | e :: es => ((lastIndex name es).map (· + 1)).or (if e.name = name then some 0 else none)

/-- The positions of the selected entries, in the order in which they are handled. -/
def selectedIndices (raw : RawManifest) (names : List Text) (allFlag : Bool) : List ℕ :=
  if allFlag then List.range raw.dependencies.length
  else names.filterMap fun name => lastIndex name raw.dependencies

def IsAt (raw : RawManifest) (i : ℕ) (dep : Dependency) : Prop :=
  ∃ e, raw.dependencies[i]? = some e ∧ dep = dependencyOf e

theorem getElem?_lastIndex {es : List Entry} {name : Text} {i : ℕ} (h : lastIndex name es = some i) :
    ∃ e, es[i]? = some e := by
  induction es generalizing i with
  | nil => cases h
  | cons e es ih =>
    rw [lastIndex] at h
    cases hlast : lastIndex name es with
    | none =>
      rw [hlast] at h
      split at h
      · cases h
        exact ⟨e, rfl⟩
      · cases h
    | some k =>
      rw [hlast] at h
      cases h
      exact ih hlast

theorem find?_lastIndex (es : List Entry) (name : Text) :
    ((es.map dependencyOf).reverse.find? fun d => d.name = name) =
      (lastIndex name es).bind fun i => es[i]?.map dependencyOf := by
  induction es with
  | nil => rfl
  | cons e es ih =>
    rw [List.map_cons, List.reverse_cons, List.find?_append, ih, lastIndex]
    cases hlast : lastIndex name es with
    | none =>
      by_cases he : e.name = name
      · simp [he, dependencyOf]
      · simp [he, dependencyOf]
    | some i =>
      obtain ⟨d, hd⟩ := getElem?_lastIndex hlast
      rw [Option.bind_some, Option.map_some, Option.some_or, Option.bind_some, List.getElem?_cons_succ, hd]
      rfl

theorem forall₂_range (raw : RawManifest) :
    List.Forall₂ (IsAt raw) (List.range raw.dependencies.length) (loadManifest raw) := by
  rw [List.forall₂_iff_get]
  refine ⟨by rw [List.length_range, loadManifest, List.length_map], fun i hi hi' => ?_⟩
  have hlt : i < raw.dependencies.length := by rwa [List.length_range] at hi
  refine ⟨raw.dependencies[i], ?_, ?_⟩
  · simp [List.getElem?_eq_getElem hlt]
  · simp [loadManifest]

theorem forall₂_filterMap (raw : RawManifest) (names : List Text) :
    List.Forall₂ (IsAt raw) (names.filterMap fun name => lastIndex name raw.dependencies)
      (names.filterMap (lookupDependency (loadManifest raw))) := by
  induction names with
  | nil => exact .nil
  | cons name names ih =>
    have hfind : lookupDependency (loadManifest raw) name =
        (lastIndex name raw.dependencies).bind fun i => raw.dependencies[i]?.map dependencyOf :=
      find?_lastIndex raw.dependencies name
    rw [List.filterMap_cons, List.filterMap_cons, hfind]
    cases hlast : lastIndex name raw.dependencies with
    | none => exact ih
    | some i =>
      obtain ⟨e, he⟩ := getElem?_lastIndex hlast
      rw [Option.bind_some, he]
      exact .cons ⟨e, he, rfl⟩ ih

theorem selected_isAt {raw : RawManifest} {names : List Text} {allFlag : Bool} {dependencies : List Dependency}
    (h : selectDependencies (loadManifest raw) names allFlag = .selected dependencies) :
    List.Forall₂ (IsAt raw) (selectedIndices raw names allFlag) dependencies := by
  unfold selectDependencies at h
  unfold selectedIndices
  split at h
  · rename_i hall
    rw [if_pos hall]
    split at h
    · cases h
      exact forall₂_range raw
    · cases h
  · rename_i hall
    rw [if_neg hall]
    split at h
    · cases h
    · dsimp only at h
      split at h
      · cases h
        exact forall₂_filterMap raw names
      · cases h

/-- The first entry of a name is the one that is rewritten. -/
theorem updateRef_first {es : List Entry} {i : ℕ} {e : Entry} (he : es[i]? = some e)
    (hfirst : ∀ j < i, ∀ d, es[j]? = some d → d.name ≠ e.name) (resolved : Text) :
    updateRef e.name resolved es = some (es.modify i fun d => { d with ref := resolved }) := by
  induction es generalizing i with
  | nil => simp at he
  | cons d es ih =>
    cases i with
    | zero =>
      obtain rfl : d = e := by simpa using he
      rw [updateRef, if_pos rfl, List.modify_zero_cons]
    | succ i =>
      have hd : d.name ≠ e.name := hfirst 0 (Nat.succ_pos i) d rfl
      rw [List.getElem?_cons_succ] at he
      rw [updateRef, if_neg hd, ih he fun j hj d' hd' => hfirst (j + 1) (Nat.succ_lt_succ hj) d' hd',
        Option.map_some, List.modify_succ_cons]

/-- Of every name the first entry is found as before, with the new ref if it is the one looked for. -/
theorem find?_updateRef {es es' : List Entry} {name resolved : Text} (h : updateRef name resolved es = some es')
    (other : Text) : (es'.find? fun e => e.name = other) =
      (es.find? fun e => e.name = other).map fun e => if e.name = name then { e with ref := resolved } else e := by
  induction es generalizing es' with
  | nil => cases h
  | cons d es ih =>
    rw [updateRef] at h
    by_cases hd : d.name = name
    · rw [if_pos hd] at h
      obtain rfl := Option.some.inj h
      by_cases hother : d.name = other
      · simp [hother, ← hd]
      · rw [List.find?_cons_of_neg (by simpa using hother), List.find?_cons_of_neg (by simpa using hother)]
        cases hfind : es.find? fun e => e.name = other with
        | none => rfl
        | some e =>
          have he : e.name = other := by simpa using List.find?_some hfind
          rw [Option.map_some, if_neg fun heq => hother (hd.trans (heq.symm.trans he))]
    · rw [if_neg hd] at h
      obtain ⟨ds, hds, rfl⟩ := Option.map_eq_some_iff.1 h
      by_cases hother : d.name = other
      · subst hother
        rw [List.find?_cons_of_pos (by simp), List.find?_cons_of_pos (by simp), Option.map_some, if_neg hd]
      · rw [List.find?_cons_of_neg (by simpa using hother), List.find?_cons_of_neg (by simpa using hother), ih hds]

theorem exists_updateRef {es : List Entry} {e : Entry} (he : e ∈ es) (resolved : Text) :
    ∃ es', updateRef e.name resolved es = some es' := by
  induction es with
  | nil => exact absurd he List.not_mem_nil
  | cons d es ih =>
    rw [updateRef]
    by_cases hd : d.name = e.name
    · exact ⟨_, if_pos hd⟩
    · have hmem : e ∈ es := (List.mem_cons.1 he).resolve_left fun heq => hd (heq ▸ rfl)
      obtain ⟨ds, hds⟩ := ih hmem
      exact ⟨_, by rw [if_neg hd, hds, Option.map_some]⟩

theorem exists_entry_of_selected {raw : RawManifest} {names : List Text} {allFlag : Bool}
    {dependencies : List Dependency}
    (h : selectDependencies (loadManifest raw) names allFlag = .selected dependencies) {dep : Dependency}
    (hdep : dep ∈ dependencies) : ∃ e ∈ raw.dependencies, dep = dependencyOf e := by
  obtain ⟨k, hk, rfl⟩ := List.getElem_of_mem hdep
  have hat := selected_isAt h
  have hlen := hat.length_eq
  obtain ⟨e, he, heq⟩ := hat.get (hlen ▸ hk) hk
  exact ⟨e, List.mem_of_getElem? he, heq⟩

theorem selected_nodup {raw : RawManifest} {names : List Text} {allFlag : Bool} {dependencies : List Dependency}
    (hentries : (raw.dependencies.map Entry.name).Nodup) (hnames : names.Nodup)
    (h : selectDependencies (loadManifest raw) names allFlag = .selected dependencies) : dependencies.Nodup := by
  unfold selectDependencies at h
  split at h
  · split at h
    · cases h
      refine List.Nodup.of_map Dependency.name ?_
      rwa [loadManifest, List.map_map]
    · cases h
  · split at h
    · cases h
    · dsimp only at h
      split at h
      · cases h
        refine List.Nodup.filterMap ?_ hnames
        intro a b d ha hb
        have hda : d.name = a := by simpa using List.find?_some ha
        have hdb : d.name = b := by simpa using List.find?_some hb
        exact hda.symm.trans hdb
      · cases h

end LoggerBenchmarks.VendorManifest
