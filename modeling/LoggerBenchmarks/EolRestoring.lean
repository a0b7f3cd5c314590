import LoggerBenchmarks.InsertionDict
import LoggerBenchmarks.VendorWorld

set_option autoImplicit false

/-!
# Restoring line endings

`preserve_tracked_file_format`: every file of a staging directory whose path is
tracked in the outer repository is given the line endings the index has for it.
-/
namespace LoggerBenchmarks.EolRestoring
open PythonText PosixPaths FileTrees StatefulPrograms InsertionDict LineEndings VendorManifest VendorWorld

variable {κ γ : Type}

/-- `path.relative_to(other)`, `none` where Python raises `ValueError`. -/
def relativeTo (path other : PurePath) : Option (List Name) :=
  if path.absolute = other.absolute ∧ other.parts <+: path.parts then
    some (path.parts.drop other.parts.length)
  else none

/-- A path that is listed more than once has the class of its last line. -/
def trackedEolInfo (listing : List (Text × Text)) : Dict Text Text :=
  listing.foldl (fun info line => info.modify line.1 line.2 fun _ => line.2) Dict.empty

def queryHeadFile (c : Checkout κ γ) (pathspec : Text) : Action κ γ Bytes := do
  let n ← nextCall
  let repository ← observe World.repository
  match c.git.showHead n repository pathspec with
  | some data => pure data
  | none => raise (.process .showHead)

def stagedFile (dep : Dependency) (destination : Path) (repoPath : Text) (files : Node Bytes) :
    Option (Path × Bytes) :=
  match relativeTo (parse repoPath) dep.targetDir with
  | none => none
  | some relative =>
    match Node.stat files [] (destination ++ relative) with
    | some (place, .file data) => some (place, data)
    | _ => none

def rewriteFile (place : Path) (before after : Bytes) : Action κ γ Unit :=
  update fun w => w.edit (.rewritten place before after) (Node.replace place (some (.file after)) w.files)

def restoreEntry (c : Checkout κ γ) (dep : Dependency) (destination : Path) (entry : Text × Text) :
    Action κ γ Unit := do
  let staged ← observe fun w => stagedFile dep destination entry.1 w.files
  match staged with
  | none => pure ()
  | some (place, data) =>
    if (0 : UInt8) ∈ data then pure ()
    else if entry.2 = "lf".toList ∨ entry.2 = "crlf".toList then
      let converted := convertLineEndings data entry.2
      if converted ≠ data then rewriteFile place data converted else pure ()
    else if entry.2 ≠ "mixed".toList then pure ()
    else do
      let head ← queryHeadFile c entry.1
      if normalizeLineEndings head = normalizeLineEndings data then rewriteFile place data head else pure ()

def preserveTrackedFileFormat (c : Checkout κ γ) (dep : Dependency) (destination : Path) : Action κ γ Unit := do
  let n ← nextCall
  let repository ← observe World.repository
  match c.git.lsFiles n repository dep.targetDir with
  | none => raise (.process .lsFiles)
  | some listing => (trackedEolInfo listing).entries.forM (restoreEntry c dep destination)

theorem relativeTo_parts {path other : PurePath} {relative : List Name} (h : relativeTo path other = some relative) :
    path.parts = other.parts ++ relative := by
  unfold relativeTo at h
  split at h
  · rename_i hprefix
    obtain ⟨q, hq⟩ := hprefix.2
    rw [← Option.some.inj h, ← hq, List.drop_left]
  · cases h

theorem relativeTo_inj {path path' other : PurePath} {relative : List Name}
    (h : relativeTo path other = some relative) (h' : relativeTo path' other = some relative) : path = path' := by
  have habs : ∀ {p : PurePath}, relativeTo p other = some relative → p.absolute = other.absolute := by
    intro p hp
    unfold relativeTo at hp
    split at hp
    · rename_i hcond
      exact hcond.1
    · cases hp
  have hparts := (relativeTo_parts h).trans (relativeTo_parts h').symm
  have habsolute := (habs h).trans (habs h').symm
  cases path
  cases path'
  cases hparts
  cases habsolute
  rfl

/-- The bytes of a file of a class after its turn; `none` where `HEAD` has no such path. -/
def restoredBytes (eolClass : Text) (data : Bytes) (head : Option Bytes) : Option Bytes :=
  if (0 : UInt8) ∈ data then some data
  else if eolClass = "lf".toList ∨ eolClass = "crlf".toList then some (convertLineEndings data eolClass)
  else if eolClass ≠ "mixed".toList then some data
  else head.map fun bytes => if normalizeLineEndings bytes = normalizeLineEndings data then bytes else data

def isWritten (eolClass : Text) (data : Bytes) (head : Option Bytes) : Bool :=
  if (0 : UInt8) ∈ data then false
  else if eolClass = "lf".toList ∨ eolClass = "crlf".toList then decide (convertLineEndings data eolClass ≠ data)
  else if eolClass ≠ "mixed".toList then false
  else head.any fun bytes => decide (normalizeLineEndings bytes = normalizeLineEndings data)

def asksHead (eolClass : Text) (data : Bytes) : Bool := decide ((0 : UInt8) ∉ data ∧ eolClass = "mixed".toList)

theorem queryHeadFile_run (c : Checkout κ γ) (pathspec : Text) (w : World κ γ) :
    queryHeadFile c pathspec w =
      (match c.git.showHead w.calls w.repository pathspec with
        | some data => .ok data
        | none => .error (.process .showHead), { w with calls := w.calls + 1 }) := by
  rw [queryHeadFile, nextCall_bind, observe_bind]
  cases c.git.showHead w.calls w.repository pathspec <;> rfl

theorem restoredBytes_of_unwritten {eolClass : Text} {data after : Bytes} {head : Option Bytes}
    (h : restoredBytes eolClass data head = some after) (hw : isWritten eolClass data head = false) :
    after = data := by
  unfold restoredBytes at h
  unfold isWritten at hw
  split at h
  · exact (Option.some.inj h).symm
  · rename_i hnul
    rw [if_neg hnul] at hw
    split at h
    · rename_i hconvert
      rw [if_pos hconvert, decide_eq_false_iff_not, not_not] at hw
      exact (Option.some.inj h).symm.trans hw
    · rename_i hneither
      rw [if_neg hneither] at hw
      split at h
      · exact (Option.some.inj h).symm
      · rename_i hmixed
        obtain ⟨bytes, rfl, rfl⟩ := Option.map_eq_some_iff.1 h
        rw [if_neg hmixed, Option.any_some, decide_eq_false_iff_not] at hw
        rw [if_neg hw]

theorem restoredBytes_normalize {eolClass : Text} {data after : Bytes} {head : Option Bytes}
    (h : restoredBytes eolClass data head = some after) :
    normalizeLineEndings after = normalizeLineEndings data := by
  unfold restoredBytes at h
  split at h
  · rw [← Option.some.inj h]
  · split at h
    · rw [← Option.some.inj h, normalize_convert]
    · split at h
      · rw [← Option.some.inj h]
      · obtain ⟨bytes, -, rfl⟩ := Option.map_eq_some_iff.1 h
        split
        · assumption
        · rfl

theorem restoredBytes_eq_none {eolClass : Text} {data : Bytes} {bytes : Option Bytes} :
    restoredBytes eolClass data bytes = none ↔
      (0 : UInt8) ∉ data ∧ eolClass = "mixed".toList ∧ bytes = none := by
  have hmixed : ¬ ("mixed".toList = "lf".toList ∨ "mixed".toList = "crlf".toList) := by decide
  unfold restoredBytes
  by_cases hnul : (0 : UInt8) ∈ data
  · simp [hnul]
  · by_cases hclass : eolClass = "mixed".toList
    · rw [if_neg hnul, hclass, if_neg hmixed, if_neg (not_not.2 rfl), Option.map_eq_none_iff]
      simp [hnul]
    · rw [if_neg hnul, if_pos hclass]
      simp only [hclass, false_and, and_false, iff_false]
      split <;> simp

theorem mem_restoredBytes {eolClass : Text} {data after : Bytes} {bytes : Option Bytes}
    (h : restoredBytes eolClass data bytes = some after) : (0 : UInt8) ∈ after ↔ (0 : UInt8) ∈ data := by
  have hmem := mem_normalize (b := 0) (by decide) (by decide)
  rw [← hmem after, ← hmem data, restoredBytes_normalize h]

theorem restoreEntry_cases (c : Checkout κ γ) (dep : Dependency) (destination : Path) (entry : Text × Text)
    (w : World κ γ) :
    (stagedFile dep destination entry.1 w.files = none ∧ restoreEntry c dep destination entry w = (.ok (), w)) ∨
    ∃ place data w₁, stagedFile dep destination entry.1 w.files = some (place, data) ∧
      w₁ = { w with calls := w.calls + if asksHead entry.2 data then 1 else 0 } ∧
      ((restoredBytes entry.2 data (c.git.showHead w.calls w.repository entry.1) = none ∧
          restoreEntry c dep destination entry w = (.error (.process .showHead), w₁)) ∨
        (restoredBytes entry.2 data (c.git.showHead w.calls w.repository entry.1) = some data ∧
          isWritten entry.2 data (c.git.showHead w.calls w.repository entry.1) = false ∧
          restoreEntry c dep destination entry w = (.ok (), w₁)) ∨
        ∃ after, restoredBytes entry.2 data (c.git.showHead w.calls w.repository entry.1) = some after ∧
          isWritten entry.2 data (c.git.showHead w.calls w.repository entry.1) = true ∧
          restoreEntry c dep destination entry w =
            (.ok (), w₁.edit (.rewritten place data after) (Node.replace place (some (.file after)) w.files))) := by
  rw [restoreEntry, observe_bind]
  cases hstaged : stagedFile dep destination entry.1 w.files with
  | none => exact .inl ⟨rfl, rfl⟩
  | some found =>
    obtain ⟨place, data⟩ := found
    refine .inr ⟨place, data, _, rfl, rfl, ?_⟩
    dsimp only
    unfold restoredBytes isWritten asksHead
    by_cases hnul : (0 : UInt8) ∈ data
    · simp only [hnul, if_true, not_true_eq_false, false_and, decide_false, Bool.false_eq_true, if_false]
      exact .inr (.inl ⟨trivial, trivial, rfl⟩)
    · simp only [if_neg hnul]
      by_cases hconvert : entry.2 = "lf".toList ∨ entry.2 = "crlf".toList
      · have hmixed : entry.2 ≠ "mixed".toList := by
          rcases hconvert with h | h <;> rw [h] <;> decide
        simp only [hconvert, hnul, hmixed, if_true, and_false, decide_false, Bool.false_eq_true, if_false]
        by_cases hsame : convertLineEndings data entry.2 = data
        · rw [if_neg (not_not.2 hsame)]
          exact .inr (.inl ⟨congrArg some hsame, decide_eq_false (not_not.2 hsame), rfl⟩)
        · rw [if_pos hsame]
          exact .inr (.inr ⟨_, rfl, decide_eq_true hsame, rfl⟩)
      · simp only [if_neg hconvert]
        by_cases hmixed : entry.2 = "mixed".toList
        · simp only [if_neg (not_not.2 hmixed)]
          simp only [hnul, hmixed, not_false_eq_true, and_self, decide_true, if_true]
          have hrun := queryHeadFile_run c entry.1 w
          cases hhead : c.git.showHead w.calls w.repository entry.1 with
          | none =>
            rw [hhead] at hrun
            exact .inl ⟨rfl, error_bind hrun _⟩
          | some bytes =>
            rw [hhead] at hrun
            rw [ok_bind hrun, Option.map_some, Option.any_some]
            refine .inr ?_
            by_cases hsame : normalizeLineEndings bytes = normalizeLineEndings data
            · rw [if_pos hsame, if_pos hsame]
              exact .inr ⟨bytes, rfl, decide_eq_true hsame, rfl⟩
            · rw [if_neg hsame, if_neg hsame]
              exact .inl ⟨rfl, decide_eq_false hsame, rfl⟩
        · simp only [if_pos hmixed]
          simp only [hmixed, and_false, decide_false, Bool.false_eq_true, if_false]
          exact .inr (.inl ⟨trivial, trivial, rfl⟩)

theorem stagedFile_eq_some {dep : Dependency} {destination : Path} {repoPath : Text} {files : Node Bytes}
    {place : Path} {data : Bytes} :
    stagedFile dep destination repoPath files = some (place, data) ↔
      ∃ relative, relativeTo (parse repoPath) dep.targetDir = some relative ∧
        Node.follow files Node.maxLinks [] (destination ++ relative) = some place ∧
        Node.get place files = some (.file data) := by
  rw [stagedFile]
  cases relativeTo (parse repoPath) dep.targetDir with
  | none => simp
  | some relative =>
    dsimp only
    simp only [Option.some.injEq, exists_eq_left', ← Node.stat_eq_some]
    rcases Node.stat files [] (destination ++ relative) with _ | ⟨path, t⟩
    · simp
    · cases t <;> simp

theorem keeps_restoreEntry {I : World κ γ → Prop} (c : Checkout κ γ) {dep : Dependency} {destination : Path}
    {entry : Text × Text} (hcall : ∀ w, I w → I { w with calls := w.calls + 1 })
    (h : ∀ w place data after, stagedFile dep destination entry.1 w.files = some (place, data) →
      normalizeLineEndings after = normalizeLineEndings data → I w →
      I (w.edit (.rewritten place data after) (Node.replace place (some (.file after)) w.files))) :
    Keeps I (restoreEntry c dep destination entry) := by
  intro w hw
  rcases restoreEntry_cases c dep destination entry w with
    ⟨-, hrun⟩ | ⟨place, data, w₁, hstaged, hw₁, hrun⟩
  · rw [hrun]
    exact hw
  · have hfiles : w₁.files = w.files := by rw [hw₁]
    have hI : I w₁ := by
      rw [hw₁]
      cases asksHead entry.2 data
      · exact hw
      · exact hcall w hw
    rcases hrun with ⟨-, hrun⟩ | ⟨-, -, hrun⟩ | ⟨after, hafter, -, hrun⟩
    · rw [hrun]
      exact hI
    · rw [hrun]
      exact hI
    · rw [hrun, ← hfiles]
      rw [← hfiles] at hstaged
      exact h w₁ place data after hstaged (restoredBytes_normalize hafter) hI

theorem trackedEolInfo_get? (listing : List (Text × Text)) (repoPath : Text) :
    (trackedEolInfo listing).get? repoPath = ((listing.filter (·.1 = repoPath)).getLast?.map Prod.snd) := by
  have h : ∀ (lines : List (Text × Text)) (info : Dict Text Text),
      (lines.foldl (fun info line => info.modify line.1 line.2 fun _ => line.2) info).get? repoPath =
        ((lines.filter (·.1 = repoPath)).getLast?.map Prod.snd).or (info.get? repoPath) := by
    intro lines
    induction lines with
    | nil => exact fun info => rfl
    | cons line lines ih =>
      intro info
      rw [List.foldl_cons, ih, get?_modify]
      by_cases hline : line.1 = repoPath
      · rw [if_pos hline.symm, List.filter_cons_of_pos (by simpa using hline), List.getLast?_cons]
        cases (lines.filter (·.1 = repoPath)).getLast? <;> rfl
      · rw [if_neg (Ne.symm hline), List.filter_cons_of_neg (by simpa using hline)]
  rw [trackedEolInfo, h, get?_empty, Option.or_none]

theorem mem_listing_of_mem_entries {listing : List (Text × Text)} {entry : Text × Text}
    (h : entry ∈ (trackedEolInfo listing).entries) : entry ∈ listing := by
  have hget := (mem_entries _ entry.1 entry.2).1 h
  rw [trackedEolInfo_get?] at hget
  obtain ⟨line, hline, hsnd⟩ := Option.map_eq_some_iff.1 hget
  obtain ⟨hmem, hfst⟩ := List.mem_filter.1 (List.mem_of_getLast? hline)
  have heq : line = entry := Prod.ext (by simpa using hfst) hsnd
  exact heq ▸ hmem

end LoggerBenchmarks.EolRestoring
