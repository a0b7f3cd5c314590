import LoggerBenchmarks.StagingRuns

set_option autoImplicit false

/-!
# Synchronising after an interruption

Whatever earlier runs have left at the target and in its staging directories, a run
that ends leaves the tree it would leave if nothing had stood there.
-/
namespace LoggerBenchmarks.SyncRecovery
open PythonText PosixPaths FileTrees GlobPatterns StatefulPrograms LineEndings VendorManifest VendorWorld
open VendorStaging StagedTree StagingRuns

variable {κ γ : Type} {target : Path}

def isOwn (target : Path) (n : Name) : Bool := n = nameOf target || (stagingName (nameOf target) []).isPrefixOf n

def removeAll (parent : Path) (names : List Name) (files : Node Bytes) : Node Bytes :=
  names.foldl (fun t n => Node.replace (parent ++ [n]) none t) files

/-- The same files without the target and its staging directories. -/
def cleared (target : Path) (files : Node Bytes) : Node Bytes :=
  removeAll target.dropLast (((Node.get target.dropLast files).elim [] Node.names).filter (isOwn target)) files

theorem isOwn_iff {n : Name} : isOwn target n = true ↔
    n = nameOf target ∨ ∃ suffix, n = stagingName (nameOf target) suffix := by
  have hprefix : (stagingName (nameOf target) []).isPrefixOf n = true ↔
      ∃ suffix, n = stagingName (nameOf target) suffix := by
    rw [List.isPrefixOf_iff_prefix]
    constructor
    · rintro ⟨suffix, rfl⟩
      exact ⟨suffix, by simp [stagingName]⟩
    · rintro ⟨suffix, rfl⟩
      exact ⟨suffix, by simp [stagingName]⟩
  rw [isOwn, Bool.or_eq_true, decide_eq_true_iff, hprefix]

theorem get_removeAll (parent : Path) (names : List Name) (files : Node Bytes) (n : Name) :
    Node.get (parent ++ [n]) (removeAll parent names files) =
      if n ∈ names then none else Node.get (parent ++ [n]) files := by
  induction names generalizing files with
  | nil => rfl
  | cons m names ih =>
    rw [removeAll, List.foldl_cons, ← removeAll, ih]
    by_cases hmem : n ∈ names
    · rw [if_pos hmem, if_pos (List.mem_cons_of_mem m hmem)]
    · rw [if_neg hmem]
      by_cases hnm : n = m
      · rw [if_pos (List.mem_cons.2 (.inl hnm)), hnm]
        exact Node.get_removed (List.append_ne_nil_of_right_ne_nil parent (List.cons_ne_nil m [])) files
      · rw [if_neg fun h => (List.mem_cons.1 h).elim hnm hmem]
        exact Node.get_replace_apart (Node.apart_siblings (Ne.symm hnm)) none files

theorem alike_removeAll {names : List Name} (h : ∀ n ∈ names, Reserved target n) (files : Node Bytes) :
    Alike target files (removeAll target.dropLast names files) := by
  induction names generalizing files with
  | nil => exact alike_refl target files
  | cons m names ih =>
    rw [removeAll, List.foldl_cons, ← removeAll]
    exact (alike_replace (h m List.mem_cons_self) [] none).trans
      (ih (fun n hn => h n (List.mem_cons_of_mem m hn)) _)

theorem reserved_of_isOwn {n : Name} (h : isOwn target n = true) : Reserved target n := by
  rcases isOwn_iff.1 h with rfl | hstaging
  · exact .inl rfl
  · exact .inr (.inr hstaging)

theorem alike_cleared (files : Node Bytes) : Alike target files (cleared target files) :=
  alike_removeAll (fun _ hn => reserved_of_isOwn (List.mem_filter.1 hn).2) files

theorem get_cleared {n : Name} (h : isOwn target n = true) (files : Node Bytes) :
    Node.get (target.dropLast ++ [n]) (cleared target files) = none := by
  rw [cleared, get_removeAll]
  by_cases hmem : n ∈ ((Node.get target.dropLast files).elim [] Node.names).filter (isOwn target)
  · rw [if_pos hmem]
  · rw [if_neg hmem, Node.get_append]
    cases hparent : Node.get target.dropLast files with
    | none => rfl
    | some d =>
      have hname : n ∉ d.names := by
        rw [hparent] at hmem
        exact fun hn => hmem (List.mem_filter.2 ⟨hn, h⟩)
      rw [Node.mem_names, Option.not_isSome_iff_eq_none] at hname
      rw [Option.bind_some, Node.get_cons, hname, Option.bind_none]

theorem openTo_alike {files files' : Node Bytes} (h : OpenTo target.dropLast files) (halike : Alike target files files') :
    OpenTo target.dropLast files' := by
  intro q hq
  rcases (halike q (not_inZone_above hq)).2 with hsame | ⟨-, -, hdir⟩
  · rw [hsame]
    exact h q hq
  · exact .inr hdir

/-- In the cleared world nothing stands in the way. -/
theorem clear_cleared (htarget : target ≠ []) {files : Node Bytes} (hopen : OpenTo target.dropLast files) :
    Clear target (cleared target files) where
  parent := openTo_alike hopen (alike_cleared files)
  missing := by
    have hnone := get_cleared (n := nameOf target) (isOwn_iff.2 (.inl rfl)) files
    rwa [dropLast_append_nameOf htarget] at hnone
  staging suffix := get_cleared (isOwn_iff.2 (.inr ⟨suffix, rfl⟩)) files

variable {c : Checkout κ γ} {dep : Dependency} {commit : Text} {applyLocalPatches : Bool} {w w' : World κ γ}

def clearedWorld (target : Path) (w : World κ γ) : World κ γ := { w with files := cleared target w.files }

/-- The run leaves the tree that a run with neither the old target nor any staging
directory leaves, which is the fresh one, and no staging directory. -/
def Recovers (c : Checkout κ γ) (dep : Dependency) (commit : Text) (applyLocalPatches : Bool) (w w' : World κ γ) : Prop :=
  NoStaging (targetPath c.root dep) w'.files ∧
    ∃ x w₀, freshFor c dep commit applyLocalPatches w = some x ∧
      Node.get (targetPath c.root dep) w'.files = some x.1 ∧
      syncDependency c dep commit applyLocalPatches (clearedWorld (targetPath c.root dep) w) = (.ok (), w₀) ∧
      Node.get (targetPath c.root dep) w₀.files = some x.1

theorem recovers (hpattern : LiteralPattern (targetPath c.root dep))
    (hpatches : applyLocalPatches = true → PatchesFixed c.root dep (targetPath c.root dep) w.files)
    (hplain : PlainlyStaged c dep commit applyLocalPatches w)
    (hrun : syncDependency c dep commit applyLocalPatches w = (.ok (), w')) :
    Recovers c dep commit applyLocalPatches w w' := by
  obtain ⟨hroot, hne, hopen, happliable, hnone, x, hx, htree⟩ := syncDependency_ok hpatches hplain hrun
  have halike : Alike (targetPath c.root dep) w.files (clearedWorld (targetPath c.root dep) w).files :=
    alike_cleared w.files
  have hfixed : applyLocalPatches = true →
      PatchesFixed c.root dep (targetPath c.root dep) (clearedWorld (targetPath c.root dep) w).files := by
    intro hflag files' halike'
    exact (hpatches hflag files' (halike.trans halike')).trans (hpatches hflag _ halike).symm
  have happlied : appliedPatches c.root dep applyLocalPatches (clearedWorld (targetPath c.root dep) w).files =
      appliedPatches c.root dep applyLocalPatches w.files := by
    unfold appliedPatches
    by_cases hflag : applyLocalPatches = true
    · rw [hpatches hflag _ halike]
    · rw [if_neg hflag, if_neg hflag]
  have hx₀ : freshFor c dep commit applyLocalPatches (clearedWorld (targetPath c.root dep) w) = some x := by
    rw [freshFor, happlied]
    exact hx
  have hplain₀ : PlainlyStaged c dep commit applyLocalPatches (clearedWorld (targetPath c.root dep) w) := by
    unfold PlainlyStaged
    rw [happlied]
    exact hplain
  have happliable₀ : Appliable c.root (stagingPath (targetPath c.root dep) c.pid) applyLocalPatches
      (recordedPatches c.root dep (clearedWorld (targetPath c.root dep) w).files) := by
    intro hflag hsome
    rw [hpatches hflag _ halike] at hsome
    exact happliable hflag hsome
  obtain ⟨w₀, hrun₀⟩ := syncDependency_of_clear hroot hne hpattern hfixed happliable₀ hplain₀
    (clear_cleared hne hopen) hx₀
  obtain ⟨-, -, -, -, -, y, hy, htree₀⟩ := syncDependency_ok hfixed hplain₀ hrun₀
  rw [hx₀] at hy
  obtain rfl := Option.some.inj hy
  exact ⟨hnone hpattern, x, w₀, hx, htree, hrun₀, htree₀⟩

theorem literalPattern_of_literal (h : IsLiteral (nameOf target)) : LiteralPattern target := by
  intro n
  have hmid : IsLiteral ".vendor-staging-".toList := ⟨by decide, by decide, by decide⟩
  have hfront : IsLiteral (stagingName (nameOf target) []) := by
    simp only [IsLiteral, stagingName, List.append_nil, List.mem_cons, List.mem_append, not_or] at h hmid ⊢
    exact ⟨⟨by decide, h.1, hmid.1⟩, ⟨by decide, h.2.1, hmid.2.1⟩, ⟨by decide, h.2.2, hmid.2.2⟩⟩
  have hsplit : stagingName (nameOf target) ['*'] = stagingName (nameOf target) [] ++ ['*'] := by
    simp [stagingName]
  rw [hsplit, fnmatch_literal_star hfront]
  constructor
  · rintro ⟨suffix, rfl⟩
    exact ⟨suffix, by simp [stagingName]⟩
  · rintro ⟨suffix, rfl⟩
    exact ⟨suffix, by simp [stagingName]⟩

/-- The target's name is a character class, and an earlier process has left a staging directory. -/
def interruptedWorld (name : Name) : World Unit Unit where
  files := .dir [("r".toList, .dir [('.' :: (name ++ ".vendor-staging-7".toList), .dir [("old".toList, .file [120, 10])])])]
  caches _ := none
  repository := ()
  manifest := ⟨[], []⟩
  calls := 0
  log := []

def recoveryCheckout : Checkout Unit Unit where
  root := ["r".toList]
  pid := 1
  git := { idleGit with tar := fun _ _ _ => (.dir [("a".toList, .file [121, 10])], true) }
  dumps _ := []

def dependencyAt (target : String) : Dependency := ⟨"d".toList, [], [], parse target.toList, false, none⟩

theorem staging_left :
    (syncDependency recoveryCheckout (dependencyAt "[ab]") [] true (interruptedWorld "[ab]".toList)).1 = .ok () ∧
      ¬ Recovers recoveryCheckout (dependencyAt "[ab]") [] true (interruptedWorld "[ab]".toList)
        (syncDependency recoveryCheckout (dependencyAt "[ab]") [] true (interruptedWorld "[ab]".toList)).2 := by
  refine ⟨by decide +kernel, fun h => ?_⟩
  have hthere : (Node.get ["r".toList, ".[ab].vendor-staging-7".toList]
      (syncDependency recoveryCheckout (dependencyAt "[ab]") [] true (interruptedWorld "[ab]".toList)).2.files).any
        Node.isDirectory = true := by decide +kernel
  obtain ⟨d, hd, hdir⟩ := (Option.any_eq_true _ _).1 hthere
  cases d with
  | file data => cases hdir
  | link t => cases hdir
  | dir cs => exact h.1 "7".toList cs hd

theorem not_inZone_patches : ¬ InZone ["r".toList, "d".toList] ["r".toList, "vendor_patches".toList] := by
  rintro ⟨n, hn, hle⟩
  obtain rfl : n = "vendor_patches".toList := by simpa using hle
  rcases hn with hname | hmatch | ⟨suffix, hsuffix⟩
  · exact absurd hname (by decide +kernel)
  · exact absurd hmatch (by decide +kernel)
  · have hhead : some 'v' = some '.' := congrArg List.head? hsuffix
    exact absurd hhead (by decide)

theorem patchesFixed_interrupted :
    PatchesFixed ["r".toList] (dependencyAt "d") ["r".toList, "d".toList] (interruptedWorld "d".toList).files := by
  refine patchesFixed_of_missing (p := ["r".toList, "vendor_patches".toList]) (by decide +kernel) (by decide +kernel)
    not_inZone_patches (by decide +kernel) ?_ rfl
  have hparent : OpenTo ["r".toList] (interruptedWorld "d".toList).files := openTo_of_get rfl
  exact hparent.concat (.inl rfl)

theorem recovers_interrupted :
    Recovers recoveryCheckout (dependencyAt "d") [] true (interruptedWorld "d".toList)
      (syncDependency recoveryCheckout (dependencyAt "d") [] true (interruptedWorld "d".toList)).2 := by
  refine recovers (literalPattern_of_literal ⟨by decide +kernel, by decide +kernel, by decide +kernel⟩)
    (fun _ => patchesFixed_interrupted) ?_ ?_
  · intro x y _ _ n listing hlist e he
    rw [← Option.some.inj hlist] at he
    cases he
  · exact Prod.ext (by decide +kernel) rfl

end LoggerBenchmarks.SyncRecovery
