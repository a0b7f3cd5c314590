import LoggerBenchmarks.EolRestoring
import LoggerBenchmarks.GlobPatterns
import Mathlib.Data.List.Sort

set_option autoImplicit false

/-!
# Replacing one vendored tree

`sync_dependency`: the commit is exported into a staging directory beside the
target, patched and given its line endings there, and then takes the target's place.
The target directory is resolved without links.
-/
namespace LoggerBenchmarks.VendorStaging
open PythonText PosixPaths FileTrees GlobPatterns StatefulPrograms LineEndings VendorManifest VendorWorld
open EolRestoring

variable {κ γ : Type}

/-- `(root / dep.target_dir).resolve()` -/
def targetPath (root : Path) (dep : Dependency) : Path := resolve (PurePath.join ⟨true, root⟩ dep.targetDir).parts

def nameOf (path : Path) : Name := path.getLast?.getD []

def stagingName (name suffix : Name) : Name := '.' :: (name ++ (".vendor-staging-".toList ++ suffix))

def stagingPath (target : Path) (pid : ℕ) : Path := target.dropLast ++ [stagingName (nameOf target) (str pid)]

/-- `cache_root() / dep.name` -/
def cachePath (root : Path) (dep : Dependency) : Path :=
  resolve (PurePath.join ⟨true, root ++ [".vendor-cache".toList]⟩ (parse dep.name)).parts

/-- `patches_root() / dep.name` -/
def patchesPath (root : Path) (dep : Dependency) : Path :=
  (PurePath.join ⟨true, root ++ ["vendor_patches".toList]⟩ (parse dep.name)).parts

/-- `target_dir.parent.glob(f".{target_dir.name}.vendor-staging-*")` -/
def staleStagingNames (target : Path) (files : Node Bytes) : List Name :=
  ((Node.get target.dropLast files).elim [] Node.names).filter fun n => fnmatch n (stagingName (nameOf target) ['*'])

def removeStale (target : Path) : Action κ γ Unit := do
  let names ← observe fun w => staleStagingNames target w.files
  names.forM fun n => do
    let files ← observe World.files
    if isDir files (target.dropLast ++ [n]) then rmtree (target.dropLast ++ [n]) else pure ()

def removeIfExists (path : Path) : Action κ γ Unit := do
  let files ← observe World.files
  if pathExists files path then rmtree path else pure ()

/-- Both ends of the pipe are waited for; the archive's status is looked at last. -/
def exportRef (c : Checkout κ γ) (cache : Option κ) (commit : Text) (destination : Path) : Action κ γ Unit := do
  mkdirs destination
  let n ← nextCall
  let archive := c.git.archive n cache commit
  let m ← nextCall
  let extracted ← workIn destination (.extracted destination commit) (c.git.tar m archive.1)
  check .archive archive.2
  check .tar extracted

def patchNames (directory : Node Bytes) : List Name :=
  (directory.names.filter fun n => fnmatch n "*.patch".toList).insertionSort fun a b => textLe a b = true

def bytesAt (files : Node Bytes) (path : Path) : Option Bytes :=
  match Node.stat files [] path with
  | some (_, .file data) => some data
  | _ => none

def applyPatch (c : Checkout κ γ) (destination patch : Path) : Action κ γ Unit := do
  let files ← observe World.files
  let n ← nextCall
  let applied ← workIn destination (.filled destination) (c.git.apply n (bytesAt files patch))
  check .apply applied

def applyPatches (c : Checkout κ γ) (dep : Dependency) (destination : Path) : Action κ γ Unit := do
  let found ← observe fun w => Node.stat w.files [] (patchesPath c.root dep)
  match found with
  | none => pure ()
  | some (_, directory) =>
    if c.root <+: destination then
      (patchNames directory).forM fun n => applyPatch c destination (patchesPath c.root dep ++ [n])
    else raise .value

/-- Everything up to the point at which the old target is removed. -/
def prepareStaging (c : Checkout κ γ) (dep : Dependency) (commit : Text) (applyLocalPatches : Bool)
    (target : Path) : Action κ γ Unit := do
  removeStale target
  removeIfExists (stagingPath target c.pid)
  let cache ← observe fun w => w.caches (cachePath c.root dep)
  exportRef c cache commit (stagingPath target c.pid)
  (if applyLocalPatches then applyPatches c dep (stagingPath target c.pid) else pure ())
  preserveTrackedFileFormat c dep (stagingPath target c.pid)

def replaceTarget (target staging : Path) : Action κ γ Unit := do
  removeIfExists target
  rename staging target

def syncDependency (c : Checkout κ γ) (dep : Dependency) (commit : Text) (applyLocalPatches : Bool) :
    Action κ γ Unit :=
  if c.root <+: targetPath c.root dep then do
    prepareStaging c dep commit applyLocalPatches (targetPath c.root dep)
    replaceTarget (targetPath c.root dep) (stagingPath (targetPath c.root dep) c.pid)
  else raise .runtime

theorem dropLast_append_nameOf {target : Path} (h : target ≠ []) : target.dropLast ++ [nameOf target] = target := by
  rw [nameOf, List.getLast?_eq_some_getLast h, Option.getD_some, List.dropLast_append_getLast]

theorem stagingName_ne_self (name suffix : Name) : stagingName name suffix ≠ name := by
  intro h
  have hlen := congrArg List.length h
  rw [stagingName, List.length_cons, List.length_append] at hlen
  omega

theorem target_apart_staging {target : Path} (h : target ≠ []) (pid : ℕ) :
    Node.Apart target (stagingPath target pid) := by
  have hsibling := Node.apart_siblings (p := target.dropLast) (stagingName_ne_self (nameOf target) (str pid)).symm
  rwa [dropLast_append_nameOf h] at hsibling

theorem stagingName_ne_dotDot (name suffix : Name) : stagingName name suffix ≠ dotDot := by
  intro h
  have hlen := congrArg List.length h
  rw [stagingName, List.length_cons, List.length_append, List.length_append] at hlen
  have hpart : ".vendor-staging-".toList.length = 16 := by decide
  have hdots : dotDot.length = 2 := rfl
  omega

theorem dotDot_not_mem_stagingPath {target : Path} (h : dotDot ∉ target) (pid : ℕ) :
    dotDot ∉ stagingPath target pid := by
  intro hm
  rcases List.mem_append.1 hm with hm | hm
  · exact h (List.mem_of_mem_dropLast hm)
  · exact stagingName_ne_dotDot _ _ (List.mem_singleton.1 hm).symm

/-- The path is in a listing git may print for the dependency. -/
def Tracked (c : Checkout κ γ) (dep : Dependency) (repoPath : Text) : Prop :=
  ∃ n repository listing eolClass, c.git.lsFiles n repository dep.targetDir = some listing ∧
    (repoPath, eolClass) ∈ listing

/-- The changes made before the line endings are restored. -/
structure StagingEdits (c : Checkout κ γ) (target : Path) (I : World κ γ → Prop) : Prop where
  called : ∀ w, I w → I { w with calls := w.calls + 1 }
  removed : ∀ w d n, fnmatch n (stagingName (nameOf target) ['*']) = true ∨
      n = stagingName (nameOf target) (str c.pid) →
    Node.get (target.dropLast ++ [n]) w.files = some d → d.isDirectory = true → I w →
    I (w.edit (.removed (target.dropLast ++ [n])) (Node.replace (target.dropLast ++ [n]) none w.files))
  created : ∀ w q, q <+: stagingPath target c.pid → q ≠ [] → Node.get q w.files = none → I w →
    I (w.edit (.created q) (Node.replace q (some (.dir [])) w.files))
  extracted : ∀ w d n stream commit, Node.get (stagingPath target c.pid) w.files = some d → I w →
    I (w.edit (.extracted (stagingPath target c.pid) commit)
      (Node.replace (stagingPath target c.pid) (some (c.git.tar n stream d).1) w.files))
  patched : ∀ w d n patch, Node.get (stagingPath target c.pid) w.files = some d → I w →
    I (w.edit (.filled (stagingPath target c.pid))
      (Node.replace (stagingPath target c.pid) (some (c.git.apply n patch d).1) w.files))

structure Unharmed (c : Checkout κ γ) (dep : Dependency) (target : Path) (I : World κ γ → Prop) : Prop
    extends StagingEdits c target I where
  rewritten : ∀ w repoPath place data after, Tracked c dep repoPath →
    stagedFile dep (stagingPath target c.pid) repoPath w.files = some (place, data) →
    normalizeLineEndings after = normalizeLineEndings data → I w →
    I (w.edit (.rewritten place data after) (Node.replace place (some (.file after)) w.files))

section Keeps

variable {c : Checkout κ γ} {dep : Dependency} {commit : Text} {applyLocalPatches : Bool} {target : Path}
  {I : World κ γ → Prop}

theorem keeps_removeIfExists {path : Path}
    (h : ∀ w d, Node.get path w.files = some d → d.isDirectory = true → I w →
      I (w.edit (.removed path) (Node.replace path none w.files))) :
    Keeps I (removeIfExists path : Action κ γ Unit) :=
  keeps_bind (keeps_observe _) fun _ => keeps_ite (fun _ => keeps_rmtree h) fun _ => keeps_pure _

theorem keeps_removeStale (h : ∀ w d n, fnmatch n (stagingName (nameOf target) ['*']) = true →
      Node.get (target.dropLast ++ [n]) w.files = some d → d.isDirectory = true → I w →
      I (w.edit (.removed (target.dropLast ++ [n])) (Node.replace (target.dropLast ++ [n]) none w.files))) :
    Keeps I (removeStale target : Action κ γ Unit) := by
  refine keeps_bind_observe fun w hw => ?_
  refine triple_weaken (keeps_forM (I := I) fun n hn => ?_) (fun s hs => hs ▸ hw) (fun _ _ hs => hs) fun _ _ hs => hs
  have hmatch := (List.mem_filter.1 hn).2
  refine keeps_bind (keeps_observe _) fun files => ?_
  refine keeps_ite (fun _ => keeps_rmtree fun w d hd hdir hw => ?_) fun _ => keeps_pure _
  exact h w d n hmatch hd hdir hw

theorem keeps_exportRef (h : StagingEdits c target I) (cache : Option κ) :
    Keeps I (exportRef c cache commit (stagingPath target c.pid)) := by
  refine keeps_bind (keeps_mkdirs fun q w hq hne hnone hw => h.created w q hq hne hnone hw) fun _ => ?_
  refine keeps_bind (keeps_nextCall h.called) fun n => ?_
  refine keeps_bind (keeps_nextCall h.called) fun m => ?_
  refine keeps_bind (keeps_workIn fun w d hd hw => h.extracted w d m _ commit hd hw) fun extracted => ?_
  exact keeps_bind (keeps_check _ _) fun _ => keeps_check _ _

theorem keeps_applyPatches {destination : Path} (hcall : ∀ w, I w → I { w with calls := w.calls + 1 })
    (h : ∀ w d n patch, Node.get destination w.files = some d → I w →
      I (w.edit (.filled destination) (Node.replace destination (some (c.git.apply n patch d).1) w.files))) :
    Keeps I (applyPatches c dep destination) := by
  refine keeps_bind (keeps_observe _) fun found => ?_
  rcases found with _ | ⟨place, directory⟩
  · exact keeps_pure _
  · refine keeps_ite (fun _ => keeps_forM fun n _ => ?_) fun _ => keeps_raise _
    refine keeps_bind (keeps_observe _) fun files => ?_
    refine keeps_bind (keeps_nextCall hcall) fun m => ?_
    refine keeps_bind (keeps_workIn fun w d hd hw => h w d m _ hd hw) fun applied => ?_
    exact keeps_check _ _

theorem keeps_preserve {destination : Path} (hcall : ∀ w, I w → I { w with calls := w.calls + 1 })
    (h : ∀ w repoPath place data after, Tracked c dep repoPath →
      stagedFile dep destination repoPath w.files = some (place, data) →
      normalizeLineEndings after = normalizeLineEndings data → I w →
      I (w.edit (.rewritten place data after) (Node.replace place (some (.file after)) w.files))) :
    Keeps I (preserveTrackedFileFormat c dep destination) := by
  refine keeps_bind (keeps_nextCall hcall) fun n => ?_
  refine keeps_bind (keeps_observe _) fun repository => ?_
  cases hlist : c.git.lsFiles n repository dep.targetDir with
  | none => exact keeps_raise _
  | some listing =>
    refine keeps_forM fun entry hentry => keeps_restoreEntry c hcall fun w place data after hstaged hnorm hw => ?_
    have htracked : Tracked c dep entry.1 :=
      ⟨n, repository, listing, entry.2, hlist, mem_listing_of_mem_entries hentry⟩
    exact h w entry.1 place data after htracked hstaged hnorm hw

theorem keeps_prepareStaging (h : Unharmed c dep target I) :
    Keeps I (prepareStaging c dep commit applyLocalPatches target) := by
  refine keeps_bind (keeps_removeStale fun w d n hn => h.removed w d n (.inl hn)) fun _ => ?_
  refine keeps_bind (keeps_removeIfExists fun w d hd hdir hw => h.removed w d _ (.inr rfl) hd hdir hw) fun _ => ?_
  refine keeps_bind (keeps_observe _) fun cache => ?_
  refine keeps_bind (keeps_exportRef h.toStagingEdits cache) fun _ => ?_
  refine keeps_bind ?_ fun _ => keeps_preserve h.called h.rewritten
  exact keeps_ite (fun _ => keeps_applyPatches h.called h.patched) fun _ => keeps_pure _

theorem keeps_syncDependency (h : Unharmed c dep (targetPath c.root dep) I)
    (hremoved : ∀ w d, c.root <+: targetPath c.root dep → Node.get (targetPath c.root dep) w.files = some d →
      d.isDirectory = true → I w →
      I (w.edit (.removed (targetPath c.root dep)) (Node.replace (targetPath c.root dep) none w.files)))
    (hrenamed : ∀ w d, c.root <+: targetPath c.root dep →
      Node.get (stagingPath (targetPath c.root dep) c.pid) w.files = some d →
      (∀ e, Node.get (targetPath c.root dep) w.files = some e → e.isDirectory = true) → I w →
      I (w.edit (.renamed (stagingPath (targetPath c.root dep) c.pid) (targetPath c.root dep))
        (Node.replace (targetPath c.root dep) (some d)
          (Node.replace (stagingPath (targetPath c.root dep) c.pid) none w.files)))) :
    Keeps I (syncDependency c dep commit applyLocalPatches) := by
  refine keeps_ite (fun hroot => ?_) fun _ => keeps_raise _
  refine keeps_bind (keeps_prepareStaging h) fun _ => ?_
  refine keeps_bind (keeps_removeIfExists fun w d => hremoved w d hroot) fun _ => ?_
  exact keeps_rename fun w d => hrenamed w d hroot

end Keeps

end LoggerBenchmarks.VendorStaging
