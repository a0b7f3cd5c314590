import LoggerBenchmarks.VendorStaging

set_option autoImplicit false

/-!
# The commands of `update_vendor.py`

The clone cache, the resolution of refs and the loop of `cmd_sync`.
-/
namespace LoggerBenchmarks.VendorSync
open PythonText PosixPaths FileTrees StatefulPrograms LineEndings VendorManifest VendorWorld EolRestoring VendorStaging

variable {κ γ : Type}

def setCache (path : Path) (cache : Option κ) (w : World κ γ) : World κ γ :=
  { w with caches := fun p => if p = path then cache else w.caches p }

def cloneOrSetUrl (c : Checkout κ γ) (dep : Dependency) : Action κ γ Unit := do
  let found ← observe fun w => w.caches (cachePath c.root dep)
  let n ← nextCall
  match found with
  | none => do
    let cloned := c.git.clone n dep.repoUrl
    update (setCache (cachePath c.root dep) cloned.1)
    check .clone cloned.2
  | some cache => do
    let changed := c.git.setUrl n dep.repoUrl cache
    update (setCache (cachePath c.root dep) (some changed.1))
    check .setUrl changed.2

def fetchOrigin (c : Checkout κ γ) (dep : Dependency) : Action κ γ Unit := do
  let found ← observe fun w => w.caches (cachePath c.root dep)
  let n ← nextCall
  match found with
  | none => raise (.process .fetch)
  | some cache => do
    let fetched := c.git.fetch n cache
    update (setCache (cachePath c.root dep) (some fetched.1))
    check .fetch fetched.2

def ensureRepoCache (c : Checkout κ γ) (dep : Dependency) : Action κ γ (Option κ) := do
  cloneOrSetUrl c dep
  fetchOrigin c dep
  observe fun w => w.caches (cachePath c.root dep)

/-- An absent and an empty `--ref` are both false. -/
def resolveRef (c : Checkout κ γ) (dep : Dependency) (overrideRef : Text) : Action κ γ Text := do
  let cache ← ensureRepoCache c dep
  let n ← nextCall
  match c.git.revParse n cache (if overrideRef = [] then dep.ref else overrideRef) with
  | some out => pure (strip out)
  | none => raise (.process .revParse)

/-- `check=False`: a candidate that does not resolve is passed over. -/
def resolveRemoteTip (c : Checkout κ γ) (dep : Dependency) (branch : Text) : Action κ γ Text := do
  let cache ← ensureRepoCache c dep
  let n ← nextCall
  match c.git.revParse n cache ("refs/remotes/origin/".toList ++ branch) with
  | some out => pure (strip out)
  | none => do
    let m ← nextCall
    match c.git.revParse m cache "refs/remotes/origin/HEAD".toList with
    | some out => pure (strip out)
    | none => raise .runtime

structure SyncArgs where
  names : List Text
  all : Bool
  ref : Text
  update : Bool
  branch : Text

def preferredBranch (args : SyncArgs) (dep : Dependency) : Text :=
  match dep.updateBranch with
  | some branch => if branch = [] then args.branch else branch
  | none => args.branch

def resolveFor (c : Checkout κ γ) (args : SyncArgs) (dep : Dependency) : Action κ γ Text :=
  if args.update then
    if dep.skipUpdate then resolveRef c dep [] else resolveRemoteTip c dep (preferredBranch args dep)
  else resolveRef c dep args.ref

def rewritesRef (args : SyncArgs) (skipUpdate : Bool) : Bool :=
  decide (args.ref ≠ []) || (args.update && !skipUpdate)

def manifestPath (root : Path) : Path := root ++ ["vendor_manifest.json".toList]

def writeManifest (c : Checkout κ γ) : Action κ γ Unit := do
  let raw ← observe World.manifest
  writeBytes (manifestPath c.root) (c.dumps raw)

def updateManifest (name resolved : Text) : Action κ γ Unit := do
  let raw ← observe World.manifest
  match updateManifestRef raw name resolved with
  | some raw' => update fun w => { w with manifest := raw' }
  | none => raise .runtime

def stageDependency (c : Checkout κ γ) (dep : Dependency) : Action κ γ Unit := do
  let n ← nextCall
  let w ← observe id
  let added := c.git.add n w.repository w.files [⟨true, manifestPath c.root⟩, dep.targetDir]
  update fun w => { w with repository := added.1 }
  check .add added.2

/-- The manifest rewrite and the final `git add` after one synchronisation. -/
def recordSync (c : Checkout κ γ) (args : SyncArgs) (dep : Dependency) (resolved : Text) : Action κ γ Unit := do
  (if rewritesRef args dep.skipUpdate then do
    updateManifest dep.name resolved
    writeManifest c
  else pure ())
  (if args.update then stageDependency c dep else pure ())

def syncOne (c : Checkout κ γ) (args : SyncArgs) (dep : Dependency) : Action κ γ Unit := do
  let resolved ← resolveFor c args dep
  let pinned := if rewritesRef args dep.skipUpdate then { dep with ref := resolved } else dep
  syncDependency c pinned resolved (!args.update)
  recordSync c args pinned resolved

def cmdSync (c : Checkout κ γ) (args : SyncArgs) : Action κ γ Unit := do
  let raw ← observe World.manifest
  match selectDependencies (loadManifest raw) args.names args.all with
  | .selected dependencies =>
    if args.ref ≠ [] ∧ (args.all = true ∨ dependencies.length ≠ 1) then raise .systemExit
    else if args.ref ≠ [] ∧ args.update = true then raise .systemExit
    else dependencies.forM (syncOne c args)
  | _ => raise .systemExit

section Keeps

variable {c : Checkout κ γ} {I : World κ γ → Prop}

theorem keeps_ensureRepoCache (dep : Dependency) (hcall : ∀ w, I w → I { w with calls := w.calls + 1 })
    (hcache : ∀ w path cache, I w → I (setCache path cache w)) : Keeps I (ensureRepoCache c dep) := by
  have hclone : Keeps I (cloneOrSetUrl c dep) := by
    refine keeps_bind (keeps_observe _) fun found => keeps_bind (keeps_nextCall hcall) fun n => ?_
    cases found with
    | none => exact keeps_bind (keeps_update fun w hw => hcache w _ _ hw) fun _ => keeps_check _ _
    | some cache => exact keeps_bind (keeps_update fun w hw => hcache w _ _ hw) fun _ => keeps_check _ _
  have hfetch : Keeps I (fetchOrigin c dep) := by
    refine keeps_bind (keeps_observe _) fun found => keeps_bind (keeps_nextCall hcall) fun n => ?_
    cases found with
    | none => exact keeps_raise _
    | some cache => exact keeps_bind (keeps_update fun w hw => hcache w _ _ hw) fun _ => keeps_check _ _
  exact keeps_bind hclone fun _ => keeps_bind hfetch fun _ => keeps_observe _

/-- Resolving a ref touches nothing but the clone cache. -/
theorem keeps_resolveFor (args : SyncArgs) (dep : Dependency) (hcall : ∀ w, I w → I { w with calls := w.calls + 1 })
    (hcache : ∀ w path cache, I w → I (setCache path cache w)) : Keeps I (resolveFor c args dep) := by
  have hensure := keeps_ensureRepoCache (c := c) dep hcall hcache
  have href : ∀ overrideRef, Keeps I (resolveRef c dep overrideRef) := by
    intro overrideRef
    refine keeps_bind hensure fun cache => keeps_bind (keeps_nextCall hcall) fun n => ?_
    cases c.git.revParse n cache (if overrideRef = [] then dep.ref else overrideRef) with
    | none => exact keeps_raise _
    | some out => exact keeps_pure _
  have htip : ∀ branch, Keeps I (resolveRemoteTip c dep branch) := by
    intro branch
    refine keeps_bind hensure fun cache => keeps_bind (keeps_nextCall hcall) fun n => ?_
    cases c.git.revParse n cache ("refs/remotes/origin/".toList ++ branch) with
    | some out => exact keeps_pure _
    | none =>
      refine keeps_bind (keeps_nextCall hcall) fun m => ?_
      cases c.git.revParse m cache "refs/remotes/origin/HEAD".toList with
      | some out => exact keeps_pure _
      | none => exact keeps_raise _
  exact keeps_ite (fun _ => keeps_ite (fun _ => href _) fun _ => htip _) fun _ => href _

end Keeps

end LoggerBenchmarks.VendorSync
