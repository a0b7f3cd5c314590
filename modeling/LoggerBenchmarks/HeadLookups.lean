import LoggerBenchmarks.ResyncFixpoint
import LoggerBenchmarks.VendorSync

set_option autoImplicit false

/-!
# Tracked paths that `HEAD` does not have

The classes of the tracked paths are those of the index, but the bytes of a `mixed`
path come from `HEAD`. The two differ as soon as something is staged.
-/
namespace LoggerBenchmarks.HeadLookups
open PythonText PosixPaths FileTrees GlobPatterns StatefulPrograms InsertionDict LineEndings VendorManifest
open VendorWorld EolRestoring VendorStaging VendorSync StagedTree StagingRuns SyncRecovery ResyncFixpoint

variable {κ γ : Type}

/-- Git answers for one index and one `HEAD`; no path of the index has `..`. -/
structure Works (git : Git κ γ) (dep : Dependency) (repository : γ) (listing : List (Text × Text))
    (head : Text → Option Bytes) : Prop where
  index : ∀ n, git.lsFiles n repository dep.targetDir = some listing
  head : ∀ n path, git.showHead n repository path = head path
  plain : ∀ e ∈ listing, dotDot ∉ (parse e.1).parts

/-- The file of a `mixed` path is text, and `HEAD` does not have the path. -/
def Blocks (dep : Dependency) (head : Text → Option Bytes) (t : Node Bytes) (e : Text × Text) : Prop :=
  e.2 = "mixed".toList ∧ head e.1 = none ∧
    ∃ p data, IsFor dep p e ∧ Node.fileAt p t = some data ∧ (0 : UInt8) ∉ data

section Restoring

variable {git : Git κ γ} {dep : Dependency} {repository : γ} {head : Text → Option Bytes}

/-- The turn of one path blocks no other and clears none. -/
theorem blocks_turn (dep : Dependency) (head : Text → Option Bytes) {t t' : Node Bytes} {p : Path}
    {data after : Bytes} (hdata : Node.fileAt p t = some data)
    (hnul : (0 : UInt8) ∈ after ↔ (0 : UInt8) ∈ data)
    (hturn : ∀ q, Node.fileAt q t' = if q = p then some after else Node.fileAt q t) (e : Text × Text) :
    Blocks dep head t' e ↔ Blocks dep head t e := by
  have htext : ∀ q, (∃ d, Node.fileAt q t' = some d ∧ (0 : UInt8) ∉ d) ↔
      ∃ d, Node.fileAt q t = some d ∧ (0 : UInt8) ∉ d := by
    intro q
    rw [hturn q]
    by_cases hq : q = p
    · rw [if_pos hq, hq, hdata]
      simp only [Option.some.injEq, exists_eq_left', hnul]
    · rw [if_neg hq]
  unfold Blocks
  refine and_congr_right fun _ => and_congr_right fun _ => exists_congr fun q => ?_
  simp only [exists_and_left, htext q]

theorem blocks_iff_stops {t : Node Bytes} {e : Text × Text} {relative : List Name} {data : Bytes}
    (hfile : fileIn dep t e.1 = some (relative, data)) :
    Blocks dep head t e ↔ restoredBytes e.2 data (head e.1) = none := by
  obtain ⟨hrelative, hget⟩ := fileIn_eq_some hfile
  rw [restoredBytes_eq_none]
  constructor
  · rintro ⟨hmixed, hhead, p, data', hfor, hdata, hnul⟩
    obtain rfl : relative = p := Option.some.inj (hrelative.symm.trans hfor)
    obtain rfl : data' = data := Option.some.inj (hdata.symm.trans (Node.fileAt_eq_some.2 hget))
    exact ⟨hnul, hmixed, hhead⟩
  · rintro ⟨hnul, hmixed, hhead⟩
    exact ⟨hmixed, hhead, relative, data, hrelative, Node.fileAt_eq_some.2 hget, hnul⟩

theorem not_blocks_of_missing {t : Node Bytes} {e : Text × Text} (hfile : fileIn dep t e.1 = none) :
    ¬ Blocks dep head t e := by
  rintro ⟨-, -, p, data, hfor, hdata, -⟩
  rw [fileIn, hfor, Option.bind_some, hdata] at hfile
  cases hfile

/-- The loop gets through exactly when no path is in the way. -/
theorem restoredTree_isSome_iff (hhead : ∀ n path, git.showHead n repository path = head path)
    (entries : List (Text × Text)) (n : ℕ) (t : Node Bytes) :
    (restoredTree git repository dep entries n t).isSome = true ↔ ∀ e ∈ entries, ¬ Blocks dep head t e := by
  induction entries generalizing n t with
  | nil => exact ⟨fun _ e he => absurd he List.not_mem_nil, fun _ => rfl⟩
  | cons e entries ih =>
    rw [restoredTree, List.forall_mem_cons]
    rcases hfile : fileIn dep t e.1 with _ | ⟨relative, data⟩
    · exact (ih n t).trans (iff_and_self.2 fun _ => not_blocks_of_missing hfile)
    · dsimp only
      rw [blocks_iff_stops hfile, ← hhead n e.1]
      rcases hafter : restoredBytes e.2 data (git.showHead n repository e.1) with _ | after
      · simp
      · obtain ⟨-, hget⟩ := fileIn_eq_some hfile
        have hsame := blocks_turn dep head (Node.fileAt_eq_some.2 hget) (mem_restoredBytes hafter)
          (fileAt_turn hfile hafter)
        simp only [ih, hsame, reduceCtorEq, not_false_eq_true, true_and]

variable {listing : List (Text × Text)}

theorem restoredStaging_isSome_iff (hworks : Works git dep repository listing head) (n : ℕ) (t : Node Bytes) :
    (restoredStaging git repository dep n t).isSome = true ↔
      ∀ e ∈ (trackedEolInfo listing).entries, ¬ Blocks dep head t e := by
  rw [restoredStaging, hworks.index, Option.bind_some, restoredTree_isSome_iff hworks.head]

end Restoring

section Synchronising

variable {c : Checkout κ γ} {dep : Dependency} {repository : γ} {listing : List (Text × Text)}
  {head : Text → Option Bytes} {t : Node Bytes} {w : World κ γ}

theorem preserve_completes_iff (hworks : Works c.git dep w.repository listing head) (hregular : Node.NoLinks t)
    {destination : Path} (hget : Node.get destination w.files = some t) (hdot : dotDot ∉ destination) :
    (preserveTrackedFileFormat c dep destination w).1 = .ok () ↔
      ∀ e ∈ (trackedEolInfo listing).entries, ¬ Blocks dep head t e := by
  have hplain : PlainlyTracked c w.repository dep t :=
    plainlyTracked_of_regular hregular fun n l hl e he =>
      hworks.plain e (Option.some.inj ((hworks.index n).symm.trans hl) ▸ he)
  have hyields := preserve_run (I := fun _ => True) (fun _ _ _ => trivial) (fun _ _ _ _ _ _ => trivial) trivial hget
    hdot hplain
  rw [hyields.ok_iff, restoredStaging_isSome_iff hworks]

structure Undisturbed (c : Checkout κ γ) (args : SyncArgs) (dep : Dependency) (t : Node Bytes) (w : World κ γ) :
    Prop where
  plain : args.ref = [] ∧ args.update = false
  selected : selectDependencies (loadManifest w.manifest) args.names args.all = .selected [dep]
  below : c.root <+: targetPath c.root dep ∧ c.root ≠ targetPath c.root dep
  ready : Ready (targetPath c.root dep) c.pid w.files
  patches : PatchesFixed c.root dep (targetPath c.root dep) w.files
  built : ∃ commit v x n, resolveFor c args dep w = (.ok commit, v) ∧
    exportedTree c.git (v.caches (cachePath c.root dep)) commit v.calls = some x ∧
    patchedTree c.git (appliedPatches c.root dep true w.files) x.2 x.1 = some (t, n)

theorem root_below_staging {root target : Path} (h : root <+: target) (hne : root ≠ target) (pid : ℕ) :
    target ≠ [] ∧ root <+: stagingPath target pid := by
  have htarget : target ≠ [] := by
    rintro rfl
    exact hne (List.prefix_nil.1 h)
  refine ⟨htarget, List.IsPrefix.trans ?_ (List.prefix_append _ _)⟩
  rw [← dropLast_append_nameOf htarget] at h hne
  exact (List.prefix_concat_iff.1 h).resolve_left hne

/-- Where everything else goes well the line endings decide. -/
theorem syncDependency_completes_iff (hworks : Works c.git dep w.repository listing head) (hregular : Node.NoLinks t)
    (hbelow : c.root <+: targetPath c.root dep ∧ c.root ≠ targetPath c.root dep)
    (hready : Ready (targetPath c.root dep) c.pid w.files)
    (hpatches : PatchesFixed c.root dep (targetPath c.root dep) w.files) {commit : Text} {x : Node Bytes × ℕ} {n : ℕ}
    (hx : exportedTree c.git (w.caches (cachePath c.root dep)) commit w.calls = some x)
    (hy : patchedTree c.git (appliedPatches c.root dep true w.files) x.2 x.1 = some (t, n)) :
    (syncDependency c dep commit true w).1 = .ok () ↔
      ∀ e ∈ (trackedEolInfo listing).entries, ¬ Blocks dep head t e := by
  have hplain : PlainlyStaged c dep commit true w := by
    intro x' y hx' hy'
    obtain rfl := Option.some.inj (hx.symm.trans hx')
    obtain rfl := Option.some.inj (hy.symm.trans hy')
    exact plainlyTracked_of_regular hregular fun m l hl e he =>
      hworks.plain e (Option.some.inj ((hworks.index m).symm.trans hl) ▸ he)
  have hfresh : freshFor c dep commit true w = restoredStaging c.git w.repository dep n t := by
    rw [freshFor, freshTree, hx, Option.bind_some, hy, Option.bind_some]
  rw [← restoredStaging_isSome_iff hworks n, ← hfresh]
  constructor
  · intro hok
    obtain ⟨-, -, -, -, -, z, hz, -⟩ := syncDependency_ok (fun _ => hpatches) hplain
      (Prod.ext hok rfl : syncDependency c dep commit true w = (.ok (), (syncDependency c dep commit true w).2))
    rw [hz]
    rfl
  · intro hsome
    obtain ⟨z, hz⟩ := Option.isSome_iff_exists.1 hsome
    obtain ⟨hne, hstaging⟩ := root_below_staging hbelow.1 hbelow.2 c.pid
    obtain ⟨w', hrun⟩ := syncDependency_of_ready hbelow.1 hne (fun _ => hpatches) (fun _ _ => hstaging) hplain hready hz
    rw [hrun]

/-- A plain synchronisation of one dependency writes no ref and stages nothing. -/
theorem cmdSync_one {args : SyncArgs} (hplain : args.ref = [] ∧ args.update = false)
    (hselected : selectDependencies (loadManifest w.manifest) args.names args.all = .selected [dep]) {commit : Text}
    {v : World κ γ} (hresolve : resolveFor c args dep w = (.ok commit, v)) :
    cmdSync c args w = syncDependency c dep commit true v := by
  have hrewrites : rewritesRef args dep.skipUpdate = false := by
    rw [rewritesRef, hplain.1, hplain.2]
    rfl
  have hsync : cmdSync c args w = syncOne c args dep w := by
    rw [cmdSync, observe_bind, hselected]
    dsimp only
    rw [if_neg fun h => h.1 hplain.1, if_neg fun h => h.1 hplain.1, forM_singleton]
  have hone : syncOne c args dep w =
      (syncDependency c dep commit true >>= fun _ => recordSync c args dep commit) v := by
    rw [syncOne, ok_bind hresolve, hrewrites, hplain.2]
    rfl
  rw [hsync, hone]
  rcases hrun : syncDependency c dep commit true v with ⟨e | u, v'⟩
  · rw [error_bind hrun]
  · rw [ok_bind hrun, recordSync, hrewrites, hplain.2]
    rfl

/-- Restoring line endings completes, and with it a plain synchronisation in which all else
goes well, unless a path that is `mixed` in the index, text in the staging tree and missing
in `HEAD` is in the way. -/
theorem completes_iff (hworks : Works c.git dep repository listing head) (hregular : Node.NoLinks t) :
    (∀ destination w, w.repository = repository → Node.get destination w.files = some t → dotDot ∉ destination →
      ((preserveTrackedFileFormat c dep destination w).1 = .ok () ↔
        ∀ e ∈ (trackedEolInfo listing).entries, ¬ Blocks dep head t e)) ∧
    ∀ args w, w.repository = repository → Undisturbed c args dep t w →
      ((cmdSync c args w).1 = .ok ⟨⟩ ↔ ∀ e ∈ (trackedEolInfo listing).entries, ¬ Blocks dep head t e) := by
  refine ⟨fun destination w hrepository hget hdot => ?_, fun args w hrepository h => ?_⟩
  · rw [← hrepository] at hworks
    exact preserve_completes_iff hworks hregular hget hdot
  · obtain ⟨commit, v, x, n, hresolve, hx, hy⟩ := h.built
    have hsame : v.files = w.files ∧ v.repository = w.repository := by
      have hkept := triple_left (keeps_resolveFor (I := fun s : World κ γ => s.files = w.files ∧
        s.repository = w.repository) args dep (c := c) (fun _ hs => hs) fun _ _ _ hs => hs) (s := w) ⟨rfl, rfl⟩
      rwa [hresolve] at hkept
    rw [cmdSync_one h.plain h.selected hresolve]
    rw [← hrepository, ← hsame.2] at hworks
    have hready := h.ready
    have hpatches := h.patches
    rw [← hsame.1] at hready hpatches hy
    exact syncDependency_completes_iff hworks hregular h.below hready hpatches hx hy

end Synchronising

/-- `git add` puts the one file that is there into the index; nothing has been committed. -/
def stagingGit : Git Unit (List (Text × Text)) :=
  { idleGit with
    clone := fun _ _ => (some (), true)
    tar := fun _ _ _ => (oneTree mixedContent, true)
    lsFiles := fun _ repository _ => some repository
    add := fun _ _ files _ =>
      ((Node.fileAt ["r".toList, "d".toList, "a".toList] files).elim [] oneEntry, true) }

def stagingCheckout : Checkout Unit (List (Text × Text)) := ⟨["r".toList], 1, stagingGit, fun _ => []⟩

def unstagedWorld : World Unit (List (Text × Text)) where
  files := .dir [("r".toList, .dir [])]
  caches _ := none
  repository := []
  manifest := ⟨[⟨"d".toList, [], "v1".toList, "d".toList, false, none, []⟩], []⟩
  calls := 0
  log := []

def updateArgs : SyncArgs := ⟨["d".toList], false, [], true, "main".toList⟩

def plainArgs : SyncArgs := ⟨["d".toList], false, [], false, "main".toList⟩

def stagedWorld : World Unit (List (Text × Text)) := (cmdSync stagingCheckout updateArgs unstagedWorld).2

/-- The update stages a new file of class `mixed`; before it is committed the next run
looks for it in `HEAD` and stops. -/
theorem second_sync_stops :
    (cmdSync stagingCheckout updateArgs unstagedWorld).1 = .ok ⟨⟩ ∧
      (cmdSync stagingCheckout plainArgs stagedWorld).1 = .error (.process .showHead) :=
  ⟨by decide +kernel, by decide +kernel⟩

def updatedDependency : Dependency :=
  ⟨"d".toList, [], "refs/remotes/origin/main".toList, parse "d".toList, false, none⟩

theorem works_staged :
    Works stagingGit updatedDependency (oneEntry mixedContent) (oneEntry mixedContent) fun _ => none where
  index _ := rfl
  head _ _ := rfl
  plain e he := by
    rw [List.mem_singleton.1 he]
    exact (by decide +kernel : dotDot ∉ (parse onePath).parts)

theorem targetPath_updated : targetPath stagingCheckout.root updatedDependency = ["r".toList, "d".toList] := by
  decide +kernel

/-- What the next run finds. -/
theorem stagedWorld_facts :
    stagedWorld.manifest = ⟨[⟨"d".toList, [], "refs/remotes/origin/main".toList, "d".toList, false, none, []⟩], []⟩ ∧
      Node.kindAt ["r".toList] stagedWorld.files = some .dir ∧
      Node.kindAt ["r".toList, "d".toList] stagedWorld.files = some .dir ∧
      staleStagingNames ["r".toList, "d".toList] stagedWorld.files = [] ∧
      Node.kindAt (stagingPath ["r".toList, "d".toList] 1) stagedWorld.files = none ∧
      Node.kindAt ["r".toList, "vendor_patches".toList] stagedWorld.files = none := by
  decide +kernel

theorem selected_staged :
    selectDependencies (loadManifest stagedWorld.manifest) plainArgs.names plainArgs.all = .selected [updatedDependency] := by
  rw [stagedWorld_facts.1]
  rfl

theorem openTo_root : OpenTo ["r".toList] stagedWorld.files := by
  obtain ⟨cs, hcs⟩ := Node.kindAt_eq_dir.1 stagedWorld_facts.2.1
  exact openTo_of_get hcs

theorem ready_staged : Ready ["r".toList, "d".toList] 1 stagedWorld.files := by
  obtain ⟨-, -, htarget, hstale, hstaging, -⟩ := stagedWorld_facts
  exact ⟨openTo_root, .inr (Node.kindAt_eq_dir.1 htarget), hstale, Node.kindAt_eq_none.1 hstaging⟩

theorem patchesFixed_staged : PatchesFixed ["r".toList] updatedDependency ["r".toList, "d".toList] stagedWorld.files := by
  obtain ⟨-, -, -, -, -, hmissing⟩ := stagedWorld_facts
  exact patchesFixed_of_missing (p := ["r".toList, "vendor_patches".toList]) (by decide +kernel)
    (by decide +kernel) not_inZone_patches (by decide +kernel) (openTo_root.concat (.inl hmissing))
    (Node.kindAt_eq_none.1 hmissing)

theorem exportedTree_staging (cache : Option Unit) (commit : Text) (n : ℕ) :
    exportedTree stagingGit cache commit n = some (oneTree mixedContent, n + 2) := rfl

theorem undisturbed_staged :
    Undisturbed stagingCheckout plainArgs updatedDependency (oneTree mixedContent) stagedWorld where
  plain := ⟨rfl, rfl⟩
  selected := selected_staged
  below := by decide +kernel
  ready := by
    rw [targetPath_updated]
    exact ready_staged
  patches := by
    rw [targetPath_updated]
    exact patchesFixed_staged
  built := by
    have hresolve : (resolveFor stagingCheckout plainArgs updatedDependency stagedWorld).1 =
        .ok "refs/remotes/origin/main".toList := by decide +kernel
    have hpatches : appliedPatches stagingCheckout.root updatedDependency true stagedWorld.files = [] := by
      decide +kernel
    refine ⟨_, _, _, (resolveFor stagingCheckout plainArgs updatedDependency stagedWorld).2.calls + 2,
      eq_of_fst hresolve, exportedTree_staging _ _ _, ?_⟩
    rw [hpatches, patchedTree]

def preparedWorld : World Unit (List (Text × Text)) :=
  { unstagedWorld with
    files := .dir [("r".toList, .dir [("s".toList, oneTree mixedContent)])]
    repository := oneEntry mixedContent }

theorem completes_iff_staged :
    ((preserveTrackedFileFormat stagingCheckout updatedDependency ["r".toList, "s".toList] preparedWorld).1 = .ok () ↔
      ∀ e ∈ (trackedEolInfo (oneEntry mixedContent)).entries,
        ¬ Blocks updatedDependency (fun _ => none) (oneTree mixedContent) e) ∧
    ((cmdSync stagingCheckout plainArgs stagedWorld).1 = .ok ⟨⟩ ↔
      ∀ e ∈ (trackedEolInfo (oneEntry mixedContent)).entries,
        ¬ Blocks updatedDependency (fun _ => none) (oneTree mixedContent) e) := by
  have hboth := completes_iff (c := stagingCheckout) works_staged (noLinks_oneTree mixedContent)
  exact ⟨hboth.1 ["r".toList, "s".toList] preparedWorld rfl rfl (by decide +kernel),
    hboth.2 plainArgs stagedWorld (by decide +kernel) undisturbed_staged⟩

end LoggerBenchmarks.HeadLookups
