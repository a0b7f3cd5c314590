import LoggerBenchmarks.EolContainment
import LoggerBenchmarks.ManifestFrame
import LoggerBenchmarks.StagingRuns

set_option autoImplicit false

/-!
# Where a synchronisation stops

A program that fails before an old target is removed leaves every target and the
manifest as they were, unless a line ending has been restored through a link of the
staged tree into one of the targets.
-/
namespace LoggerBenchmarks.FailureAtomicity
open PythonText PosixPaths FileTrees GlobPatterns StatefulPrograms InsertionDict LineEndings VendorManifest
open VendorWorld EolRestoring VendorStaging VendorSync SyncContainment StagedTree StagingRuns ManifestFrame

variable {κ γ : Type}

def SameBelow (path : Path) (files files' : Node Bytes) : Prop :=
  ∀ q, path <+: q → Node.kindAt q files' = Node.kindAt q files ∧ Node.fileAt q files' = Node.fileAt q files

def HoldsTree (path : Path) (t : Node Bytes) (files : Node Bytes) : Prop :=
  ∀ q, Node.kindAt (path ++ q) files = Node.kindAt q t ∧ Node.fileAt (path ++ q) files = Node.fileAt q t

section Trees

variable {path place q : Path} {files files' files'' t : Node Bytes}

theorem sameBelow_refl (path : Path) (files : Node Bytes) : SameBelow path files files := fun _ _ => ⟨rfl, rfl⟩

theorem SameBelow.trans (h : SameBelow path files files') (h' : SameBelow path files' files'') :
    SameBelow path files files'' :=
  fun q hq => ⟨(h' q hq).1.trans (h q hq).1, (h' q hq).2.trans (h q hq).2⟩

theorem sameBelow_of_get (h : Node.get path files' = Node.get path files) : SameBelow path files files' := by
  rintro q ⟨r, rfl⟩
  unfold Node.kindAt Node.fileAt
  rw [Node.get_append, Node.get_append, h]
  exact ⟨rfl, rfl⟩

theorem sameBelow_replace (h : Node.Apart q path) (new : Option (Node Bytes)) (files : Node Bytes) :
    SameBelow path files (Node.replace q new files) :=
  sameBelow_of_get (Node.get_replace_apart h new files)

/-- New bytes in a file are seen only where the file is. -/
theorem sameBelow_rewrite {before after : Bytes} (hget : Node.get place files = some (.file before))
    (h : path <+: place → after = before) : SameBelow path files (Node.replace place (some (.file after)) files) := by
  intro q hq
  refine ⟨Node.kindAt_rewrite hget after q, ?_⟩
  rw [Node.fileAt_rewrite hget]
  by_cases hplace : q = place
  · rw [if_pos hplace, hplace, h (hplace ▸ hq), Node.fileAt_eq_some.2 hget]
  · rw [if_neg hplace]

/-- A directory that is made neither in the tree nor at its root. -/
theorem sameBelow_makeDirectory (hnone : Node.get q files = none) (hq : ¬ path <+: q) :
    SameBelow path files (Node.replace q (some (.dir [])) files) := by
  by_cases hle : q <+: path
  · obtain ⟨r, rfl⟩ := hle
    have hr : r ≠ [] := by
      rintro rfl
      exact hq (by rw [List.append_nil])
    refine sameBelow_of_get ?_
    rw [Node.get_below_new hnone hr, Node.get_append_of_none hnone]
  · exact sameBelow_replace ⟨hle, hq⟩ _ _

theorem holdsTree_of_get (h : Node.get path files = some t) : HoldsTree path t files := by
  intro q
  unfold Node.kindAt Node.fileAt
  rw [Node.get_append, h, Option.bind_some]
  exact ⟨rfl, rfl⟩

theorem HoldsTree.same (h : HoldsTree path t files) (hsame : SameBelow path files files') : HoldsTree path t files' := by
  intro q
  obtain ⟨hkind, hfile⟩ := hsame (path ++ q) (List.prefix_append path q)
  exact ⟨hkind.trans (h q).1, hfile.trans (h q).2⟩

end Trees

/-- The path is neither in a staging directory of the target nor on the way to one. -/
def Beside (target path : Path) : Prop :=
  ∀ n, fnmatch n (stagingName (nameOf target) ['*']) = true ∨ (∃ suffix, n = stagingName (nameOf target) suffix) →
    Node.Apart (target.dropLast ++ [n]) path

theorem beside_self {target : Path} (htarget : target ≠ []) : Beside target target := by
  intro n hn
  have hne : n ≠ nameOf target := by
    rintro rfl
    rcases hn with hmatch | ⟨suffix, hsuffix⟩
    · rw [stagingName, fnmatch_dot_cons] at hmatch
      cases hmatch
    · exact stagingName_ne_self _ suffix hsuffix.symm
  have hapart := Node.apart_siblings (p := target.dropLast) hne
  rwa [dropLast_append_nameOf htarget] at hapart

theorem beside_of_apart {target path : Path} (h : Node.Apart target path) (hzone : ¬ InZone target path) :
    Beside target path := by
  intro n hn
  have hreserved : Reserved target n := .inr hn
  refine ⟨fun hle => hzone ⟨n, hreserved, hle⟩, fun hle => ?_⟩
  rcases List.prefix_concat_iff.1 hle with rfl | hparent
  · exact hzone ⟨n, hreserved, List.prefix_refl _⟩
  · exact h.2 (hparent.trans (List.dropLast_prefix target))

variable {c : Checkout κ γ} {dep : Dependency} {commit : Text} {flag : Bool} {target : Path}

theorem stagingEdits_sameBelow {path : Path} (h : Beside target path) (files : Node Bytes) :
    StagingEdits c target fun w => SameBelow path files w.files := by
  have hstaging : Node.Apart (stagingPath target c.pid) path := h _ (.inr ⟨_, rfl⟩)
  refine ⟨fun w hw => hw, ?_, ?_, ?_, ?_⟩
  · intro w d n hn _ _ hw
    exact hw.trans (sameBelow_replace (h n (hn.imp_right fun heq => ⟨_, heq⟩)) _ _)
  · intro w q hq _ hnone hw
    exact hw.trans (sameBelow_makeDirectory hnone fun hle => hstaging.2 (hle.trans hq))
  · intro w d n stream commit _ hw
    exact hw.trans (sameBelow_replace hstaging _ _)
  · intro w d n patch _ hw
    exact hw.trans (sameBelow_replace hstaging _ _)

/-- Everything up to the restoring of the line endings. -/
def fillStaging (c : Checkout κ γ) (dep : Dependency) (commit : Text) (applyLocalPatches : Bool) (target : Path) :
    Action κ γ Unit := do
  removeStale target
  removeIfExists (stagingPath target c.pid)
  let cache ← observe fun w => w.caches (cachePath c.root dep)
  exportRef c cache commit (stagingPath target c.pid)
  (if applyLocalPatches then applyPatches c dep (stagingPath target c.pid) else pure ())

theorem prepareStaging_eq : prepareStaging c dep commit flag target =
    fillStaging c dep commit flag target >>= fun _ =>
      preserveTrackedFileFormat c dep (stagingPath target c.pid) := by
  rw [fillStaging, bind_assoc, prepareStaging]
  simp only [bind_assoc]

theorem keeps_fillStaging {I : World κ γ → Prop} (h : StagingEdits c target I) :
    Keeps I (fillStaging c dep commit flag target) := by
  refine keeps_bind (keeps_removeStale fun w d n hn => h.removed w d n (.inl hn)) fun _ => ?_
  refine keeps_bind (keeps_removeIfExists fun w d hd hdir hw => h.removed w d _ (.inr rfl) hd hdir hw) fun _ => ?_
  refine keeps_bind (keeps_observe _) fun cache => ?_
  refine keeps_bind (keeps_exportRef h cache) fun _ => ?_
  exact keeps_ite (fun _ => keeps_applyPatches h.called h.patched) fun _ => keeps_pure _

/-- The turn of the entry would change the bytes of a file in one of the directories. -/
def Strays (c : Checkout κ γ) (dep : Dependency) (destination : Path) (targets : List Path) (entry : Text × Text)
    (w : World κ γ) : Prop :=
  ∃ place data after, stagedFile dep destination entry.1 w.files = some (place, data) ∧
    (∃ target ∈ targets, target <+: place) ∧
    restoredBytes entry.2 data (c.git.showHead w.calls w.repository entry.1) = some after ∧ after ≠ data

def HasTurn (c : Checkout κ γ) (dep : Dependency) (destination : Path) (w : World κ γ) (entry : Text × Text)
    (s : World κ γ) : Prop :=
  ∃ listing done later, c.git.lsFiles w.calls w.repository dep.targetDir = some listing ∧
    (trackedEolInfo listing).entries = done ++ entry :: later ∧
    done.forM (restoreEntry c dep destination) { w with calls := w.calls + 1 } = (.ok ⟨⟩, s)

def NeverStrays (c : Checkout κ γ) (dep : Dependency) (destination : Path) (targets : List Path) (w : World κ γ) :
    Prop :=
  ∀ entry s, HasTurn c dep destination w entry s → ¬ Strays c dep destination targets entry s

section Restoring

variable {destination : Path} {targets : List Path} {w : World κ γ}

theorem restoreEntry_sameBelow {entry : Text × Text} (hstray : ¬ Strays c dep destination targets entry w)
    (htarget : target ∈ targets) :
    SameBelow target w.files (restoreEntry c dep destination entry w).2.files := by
  rcases restoreEntry_cases c dep destination entry w with
    ⟨-, hrun⟩ | ⟨place, data, w₁, hstaged, rfl, ⟨-, hrun⟩ | ⟨-, -, hrun⟩ | ⟨after, hafter, -, hrun⟩⟩
  · rw [hrun]
    exact sameBelow_refl target w.files
  · rw [hrun]
    exact sameBelow_refl target w.files
  · rw [hrun]
    exact sameBelow_refl target w.files
  · obtain ⟨-, -, -, hget⟩ := stagedFile_eq_some.1 hstaged
    rw [hrun]
    refine sameBelow_rewrite hget fun hle => ?_
    by_contra hne
    exact hstray ⟨place, data, after, hstaged, ⟨target, htarget, hle⟩, hafter, hne⟩

theorem preserve_sameBelow (h : NeverStrays c dep destination targets w) (htarget : target ∈ targets) :
    SameBelow target w.files (preserveTrackedFileFormat c dep destination w).2.files := by
  cases hlist : c.git.lsFiles w.calls w.repository dep.targetDir with
  | none =>
    rw [preserveTrackedFileFormat, nextCall_bind, observe_bind, hlist]
    exact sameBelow_refl target w.files
  | some listing =>
    rw [EolContainment.preserve_run hlist]
    have hloop : Triple (fun s => s = { w with calls := w.calls + 1 })
        ((trackedEolInfo listing).entries.forM (restoreEntry c dep destination))
        (fun _ s => SameBelow target w.files s.files) fun _ s => SameBelow target w.files s.files := by
      refine triple_forM_reached (fun _ (s : World κ γ) => SameBelow target w.files s.files) (sameBelow_refl target w.files) ?_
      rintro done entry later _ hsplit hreached hsame s rfl
      have hturn := restoreEntry_sameBelow (h entry s ⟨listing, done, later, hlist, hsplit, hreached⟩) htarget
      rcases hrun : restoreEntry c dep destination entry s with ⟨e | u, s'⟩ <;> rw [hrun] at hturn <;>
        exact hsame.trans hturn
    exact triple_left hloop rfl

/-- Preparing the staging directory leaves a tree beside it alone. -/
theorem prepareStaging_sameBelow {path : Path} (hbeside : Beside target path) (hpath : path ∈ targets)
    (hstays : ∀ s, fillStaging c dep commit flag target w = (.ok (), s) →
      NeverStrays c dep (stagingPath target c.pid) targets s) :
    SameBelow path w.files (prepareStaging c dep commit flag target w).2.files := by
  have hfill : Keeps (fun s => SameBelow path w.files s.files) (fillStaging c dep commit flag target) :=
    keeps_fillStaging (stagingEdits_sameBelow hbeside w.files)
  have hfilled := triple_left hfill (sameBelow_refl path w.files)
  rw [prepareStaging_eq]
  rcases hrun : fillStaging c dep commit flag target w with ⟨e | u, s⟩ <;> rw [hrun] at hfilled
  · rw [error_bind hrun]
    exact hfilled
  · rw [ok_bind hrun]
    exact hfilled.trans (preserve_sameBelow (hstays s hrun) hpath)

end Restoring

theorem keeps_replaceTarget {pid : ℕ} {path : Path} (htarget : Node.Apart target path)
    (hstaging : Node.Apart (stagingPath target pid) path) (files : Node Bytes) :
    Keeps (fun w : World κ γ => SameBelow path files w.files) (replaceTarget target (stagingPath target pid)) := by
  refine keeps_bind (keeps_removeIfExists fun w d _ _ hw => hw.trans (sameBelow_replace htarget _ _)) fun _ => ?_
  refine keeps_rename fun w d _ _ hw => ?_
  exact (hw.trans (sameBelow_replace hstaging _ _)).trans (sameBelow_replace htarget _ _)

theorem rename_error {source destination : Path} {w w' : World κ γ} {failure : Failure}
    (hrun : rename source destination w = (.error failure, w')) : failure = .os := by
  rw [rename] at hrun
  split at hrun
  · cases hrun
    rfl
  · split at hrun
    · cases hrun
    · cases hrun
      rfl

/-- Only the file system stops the replacement of the target. -/
theorem replaceTarget_error {staging : Path} {w w' : World κ γ} {failure : Failure}
    (hrun : replaceTarget target staging w = (.error failure, w')) : failure = .os := by
  have hremove : Triple (fun _ : World κ γ => True) (removeIfExists target : Action κ γ Unit) (fun _ _ => True)
      fun e _ => e = .os := by
    refine triple_bind (Q := fun _ _ => True) (fun _ _ => trivial) fun files => ?_
    exact triple_ite (fun _ => triple_rmtree (fun _ _ _ _ _ => trivial) fun _ _ => rfl) fun _ =>
      triple_pure _ fun _ _ => trivial
  have hrename : Triple (fun _ : World κ γ => True) (rename staging target : Action κ γ Unit) (fun _ _ => True)
      fun e _ => e = .os := by
    intro s _
    rcases hs : rename staging target s with ⟨e | u, s'⟩
    · exact rename_error hs
    · trivial
  have hboth := triple_bind hremove fun _ => hrename
  have hleft := hboth w trivial
  rw [← replaceTarget, hrun] at hleft
  exact hleft

/-- The tree that is in the staging directory once it has been exported, patched and given
its line endings. -/
def Completed (c : Checkout κ γ) (dep : Dependency) (commit : Text) (applyLocalPatches : Bool) (w : World κ γ)
    (t : Node Bytes) : Prop :=
  ∃ w', prepareStaging c dep commit applyLocalPatches (targetPath c.root dep) w = (.ok (), w') ∧
    Node.get (stagingPath (targetPath c.root dep) c.pid) w'.files = some t ∧
    ((applyLocalPatches = true → PatchesFixed c.root dep (targetPath c.root dep) w.files) →
      PlainlyStaged c dep commit applyLocalPatches w → ∃ n, freshFor c dep commit applyLocalPatches w = some (t, n))

def Separate (targets : List Path) (target : Path) : Prop :=
  ∀ path ∈ targets, path ≠ target → Node.Apart target path ∧ ¬ InZone target path

section Replacing

variable {w w' : World κ γ} {targets : List Path} {r : Except Failure Unit}

theorem staged_of_replaceTarget {pid : ℕ} (htarget : target ≠ [])
    (hrun : replaceTarget target (stagingPath target pid) w = (.ok (), w')) :
    ∃ t, Node.get (stagingPath target pid) w.files = some t := by
  obtain ⟨_, w₁, hremove, hrename⟩ := bind_ok hrun
  obtain ⟨t, ht, -, -⟩ := rename_ok hrename
  refine ⟨t, ?_⟩
  rcases removeIfExists_ok hremove with ⟨-, rfl⟩ | hremoved
  · exact ht
  · rwa [hremoved, Node.get_replace_apart (target_apart_staging htarget pid)] at ht

/-- A synchronisation puts its complete tree in place or leaves the target alone. -/
theorem syncDependency_cases (hne : targetPath c.root dep ≠ []) (hmem : targetPath c.root dep ∈ targets)
    (hsep : Separate targets (targetPath c.root dep))
    (hstays : ∀ s, c.root <+: targetPath c.root dep →
      fillStaging c dep commit flag (targetPath c.root dep) w = (.ok (), s) →
      NeverStrays c dep (stagingPath (targetPath c.root dep) c.pid) targets s)
    (hrun : syncDependency c dep commit flag w = (r, w')) (hos : r ≠ .error .os) :
    (∀ path ∈ targets, path ≠ targetPath c.root dep → SameBelow path w.files w'.files) ∧
      ((r = .ok () ∧ ∃ t, Completed c dep commit flag w t ∧ HoldsTree (targetPath c.root dep) t w'.files) ∨
        (∃ failure, r = .error failure) ∧ SameBelow (targetPath c.root dep) w.files w'.files) := by
  have hdot : dotDot ∉ targetPath c.root dep := dotDot_not_mem_resolve _
  have hbeside : ∀ path ∈ targets, path ≠ targetPath c.root dep → Beside (targetPath c.root dep) path :=
    fun path hpath hother => beside_of_apart (hsep path hpath hother).1 (hsep path hpath hother).2
  have hself := beside_self hne
  unfold syncDependency at hrun
  by_cases hroot : c.root <+: targetPath c.root dep
  · rw [if_pos hroot] at hrun
    have hprepared : ∀ path ∈ targets, SameBelow path w.files
        (prepareStaging c dep commit flag (targetPath c.root dep) w).2.files := by
      intro path hpath
      by_cases hother : path = targetPath c.root dep
      · rw [hother]
        exact prepareStaging_sameBelow hself hmem (hstays · hroot)
      · exact prepareStaging_sameBelow (hbeside path hpath hother) hpath (hstays · hroot)
    rcases hprepare : prepareStaging c dep commit flag (targetPath c.root dep) w with ⟨e | u, w₁⟩ <;>
      rw [hprepare] at hprepared
    · rw [error_bind hprepare] at hrun
      obtain ⟨rfl, rfl⟩ := Prod.mk.inj hrun
      exact ⟨fun path hpath _ => hprepared path hpath, .inr ⟨⟨e, rfl⟩, hprepared _ hmem⟩⟩
    · rw [ok_bind hprepare] at hrun
      rcases r with failure | u
      · exact absurd (congrArg Except.error (replaceTarget_error hrun)) hos
      obtain ⟨t, ht⟩ := staged_of_replaceTarget hne hrun
      refine ⟨fun path hpath hother => ?_, .inl ⟨rfl, t, ⟨w₁, hprepare, ht, ?_⟩, ?_⟩⟩
      · have hreplacing : Keeps (fun s : World κ γ => SameBelow path w.files s.files)
            (replaceTarget (targetPath c.root dep) (stagingPath (targetPath c.root dep) c.pid)) :=
          keeps_replaceTarget (hsep path hpath hother).1 (hbeside path hpath hother _ (.inr ⟨_, rfl⟩)) w.files
        have hreplaced := triple_left hreplacing (hprepared path hpath)
        rwa [hrun] at hreplaced
      · intro hfixed hplain
        obtain ⟨-, -, w₂, s₁, x, -, -, hx, hstaged⟩ := prepareStaging_ok hdot hfixed hplain hprepare
        have htree := hstaged.tree
        rw [Start.staging, startOf, ht] at htree
        exact ⟨x.2, by rw [hx, Option.some.inj htree]⟩
      · exact holdsTree_of_get (replaceTarget_ok hne c.pid ht hrun).1
  · rw [if_neg hroot] at hrun
    obtain ⟨rfl, rfl⟩ := Prod.mk.inj hrun
    exact ⟨fun path _ _ => sameBelow_refl path _, .inr ⟨⟨_, rfl⟩, sameBelow_refl _ _⟩⟩

end Replacing

/-- The entry of that name that a later run would read. -/
def entryOnDisk (loads : Bytes → Option RawManifest) (root : Path) (name : Text) (files : Node Bytes) : Option Entry :=
  (diskManifest loads root files).bind fun raw => raw.dependencies.find? fun e => e.name = name

def pinnedEntry (args : SyncArgs) (name commit : Text) (skipUpdate : Bool) (e : Entry) : Entry :=
  if e.name = name ∧ rewritesRef args skipUpdate = true then { e with ref := commit } else e

section Recording

variable {loads : Bytes → Option RawManifest} {args : SyncArgs} {raw : RawManifest} {w w' : World κ γ}
  {r : Except Failure Unit}

theorem entryOnDisk_of_recorded (h : Recorded loads c.root raw w) (name : Text) :
    entryOnDisk loads c.root name w.files = raw.dependencies.find? fun e => e.name = name := by
  rw [entryOnDisk, h.disk, Option.bind_some]

theorem stageDependency_run (c : Checkout κ γ) (dep : Dependency) (w : World κ γ) : ∃ repository, stageDependency c dep w =
    (if (c.git.add w.calls w.repository w.files [⟨true, manifestPath c.root⟩, dep.targetDir]).2 = true then .ok ()
      else .error (.process .add), { w with calls := w.calls + 1, repository := repository }) := by
  refine ⟨(c.git.add w.calls w.repository w.files [⟨true, manifestPath c.root⟩, dep.targetDir]).1, ?_⟩
  rw [stageDependency, nextCall_bind, observe_bind]
  rcases hadd : c.git.add w.calls w.repository w.files [⟨true, manifestPath c.root⟩, dep.targetDir] with
    ⟨repository, succeeded⟩
  cases succeeded <;> simp only [id, hadd] <;> rfl

variable (hroot : dotDot ∉ c.root) (hdumps : ∀ m, loads (normalizeLineEndings (c.dumps m)) = some m)
include hroot hdumps

theorem rewrite_run (args : SyncArgs) (commit : Text) (hrecorded : Recorded loads c.root raw w) {e : Entry} (he : e ∈ raw.dependencies)
    (hname : e.name = dep.name) : ∃ raw' w₁,
      (if rewritesRef args dep.skipUpdate then (do
          updateManifest dep.name commit
          writeManifest c)
        else pure () : Action κ γ Unit) w = (.ok (), w₁) ∧
      Recorded loads c.root raw' w₁ ∧
      (∀ name, entryOnDisk loads c.root name w₁.files =
        (entryOnDisk loads c.root name w.files).map (pinnedEntry args dep.name commit dep.skipUpdate)) ∧
      ∀ path, ¬ path <+: manifestPath c.root → SameBelow path w.files w₁.files := by
  by_cases hrewrites : rewritesRef args dep.skipUpdate = true
  · obtain ⟨es, hes⟩ := exists_updateRef he commit
    rw [hname] at hes
    obtain ⟨data, hget, -⟩ := exists_manifest hrecorded.disk
    have hmemory : updateManifest dep.name commit w = (.ok (), { w with manifest := { raw with dependencies := es } }) := by
      rw [updateManifest, observe_bind, hrecorded.memory, updateManifestRef, hes]
      rfl
    have hwrite := writeManifest_run (w := { w with manifest := { raw with dependencies := es } }) hroot hget
    generalize hw₁ : World.edit _ _ _ = w₁ at hwrite
    have hfiles : w₁.files = Node.replace (manifestPath c.root) (some (.file (c.dumps { raw with dependencies := es })))
        w.files := by rw [← hw₁]; rfl
    have hnew : Recorded loads c.root { raw with dependencies := es } w₁ := by
      refine ⟨by rw [← hw₁]; rfl, ?_⟩
      rw [hfiles]
      exact diskManifest_of_get (Node.get_replace_of_get hget _) (hdumps _)
    refine ⟨_, w₁, ?_, hnew, fun name => ?_, fun path hpath => ?_⟩
    · rw [if_pos hrewrites, ok_bind hmemory, hwrite]
    · rw [entryOnDisk_of_recorded hnew, entryOnDisk_of_recorded hrecorded, find?_updateRef hes]
      congr 1
      funext e
      simp only [pinnedEntry, hrewrites, and_true]
    · rw [hfiles]
      exact sameBelow_rewrite hget fun hle => absurd hle hpath
  · refine ⟨raw, w, by rw [if_neg hrewrites]; rfl, hrecorded, fun name => ?_, fun path _ => sameBelow_refl path _⟩
    have hid : pinnedEntry args dep.name commit dep.skipUpdate = id := by
      funext e
      rw [pinnedEntry, if_neg fun h => hrewrites h.2]
      rfl
    rw [hid, Option.map_id]
    rfl

/-- Once the tree is in place only `git add` may stop the run, and the manifest is written before. -/
theorem recordSync_cases (hrecorded : Recorded loads c.root raw w) {e : Entry} (he : e ∈ raw.dependencies)
    (hname : e.name = dep.name) (hrun : recordSync c args dep commit w = (r, w')) :
    (r = .ok () ∨ r = .error (.process .add)) ∧ (∃ raw', Recorded loads c.root raw' w') ∧
      (∀ name, entryOnDisk loads c.root name w'.files =
        (entryOnDisk loads c.root name w.files).map (pinnedEntry args dep.name commit dep.skipUpdate)) ∧
      ∀ path, ¬ path <+: manifestPath c.root → SameBelow path w.files w'.files := by
  obtain ⟨raw', w₁, hfirst, hrecorded', hentries, hsame⟩ :=
    rewrite_run hroot hdumps args commit hrecorded he hname
  rw [recordSync, ok_bind hfirst] at hrun
  by_cases hupdate : args.update = true
  · rw [if_pos hupdate] at hrun
    obtain ⟨repository, hstage⟩ := stageDependency_run c dep w₁
    obtain ⟨rfl, rfl⟩ := Prod.mk.inj (hstage.symm.trans hrun)
    refine ⟨?_, ⟨raw', hrecorded'.memory, hrecorded'.disk⟩, hentries, hsame⟩
    split
    · exact .inl rfl
    · exact .inr rfl
  · rw [if_neg hupdate] at hrun
    obtain ⟨rfl, rfl⟩ := Prod.mk.inj hrun
    exact ⟨.inl rfl, ⟨raw', hrecorded'⟩, hentries, hsame⟩

end Recording

def Untouched (loads : Bytes → Option RawManifest) (root : Path) (dep : Dependency) (w w' : World κ γ) : Prop :=
  SameBelow (targetPath root dep) w.files w'.files ∧
    entryOnDisk loads root dep.name w'.files = entryOnDisk loads root dep.name w.files

/-- The target has the complete tree of the commit that the ref resolved to at the turn of the
dependency, and its entry on disk that commit if it is rewritten. -/
def Renewed (loads : Bytes → Option RawManifest) (c : Checkout κ γ) (args : SyncArgs) (dep : Dependency)
    (start turn w' : World κ γ) : Prop :=
  ∃ commit w₁ t, resolveFor c args dep turn = (.ok commit, w₁) ∧ Completed c dep commit (!args.update) w₁ t ∧
    HoldsTree (targetPath c.root dep) t w'.files ∧
    entryOnDisk loads c.root dep.name w'.files =
      (entryOnDisk loads c.root dep.name start.files).map (pinnedEntry args dep.name commit dep.skipUpdate)

section Turn

variable {loads : Bytes → Option RawManifest} {args : SyncArgs} {raw : RawManifest} {targets : List Path}
  {start w w' w'' : World κ γ} {r : Except Failure Unit}

theorem Untouched.trans (h : Untouched loads c.root dep w w') (h' : Untouched loads c.root dep w' w'') :
    Untouched loads c.root dep w w'' :=
  ⟨h.1.trans h'.1, h'.2.trans h.2⟩

theorem Renewed.trans {turn : World κ γ} (h : Renewed loads c args dep start turn w')
    (h' : Untouched loads c.root dep w' w'') : Renewed loads c args dep start turn w'' := by
  obtain ⟨commit, w₁, t, hresolve, hcomplete, htree, hentry⟩ := h
  exact ⟨commit, w₁, t, hresolve, hcomplete, htree.same h'.1, h'.2.trans hentry⟩

theorem Renewed.from {turn : World κ γ} (h : Renewed loads c args dep turn turn w')
    (h' : Untouched loads c.root dep start turn) : Renewed loads c args dep start turn w' := by
  obtain ⟨commit, w₁, t, hresolve, hcomplete, htree, hentry⟩ := h
  exact ⟨commit, w₁, t, hresolve, hcomplete, htree, hentry.trans (by rw [h'.2])⟩

/-- The new ref is looked at by nothing that follows in the same turn. -/
theorem syncOne_eq : syncOne c args dep = resolveFor c args dep >>= fun resolved =>
    syncDependency c dep resolved (!args.update) >>= fun _ => recordSync c args dep resolved := by
  unfold syncOne
  congr 1
  funext resolved
  dsimp only
  split <;> rfl

variable (hroot : dotDot ∉ c.root) (hdumps : ∀ m, loads (normalizeLineEndings (c.dumps m)) = some m)
include hroot hdumps

/-- The turn of a dependency renews it or leaves it alone, and leaves all others alone. -/
theorem syncOne_cases (hrecorded : Recorded loads c.root raw w) {e : Entry} (he : e ∈ raw.dependencies)
    (hname : e.name = dep.name) (hmem : targetPath c.root dep ∈ targets)
    (hsep : Separate targets (targetPath c.root dep))
    (hmanifest : ∀ path ∈ targets, ¬ path <+: manifestPath c.root)
    (hstays : ∀ commit w₁ w₂, resolveFor c args dep w = (.ok commit, w₁) → c.root <+: targetPath c.root dep →
      fillStaging c dep commit (!args.update) (targetPath c.root dep) w₁ = (.ok (), w₂) →
      NeverStrays c dep (stagingPath (targetPath c.root dep) c.pid) targets w₂)
    (hrun : syncOne c args dep w = (r, w')) (hos : r ≠ .error .os) :
    (∃ raw', Recorded loads c.root raw' w') ∧
      (∀ path ∈ targets, path ≠ targetPath c.root dep → SameBelow path w.files w'.files) ∧
      (∀ name, name ≠ dep.name → entryOnDisk loads c.root name w'.files = entryOnDisk loads c.root name w.files) ∧
      (((r = .ok () ∨ r = .error (.process .add)) ∧ Renewed loads c args dep w w w') ∨
        (∃ failure, r = .error failure) ∧ Untouched loads c.root dep w w') := by
  have hkeep : Keeps (fun s => s.files = w.files ∧ s.manifest = w.manifest) (resolveFor c args dep) :=
    keeps_resolveFor args dep (fun _ hs => hs) fun _ _ _ hs => hs
  have hleft := triple_left hkeep ⟨rfl, rfl⟩
  rw [syncOne_eq] at hrun
  rcases hresolve : resolveFor c args dep w with ⟨failure | commit, w₁⟩ <;> rw [hresolve] at hleft <;>
    obtain ⟨hfiles, hmemory⟩ := hleft
  · rw [error_bind hresolve] at hrun
    obtain ⟨rfl, rfl⟩ := Prod.mk.inj hrun
    rw [← hfiles]
    exact ⟨⟨raw, hmemory.trans hrecorded.memory, by rw [hfiles, hrecorded.disk]⟩, fun path _ _ => sameBelow_refl path _,
      fun name _ => rfl, .inr ⟨⟨failure, rfl⟩, by rw [Untouched, hfiles]; exact ⟨sameBelow_refl _ _, rfl⟩⟩⟩
  · rw [ok_bind hresolve] at hrun
    have hrecorded₁ : Recorded loads c.root raw w₁ :=
      ⟨hmemory.trans hrecorded.memory, by rw [hfiles, hrecorded.disk]⟩
    have htarget : targetPath c.root dep ≠ c.root := by
      intro heq
      refine hmanifest _ hmem ?_
      rw [heq]
      exact (manifestPath_below c.root).1
    have hne : targetPath c.root dep ≠ [] := by
      intro heq
      refine hmanifest _ hmem ?_
      rw [heq]
      exact List.nil_prefix
    have hsyncing : Keeps (Recorded loads c.root raw) (syncDependency c dep commit (!args.update)) :=
      recorded_syncDependency htarget commit _
    have hkept := triple_left hsyncing hrecorded₁
    rcases hsync : syncDependency c dep commit (!args.update) w₁ with ⟨failure | u, w₂⟩ <;> rw [hsync] at hkept
    · rw [error_bind hsync] at hrun
      obtain ⟨rfl, rfl⟩ := Prod.mk.inj hrun
      obtain ⟨hothers, hcases⟩ := syncDependency_cases hne hmem hsep (hstays commit w₁ · hresolve) hsync hos
      have hsame : SameBelow (targetPath c.root dep) w₁.files w₂.files := by
        rcases hcases with ⟨hok, -⟩ | ⟨-, hsame⟩
        · cases hok
        · exact hsame
      have hentries : ∀ name, entryOnDisk loads c.root name w₂.files = entryOnDisk loads c.root name w.files := by
        intro name
        rw [entryOnDisk_of_recorded hkept, entryOnDisk_of_recorded hrecorded]
      rw [← hfiles]
      refine ⟨⟨raw, hkept⟩, hothers, fun name _ => ?_, .inr ⟨⟨failure, rfl⟩, ?_, hentries _⟩⟩
      · rw [hfiles]
        exact hentries name
      · rw [← hfiles]
        exact hsame
    · rw [ok_bind hsync] at hrun
      obtain ⟨hothers, hcases⟩ := syncDependency_cases hne hmem hsep (hstays commit w₁ · hresolve) hsync (nofun)
      obtain ⟨t, hcomplete, htree⟩ : ∃ t, Completed c dep commit (!args.update) w₁ t ∧
          HoldsTree (targetPath c.root dep) t w₂.files := by
        rcases hcases with ⟨-, hdone⟩ | ⟨⟨failure, hfail⟩, -⟩
        · exact hdone
        · cases hfail
      obtain ⟨hr, hrecorded', hentries, hsame⟩ := recordSync_cases hroot hdumps hkept he hname hrun
      have hentries₂ : ∀ name, entryOnDisk loads c.root name w₂.files = entryOnDisk loads c.root name w.files := by
        intro name
        rw [entryOnDisk_of_recorded hkept, entryOnDisk_of_recorded hrecorded]
      rw [← hfiles]
      refine ⟨hrecorded', fun path hpath hother => (hothers path hpath hother).trans (hsame path (hmanifest path hpath)),
        fun name hother => ?_, .inl ⟨hr, commit, w₁, t, hresolve, hcomplete, htree.same (hsame _ (hmanifest _ hmem)), ?_⟩⟩
      · rw [hentries, hentries₂, hfiles]
        cases hfind : entryOnDisk loads c.root name w.files with
        | none => rfl
        | some d =>
          rw [entryOnDisk_of_recorded hrecorded] at hfind
          have hd : d.name = name := by simpa using List.find?_some hfind
          rw [Option.map_some, pinnedEntry, if_neg fun h => hother (hd.symm.trans h.1)]
      · rw [hentries, hentries₂]

end Turn

def targets (root : Path) (raw : RawManifest) : List Path :=
  raw.dependencies.map fun e => targetPath root (dependencyOf e)

/-- No target meets another one or lies among its staging directories, and none contains the manifest. -/
structure SeparateTargets (root : Path) (raw : RawManifest) : Prop where
  apart : ∀ e ∈ raw.dependencies, ∀ d ∈ raw.dependencies, e ≠ d →
    Node.Apart (targetPath root (dependencyOf e)) (targetPath root (dependencyOf d)) ∧
      ¬ InZone (targetPath root (dependencyOf e)) (targetPath root (dependencyOf d))
  manifest : ∀ path ∈ targets root raw, ¬ path <+: manifestPath root

/-- Whenever the run restores line endings, no turn of a tracked path changes a file in a target. -/
def RestoresOutside (c : Checkout κ γ) (args : SyncArgs) (raw : RawManifest) (dependencies : List Dependency)
    (w : World κ γ) : Prop :=
  ∀ before dep after turn commit w₁ w₂, dependencies = before ++ dep :: after →
    before.forM (syncOne c args) w = (.ok ⟨⟩, turn) → resolveFor c args dep turn = (.ok commit, w₁) →
    c.root <+: targetPath c.root dep →
    fillStaging c dep commit (!args.update) (targetPath c.root dep) w₁ = (.ok (), w₂) →
    NeverStrays c dep (stagingPath (targetPath c.root dep) c.pid) (targets c.root raw) w₂

/-- The dependencies handled have been renewed, each at its turn, and all others are untouched. -/
structure Handled (loads : Bytes → Option RawManifest) (c : Checkout κ γ) (args : SyncArgs) (raw : RawManifest)
    (start : World κ γ) (done : List Dependency) (w : World κ γ) : Prop where
  recorded : ∃ raw', Recorded loads c.root raw' w
  renewed : ∀ earlier dep later, done = earlier ++ dep :: later → ∃ turn,
    earlier.forM (syncOne c args) start = (.ok ⟨⟩, turn) ∧ Renewed loads c args dep start turn w
  others : ∀ e ∈ raw.dependencies, dependencyOf e ∉ done → Untouched loads c.root (dependencyOf e) start w

/-- The run was stopped in the turn of a dependency, which is untouched, or renewed where only
`git add` has failed. -/
def StoppedBetween (loads : Bytes → Option RawManifest) (c : Checkout κ γ) (args : SyncArgs) (raw : RawManifest)
    (dependencies : List Dependency) (start : World κ γ) (failure : Failure) (w : World κ γ) : Prop :=
  ∃ before dep after turn, dependencies = before ++ dep :: after ∧
    before.forM (syncOne c args) start = (.ok ⟨⟩, turn) ∧ syncOne c args dep turn = (.error failure, w) ∧
    (Handled loads c args raw start before w ∨
      failure = .process .add ∧ Handled loads c args raw start (before ++ [dep]) w)

section Run

variable {loads : Bytes → Option RawManifest} {args : SyncArgs} {raw : RawManifest}
  {dependencies : List Dependency} {start : World κ γ}

theorem entry_eq_of_name (hnames : (raw.dependencies.map Entry.name).Nodup) {e d : Entry} (he : e ∈ raw.dependencies)
    (hd : d ∈ raw.dependencies) (h : e.name = d.name) : e = d :=
  List.inj_on_of_nodup_map hnames he hd h

theorem separate_target (hsep : SeparateTargets c.root raw) {e : Entry} (he : e ∈ raw.dependencies) :
    Separate (targets c.root raw) (targetPath c.root (dependencyOf e)) := by
  intro path hpath hother
  obtain ⟨d, hd, rfl⟩ := List.mem_map.1 hpath
  exact hsep.apart e he d hd fun heq => hother (by rw [heq])

/-- An untouched dependency, as the turn of another one sees it. -/
theorem untouched_of_turn (hnames : (raw.dependencies.map Entry.name).Nodup) (hsep : SeparateTargets c.root raw)
    {e d : Entry} (he : e ∈ raw.dependencies) (hd : d ∈ raw.dependencies) (hne : e ≠ d) {w w' : World κ γ}
    (htrees : ∀ path ∈ targets c.root raw, path ≠ targetPath c.root (dependencyOf e) → SameBelow path w.files w'.files)
    (hentries : ∀ name, name ≠ e.name →
      entryOnDisk loads c.root name w'.files = entryOnDisk loads c.root name w.files) :
    Untouched loads c.root (dependencyOf d) w w' := by
  refine ⟨htrees _ (List.mem_map.2 ⟨d, hd, rfl⟩) fun heq => ?_, hentries _ fun heq => ?_⟩
  · have hapart := (hsep.apart e he d hd hne).1.1
    rw [heq] at hapart
    exact hapart (List.prefix_refl _)
  · exact hne (entry_eq_of_name hnames he hd heq.symm)

variable (hroot : dotDot ∉ c.root) (hdumps : ∀ m, loads (normalizeLineEndings (c.dumps m)) = some m)
  (hnames : (raw.dependencies.map Entry.name).Nodup) (hsep : SeparateTargets c.root raw)
  (hentries : ∀ dep ∈ dependencies, ∃ e ∈ raw.dependencies, dep = dependencyOf e) (hnodup : dependencies.Nodup)
  (hstart : Recorded loads c.root raw start) (houtside : RestoresOutside c args raw dependencies start)
include hroot hdumps hnames hsep hentries hnodup hstart houtside

theorem handled_turn {done later : List Dependency} {dep : Dependency} (hsplit : dependencies = done ++ dep :: later)
    {turn w : World κ γ} (hreached : done.forM (syncOne c args) start = (.ok ⟨⟩, turn))
    (hhandled : Handled loads c args raw start done turn) {r : Except Failure Unit}
    (hrun : syncOne c args dep turn = (r, w)) (hos : r ≠ .error .os) :
    ((r = .ok () ∨ r = .error (.process .add)) ∧ Handled loads c args raw start (done ++ [dep]) w) ∨
      (∃ failure, r = .error failure) ∧ Handled loads c args raw start done w := by
  obtain ⟨e, he, rfl⟩ := hentries dep (hsplit ▸ List.mem_append_right _ List.mem_cons_self)
  have hfresh : dependencyOf e ∉ done := by
    rw [hsplit, List.nodup_append] at hnodup
    exact fun hmem => hnodup.2.2 _ hmem _ List.mem_cons_self rfl
  have huntouched := hhandled.others e he hfresh
  obtain ⟨raw', hrecorded⟩ := hhandled.recorded
  obtain ⟨e', he', hname⟩ : ∃ e' ∈ raw'.dependencies, e'.name = (dependencyOf e).name := by
    have hfound := huntouched.2
    rw [entryOnDisk_of_recorded hrecorded, entryOnDisk_of_recorded hstart] at hfound
    have hsome : (raw.dependencies.find? fun d => d.name = (dependencyOf e).name).isSome = true :=
      List.find?_isSome.2 ⟨e, he, decide_eq_true rfl⟩
    rw [← hfound] at hsome
    obtain ⟨e', hfind⟩ := Option.isSome_iff_exists.1 hsome
    exact ⟨e', List.mem_of_find?_eq_some hfind, by simpa using List.find?_some hfind⟩
  have hmem : targetPath c.root (dependencyOf e) ∈ targets c.root raw := List.mem_map.2 ⟨e, he, rfl⟩
  obtain ⟨hrecorded', htrees, hrefs, hcases⟩ := syncOne_cases hroot hdumps hrecorded he' hname
    hmem (separate_target hsep he) hsep.manifest
    (fun commit w₁ w₂ => houtside done _ later turn commit w₁ w₂ hsplit hreached) hrun hos
  have hothers : ∀ d ∈ raw.dependencies, d ≠ e → Untouched loads c.root (dependencyOf d) turn w :=
    fun d hd hne => untouched_of_turn hnames hsep he hd (Ne.symm hne) htrees hrefs
  have hearlier : ∀ earlier dep later, done = earlier ++ dep :: later → ∃ turn,
      earlier.forM (syncOne c args) start = (.ok ⟨⟩, turn) ∧ Renewed loads c args dep start turn w := by
    intro earlier dep later' hdone
    obtain ⟨turn', hreached', hrenewed⟩ := hhandled.renewed earlier dep later' hdone
    have hdep : dep ∈ done := hdone ▸ List.mem_append_right _ List.mem_cons_self
    obtain ⟨d, hd, rfl⟩ := hentries dep (hsplit ▸ List.mem_append_left _ hdep)
    refine ⟨turn', hreached', hrenewed.trans (hothers d hd ?_)⟩
    rintro rfl
    exact hfresh hdep
  rcases hcases with ⟨hr, hrenewed⟩ | ⟨hr, hself⟩
  · refine .inl ⟨hr, hrecorded', fun earlier dep later' hdone => ?_, fun d hd hnot => ?_⟩
    · rcases List.eq_nil_or_concat later' with rfl | ⟨rest, last, rfl⟩
      · obtain ⟨rfl, hlast⟩ := List.append_inj' hdone rfl
        obtain rfl := List.singleton_injective hlast
        exact ⟨turn, hreached, hrenewed.from huntouched⟩
      · rw [List.concat_eq_append, ← List.cons_append, ← List.append_assoc] at hdone
        exact hearlier earlier dep rest (List.append_inj' hdone rfl).1
    · rw [List.mem_append, not_or] at hnot
      refine (hhandled.others d hd hnot.1).trans (hothers d hd ?_)
      rintro rfl
      exact hnot.2 (List.mem_singleton.2 rfl)
  · refine .inr ⟨hr, hrecorded', hearlier, fun d hd hnot => (hhandled.others d hd hnot).trans ?_⟩
    by_cases hne : d = e
    · rw [hne]
      exact hself
    · exact hothers d hd hne

/-- Over the whole loop: it ends with all dependencies handled, or it is stopped between two. -/
theorem handled_forM : Triple (fun w => w = start) (dependencies.forM (syncOne c args))
    (fun _ w => Handled loads c args raw start dependencies w)
    fun failure w => failure ≠ .os → StoppedBetween loads c args raw dependencies start failure w := by
  have hbegin : Handled loads c args raw start [] start := by
    refine ⟨⟨raw, hstart⟩, fun _ _ _ hsplit => ?_, fun _ _ _ => ⟨sameBelow_refl _ _, rfl⟩⟩
    simp at hsplit
  refine triple_forM_reached (fun done w => Handled loads c args raw start done w) hbegin ?_
  rintro done dep later _ hsplit hreached hhandled turn rfl
  have hturn {r : Except Failure Unit} {w : World κ γ} := handled_turn (r := r) (w := w) hroot hdumps hnames hsep
    hentries hnodup hstart houtside hsplit hreached hhandled
  rcases hrun : syncOne c args dep turn with ⟨failure | u, w⟩
  · intro hos
    refine ⟨done, dep, later, turn, hsplit, hreached, hrun, ?_⟩
    rcases hturn hrun fun h => hos (Except.error.inj h) with ⟨hok | hadd, hnext⟩ | ⟨-, hsame⟩
    · cases hok
    · exact .inr ⟨Except.error.inj hadd, hnext⟩
    · exact .inl hsame
  · rcases hturn hrun nofun with ⟨-, hnext⟩ | ⟨⟨failure, hfail⟩, -⟩
    · exact hnext
    · cases hfail

end Run

/-- What the shipped manifest and a command line without repetitions guarantee. -/
structure Orderly (loads : Bytes → Option RawManifest) (c : Checkout κ γ) (args : SyncArgs) (w : World κ γ) : Prop where
  root : dotDot ∉ c.root
  dumps : ∀ m, loads (normalizeLineEndings (c.dumps m)) = some m
  disk : diskManifest loads c.root w.files = some w.manifest
  names : (w.manifest.dependencies.map Entry.name).Nodup
  separate : SeparateTargets c.root w.manifest
  selection : args.names.Nodup

/-- A run that a command stops leaves every dependency as it was or completely renewed. -/
def FailureAtomic (loads : Bytes → Option RawManifest) (c : Checkout κ γ) (args : SyncArgs) (w : World κ γ) : Prop :=
  ∀ dependencies failure w', selectDependencies (loadManifest w.manifest) args.names args.all = .selected dependencies →
    cmdSync c args w = (.error failure, w') → failure ≠ .os → failure ≠ .systemExit →
    StoppedBetween loads c args w.manifest dependencies w failure w'

section Command

variable {loads : Bytes → Option RawManifest} {args : SyncArgs} {dependencies : List Dependency} {w w' : World κ γ}

theorem cmdSync_run (hselect : selectDependencies (loadManifest w.manifest) args.names args.all = .selected dependencies)
    {r : Except Failure Unit} (hrun : cmdSync c args w = (r, w')) (hargs : r ≠ .error .systemExit) :
    dependencies.forM (syncOne c args) w = (r, w') := by
  rw [cmdSync, observe_bind, hselect] at hrun
  dsimp only at hrun
  split at hrun
  · exact absurd (congrArg Prod.fst hrun).symm hargs
  · split at hrun
    · exact absurd (congrArg Prod.fst hrun).symm hargs
    · exact hrun

theorem handled_cmdSync (h : Orderly loads c args w)
    (hselect : selectDependencies (loadManifest w.manifest) args.names args.all = .selected dependencies)
    (houtside : RestoresOutside c args w.manifest dependencies w) :
    Triple (fun s => s = w) (dependencies.forM (syncOne c args))
      (fun _ s => Handled loads c args w.manifest w dependencies s)
      fun failure s => failure ≠ .os → StoppedBetween loads c args w.manifest dependencies w failure s :=
  handled_forM h.root h.dumps h.names h.separate (fun _ => exists_entry_of_selected hselect)
    (selected_nodup h.names h.selection hselect) ⟨rfl, h.disk⟩ houtside

theorem stopped_cmdSync (h : Orderly loads c args w)
    (hselect : selectDependencies (loadManifest w.manifest) args.names args.all = .selected dependencies)
    (houtside : RestoresOutside c args w.manifest dependencies w) {failure : Failure}
    (hrun : cmdSync c args w = (.error failure, w')) (hos : failure ≠ .os) (hargs : failure ≠ .systemExit) :
    StoppedBetween loads c args w.manifest dependencies w failure w' := by
  have hloop := cmdSync_run hselect hrun fun heq => hargs (Except.error.inj heq)
  have hfinal := handled_cmdSync h hselect houtside w rfl
  rw [hloop] at hfinal
  exact hfinal hos

theorem failure_atomic (h : Orderly loads c args w)
    (houtside : ∀ dependencies, selectDependencies (loadManifest w.manifest) args.names args.all = .selected dependencies →
      RestoresOutside c args w.manifest dependencies w) : FailureAtomic loads c args w :=
  fun dependencies _ _ hselect hrun hos hargs => stopped_cmdSync h hselect (houtside dependencies hselect) hrun hos hargs

end Command

section Plain

variable {args : SyncArgs} {raw : RawManifest}

theorem inside_recordSync (hroot : dotDot ∉ c.root) (commit : Text) :
    Keeps (fun w => Inside c.root w.files w.log) (recordSync c args dep commit) := by
  have hmanifest : Keeps (fun w => Inside c.root w.files w.log) (updateManifest dep.name commit : Action κ γ Unit) := by
    refine keeps_bind (keeps_observe _) fun raw => ?_
    cases updateManifestRef raw dep.name commit with
    | none => exact keeps_raise _
    | some raw' => exact keeps_update fun _ hw => hw
  have hwrite : Keeps (fun w => Inside c.root w.files w.log) (writeManifest c) := by
    refine keeps_bind (keeps_observe _) fun raw w hw => ?_
    have hdot : dotDot ∉ manifestPath c.root := by
      intro hm
      rcases List.mem_append.1 hm with hm | hm
      · exact hroot hm
      · exact absurd (List.mem_singleton.1 hm) (by decide +kernel)
    rw [writeBytes]
    cases hfollow : Node.follow w.files Node.maxLinks [] (manifestPath c.root) with
    | none => exact hw
    | some place =>
      obtain rfl : place = manifestPath c.root := Node.follow_linkFree (hw.links.linkFree [] _) hdot hfollow
      have hplace : ∀ data event, event.paths = [manifestPath c.root] →
          Inside c.root (Node.replace (manifestPath c.root) (some (.file data)) w.files) (event :: w.log) := by
        intro data event hpaths
        refine hw.edit (manifestPath_below c.root) (fun _ hc => Option.some.inj hc ▸ noLinks_file data) fun p hp => ?_
        rw [hpaths] at hp
        exact List.mem_singleton.1 hp ▸ manifestPath_below c.root
      dsimp only
      rcases Node.get (manifestPath c.root) w.files with _ | t
      · exact hplace _ _ rfl
      · cases t with
        | file before => exact hplace _ _ rfl
        | link target => exact hw
        | dir cs => exact hw
  refine keeps_bind (keeps_ite (fun _ => keeps_bind hmanifest fun _ => hwrite) fun _ => keeps_pure _) fun _ => ?_
  refine keeps_ite (fun _ => ?_) fun _ => keeps_pure _
  refine keeps_bind (keeps_nextCall fun _ hw => hw) fun n => keeps_bind (keeps_observe _) fun w => ?_
  exact keeps_bind (keeps_update fun _ hw => hw) fun _ => keeps_check _ _

theorem inside_syncOne (hgit : PlainGit c.git) (hroot : dotDot ∉ c.root) (htarget : targetPath c.root dep ≠ c.root) :
    Keeps (fun w => Inside c.root w.files w.log) (syncOne c args dep) := by
  rw [syncOne_eq]
  refine keeps_bind (keeps_resolveFor args dep (fun _ hw => hw) fun _ _ _ hw => hw) fun commit => ?_
  exact keeps_bind (inside_syncDependency hgit htarget commit _) fun _ => inside_recordSync hroot commit

theorem neverStrays_of_inside (hgit : PlainGit c.git) {w : World κ γ} (hw : Inside c.root w.files w.log)
    (hbelow : Below c.root (targetPath c.root dep)) {paths : List Path}
    (hpaths : ∀ path ∈ paths, Beside (targetPath c.root dep) path) :
    NeverStrays c dep (stagingPath (targetPath c.root dep) c.pid) paths w := by
  have hunharmed : Unharmed c dep (targetPath c.root dep) fun w => Inside c.root w.files w.log :=
    unharmed_inside hgit (dotDot_not_mem_resolve _) hbelow
  rintro entry s ⟨listing, done, later, hlist, hsplit, hreached⟩ ⟨place, data, after, hstaged, ⟨path, hpath, hle⟩, -⟩
  have htracked : ∀ e ∈ (trackedEolInfo listing).entries, Tracked c dep e.1 := fun e he =>
    ⟨w.calls, w.repository, listing, e.2, hlist, mem_listing_of_mem_entries he⟩
  have hinside : Keeps (fun s => Inside c.root s.files s.log)
      (done.forM (restoreEntry c dep (stagingPath (targetPath c.root dep) c.pid))) := by
    refine keeps_forM fun e he => keeps_restoreEntry c (fun _ hs => hs) fun s place data after hplace hnorm hs => ?_
    exact hunharmed.rewritten s e.1 place data after (htracked e (hsplit ▸ List.mem_append_left _ he)) hplace hnorm hs
  have hs := triple_left hinside (s := { w with calls := w.calls + 1 }) hw
  rw [hreached] at hs
  have hentry := htracked entry (hsplit ▸ List.mem_append_right _ List.mem_cons_self)
  have hplace := staged_place hgit hentry (dotDot_not_mem_stagingPath (dotDot_not_mem_resolve _) c.pid) hs.links hstaged
  have hapart := hpaths path hpath _ (.inr ⟨str c.pid, rfl⟩)
  rcases List.prefix_or_prefix_of_prefix hle hplace with hab | hba
  · exact hapart.2 hab
  · exact hapart.1 hba

/-- In a checkout without links no run changes a target from the staging directory of another one. -/
theorem restoresOutside_of_inside (hgit : PlainGit c.git) (hroot : dotDot ∉ c.root) (hsep : SeparateTargets c.root raw)
    {dependencies : List Dependency} (hentries : ∀ dep ∈ dependencies, ∃ e ∈ raw.dependencies, dep = dependencyOf e)
    {w : World κ γ} (hw : Inside c.root w.files w.log) : RestoresOutside c args raw dependencies w := by
  have htarget : ∀ dep ∈ dependencies, targetPath c.root dep ≠ c.root := by
    intro dep hdep heq
    obtain ⟨e, he, rfl⟩ := hentries dep hdep
    refine hsep.manifest _ (List.mem_map.2 ⟨e, he, rfl⟩) ?_
    rw [heq]
    exact (manifestPath_below c.root).1
  intro before dep after turn commit w₁ w₂ hsplit hreached hresolve hguard hfill
  have hdep : dep ∈ dependencies := hsplit ▸ List.mem_append_right _ List.mem_cons_self
  obtain ⟨e, he, rfl⟩ := hentries dep hdep
  have hloop : Keeps (fun w => Inside c.root w.files w.log) (before.forM (syncOne c args)) :=
    keeps_forM fun d hd => inside_syncOne hgit hroot (htarget d (hsplit ▸ List.mem_append_left _ hd))
  have hturn := triple_left hloop hw
  rw [hreached] at hturn
  have hresolving : Keeps (fun w => Inside c.root w.files w.log) (resolveFor c args (dependencyOf e)) :=
    keeps_resolveFor args _ (fun _ hw => hw) fun _ _ _ hw => hw
  have hresolved := triple_left hresolving hturn
  rw [hresolve] at hresolved
  have hbelow : Below c.root (targetPath c.root (dependencyOf e)) := ⟨hguard, htarget _ hdep⟩
  have hunharmed : Unharmed c (dependencyOf e) (targetPath c.root (dependencyOf e)) fun w =>
      Inside c.root w.files w.log := unharmed_inside hgit (dotDot_not_mem_resolve _) hbelow
  have hfilling : Keeps (fun w => Inside c.root w.files w.log)
      (fillStaging c (dependencyOf e) commit (!args.update) (targetPath c.root (dependencyOf e))) :=
    keeps_fillStaging hunharmed.toStagingEdits
  have hfilled := triple_left hfilling hresolved
  rw [hfill] at hfilled
  refine neverStrays_of_inside hgit hfilled hbelow fun path hpath => ?_
  by_cases hself : path = targetPath c.root (dependencyOf e)
  · rw [hself]
    exact beside_self hbelow.ne_nil
  · have hother := separate_target hsep he path hpath hself
    exact beside_of_apart hother.1 hother.2

end Plain

section LinkFree

variable {loads : Bytes → Option RawManifest} {args : SyncArgs} {dependencies : List Dependency} {w w' : World κ γ}

theorem restoresOutside_cmdSync (h : Orderly loads c args w) (hgit : PlainGit c.git) (hinside : Inside c.root w.files w.log)
    (hselect : selectDependencies (loadManifest w.manifest) args.names args.all = .selected dependencies) :
    RestoresOutside c args w.manifest dependencies w :=
  restoresOutside_of_inside hgit h.root h.separate (fun _ => exists_entry_of_selected hselect) hinside

theorem stopped_between (h : Orderly loads c args w) (hgit : PlainGit c.git) (hinside : Inside c.root w.files w.log)
    (hselect : selectDependencies (loadManifest w.manifest) args.names args.all = .selected dependencies)
    {failure : Failure} (hrun : cmdSync c args w = (.error failure, w')) (hos : failure ≠ .os)
    (hargs : failure ≠ .systemExit) : StoppedBetween loads c args w.manifest dependencies w failure w' :=
  stopped_cmdSync h hselect (restoresOutside_cmdSync h hgit hinside hselect) hrun hos hargs

theorem all_renewed (h : Orderly loads c args w) (hgit : PlainGit c.git) (hinside : Inside c.root w.files w.log)
    (hselect : selectDependencies (loadManifest w.manifest) args.names args.all = .selected dependencies)
    (hrun : cmdSync c args w = (.ok (), w')) : Handled loads c args w.manifest w dependencies w' := by
  have hloop := cmdSync_run hselect hrun nofun
  have hfinal := handled_cmdSync h hselect (restoresOutside_cmdSync h hgit hinside hselect) w rfl
  rw [hloop] at hfinal
  exact hfinal

end LinkFree

theorem not_reserved {target : Path} {n : Name} (hne : n ≠ nameOf target) (hdot : n.head? ≠ some '.') :
    ¬ Reserved target n := by
  rintro (hname | hmatch | ⟨suffix, rfl⟩)
  · exact hne hname
  · exact hdot (head_of_fnmatch_dot hmatch)
  · exact hdot rfl

theorem not_inZone_sibling {parent : Path} {n m : Name} (hne : m ≠ n) (hdot : m.head? ≠ some '.') :
    ¬ InZone (parent ++ [n]) (parent ++ [m]) := by
  rintro ⟨k, hk, hle⟩
  rw [List.dropLast_concat] at hle
  obtain rfl : k = m := List.singleton_injective (List.append_cancel_left (hle.eq_of_length (by simp)))
  refine not_reserved ?_ hdot hk
  rw [nameOf, List.getLast?_concat]
  exact hne

def pairManifest (first second : String) : RawManifest := ⟨[plainEntry "d" first "a", plainEntry "e" second "b"], []⟩

def pairManifests : List RawManifest := [pairManifest "v1" "v1", pairManifest "c2" "v1", pairManifest "c2" "c2"]

def pairListing : List (Text × Text) := [("a/f".toList, "crlf".toList), ("b/f".toList, "crlf".toList)]

/-- The `tar` of one call may fail. The file is tracked with the other line ending. -/
def pairCheckout (failing : ℕ) : Checkout Unit Unit where
  root := ["r".toList]
  pid := 1
  git := { idleGit with
    revParse := fun _ _ _ => some "c2".toList
    tar := fun n _ _ => (.dir [("f".toList, .file [lf])], n ≠ failing)
    lsFiles := fun _ _ target => some (pairListing.filter fun line => (relativeTo (parse line.1) target).isSome) }
  dumps := tableDumps pairManifests

/-- `sync d e --update` -/
def pairArgs : SyncArgs := ⟨["d".toList, "e".toList], false, [], true, "master".toList⟩

theorem separate_pair : SeparateTargets ["r".toList] (pairManifest "v1" "v1") where
  apart e he d hd hne := by
    have hzone : ∀ n m : String, m.toList ≠ n.toList → m.toList.head? ≠ some '.' →
        ¬ InZone ["r".toList, n.toList] ["r".toList, m.toList] :=
      fun n m => @not_inZone_sibling ["r".toList] n.toList m.toList
    have hpaths : targetPath ["r".toList] (dependencyOf (plainEntry "d" "v1" "a")) = ["r".toList, "a".toList] ∧
        targetPath ["r".toList] (dependencyOf (plainEntry "e" "v1" "b")) = ["r".toList, "b".toList] := by
      decide +kernel
    simp only [pairManifest, List.mem_cons, List.not_mem_nil, or_false] at he hd
    rcases he with rfl | rfl <;> rcases hd with rfl | rfl
    · exact absurd rfl hne
    · rw [hpaths.1, hpaths.2]
      exact ⟨by decide, hzone "a" "b" (by decide) (by decide)⟩
    · rw [hpaths.1, hpaths.2]
      exact ⟨by decide, hzone "b" "a" (by decide) (by decide)⟩
    · exact absurd rfl hne
  manifest := by decide +kernel

theorem orderly_pair (failing : ℕ) :
    Orderly (tableLoads pairManifests) (pairCheckout failing) pairArgs (framedWorld (pairManifest "v1" "v1")) where
  root := show dotDot ∉ ["r".toList] by decide
  dumps := tableLoads_dumps (by decide +kernel)
  disk := show diskManifest (tableLoads pairManifests) ["r".toList] (framedWorld (pairManifest "v1" "v1")).files =
    some (pairManifest "v1" "v1") by decide +kernel
  names := by decide
  separate := separate_pair
  selection := by decide

theorem noLinks_single {n : Name} {t : Node Bytes} (ht : Node.NoLinks t) : Node.NoLinks (.dir [(n, t)]) :=
  @Node.NoLinks.setChild _ (.dir []) n (some t) noLinks_dir_nil fun _ hc => Option.some.inj hc ▸ ht

theorem plain_pair (failing : ℕ) : PlainGit (pairCheckout failing).git where
  tar _ _ _ _ := noLinks_single (noLinks_file [lf])
  apply _ _ _ ht := ht
  lsFiles _ _ _ _ hlist line hline := by
    have hno : ∀ line ∈ pairListing, dotDot ∉ (parse line.1).parts := by decide +kernel
    rw [← Option.some.inj hlist] at hline
    exact hno line (List.mem_of_mem_filter hline)

theorem inside_framedWorld (raw : RawManifest) : Inside ["r".toList] (framedWorld raw).files (framedWorld raw).log where
  directory := ⟨_, rfl, rfl⟩
  links := noLinks_single (noLinks_single (noLinks_file _))
  done _ hevent := absurd hevent List.not_mem_nil

theorem failure_atomic_tar :
    FailureAtomic (tableLoads pairManifests) (pairCheckout 11) pairArgs (framedWorld (pairManifest "v1" "v1")) ∧
      (cmdSync (pairCheckout 11) pairArgs (framedWorld (pairManifest "v1" "v1"))).1 = .error (.process .tar) :=
  ⟨failure_atomic (orderly_pair 11) fun _ hselect =>
    restoresOutside_cmdSync (orderly_pair 11) (plain_pair 11) (inside_framedWorld _) hselect, by decide +kernel⟩

/-- The new tree of `d` has a link to the file of `e`. -/
def linkedPair : Checkout Unit Unit :=
  { pairCheckout 11 with
    git := { (pairCheckout 11).git with
      tar := fun n _ _ => (.dir [("f".toList, .link (parse "../b/f".toList))], n ≠ 11) } }

def linkedPairWorld : World Unit Unit :=
  { framedWorld (pairManifest "v1" "v1") with
    files := .dir [("r".toList, .dir [("vendor_manifest.json".toList, .file (manifestBytes (pairManifest "v1" "v1"))),
      ("b".toList, .dir [("f".toList, .file [lf])])])] }

/-- The turn of `d` gives the file of `e` its line endings, and then `tar` fails in the turn of `e`. -/
theorem linked_target_changed : Orderly (tableLoads pairManifests) linkedPair pairArgs linkedPairWorld ∧
    ¬ FailureAtomic (tableLoads pairManifests) linkedPair pairArgs linkedPairWorld := by
  refine ⟨⟨(orderly_pair 11).root, (orderly_pair 11).dumps, ?_, (orderly_pair 11).names, separate_pair,
    (orderly_pair 11).selection⟩, fun hatomic => ?_⟩
  · change diskManifest (tableLoads pairManifests) ["r".toList] linkedPairWorld.files = some (pairManifest "v1" "v1")
    decide +kernel
  · let d := dependencyOf (plainEntry "d" "v1" "a")
    let e := dependencyOf (plainEntry "e" "v1" "b")
    obtain ⟨before, dep, after, turn, hsplit, hreached, hstopped, hhandled⟩ :=
      hatomic [d, e] (.process .tar) _ rfl (eq_of_fst (by decide +kernel)) nofun nofun
    rcases before with _ | ⟨first, _ | ⟨second, rest⟩⟩
    · obtain ⟨rfl, -⟩ := List.cons.inj hsplit
      obtain rfl : linkedPairWorld = turn := congrArg Prod.snd hreached
      have hended : (syncOne linkedPair pairArgs d linkedPairWorld).1 = .ok () := by decide +kernel
      rw [hstopped] at hended
      cases hended
    · obtain ⟨rfl, htail⟩ := List.cons.inj hsplit
      obtain ⟨rfl, -⟩ := List.cons.inj htail
      have hothers := (hhandled.resolve_right fun hadd => nomatch hadd.1).others (plainEntry "e" "v1" "b")
        (List.mem_cons_of_mem _ List.mem_cons_self) (by decide)
      have hkept := (hothers.1 ["r".toList, "b".toList, "f".toList] (by decide +kernel)).2
      exact absurd hkept (by decide +kernel)
    · have hlength := congrArg List.length hsplit
      simp at hlength

theorem stopped_between_tar :
    StoppedBetween (tableLoads pairManifests) (pairCheckout 11) pairArgs (pairManifest "v1" "v1")
      [dependencyOf (plainEntry "d" "v1" "a"), dependencyOf (plainEntry "e" "v1" "b")]
      (framedWorld (pairManifest "v1" "v1")) (.process .tar)
      (cmdSync (pairCheckout 11) pairArgs (framedWorld (pairManifest "v1" "v1"))).2 :=
  stopped_between (orderly_pair 11) (plain_pair 11) (inside_framedWorld _) rfl (eq_of_fst (by decide +kernel)) nofun nofun

theorem all_renewed_pair :
    Handled (tableLoads pairManifests) (pairCheckout 0) pairArgs (pairManifest "v1" "v1")
      (framedWorld (pairManifest "v1" "v1"))
      [dependencyOf (plainEntry "d" "v1" "a"), dependencyOf (plainEntry "e" "v1" "b")]
      (cmdSync (pairCheckout 0) pairArgs (framedWorld (pairManifest "v1" "v1"))).2 ∧
    Node.fileAt ["r".toList, "b".toList, "f".toList]
      (cmdSync (pairCheckout 0) pairArgs (framedWorld (pairManifest "v1" "v1"))).2.files = some [cr, lf] :=
  ⟨all_renewed (orderly_pair 0) (plain_pair 0) (inside_framedWorld _) rfl (eq_of_fst (by decide +kernel)),
    by decide +kernel⟩

end LoggerBenchmarks.FailureAtomicity
