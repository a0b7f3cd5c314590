import LoggerBenchmarks.SyncContainment
import LoggerBenchmarks.VendorSync
import Mathlib.Logic.Equiv.List
import Mathlib.Tactic.DeriveEncodable

set_option autoImplicit false

/-!
# What `cmd_sync` does to the manifest

The ref of a synchronised entry becomes the commit that was exported into its target
directory; every other entry and field of the file stays. The selection finds the
last entry of a name and the update the first.
-/
namespace LoggerBenchmarks.ManifestFrame
open PythonText PosixPaths FileTrees GlobPatterns StatefulPrograms LineEndings VendorManifest VendorWorld
open EolRestoring VendorStaging VendorSync SyncContainment

variable {κ γ : Type} {loads : Bytes → Option RawManifest} {c : Checkout κ γ} {dep : Dependency}

/-- The manifest `load_manifest` would find: text is read with universal newlines. -/
def diskManifest (loads : Bytes → Option RawManifest) (root : Path) (files : Node Bytes) : Option RawManifest :=
  (Node.fileAt (manifestPath root) files).bind fun data => loads (normalizeLineEndings data)

structure Recorded (loads : Bytes → Option RawManifest) (root : Path) (raw : RawManifest) (w : World κ γ) : Prop where
  memory : w.manifest = raw
  disk : diskManifest loads root w.files = some raw

theorem manifestPath_below (root : Path) : Below root (manifestPath root) := Below.append (List.prefix_refl root) _

theorem exists_manifest {raw : RawManifest} {root : Path} {files : Node Bytes}
    (h : diskManifest loads root files = some raw) :
    ∃ data, Node.get (manifestPath root) files = some (.file data) ∧ loads (normalizeLineEndings data) = some raw := by
  obtain ⟨data, hdata, hloads⟩ := Option.bind_eq_some_iff.1 h
  exact ⟨data, Node.fileAt_eq_some.1 hdata, hloads⟩

theorem diskManifest_of_get {raw : RawManifest} {root : Path} {files : Node Bytes} {data : Bytes}
    (hget : Node.get (manifestPath root) files = some (.file data))
    (hloads : loads (normalizeLineEndings data) = some raw) : diskManifest loads root files = some raw := by
  rw [diskManifest, Node.fileAt_eq_some.2 hget, Option.bind_some, hloads]

theorem Recorded.edit {raw : RawManifest} {root : Path} {w : World κ γ} (h : Recorded loads root raw w)
    (event : Event) {files : Node Bytes}
    (hkeep : ∀ data, Node.get (manifestPath root) w.files = some (.file data) →
      ∃ data', Node.get (manifestPath root) files = some (.file data') ∧
        normalizeLineEndings data' = normalizeLineEndings data) :
    Recorded loads root raw (w.edit event files) := by
  obtain ⟨data, hget, hloads⟩ := exists_manifest h.disk
  obtain ⟨data', hget', hnorm⟩ := hkeep data hget
  exact ⟨h.memory, diskManifest_of_get hget' (by rw [hnorm, hloads])⟩

theorem manifest_apart {root path : Path} {files t : Node Bytes} {data : Bytes} (hbelow : Below root path)
    (hget : Node.get (manifestPath root) files = some (.file data)) (ht : Node.get path files = some t)
    (hne : path ≠ manifestPath root) : Node.Apart path (manifestPath root) := by
  constructor
  · intro hle
    obtain ⟨q, hq, rfl⟩ := hbelow.exists_append
    have hlen := hle.length_le
    rw [manifestPath, List.length_append, List.length_append, List.length_singleton] at hlen
    have hpos := List.length_pos_of_ne_nil hq
    exact hne (hle.eq_of_length (by rw [manifestPath, List.length_append, List.length_append, List.length_singleton]; omega))
  · rintro ⟨r, rfl⟩
    refine Node.not_file_of_get_append hget ?_ ht
    rintro rfl
    exact hne (List.append_nil _)

theorem ne_manifestPath_of_directory {root path : Path} {files t : Node Bytes} {data : Bytes}
    (hget : Node.get (manifestPath root) files = some (.file data)) (ht : Node.get path files = some t)
    (hdir : t.isDirectory = true) : path ≠ manifestPath root := by
  rintro rfl
  rw [hget] at ht
  cases ht
  cases hdir

theorem stagingPath_ne_manifestPath {root target : Path} {pid : ℕ} : stagingPath target pid ≠ manifestPath root := by
  intro h
  have hlast := congrArg List.getLast? h
  rw [stagingPath, manifestPath, List.getLast?_concat, List.getLast?_concat, Option.some.injEq, stagingName] at hlast
  have hfirst := congrArg List.head? hlast
  rw [List.head?_cons] at hfirst
  exact absurd hfirst (by decide +kernel)

theorem get_replace_missing {path q : Path} {files : Node Bytes} {data : Bytes}
    (hget : Node.get path files = some (.file data)) (hnone : Node.get q files = none) (new : Option (Node Bytes)) :
    Node.get path (Node.replace q new files) = some (.file data) := by
  by_cases hbelow : path <+: q
  · obtain ⟨r, rfl⟩ := hbelow
    refine Node.get_replace_below_file hget ?_ new
    rintro rfl
    rw [List.append_nil, hget] at hnone
    cases hnone
  · by_cases habove : q <+: path
    · obtain ⟨r, rfl⟩ := habove
      obtain ⟨d, hd⟩ := Node.exists_get_of_append hget
      rw [hd] at hnone
      cases hnone
    · rw [Node.get_replace_apart ⟨habove, hbelow⟩]
      exact hget

/-- Preparing a staging directory below the root leaves the manifest readable as it was. -/
theorem unharmed_recorded {raw : RawManifest} {target : Path} (hbelow : Below c.root target) :
    Unharmed c dep target (Recorded loads c.root raw) := by
  have hstaging : Below c.root (stagingPath target c.pid) := Below.append hbelow.parent _
  refine ⟨⟨fun w h => ⟨h.memory, h.disk⟩, ?_, ?_, ?_, ?_⟩, ?_⟩
  · intro w d n _ hd hdir h
    refine h.edit _ fun data hget => ⟨data, ?_, rfl⟩
    rw [Node.get_replace_apart (manifest_apart (Below.append hbelow.parent n) hget hd
      (ne_manifestPath_of_directory hget hd hdir))]
    exact hget
  · intro w q _ _ hnone h
    exact h.edit _ fun data hget => ⟨data, get_replace_missing hget hnone _, rfl⟩
  · intro w d n stream commit hd h
    refine h.edit _ fun data hget => ⟨data, ?_, rfl⟩
    rw [Node.get_replace_apart (manifest_apart hstaging hget hd stagingPath_ne_manifestPath)]
    exact hget
  · intro w d n patch hd h
    refine h.edit _ fun data hget => ⟨data, ?_, rfl⟩
    rw [Node.get_replace_apart (manifest_apart hstaging hget hd stagingPath_ne_manifestPath)]
    exact hget
  · intro w repoPath place before after _ hstaged hnorm h
    obtain ⟨-, -, -, hplace⟩ := stagedFile_eq_some.1 hstaged
    refine h.edit _ fun data hget => ?_
    by_cases heq : manifestPath c.root = place
    · subst heq
      rw [hget] at hplace
      cases hplace
      exact ⟨after, Node.get_replace_of_get hget _, hnorm⟩
    · exact ⟨data, Node.get_rewrite hget hplace heq after, rfl⟩

theorem recorded_syncDependency {raw : RawManifest} (htarget : targetPath c.root dep ≠ c.root) (commit : Text)
    (applyLocalPatches : Bool) :
    Keeps (Recorded loads c.root raw) (syncDependency c dep commit applyLocalPatches) := by
  by_cases hguard : c.root <+: targetPath c.root dep
  · have hbelow : Below c.root (targetPath c.root dep) := ⟨hguard, htarget⟩
    have hstaging : Below c.root (stagingPath (targetPath c.root dep) c.pid) := Below.append hbelow.parent _
    refine keeps_syncDependency (unharmed_recorded hbelow) ?_ ?_
    · intro w d _ hd hdir h
      refine h.edit _ fun data hget => ⟨data, ?_, rfl⟩
      rw [Node.get_replace_apart (manifest_apart hbelow hget hd (ne_manifestPath_of_directory hget hd hdir))]
      exact hget
    · intro w d _ hd hfree h
      refine h.edit _ fun data hget => ⟨data, ?_, rfl⟩
      have hremoved : Node.get (manifestPath c.root)
          (Node.replace (stagingPath (targetPath c.root dep) c.pid) none w.files) = some (.file data) := by
        rw [Node.get_replace_apart (manifest_apart hstaging hget hd stagingPath_ne_manifestPath)]
        exact hget
      cases hdest : Node.get (targetPath c.root dep) w.files with
      | none =>
        have hstill : Node.get (targetPath c.root dep)
            (Node.replace (stagingPath (targetPath c.root dep) c.pid) none w.files) = none := by
          rw [Node.get_replace_apart (target_apart_staging hbelow.ne_nil c.pid).symm]
          exact hdest
        exact get_replace_missing hremoved hstill _
      | some e =>
        have hne := ne_manifestPath_of_directory hget hdest (hfree e hdest)
        rw [Node.get_replace_apart (manifest_apart hbelow hget hdest hne)]
        exact hremoved
  · rw [syncDependency, if_neg hguard]
    exact keeps_raise _

def exported (log : List Event) : List (Path × Text) :=
  log.filterMap fun
    | .extracted path commit => some (path, commit)
    | _ => none

theorem exported_exportRef (cache : Option κ) (commit : Text) (destination : Path) (before : List (Path × Text)) :
    Triple (fun w : World κ γ => exported w.log = before) (exportRef c cache commit destination)
      (fun _ w => exported w.log = (destination, commit) :: before) fun _ _ => True := by
  let Before : World κ γ → Prop := fun w => exported w.log = before
  let After : World κ γ → Prop := fun w => exported w.log = (destination, commit) :: before
  have hmkdirs : Keeps Before (mkdirs destination) := keeps_mkdirs fun _ _ _ _ _ hw => hw
  refine triple_bind (triple_of_keeps hmkdirs) fun _ => ?_
  refine triple_bind (Q := fun _ => Before) (fun w hw => hw) fun n => ?_
  refine triple_bind (Q := fun _ => Before) (fun w hw => hw) fun m => ?_
  refine triple_bind (Q := fun extracted w => extracted = true → After w) ?_ fun extracted => ?_
  · intro w hw
    rw [workIn]
    cases Node.get destination w.files with
    | none => exact fun hno => absurd hno Bool.false_ne_true
    | some t => exact fun _ => congrArg _ hw
  · refine triple_bind (triple_of_keeps (keeps_check _ _)) fun _ => ?_
    exact triple_ite (fun hok => triple_pure _ fun w hw => hw hok) fun _ => triple_raise _ fun _ _ => trivial

theorem exported_syncDependency (commit : Text) (applyLocalPatches : Bool) (before : List (Path × Text)) :
    Triple (fun w : World κ γ => exported w.log = before) (syncDependency c dep commit applyLocalPatches)
      (fun _ w => exported w.log = (stagingPath (targetPath c.root dep) c.pid, commit) :: before) fun _ _ => True := by
  let Before : World κ γ → Prop := fun w => exported w.log = before
  let After : World κ γ → Prop := fun w =>
    exported w.log = (stagingPath (targetPath c.root dep) c.pid, commit) :: before
  refine triple_ite (fun _ => ?_) fun _ => triple_raise _ fun _ _ => trivial
  refine triple_bind (Q := fun _ => After) ?_ fun _ => ?_
  · have hstale : Keeps Before (removeStale (targetPath c.root dep)) := keeps_removeStale fun _ _ _ _ _ _ hw => hw
    have hremove : Keeps Before (removeIfExists (stagingPath (targetPath c.root dep) c.pid)) :=
      keeps_removeIfExists fun _ _ _ _ hw => hw
    have hpatches : Keeps After (applyPatches c dep (stagingPath (targetPath c.root dep) c.pid)) :=
      keeps_applyPatches (fun _ hw => hw) fun _ _ _ _ _ hw => hw
    have hpreserve : Keeps After (preserveTrackedFileFormat c dep (stagingPath (targetPath c.root dep) c.pid)) :=
      keeps_preserve (fun _ hw => hw) fun _ _ _ _ _ _ _ _ hw => hw
    refine triple_bind (triple_of_keeps hstale) fun _ => triple_bind (triple_of_keeps hremove) fun _ => ?_
    refine triple_bind (triple_of_keeps (keeps_observe _)) fun cache => ?_
    refine triple_bind (exported_exportRef cache commit _ before) fun _ => ?_
    refine triple_bind (triple_of_keeps (I := After) ?_) fun _ => triple_of_keeps hpreserve
    exact keeps_ite (fun _ => hpatches) fun _ => keeps_pure _
  · have hremove : Keeps After (removeIfExists (targetPath c.root dep)) := keeps_removeIfExists fun _ _ _ _ hw => hw
    have hrename : Keeps After (rename (stagingPath (targetPath c.root dep) c.pid) (targetPath c.root dep)) :=
      keeps_rename fun _ _ _ _ hw => hw
    exact triple_bind (triple_of_keeps hremove) fun _ => triple_of_keeps hrename

def lastCommit (exports : List (ℕ × Text)) (i : ℕ) : Option Text :=
  ((exports.filter fun x => x.1 = i).getLast?).map Prod.snd

def reffedEntry (args : SyncArgs) (exports : List (ℕ × Text)) (i : ℕ) (e : Entry) : Entry :=
  if rewritesRef args e.skipUpdate then (lastCommit exports i).elim e fun commit => { e with ref := commit } else e

/-- The manifest with the ref of each synchronised entry replaced by its own commit. -/
def reffed (args : SyncArgs) (raw : RawManifest) (exports : List (ℕ × Text)) : RawManifest :=
  { raw with dependencies := raw.dependencies.mapIdx (reffedEntry args exports) }

theorem reffedEntry_name (args : SyncArgs) (exports : List (ℕ × Text)) (i : ℕ) (e : Entry) :
    (reffedEntry args exports i e).name = e.name := by
  unfold reffedEntry
  split
  · cases lastCommit exports i <;> rfl
  · rfl

theorem lastCommit_append (exports : List (ℕ × Text)) (i j : ℕ) (commit : Text) :
    lastCommit (exports ++ [(i, commit)]) j = if i = j then some commit else lastCommit exports j := by
  rw [lastCommit, List.filter_append]
  by_cases hij : i = j
  · simp [hij]
  · simp [hij, lastCommit]

theorem reffedEntry_append (args : SyncArgs) (exports : List (ℕ × Text)) (i j : ℕ) (commit : Text) (e : Entry) :
    reffedEntry args (exports ++ [(i, commit)]) j e =
      if i = j ∧ rewritesRef args e.skipUpdate = true then { reffedEntry args exports j e with ref := commit }
      else reffedEntry args exports j e := by
  unfold reffedEntry
  rw [lastCommit_append]
  by_cases hrewrites : rewritesRef args e.skipUpdate = true
  · by_cases hij : i = j
    · simp only [hrewrites, hij, if_true, and_self, Option.elim_some]
      cases lastCommit exports j <;> rfl
    · simp [hij]
  · simp [hrewrites]

theorem reffed_nil (args : SyncArgs) (raw : RawManifest) : reffed args raw [] = raw := by
  have hentry : ∀ i e, reffedEntry args [] i e = e := by
    intro i e
    unfold reffedEntry
    split <;> rfl
  have hmap : raw.dependencies.mapIdx (reffedEntry args []) = raw.dependencies := by
    refine List.ext_getElem? fun i => ?_
    rw [List.getElem?_mapIdx]
    cases raw.dependencies[i]? with
    | none => rfl
    | some e => rw [Option.map_some, hentry]
  rw [reffed, hmap]

variable {args : SyncArgs} {raw : RawManifest} {i : ℕ} {e : Entry}

theorem reffed_append_pinned (he : raw.dependencies[i]? = some e) (hno : rewritesRef args e.skipUpdate = false)
    (exports : List (ℕ × Text)) (commit : Text) :
    reffed args raw (exports ++ [(i, commit)]) = reffed args raw exports := by
  have hmap : raw.dependencies.mapIdx (reffedEntry args (exports ++ [(i, commit)])) =
      raw.dependencies.mapIdx (reffedEntry args exports) := by
    refine List.ext_getElem? fun j => ?_
    rw [List.getElem?_mapIdx, List.getElem?_mapIdx]
    cases hj : raw.dependencies[j]? with
    | none => rfl
    | some d =>
      rw [Option.map_some, Option.map_some, reffedEntry_append, if_neg]
      rintro ⟨rfl, hd⟩
      rw [he] at hj
      cases hj
      rw [hno] at hd
      cases hd
  rw [reffed, reffed, hmap]

/-- Where the entry is the first of its name, the update by name is the update of the entry. -/
theorem updateManifestRef_reffed (he : raw.dependencies[i]? = some e)
    (hrewrites : rewritesRef args e.skipUpdate = true)
    (hfirst : ∀ j < i, ∀ d, raw.dependencies[j]? = some d → d.name ≠ e.name) (exports : List (ℕ × Text))
    (commit : Text) :
    updateManifestRef (reffed args raw exports) e.name commit = some (reffed args raw (exports ++ [(i, commit)])) := by
  have hentry : (reffed args raw exports).dependencies[i]? = some (reffedEntry args exports i e) := by
    rw [reffed, List.getElem?_mapIdx, he, Option.map_some]
  have hfirst' : ∀ j < i, ∀ d, (reffed args raw exports).dependencies[j]? = some d →
      d.name ≠ (reffedEntry args exports i e).name := by
    intro j hj d hd
    rw [reffed, List.getElem?_mapIdx] at hd
    obtain ⟨d₀, hd₀, rfl⟩ := Option.map_eq_some_iff.1 hd
    rw [reffedEntry_name, reffedEntry_name]
    exact hfirst j hj d₀ hd₀
  have hupdate := updateRef_first hentry hfirst' commit
  rw [reffedEntry_name] at hupdate
  rw [updateManifestRef, hupdate, Option.map_some]
  congr 1
  rw [reffed, reffed]
  congr 1
  refine List.ext_getElem? fun j => ?_
  rw [List.getElem?_modify, List.getElem?_mapIdx, List.getElem?_mapIdx]
  cases hj : raw.dependencies[j]? with
  | none => rfl
  | some d =>
    rw [Option.map_some, Option.map_some, Option.map_eq_map, Option.map_some, reffedEntry_append]
    by_cases hij : i = j
    · subst hij
      rw [he] at hj
      cases hj
      rw [if_pos rfl, if_pos ⟨rfl, hrewrites⟩]
    · rw [if_neg hij, if_neg fun h => hij h.1]

def targetAt (root : Path) (raw : RawManifest) (i : ℕ) : Path :=
  (raw.dependencies[i]?).elim [] fun e => targetPath root (dependencyOf e)

def extractions (c : Checkout κ γ) (raw : RawManifest) (exports : List (ℕ × Text)) : List (Path × Text) :=
  (exports.map fun x => (stagingPath (targetAt c.root raw x.1) c.pid, x.2)).reverse

structure Progress (loads : Bytes → Option RawManifest) (c : Checkout κ γ) (args : SyncArgs) (raw : RawManifest)
    (exports : List (ℕ × Text)) (w : World κ γ) : Prop where
  recorded : Recorded loads c.root (reffed args raw exports) w
  exports : exported w.log = extractions c raw exports

theorem writeManifest_run {w : World κ γ} {data : Bytes} (hroot : dotDot ∉ c.root)
    (hget : Node.get (manifestPath c.root) w.files = some (.file data)) :
    writeManifest c w = (.ok (), w.edit (.rewritten (manifestPath c.root) data (c.dumps w.manifest))
      (Node.replace (manifestPath c.root) (some (.file (c.dumps w.manifest))) w.files)) := by
  have hdot : dotDot ∉ manifestPath c.root := by
    intro hm
    rcases List.mem_append.1 hm with hm | hm
    · exact hroot hm
    · exact absurd (List.mem_singleton.1 hm) (by decide +kernel)
  have hfollow : Node.follow w.files Node.maxLinks [] (manifestPath c.root) = some (manifestPath c.root) :=
    @Node.follow_of_get Bytes [] _ _ _ hget (fun _ hlink => nomatch hlink) hdot _
  rw [writeManifest, observe_bind, writeBytes, hfollow]
  simp only [hget]

section Run

variable (hroot : dotDot ∉ c.root) (hdumps : ∀ m, loads (normalizeLineEndings (c.dumps m)) = some m)
include hroot hdumps

theorem progress_recordSync {exports : List (ℕ × Text)} {commit : Text} (he : raw.dependencies[i]? = some e)
    (hfirst : rewritesRef args e.skipUpdate = true → ∀ j < i, ∀ d, raw.dependencies[j]? = some d → d.name ≠ e.name)
    (hname : dep.name = e.name) (hskip : dep.skipUpdate = e.skipUpdate) :
    Triple (fun w : World κ γ => Recorded loads c.root (reffed args raw exports) w ∧
        exported w.log = extractions c raw (exports ++ [(i, commit)]))
      (recordSync c args dep commit)
      (fun _ => Progress loads c args raw (exports ++ [(i, commit)])) fun _ _ => True := by
  refine triple_bind (Q := fun _ => Progress loads c args raw (exports ++ [(i, commit)])) ?_ fun _ => ?_
  · rw [hname, hskip]
    refine triple_ite (fun hrewrites => ?_) fun hno => ?_
    · rintro w ⟨hrecorded, hexports⟩
      have hupdate := updateManifestRef_reffed he hrewrites (hfirst hrewrites) exports commit
      obtain ⟨data, hget, -⟩ := exists_manifest hrecorded.disk
      have hmemory : updateManifest e.name commit w =
          (.ok (), { w with manifest := reffed args raw (exports ++ [(i, commit)]) }) := by
        rw [updateManifest, observe_bind, hrecorded.memory, hupdate]
        rfl
      have hwrite := writeManifest_run (w := { w with manifest := reffed args raw (exports ++ [(i, commit)]) }) hroot hget
      rw [ok_bind hmemory, hwrite]
      exact ⟨⟨rfl, diskManifest_of_get (Node.get_replace_of_get hget _) (hdumps _)⟩, hexports⟩
    · refine triple_pure _ fun w hw => ?_
      have hsame := reffed_append_pinned he (Bool.eq_false_iff.2 hno) exports commit
      exact ⟨hsame ▸ hw.1, hw.2⟩
  · refine triple_ite (fun _ => ?_) fun _ => triple_pure _ fun w hw => hw
    refine triple_of_keeps (keeps_bind (keeps_nextCall fun w hw => ⟨⟨hw.1.1, hw.1.2⟩, hw.2⟩) fun n => ?_)
    refine keeps_bind (keeps_observe _) fun w₀ => keeps_bind (keeps_update fun w hw => ?_) fun _ => keeps_check _ _
    exact ⟨⟨hw.1.1, hw.1.2⟩, hw.2⟩

theorem progress_syncOne {exports : List (ℕ × Text)} (he : raw.dependencies[i]? = some e)
    (htarget : targetPath c.root (dependencyOf e) ≠ c.root)
    (hfirst : rewritesRef args e.skipUpdate = true → ∀ j < i, ∀ d, raw.dependencies[j]? = some d → d.name ≠ e.name) :
    Triple (Progress loads c args raw exports) (syncOne c args (dependencyOf e))
      (fun _ w => ∃ commit, Progress loads c args raw (exports ++ [(i, commit)]) w) fun _ _ => True := by
  refine triple_bind (triple_of_keeps (keeps_resolveFor args _ (fun w hw => ⟨⟨hw.1.1, hw.1.2⟩, hw.2⟩)
    fun w path cache hw => ⟨⟨hw.1.1, hw.1.2⟩, hw.2⟩)) fun commit => ?_
  generalize hpinned : (if rewritesRef args (dependencyOf e).skipUpdate = true then
    { dependencyOf e with ref := commit } else dependencyOf e) = pinned
  have hsame : pinned.name = e.name ∧ pinned.skipUpdate = e.skipUpdate ∧ pinned.targetDir = (dependencyOf e).targetDir := by
    rw [← hpinned]
    split <;> exact ⟨rfl, rfl, rfl⟩
  have hpath : targetPath c.root pinned = targetPath c.root (dependencyOf e) := by
    rw [targetPath, targetPath, hsame.2.2]
  have hat : targetAt c.root raw i = targetPath c.root pinned := by
    rw [targetAt, he, Option.elim_some, hpath]
  refine triple_bind (Q := fun _ w => Recorded loads c.root (reffed args raw exports) w ∧
    exported w.log = extractions c raw (exports ++ [(i, commit)])) ?_ fun _ => ?_
  · have hrecorded : Keeps (Recorded loads c.root (reffed args raw exports))
        (syncDependency c pinned commit (!args.update)) := recorded_syncDependency (hpath ▸ htarget) commit _
    have hboth := triple_and (triple_of_keeps hrecorded)
      (exported_syncDependency commit (!args.update) (extractions c raw exports))
    refine triple_weaken hboth (fun w hw => ⟨hw.recorded, hw.exports⟩) (fun _ w hw => ⟨hw.1, ?_⟩) fun _ _ _ => trivial
    rw [hw.2, extractions, extractions, List.map_append, List.reverse_append, ← hat]
    rfl
  · refine triple_weaken (progress_recordSync hroot hdumps he hfirst hsame.1 hsame.2.1) (fun _ hw => hw)
      (fun _ w hw => ⟨commit, hw⟩) fun _ _ _ => trivial

theorem progress_forM {indices : List ℕ} {dependencies : List Dependency}
    (hat : List.Forall₂ (IsAt raw) indices dependencies)
    (hcond : ∀ i ∈ indices, ∀ e, raw.dependencies[i]? = some e → targetPath c.root (dependencyOf e) ≠ c.root ∧
      (rewritesRef args e.skipUpdate = true → ∀ j < i, ∀ d, raw.dependencies[j]? = some d → d.name ≠ e.name))
    (exports : List (ℕ × Text)) :
    Triple (Progress loads c args raw exports) (dependencies.forM (syncOne c args))
      (fun _ w => ∃ more : List (ℕ × Text), more.map Prod.fst = indices ∧
        Progress loads c args raw (exports ++ more) w) fun _ _ => True := by
  induction hat generalizing exports with
  | nil => exact triple_pure _ fun w hw => ⟨[], rfl, by rwa [List.append_nil]⟩
  | @cons i dep indices dependencies hhead htail ih =>
    obtain ⟨e, he, rfl⟩ := hhead
    obtain ⟨htarget, hfirst⟩ := hcond i List.mem_cons_self e he
    refine triple_bind (progress_syncOne hroot hdumps he htarget hfirst) fun _ => triple_exists fun commit => ?_
    refine triple_weaken (ih (fun j hj => hcond j (List.mem_cons_of_mem _ hj)) (exports ++ [(i, commit)]))
      (fun _ hw => hw) (fun _ w hw => ?_) fun _ _ _ => trivial
    obtain ⟨more, hmore, hprogress⟩ := hw
    refine ⟨(i, commit) :: more, by rw [List.map_cons, hmore], ?_⟩
    rwa [List.append_assoc] at hprogress

end Run

/-- Every selected entry is the first of its name where its ref is rewritten, and no
target is the repository root. -/
def EntriesFound (root : Path) (args : SyncArgs) (raw : RawManifest) : Prop :=
  ∀ i ∈ selectedIndices raw args.names args.all, ∀ e, raw.dependencies[i]? = some e →
    targetPath root (dependencyOf e) ≠ root ∧
      (rewritesRef args e.skipUpdate = true → ∀ j < i, ∀ d, raw.dependencies[j]? = some d → d.name ≠ e.name)

/-- The manifest on disk is the one loaded, but for the refs of the rewritten entries;
each of these is the commit extracted for the entry's own target. -/
def ManifestFramed (loads : Bytes → Option RawManifest) (c : Checkout κ γ) (args : SyncArgs) (raw : RawManifest)
    (w : World κ γ) : Prop :=
  ∃ exports : List (ℕ × Text), exports.map Prod.fst = selectedIndices raw args.names args.all ∧
    exported w.log = extractions c raw exports ∧
    diskManifest loads c.root w.files = some (reffed args raw exports)

theorem manifest_framed {w : World κ γ} (hroot : dotDot ∉ c.root)
    (hdumps : ∀ m, loads (normalizeLineEndings (c.dumps m)) = some m)
    (hdisk : diskManifest loads c.root w.files = some w.manifest) (hlog : w.log = [])
    (hfound : EntriesFound c.root args w.manifest) (hrun : (cmdSync c args w).1 = .ok ()) :
    ManifestFramed loads c args w.manifest (cmdSync c args w).2 := by
  have htriple : Triple (fun s => s = w) (cmdSync c args)
      (fun _ s => ManifestFramed loads c args w.manifest s) fun _ _ => True := by
    refine triple_bind (Q := fun raw s => raw = w.manifest ∧ s = w) ?_ fun raw => ?_
    · rintro s rfl
      exact ⟨rfl, rfl⟩
    cases hselect : selectDependencies (loadManifest raw) args.names args.all with
    | selected dependencies =>
      refine triple_ite (fun _ => triple_raise _ fun _ _ => trivial) fun _ => ?_
      refine triple_ite (fun _ => triple_raise _ fun _ _ => trivial) fun _ => ?_
      rintro s ⟨rfl, rfl⟩
      have hstart : Progress loads c args s.manifest [] s :=
        ⟨⟨(reffed_nil args _).symm, by rw [reffed_nil, hdisk]⟩, by rw [hlog]; rfl⟩
      refine triple_weaken (progress_forM hroot hdumps (selected_isAt hselect) hfound []) (fun _ hs => hs)
        (fun _ s' hs' => ?_) (fun _ _ _ => trivial) s hstart
      obtain ⟨more, hmore, hprogress⟩ := hs'
      exact ⟨more, hmore, hprogress.exports, hprogress.recorded.disk⟩
    | combined => exact triple_raise _ fun _ _ => trivial
    | nothing => exact triple_raise _ fun _ _ => trivial
    | unknown names => exact triple_raise _ fun _ _ => trivial
  have hfinal := htriple w rfl
  rcases hsync : cmdSync c args w with ⟨e | u, w'⟩
  · rw [hsync] at hrun
    cases hrun
  · rw [hsync] at hfinal
    exact hfinal

instance encodableChar : Encodable Char := Encodable.ofLeftInverse Char.toNat Char.ofNat Char.ofNat_toNat

deriving instance Encodable for Entry

deriving instance Encodable for RawManifest

def entryText (e : Entry) : Text :=
  "    \x7b\n      \"name\": \"".toList ++ e.name ++ "\",\n      \"repo_url\": \"".toList ++ e.repoUrl ++
    "\",\n      \"ref\": \"".toList ++ e.ref ++ "\",\n      \"target_dir\": \"".toList ++ e.targetDir ++
    "\"\n    \x7d".toList

def manifestBytes (raw : RawManifest) : Bytes :=
  ("\x7b\n  \"dependencies\": [\n".toList ++ ((raw.dependencies.map entryText).intersperse ",\n".toList).flatten ++
    "\n  ]\n\x7d\n".toList).map fun ch => UInt8.ofNat ch.toNat

/-- Some manifests are written as the program writes them, and the others in some way that can be read. -/
def tableDumps (known : List RawManifest) (raw : RawManifest) : Bytes :=
  if raw ∈ known then manifestBytes raw else List.replicate (Encodable.encode raw) 1

def tableLoads (known : List RawManifest) (data : Bytes) : Option RawManifest :=
  match known.find? fun raw => manifestBytes raw = data with
  | some raw => some raw
  | none => Encodable.decode data.length

theorem tableLoads_dumps {known : List RawManifest}
    (hknown : ∀ raw ∈ known, cr ∉ manifestBytes raw ∧ (123 : UInt8) ∈ manifestBytes raw ∧
      (known.find? fun other => manifestBytes other = manifestBytes raw) = some raw) (raw : RawManifest) :
    tableLoads known (normalizeLineEndings (tableDumps known raw)) = some raw := by
  rw [tableDumps]
  split
  · rename_i hmem
    obtain ⟨hcr, -, hfind⟩ := hknown raw hmem
    rw [normalize_of_not_mem hcr, tableLoads, hfind]
  · have hones : ∀ b ∈ List.replicate (Encodable.encode raw) (1 : UInt8), b = 1 := fun b hb => List.eq_of_mem_replicate hb
    have hcr : cr ∉ List.replicate (Encodable.encode raw) (1 : UInt8) := fun hb => absurd (hones _ hb) (by decide)
    have hnone : (known.find? fun other => manifestBytes other = List.replicate (Encodable.encode raw) 1) = none := by
      rw [List.find?_eq_none]
      intro other hother heq
      have hbrace := (hknown other hother).2.1
      rw [of_decide_eq_true heq] at hbrace
      exact absurd (hones _ hbrace) (by decide)
    rw [normalize_of_not_mem hcr, tableLoads, hnone, List.length_replicate]
    exact Encodable.encodek raw

def plainEntry (name ref target : String) : Entry :=
  ⟨name.toList, "u".toList, ref.toList, target.toList, false, none, []⟩

/-- Two entries named `d`, the second with the target `b`. -/
def twinManifest (ref : String) : RawManifest := ⟨[plainEntry "d" ref "a", plainEntry "d" "v1" "b"], []⟩

/-- The entry named `d` has one before it and one behind it. -/
def threeManifest (ref : String) : RawManifest :=
  ⟨[plainEntry "b" "v0" "z", plainEntry "d" ref "a", plainEntry "e" "v1" "b"], []⟩

def framedCheckout (known : List RawManifest) : Checkout Unit Unit where
  root := ["r".toList]
  pid := 1
  git := { idleGit with
    revParse := fun _ _ _ => some "c2".toList
    tar := fun _ _ _ => (.dir [("f".toList, .file [lf])], true) }
  dumps := tableDumps known

def framedWorld (raw : RawManifest) : World Unit Unit where
  files := .dir [("r".toList, .dir [("vendor_manifest.json".toList, .file (manifestBytes raw))])]
  caches _ := some ()
  repository := ()
  manifest := raw
  calls := 0
  log := []

/-- `sync d --ref v2` -/
def refArgs : SyncArgs := ⟨["d".toList], false, "v2".toList, false, []⟩

def twinManifests : List RawManifest := [twinManifest "v1", twinManifest "c2"]

def threeManifests : List RawManifest := [threeManifest "v1", threeManifest "c2"]

theorem wrong_entry_rewritten :
    ¬ ManifestFramed (tableLoads twinManifests) (framedCheckout twinManifests) refArgs (twinManifest "v1")
      (cmdSync (framedCheckout twinManifests) refArgs (framedWorld (twinManifest "v1"))).2 := by
  rintro ⟨exports, hindices, -, hdisk⟩
  have hselected : selectedIndices (twinManifest "v1") refArgs.names refArgs.all = [1] := by decide +kernel
  have hafter : diskManifest (tableLoads twinManifests) (framedCheckout twinManifests).root
      (cmdSync (framedCheckout twinManifests) refArgs (framedWorld (twinManifest "v1"))).2.files =
        some (twinManifest "c2") := by decide +kernel
  rw [hselected] at hindices
  obtain ⟨⟨i, commit⟩, hexports, hi⟩ := List.map_eq_singleton_iff.1 hindices
  obtain rfl : i = 1 := hi
  rw [hafter, hexports] at hdisk
  have hfirst : (twinManifest "c2").dependencies[0]?.map Entry.ref =
      (reffed refArgs (twinManifest "v1") [(1, commit)]).dependencies[0]?.map Entry.ref :=
    congrArg (fun raw => raw.dependencies[0]?.map Entry.ref) (Option.some.inj hdisk)
  have hkept : (reffed refArgs (twinManifest "v1") [(1, commit)]).dependencies[0]?.map Entry.ref = some "v1".toList := rfl
  rw [hkept] at hfirst
  exact absurd hfirst (by decide +kernel)

theorem manifest_framed_three :
    ManifestFramed (tableLoads threeManifests) (framedCheckout threeManifests) refArgs (threeManifest "v1")
      (cmdSync (framedCheckout threeManifests) refArgs (framedWorld (threeManifest "v1"))).2 := by
  have hfound : EntriesFound (framedCheckout threeManifests).root refArgs (threeManifest "v1") := by
    have hselected : selectedIndices (threeManifest "v1") refArgs.names refArgs.all = [1] := by decide +kernel
    intro i hi e he
    rw [hselected] at hi
    obtain rfl := List.mem_singleton.1 hi
    obtain rfl : plainEntry "d" "v1" "a" = e := Option.some.inj he
    refine ⟨by decide +kernel, fun _ j hj d hd => ?_⟩
    obtain rfl := Nat.lt_one_iff.1 hj
    obtain rfl : plainEntry "b" "v0" "z" = d := Option.some.inj hd
    decide
  exact manifest_framed (w := framedWorld (threeManifest "v1")) (by decide +kernel)
    (tableLoads_dumps (by decide +kernel)) (by decide +kernel) rfl hfound (by decide +kernel)

end LoggerBenchmarks.ManifestFrame
