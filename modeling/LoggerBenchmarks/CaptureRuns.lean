import LoggerBenchmarks.RecordedPatches
import LoggerBenchmarks.StagingRuns

set_option autoImplicit false

/-!
# What a capture records

With git as it behaves in the temporary directory: when `capture_patch` ends, and which
patch it leaves.
-/
namespace LoggerBenchmarks.CaptureRuns
open PythonText PosixPaths FileTrees StatefulPrograms LineEndings VendorManifest VendorWorld
open VendorStaging StagedTree StagingRuns TextStreams PatchCapture RecordedPatches

variable {κ γ : Type}

abbrev Index := Path → Option (Node Bytes)

def emptyIndex : Index := fun _ => none

/-- What git keeps in `.git`. -/
structure Repository where
  head : Index
  index : Index

/-- The index after `git add -A`: an ignored path is taken only if it is in the index already. -/
def staged (ignored : Node Bytes → Path → Bool) (index : Index) (t : Node Bytes) : Index := fun p =>
  if !ignored t p || (index p).isSome then Node.leafAt p t else none

def baseIndex (ignored : Node Bytes → Path → Bool) (base : Node Bytes) : Index := staged ignored emptyIndex base

def localIndex (ignored : Node Bytes → Path → Bool) (base vendored : Node Bytes) : Index :=
  staged ignored (baseIndex ignored base) vendored

def Committable (ignored : Node Bytes → Path → Bool) (base : Node Bytes) : Prop :=
  ∃ p, baseIndex ignored base p ≠ none

/-- The tree with the repository in its `.git`. -/
def Around (state : Node Bytes → Repository) (x : Node Bytes) (r : Repository) (t : Node Bytes) : Prop :=
  t.isDirectory = true ∧ (∀ m, m ≠ dotGit → t.child m = x.child m) ∧ ∃ g, t.child dotGit = some g ∧ state g = r

def Finishes (P : Node Bytes → Prop) (ended : Node Bytes × Bool) : Prop := ended.2 = true ∧ P ended.1

/-- A directory in which nothing is named `.git`. -/
def Plain (t : Node Bytes) : Prop := t.isDirectory = true ∧ t.child dotGit = none

/-- Git in the temporary directory, which converts no file. A commit without anything staged fails. -/
structure CaptureGit (tools : CaptureTools) (state : Node Bytes → Repository) (ignored : Node Bytes → Path → Bool)
    (base vendored : Node Bytes) (printed : Bytes) : Prop where
  init : ∀ n t, Plain t →
    Finishes (Around state t ⟨emptyIndex, emptyIndex⟩) (tools.git n (["init"].map String.toList) t)
  config : ∀ n key value x r t, Around state x r t →
    Finishes (Around state x r) (tools.git n (["config", key, value].map String.toList) t)
  add : ∀ n x r t, x = base ∨ x = vendored → Around state x r t →
    Finishes (Around state x ⟨r.head, staged ignored r.index x⟩) (tools.git n (["add", "-A"].map String.toList) t)
  commit : ∀ n t, Around state base ⟨emptyIndex, baseIndex ignored base⟩ t →
    ((tools.git n (["commit", "-m", "base"].map String.toList) t).2 = true ↔ Committable ignored base) ∧
      (Committable ignored base → Around state base ⟨baseIndex ignored base, baseIndex ignored base⟩
        (tools.git n (["commit", "-m", "base"].map String.toList) t).1)
  diff : ∀ n t, Around state vendored ⟨baseIndex ignored base, localIndex ignored base vendored⟩ t →
    tools.diff n t = (printed, true)

/-- The vendored tree is where it was, and the working directory is in `P`. -/
structure Working (source work : Path) (vendored : Node Bytes) (P : Node Bytes → Prop) (s : World κ γ) : Prop where
  tree : ∃ t, Node.get work s.files = some t ∧ P t
  source : Node.get source s.files = some vendored

section Steps

variable {source work directory : Path} {vendored base x : Node Bytes} {P P' : Node Bytes → Prop}
  {state : Node Bytes → Repository} {r : Repository} {s : World κ γ}

theorem Working.edit (hsource : Node.get source s.files = some vendored) (hapart : Node.Apart source work)
    {t : Node Bytes} {n : Name} (hget : Node.get work s.files = some t) {new : Option (Node Bytes)}
    (hP : P (t.setChild n new)) (event : Event) :
    Working source work vendored P (s.edit event (Node.replace (work ++ [n]) new s.files)) where
  tree := ⟨_, Node.get_replace_append hget (List.cons_ne_nil n []) new, hP⟩
  source := by
    have hbelow := hapart.symm.left_of_below (List.prefix_append work [n])
    exact (Node.get_replace_apart hbelow new s.files).trans hsource

theorem runIn_run {tools : CaptureTools} {command : Command} {arguments : List String} {t : Node Bytes}
    (hget : Node.get work s.files = some t) :
    runIn tools work command arguments s =
      (if (tools.git s.calls (arguments.map String.toList) t).2 then .ok () else .error (.process command),
        ({ s with calls := s.calls + 1 } : World κ γ).edit (.filled work)
          (Node.replace work (some (tools.git s.calls (arguments.map String.toList) t).1) s.files)) := by
  have hwork : workIn work (.filled work) (tools.git s.calls (arguments.map String.toList))
      { s with calls := s.calls + 1 } = (.ok (tools.git s.calls (arguments.map String.toList) t).2,
        ({ s with calls := s.calls + 1 } : World κ γ).edit (.filled work)
          (Node.replace work (some (tools.git s.calls (arguments.map String.toList) t).1) s.files)) := by
    rw [workIn]
    dsimp only
    rw [hget]
  rw [runIn, nextCall_bind, ok_bind hwork]
  cases (tools.git s.calls (arguments.map String.toList) t).2 <;> rfl

variable {Q : Failure → World κ γ → Prop}

theorem working_runIn {tools : CaptureTools} {command : Command} {arguments : List String}
    (hapart : Node.Apart source work)
    (hgit : ∀ n t, P t → Finishes P' (tools.git n (arguments.map String.toList) t)) :
    Triple (Working source work vendored P) (runIn tools work command arguments : Action κ γ Unit)
      (fun _ => Working source work vendored P') Q := by
  rintro s ⟨⟨t, hget, hP⟩, hsource⟩
  obtain ⟨hfinished, hP'⟩ := hgit s.calls t hP
  rw [runIn_run hget, if_pos hfinished]
  exact ⟨⟨_, Node.get_replace_of_get hget _, hP'⟩, (Node.get_replace_apart hapart.symm _ _).trans hsource⟩

theorem working_commit {tools : CaptureTools} {ignored : Node Bytes → Path → Bool} {printed : Bytes}
    (hgit : CaptureGit tools state ignored base vendored printed) (hapart : Node.Apart source work) :
    Triple (Working source work vendored (Around state base ⟨emptyIndex, baseIndex ignored base⟩))
      (runIn tools work .commit ["commit", "-m", "base"] : Action κ γ Unit)
      (fun _ s => Committable ignored base ∧
        Working source work vendored (Around state base ⟨baseIndex ignored base, baseIndex ignored base⟩) s)
      (fun _ _ => ¬ Committable ignored base) := by
  rintro s ⟨⟨t, hget, haround⟩, hsource⟩
  obtain ⟨hiff, hafter⟩ := hgit.commit s.calls t haround
  rw [runIn_run hget]
  by_cases hcommit : Committable ignored base
  · rw [if_pos (hiff.2 hcommit)]
    exact ⟨hcommit, ⟨_, Node.get_replace_of_get hget _, hafter hcommit⟩,
      (Node.get_replace_apart hapart.symm _ _).trans hsource⟩
  · rw [if_neg fun h => hcommit (hiff.1 h)]
    exact hcommit

/-- Only the repository is left. -/
theorem working_removeTreeContents (hapart : Node.Apart source work) :
    Triple (Working source work vendored (Around state x r)) (removeTreeContents work : Action κ γ Unit)
      (fun _ => Working source work vendored (Around state (.dir []) r)) Q := by
  refine triple_of_forall fun w₀ ⟨⟨t₀, hget₀, hdir₀, _, g, hg, hr⟩, hsource₀⟩ => ?_
  refine triple_bind (Q := fun names w => w = w₀ ∧ names = t₀.names) ?_ fun names => ?_
  · rintro w rfl
    exact ⟨rfl, congrArg (fun o => o.elim [] Node.names) hget₀⟩
  refine triple_of_forall fun w₁ hw₁ => ?_
  obtain ⟨rfl, rfl⟩ := hw₁
  let Left (done : List Name) (t : Node Bytes) : Prop := t.isDirectory = true ∧ t.child dotGit = some g ∧
    ∀ m, m ≠ dotGit → t.child m = if m ∈ done then none else t₀.child m
  have hnodup : t₀.names.Nodup := by
    cases t₀ with
    | dir cs => exact List.nodup_dedup _
    | _ => exact List.nodup_nil
  refine triple_weaken (P := Working source work vendored (Left []))
    (triple_forM (E := Q) (fun done => Working source work vendored (Left done)) fun done n later hsplit => ?_) ?_ ?_
    fun _ _ h => h
  · by_cases hn : n = dotGit
    · rw [if_pos hn]
      refine triple_pure _ fun w ⟨⟨t, hget, hdir, hgit, hrest⟩, hsource⟩ => ⟨⟨t, hget, hdir, hgit, fun m hm => ?_⟩, hsource⟩
      have hmem : m ∈ done ++ [n] ↔ m ∈ done := by simp [hn, hm]
      simp only [hmem]
      exact hrest m hm
    · rw [if_neg hn]
      rintro w ⟨⟨t, hget, hdir, hgit, hrest⟩, hsource⟩
      have hnew : n ∉ done := by
        rw [hsplit] at hnodup
        exact fun hmem => (List.nodup_append'.1 hnodup).2.2 hmem List.mem_cons_self
      obtain ⟨y, hy⟩ : ∃ y, t₀.child n = some y := Option.isSome_iff_exists.1
        (Node.mem_names.1 (hsplit ▸ List.mem_append_right done List.mem_cons_self))
      have hthere : Node.get (work ++ [n]) w.files = some y := by
        rw [Node.get_append, hget, Option.bind_some, Node.get_cons, hrest n hn, if_neg hnew, hy]
        rfl
      rw [removeChild_run, hthere]
      refine Working.edit hsource hapart hget ⟨(Node.isDirectory_setChild _ _ _).trans hdir, ?_, fun m hm => ?_⟩ _
      · rw [Node.child_setChild_ne none (Ne.symm hn), hgit]
      · by_cases hmn : m = n
        · rw [hmn, Node.child_setChild_self hdir, if_pos (List.mem_append_right done (List.mem_singleton_self n))]
        · have hmem : m ∈ done ++ [n] ↔ m ∈ done := by simp [hmn]
          rw [Node.child_setChild_ne none hmn, hrest m hm]
          simp only [hmem]
  · rintro w rfl
    exact ⟨⟨t₀, hget₀, hdir₀, hg, fun m _ => by rw [if_neg List.not_mem_nil]⟩, hsource₀⟩
  · rintro _ w ⟨⟨t, hget, hdir, hgit, hrest⟩, hsource⟩
    refine ⟨⟨t, hget, hdir, fun m hm => ?_, g, hgit, hr⟩, hsource⟩
    rw [hrest m hm]
    by_cases hmem : m ∈ t₀.names
    · rw [if_pos hmem]
      rfl
    · rw [if_neg hmem]
      rw [Node.mem_names, Option.not_isSome_iff_eq_none] at hmem
      exact hmem

theorem copyChild_run {n : Name} (hnone : Node.get (work ++ [n]) s.files = none) (hlink : ∀ target, x ≠ .link target) :
    copyChild work n (some x) s =
      (.ok (), s.edit (.created (work ++ [n])) (Node.replace (work ++ [n]) (some x) s.files)) := by
  rw [copyChild, observe_bind]
  cases x with
  | file data =>
    have hplace : copyPlace s.files work n = work ++ [n] := by rw [copyPlace, hnone]
    dsimp only
    rw [hplace, writeFile, hnone]
  | link target => exact absurd rfl (hlink target)
  | dir cs =>
    dsimp only
    rw [placeNew, hnone]

/-- The vendored tree has taken the place of the exported one. -/
theorem working_copyTreeContents (hapart : Node.Apart source work) (hdot : dotDot ∉ source) (hplain : Plain vendored)
    (hlinks : Node.NoLinks vendored) :
    Triple (Working source work vendored (Around state (.dir []) r)) (copyTreeContents source work : Action κ γ Unit)
      (fun _ => Working source work vendored (Around state vendored r)) Q := by
  obtain ⟨hdirectory, hnogit⟩ := hplain
  cases vendored with
  | file data => cases hdirectory
  | link target => cases hdirectory
  | dir cs =>
    refine triple_bind (Q := fun _ => Working source work (.dir cs) (Around state (.dir []) r)) ?_ fun _ => ?_
    · rintro w ⟨⟨t, hget, haround⟩, hsource⟩
      rw [mkdirs_existing hget haround.1]
      exact ⟨⟨t, hget, haround⟩, hsource⟩
    refine triple_bind (Q := fun found w => found = some (source, .dir cs) ∧
      Working source work (.dir cs) (Around state (.dir []) r) w) ?_ fun found => ?_
    · exact triple_observe fun w hw => ⟨stat_directory hdot hw.source, hw⟩
    refine triple_of_forall fun w₀ ⟨hfound, hw₀⟩ => ?_
    subst hfound
    let Put (done : List Name) (t : Node Bytes) : Prop := t.isDirectory = true ∧
      (∃ g, t.child dotGit = some g ∧ state g = r) ∧
      ∀ m, m ≠ dotGit → t.child m = if m ∈ done then Node.child (.dir cs) m else none
    have hnodup : (Node.names (.dir cs)).Nodup := List.nodup_dedup _
    refine triple_weaken (P := Working source work (.dir cs) (Put []))
      (triple_forM (E := Q) (fun done => Working source work (.dir cs) (Put done)) fun done n later hsplit => ?_) ?_ ?_
      fun _ _ h => h
    · rintro w ⟨⟨t, hget, hdir, hgit, hrest⟩, hsource⟩
      have hnew : n ∉ done := by
        rw [hsplit] at hnodup
        exact fun hmem => (List.nodup_append'.1 hnodup).2.2 hmem List.mem_cons_self
      obtain ⟨y, hy⟩ : ∃ y, Node.child (.dir cs) n = some y := Option.isSome_iff_exists.1
        (Node.mem_names.1 (hsplit ▸ List.mem_append_right done List.mem_cons_self))
      have hn : n ≠ dotGit := by
        rintro rfl
        rw [hnogit] at hy
        cases hy
      have hlink : ∀ target, y ≠ .link target := by
        rintro target rfl
        refine hlinks [n] target ?_
        rw [Node.get_cons, hy]
        rfl
      have hnone : Node.get (work ++ [n]) w.files = none := by
        rw [Node.get_append, hget, Option.bind_some, Node.get_cons, hrest n hn, if_neg hnew]
        rfl
      rw [hy, copyChild_run hnone hlink]
      refine Working.edit hsource hapart hget ⟨(Node.isDirectory_setChild _ _ _).trans hdir, ?_, fun m hm => ?_⟩ _
      · rw [Node.child_setChild_ne _ (Ne.symm hn)]
        exact hgit
      · by_cases hmn : m = n
        · rw [hmn, Node.child_setChild_self hdir, if_pos (List.mem_append_right done (List.mem_singleton_self n)), hy]
        · have hmem : m ∈ done ++ [n] ↔ m ∈ done := by simp [hmn]
          rw [Node.child_setChild_ne _ hmn, hrest m hm]
          simp only [hmem]
    · rintro w rfl
      obtain ⟨⟨t, hget, hdir, hempty, hgit⟩, hsource⟩ := hw₀
      refine ⟨⟨t, hget, hdir, hgit, fun m hm => ?_⟩, hsource⟩
      rw [hempty m hm, if_neg List.not_mem_nil]
      rfl
    · rintro _ w ⟨⟨t, hget, hdir, hgit, hrest⟩, hsource⟩
      refine ⟨⟨t, hget, hdir, fun m hm => ?_, hgit⟩, hsource⟩
      rw [hrest m hm]
      by_cases hmem : m ∈ Node.names (.dir cs)
      · rw [if_pos hmem]
      · rw [if_neg hmem]
        rw [Node.mem_names, Option.not_isSome_iff_eq_none] at hmem
        exact hmem.symm

variable {c : Checkout κ γ} {commit : Text}

theorem working_exportRef {cache : Option κ} {n : Name} (hapart : Node.Apart source directory)
    (hexported : ∀ k, exportedTree c.git cache commit k = some (base, k + 2)) :
    Triple (fun w => Node.get directory w.files = some (.dir []) ∧ Node.get source w.files = some vendored)
      (exportRef c cache commit (directory ++ [n]))
      (fun _ => Working source (directory ++ [n]) vendored fun t => t = base) Q := by
  rintro w ⟨hget, hsource⟩
  have hnone : Node.get (directory ++ [n]) w.files = none := by
    rw [Node.get_append, hget]
    rfl
  have hmade := Node.get_replace_self (n := n) hget (by rfl) (some (.dir []))
  rw [exportRef_run (mkdirs_run (fun q hq => Node.directory_above hq hget) hnone) hmade]
  have hbase := hexported w.calls
  unfold exportedTree at hbase
  dsimp only at hbase
  split at hbase
  · rename_i hboth
    have hended : exportError c.git cache commit w.calls = .ok () := by
      rw [exportError, if_pos hboth.1, if_pos hboth.2]
    have hwork := hapart.symm.left_of_below (List.prefix_append directory [n])
    dsimp only [World.edit]
    rw [hended]
    refine ⟨⟨_, Node.get_replace_of_get hmade _, congrArg Prod.fst (Option.some.inj hbase)⟩, ?_⟩
    exact (Node.get_replace_apart hwork _ _).trans ((Node.get_replace_apart hwork _ _).trans hsource)
  · cases hbase

variable {tools : CaptureTools} {ignored : Node Bytes → Path → Bool} {printed : Bytes}

theorem working_diffIn (hgit : CaptureGit tools state ignored base vendored printed) :
    Triple (Working source work vendored
        (Around state vendored ⟨baseIndex ignored base, localIndex ignored base vendored⟩))
      (diffIn tools work : Action κ γ CompletedProcess)
      (fun diff _ => readText printed = some diff.stdout ∧ diff.succeeded = true)
      (fun _ _ => readText printed = none) := by
  rintro w ⟨⟨t, hget, haround⟩, -⟩
  rw [diffIn, nextCall_bind, observe_bind]
  dsimp only
  rw [hget]
  dsimp only
  rw [hgit.diff w.calls t haround]
  dsimp only
  rcases hread : readText printed with _ | stdout
  · exact rfl
  · exact ⟨rfl, rfl⟩

/-- The difference is read if there is something to commit and it is text. -/
theorem diffAgainstBase_ends {dep : Dependency} {cache : Option κ} {n : Name}
    (hgit : CaptureGit tools state ignored base vendored printed)
    (hexported : ∀ k, exportedTree c.git cache commit k = some (base, k + 2)) (hbase : Plain base)
    (hvendored : Plain vendored) (hlinks : Node.NoLinks vendored) (hdot : dotDot ∉ capturedPath c.root dep)
    (hapart : Node.Apart (capturedPath c.root dep) directory) :
    Triple (fun w => Node.get directory w.files = some (.dir []) ∧
        Node.get (capturedPath c.root dep) w.files = some vendored)
      (diffAgainstBase c tools dep commit cache (directory ++ [n]))
      (fun diff _ => Committable ignored base ∧ readText printed = some diff.stdout ∧ diff.succeeded = true)
      (fun _ _ => ¬ Committable ignored base ∨ readText printed = none) := by
  have hwork : Node.Apart (capturedPath c.root dep) (directory ++ [n]) :=
    (hapart.symm.left_of_below (List.prefix_append directory [n])).symm
  have hconfig : ∀ key value, Triple (Working (capturedPath c.root dep) (directory ++ [n]) vendored
        (Around state base ⟨emptyIndex, emptyIndex⟩))
      (runIn tools (directory ++ [n]) .config ["config", key, value] : Action κ γ Unit)
      (fun _ => Working (capturedPath c.root dep) (directory ++ [n]) vendored (Around state base ⟨emptyIndex, emptyIndex⟩))
      fun _ _ => ¬ Committable ignored base ∨ readText printed = none :=
    fun key value => working_runIn hwork fun m t => hgit.config m key value base _ t
  refine triple_bind (working_exportRef hapart hexported) fun _ => ?_
  have hinit : ∀ m t, t = base →
      Finishes (Around state base ⟨emptyIndex, emptyIndex⟩) (tools.git m (["init"].map String.toList) t) := by
    rintro m t rfl
    exact hgit.init m t hbase
  refine triple_bind (working_runIn hwork hinit) fun _ => ?_
  refine triple_bind (hconfig _ _) fun _ => triple_bind (hconfig _ _) fun _ => ?_
  refine triple_bind (working_runIn hwork fun m t => hgit.add m base _ t (.inl rfl)) fun _ => ?_
  refine triple_bind (triple_weaken (working_commit hgit hwork) (fun _ h => h) (fun _ _ h => h) fun _ _ h => .inl h)
    fun _ => ?_
  rintro w ⟨hcommit, hw⟩
  revert w
  refine triple_bind (working_removeTreeContents hwork) fun _ => ?_
  refine triple_bind (working_copyTreeContents hwork hdot hvendored hlinks) fun _ => ?_
  refine triple_bind (working_runIn hwork fun m t => hgit.add m vendored _ t (.inr rfl)) fun _ => ?_
  exact triple_weaken (working_diffIn hgit) (fun _ h => h) (fun _ _ h => ⟨hcommit, h⟩) fun _ _ h => .inr h

end Steps

/-- The clones, the outer repository and the manifest in memory, which a capture does not touch. -/
def SameRecords (w s : World κ γ) : Prop :=
  s.caches = w.caches ∧ s.repository = w.repository ∧ s.manifest = w.manifest

section Records

variable {c : Checkout κ γ} {tools : CaptureTools} {w : World κ γ}

theorem same_unlink (path : Path) : Keeps (SameRecords w) (unlink path : Action κ γ Unit) := by
  intro s hs
  rw [unlink]
  rcases Node.get path s.files with _ | x
  · exact hs
  · cases x <;> exact hs

theorem same_writeFile (path : Path) (data : Bytes) : Keeps (SameRecords w) (writeFile path data : Action κ γ Unit) := by
  intro s hs
  rw [writeFile]
  rcases Node.get path s.files with _ | x
  · exact hs
  · cases x with
    | file before => exact hs
    | dir cs => exact hs
    | link target =>
      dsimp only
      rw [writeBytes]
      rcases Node.follow s.files Node.maxLinks [] path with _ | place
      · exact hs
      · dsimp only
        rcases Node.get place s.files with _ | y
        · exact hs
        · cases y <;> exact hs

theorem same_copyChild (destination : Path) (n : Name) (child : Option (Node Bytes)) :
    Keeps (SameRecords w) (copyChild destination n child : Action κ γ Unit) := by
  have hplace : ∀ path t, Keeps (SameRecords w) (placeNew path t : Action κ γ Unit) := by
    intro path t s hs
    rw [placeNew]
    rcases Node.get path s.files with _ | x <;> exact hs
  refine keeps_bind (keeps_observe _) fun files => ?_
  rcases child with _ | x
  · exact keeps_raise _
  · cases x with
    | file data => exact same_writeFile _ data
    | link target => exact hplace _ _
    | dir cs => exact hplace _ _

theorem same_runIn (work : Path) (command : Command) (arguments : List String) :
    Keeps (SameRecords w) (runIn tools work command arguments : Action κ γ Unit) :=
  keeps_bind (keeps_nextCall fun _ hs => hs) fun _ =>
    keeps_bind (keeps_workIn fun _ _ _ hs => hs) fun _ => keeps_check _ _

theorem same_removeTreeContents (work : Path) : Keeps (SameRecords w) (removeTreeContents work : Action κ γ Unit) := by
  refine keeps_bind (keeps_observe _) fun names => keeps_forM fun n _ => keeps_ite (fun _ => keeps_pure _) fun _ => ?_
  refine keeps_bind (keeps_observe _) fun files => ?_
  exact keeps_ite (fun _ => keeps_rmtree fun _ _ _ _ hs => hs) fun _ => same_unlink _

theorem same_copyTreeContents (source work : Path) :
    Keeps (SameRecords w) (copyTreeContents source work : Action κ γ Unit) := by
  refine keeps_bind (keeps_mkdirs fun _ _ _ _ _ hs => hs) fun _ => keeps_bind (keeps_observe _) fun found => ?_
  rcases found with _ | ⟨place, x⟩
  · exact keeps_raise _
  · cases x with
    | file data => exact keeps_raise _
    | link target => exact keeps_raise _
    | dir cs => exact keeps_forM fun n _ => same_copyChild _ _ _

theorem same_diffIn (work : Path) : Keeps (SameRecords w) (diffIn tools work : Action κ γ CompletedProcess) := by
  refine keeps_bind (keeps_nextCall fun _ hs => hs) fun n => keeps_bind (keeps_observe _) fun found => ?_
  rcases found with _ | t
  · exact keeps_raise _
  · dsimp only
    rcases readText (tools.diff n t).1 with _ | stdout
    · exact keeps_raise _
    · exact keeps_pure _

theorem same_diffAgainstBase (dep : Dependency) (commit : Text) (cache : Option κ) (work : Path) :
    Keeps (SameRecords w) (diffAgainstBase c tools dep commit cache work) := by
  have hexport : Keeps (SameRecords w) (exportRef c cache commit work) :=
    keeps_bind (keeps_mkdirs fun _ _ _ _ _ hs => hs) fun _ => keeps_bind (keeps_nextCall fun _ hs => hs) fun _ =>
      keeps_bind (keeps_nextCall fun _ hs => hs) fun _ => keeps_bind (keeps_workIn fun _ _ _ hs => hs) fun _ =>
        keeps_bind (keeps_check _ _) fun _ => keeps_check _ _
  refine keeps_bind hexport fun _ => keeps_bind (same_runIn _ _ _) fun _ => keeps_bind (same_runIn _ _ _) fun _ => ?_
  refine keeps_bind (same_runIn _ _ _) fun _ => keeps_bind (same_runIn _ _ _) fun _ => ?_
  refine keeps_bind (same_runIn _ _ _) fun _ => keeps_bind (same_removeTreeContents _) fun _ => ?_
  refine keeps_bind (same_copyTreeContents _ _) fun _ => keeps_bind (same_runIn _ _ _) fun _ => ?_
  exact same_diffIn _

theorem same_capturePatch (dep : Dependency) (commit : Text) :
    Keeps (SameRecords w) (capturePatch c tools dep commit) := by
  have htemporary : ∀ path work cache, Keeps (SameRecords w)
      (withTemporaryDirectory path (diffAgainstBase c tools dep commit cache work)) := by
    intro path work cache s hs
    rw [withTemporaryDirectory]
    split_ifs with hfree
    · have hkeeps : Keeps (SameRecords w) (diffAgainstBase c tools dep commit cache work) :=
        same_diffAgainstBase dep commit cache work
      have hstart : SameRecords w (s.edit (.created path) (Node.replace path (some (.dir [])) s.files)) := hs
      have hbody := triple_left hkeeps hstart
      rcases hrun : diffAgainstBase c tools dep commit cache work
        (s.edit (.created path) (Node.replace path (some (.dir [])) s.files)) with ⟨e | a, s'⟩ <;>
        rw [hrun] at hbody <;> exact hbody
    · exact hs
  refine keeps_bind (keeps_bind (keeps_observe _) fun files => keeps_ite (fun _ => ?_) fun _ => keeps_raise _) fun diff => ?_
  · refine keeps_bind (keeps_observe _) fun cache => ?_
    exact keeps_bind (keeps_mkdirs fun _ _ _ _ _ hs => hs) fun _ => htemporary _ _ cache
  · refine keeps_bind (keeps_observe _) fun names => keeps_bind (keeps_forM fun n _ => same_unlink _) fun _ => ?_
    exact keeps_ite (fun _ => keeps_pure _) fun _ => keeps_bind (same_writeFile _ _) fun _ => keeps_pure _

end Records

/-- Where the directories of a dependency lie. The temporary directory is a name that is not taken. -/
structure Laid (c : Checkout κ γ) (tools : CaptureTools) (dep : Dependency) (vendored files : Node Bytes) : Prop where
  captured : capturedPath c.root dep = targetPath c.root dep
  below : c.root <+: targetPath c.root dep ∧ c.root ≠ targetPath c.root dep
  target : Node.get (targetPath c.root dep) files = some vendored
  stale : staleStagingNames (targetPath c.root dep) files = []
  staging : Node.get (stagingPath (targetPath c.root dep) c.pid) files = none
  patches : c.root <+: patchesPath c.root dep ∧ dotDot ∉ patchesPath c.root dep
  open_patches : OpenTo (patchesPath c.root dep) files
  patch_files : PatchFiles (patchesPath c.root dep) files
  apart : ¬ InZone (targetPath c.root dep) (patchesPath c.root dep) ∧ ¬ patchesPath c.root dep <+: targetPath c.root dep
  temporary : Node.kindAt (temporaryPath c.root dep tools.suffix).dropLast files = some .dir ∧
    Node.get (temporaryPath c.root dep tools.suffix) files = none
  beside : ¬ temporaryPath c.root dep tools.suffix <+: patchesPath c.root dep ∧
    ¬ targetPath c.root dep <+: temporaryPath c.root dep tools.suffix

/-- The clone holds the commit, whose tree is exported. -/
def Exports (c : Checkout κ γ) (dep : Dependency) (commit : Text) (base : Node Bytes) (w : World κ γ) : Prop :=
  ∀ n, exportedTree c.git (w.caches (cachePath c.root dep)) commit n = some (base, n + 2)

section Captures

variable {c : Checkout κ γ} {tools : CaptureTools} {dep : Dependency} {commit : Text} {vendored base : Node Bytes}
  {state : Node Bytes → Repository} {ignored : Node Bytes → Path → Bool} {printed : Bytes} {w : World κ γ}

theorem Laid.target_ne_nil {files : Node Bytes} (h : Laid c tools dep vendored files) : targetPath c.root dep ≠ [] := by
  intro hnil
  refine h.below.2 ?_
  have hroot := h.below.1
  rw [hnil, List.prefix_nil] at hroot
  rw [hnil, hroot]

theorem Laid.target_apart_patches {files : Node Bytes} (h : Laid c tools dep vendored files) :
    ¬ targetPath c.root dep <+: patchesPath c.root dep := by
  intro hle
  refine h.apart.1 ⟨nameOf (targetPath c.root dep), .inl rfl, ?_⟩
  rwa [dropLast_append_nameOf h.target_ne_nil]

/-- The patch directory is made without touching the target or taking the temporary name. -/
theorem mkdirs_patches {files : Node Bytes} (h : Laid c tools dep vendored files) :
    Keeps (fun s : World κ γ => Node.kindAt (temporaryPath c.root dep tools.suffix).dropLast s.files = some .dir ∧
        Node.get (temporaryPath c.root dep tools.suffix) s.files = none ∧
        Node.get (targetPath c.root dep) s.files = some vendored)
      (mkdirs (patchesPath c.root dep)) := by
  refine keeps_mkdirs fun q s hq _ hnone ⟨hparent, hfree, htarget⟩ => ?_
  have hparent' : ¬ q <+: (temporaryPath c.root dep tools.suffix).dropLast := by
    intro hle
    obtain ⟨cs, hcs⟩ := Node.kindAt_eq_dir.1 hparent
    obtain ⟨ds, hds⟩ := Node.directory_above hle hcs
    rw [hnone] at hds
    cases hds
  have htemporary : ¬ q <+: temporaryPath c.root dep tools.suffix := by
    intro hle
    by_cases hsame : q = temporaryPath c.root dep tools.suffix
    · exact h.beside.1 (hsame ▸ hq)
    · refine hparent' ?_
      have hne : temporaryPath c.root dep tools.suffix ≠ [] := by
        intro hnil
        rw [hnil, List.prefix_nil] at hle
        exact hsame (hle.trans hnil.symm)
      rw [← List.dropLast_append_getLast hne] at hle hsame
      exact (List.prefix_concat_iff.1 hle).resolve_left hsame
  have happlied : Node.Apart q (targetPath c.root dep) := by
    constructor
    · rintro ⟨r, hr⟩
      rw [← hr, Node.get_append_of_none hnone r] at htarget
      cases htarget
    · exact fun hle => h.target_apart_patches (hle.trans hq)
  refine ⟨(Node.kindAt_replace hparent' _ _).trans hparent, ?_, (Node.get_replace_apart happlied _ _).trans htarget⟩
  rw [← Node.kindAt_eq_none] at hfree ⊢
  exact (Node.kindAt_replace htemporary _ _).trans hfree

theorem withTemporaryDirectory_ends {α : Type} {source path : Path} {body : Action κ γ α} {Q : α → Prop}
    {E : Failure → Prop} (hapart : Node.Apart source path)
    (hbody : Triple (fun w => Node.get path w.files = some (.dir []) ∧ Node.get source w.files = some vendored) body
      (fun a _ => Q a) (fun e _ => E e)) :
    Triple (fun w => Node.kindAt path.dropLast w.files = some .dir ∧ Node.get path w.files = none ∧
        Node.get source w.files = some vendored)
      (withTemporaryDirectory path body) (fun a _ => Q a) (fun e _ => E e) := by
  rintro w ⟨hparent, hnone, hsource⟩
  obtain ⟨cs, hcs⟩ := Node.kindAt_eq_dir.1 hparent
  have hne : path ≠ [] := by
    rintro rfl
    cases hnone
  have hfree : (Node.get path.dropLast w.files).any Node.isDirectory = true ∧ (Node.get path w.files).isNone = true := by
    rw [hcs, hnone]
    exact ⟨rfl, rfl⟩
  have hmade : Node.get path (Node.replace path (some (.dir [])) w.files) = some (.dir []) := by
    have hself := Node.get_replace_self (n := path.getLast hne) hcs (by rfl) (some (.dir []))
    rwa [List.dropLast_append_getLast hne] at hself
  have hended := hbody (w.edit (.created path) (Node.replace path (some (.dir [])) w.files))
    ⟨hmade, (Node.get_replace_apart hapart.symm _ _).trans hsource⟩
  rw [withTemporaryDirectory, if_pos hfree]
  rcases hrun : body (w.edit (.created path) (Node.replace path (some (.dir [])) w.files)) with ⟨e | a, w'⟩ <;>
    rw [hrun] at hended <;> exact hended

theorem captureDiff_ends (hgit : CaptureGit tools state ignored base vendored printed)
    (hexports : Exports c dep commit base w) (hbase : Plain base)
    (hvendored : Plain vendored) (hlinks : Node.NoLinks vendored) (hlaid : Laid c tools dep vendored w.files) :
    Triple (fun s => s = w) (captureDiff c tools dep commit)
      (fun diff _ => Committable ignored base ∧ readText printed = some diff.stdout ∧ diff.succeeded = true)
      (fun _ _ => ¬ Committable ignored base ∨ readText printed = none) := by
  have hdot : dotDot ∉ capturedPath c.root dep := by
    rw [hlaid.captured]
    exact dotDot_not_mem_resolve _
  obtain ⟨cs, hcs⟩ : ∃ cs, vendored = .dir cs := by
    have hdirectory := hvendored.1
    cases vendored with
    | file data => cases hdirectory
    | link target => cases hdirectory
    | dir cs => exact ⟨cs, rfl⟩
  have hexists : pathExists w.files (capturedPath c.root dep) = true := by
    rw [pathExists, hlaid.captured, stat_directory (hlaid.captured ▸ hdot) (hcs ▸ hlaid.target)]
    rfl
  have hapart : Node.Apart (capturedPath c.root dep) (temporaryPath c.root dep tools.suffix) := by
    rw [hlaid.captured]
    refine ⟨hlaid.beside.2, ?_⟩
    rintro ⟨r, hr⟩
    have htarget := hlaid.target
    rw [← hr, Node.get_append_of_none hlaid.temporary.2] at htarget
    cases htarget
  have hstart := mkdirs_patches hlaid w ⟨hlaid.temporary.1, hlaid.temporary.2, hlaid.target⟩
  obtain ⟨w₁, hmade⟩ := mkdirs_of_open hlaid.open_patches
  rw [hmade] at hstart
  rintro s rfl
  rw [captureDiff, observe_bind, if_pos hexists, observe_bind, ok_bind hmade]
  rw [← hlaid.captured] at hstart
  exact withTemporaryDirectory_ends hapart (diffAgainstBase_ends hgit hexports hbase hvendored hlinks hdot hapart)
    w₁ hstart

/-- What a capture leaves: the patches replaced by one with the text that was read, and nothing else. -/
structure Captured (patchDir : Path) (stdout : Text) (w w' : World κ γ) : Prop where
  patches : ∀ n, isPatch n = true → Node.get (patchDir ++ [n]) w'.files =
    if stdout ≠ [] ∧ n = localPatch then some (.file (encodeUtf8 stdout)) else none
  directory : ∃ cs, Node.get patchDir w'.files = some (.dir cs)
  kinds : ∀ q, ¬ q <+: patchDir → ¬ patchDir <+: q → Node.kindAt q w'.files = Node.kindAt q w.files
  records : SameRecords w w'

/-- A capture ends exactly when something can be committed and the difference is text. -/
theorem capturePatch_ends (hplain : LinklessGit c tools) (hgit : CaptureGit tools state ignored base vendored printed)
    (hexports : Exports c dep commit base w) (hbase : Plain base)
    (hvendored : Plain vendored) (hlinks : Node.NoLinks vendored) (hlaid : Laid c tools dep vendored w.files) :
    (∃ stdout w', Committable ignored base ∧ readText printed = some stdout ∧
      capturePatch c tools dep commit w =
        (.ok (if stdout = [] then none else some (patchesPath c.root dep ++ [localPatch])), w') ∧
      Captured (patchesPath c.root dep) stdout w w') ∨
    ((¬ Committable ignored base ∨ readText printed = none) ∧ ∃ e, (capturePatch c tools dep commit w).1 = .error e) := by
  have hends := captureDiff_ends hgit hexports hbase hvendored hlinks hlaid w rfl
  have hleft := captureDiff_left hplain dep commit w w rfl
  have hkeeps : Keeps (SameRecords w) (capturePatch c tools dep commit) := same_capturePatch dep commit
  have hsame := triple_left hkeeps ⟨rfl, rfl, rfl⟩
  rcases hrun : captureDiff c tools dep commit w with ⟨e | diff, w₁⟩ <;> rw [hrun] at hends hleft
  · refine .inr ⟨hends, e, ?_⟩
    rw [capturePatch, error_bind hrun]
  · obtain ⟨hcommit, hread, -⟩ := hends
    obtain ⟨-, hdir, hkinds⟩ := hleft
    obtain ⟨w₂, hreplace, hframe, hds, hpatches⟩ :=
      replacePatches_run hdir (hlaid.patch_files.congr fun n => hkinds _ (not_below_self _ n)) diff.stdout
    have hcapture : capturePatch c tools dep commit w = _ := (ok_bind hrun _).trans hreplace
    rw [hcapture] at hsame
    exact .inl ⟨diff.stdout, w₂, hcommit, hread, hcapture, hpatches, hds,
      fun q habove hq => (hframe q hq).1.trans (hkinds q habove), hsame⟩

end Captures

end LoggerBenchmarks.CaptureRuns
