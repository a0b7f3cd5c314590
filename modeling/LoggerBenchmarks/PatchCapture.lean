import LoggerBenchmarks.StagedTree
import LoggerBenchmarks.TextStreams

set_option autoImplicit false

/-!
# Recording local changes

`capture_patch`: the commit is exported into a temporary directory and committed
there, the vendored tree is put over it, and what `git diff` prints replaces the
recorded patches. The index and the commits of that directory are in its `.git`.
-/
namespace LoggerBenchmarks.PatchCapture
open PythonText PosixPaths FileTrees GlobPatterns StatefulPrograms LineEndings VendorManifest VendorWorld
open VendorStaging StagedTree TextStreams

variable {κ γ : Type}

structure CaptureTools where
  suffix : Text
  git : ℕ → List Text → Node Bytes → Node Bytes × Bool
  /-- The standard output of `git diff --cached … HEAD`, and whether it exits with 0. -/
  diff : ℕ → Node Bytes → Bytes × Bool

structure CompletedProcess where
  stdout : Text
  succeeded : Bool
  deriving DecidableEq

def dotGit : Name := ".git".toList

/-- `with tempfile.TemporaryDirectory(...)`: the directory is removed however the body ends. -/
def withTemporaryDirectory {α : Type} (path : Path) (body : Action κ γ α) : Action κ γ α := fun w =>
  if (Node.get path.dropLast w.files).any Node.isDirectory ∧ (Node.get path w.files).isNone then
    let ended := body (w.edit (.created path) (Node.replace path (some (.dir [])) w.files))
    (ended.1, ended.2.edit (.removed path) (Node.replace path none ended.2.files))
  else (.error .os, w)

def runIn (tools : CaptureTools) (work : Path) (command : Command) (arguments : List String) : Action κ γ Unit := do
  let n ← nextCall
  let succeeded ← workIn work (.filled work) (tools.git n (arguments.map String.toList))
  check command succeeded

/-- `path.unlink()` -/
def unlink (path : Path) : Action κ γ Unit := fun w =>
  match Node.get path w.files with
  | some (.file _) | some (.link _) => (.ok (), w.edit (.removed path) (Node.replace path none w.files))
  | _ => (.error .os, w)

def removeChild (path : Path) : Action κ γ Unit := do
  let files ← observe World.files
  if (Node.get path files).any Node.isDirectory then rmtree path else unlink path

def removeTreeContents (path : Path) : Action κ γ Unit := do
  let names ← observe fun w => (Node.get path w.files).elim [] Node.names
  names.forM fun n => if n = dotGit then pure () else removeChild (path ++ [n])

def placeNew (path : Path) (t : Node Bytes) : Action κ γ Unit := fun w =>
  match Node.get path w.files with
  | none => (.ok (), w.edit (.created path) (Node.replace path (some t) w.files))
  | some _ => (.error .os, w)

def writeFile (path : Path) (data : Bytes) : Action κ γ Unit := fun w =>
  match Node.get path w.files with
  | none => (.ok (), w.edit (.created path) (Node.replace path (some (.file data)) w.files))
  | some (.file before) =>
    (.ok (), w.edit (.rewritten path before data) (Node.replace path (some (.file data)) w.files))
  | some (.link _) => writeBytes path data w
  | some (.dir _) => (.error .os, w)

/-- `copy2` puts a file into the directory that stands at its destination. -/
def copyPlace (files : Node Bytes) (destination : Path) (n : Name) : Path :=
  match Node.get (destination ++ [n]) files with
  | none | some (.file _) => destination ++ [n]
  | some (.dir _) => destination ++ [n, n]
  | some (.link _) => if isDir files (destination ++ [n]) then destination ++ [n, n] else destination ++ [n]

def copyChild (destination : Path) (n : Name) (child : Option (Node Bytes)) : Action κ γ Unit := do
  let files ← observe World.files
  match child with
  | none => raise .os
  | some (.dir cs) => placeNew (destination ++ [n]) (.dir cs)
  | some (.link target) => placeNew (copyPlace files destination n) (.link target)
  | some (.file data) => writeFile (copyPlace files destination n) data

def copyTreeContents (source destination : Path) : Action κ γ Unit := do
  mkdirs destination
  let found ← observe fun w => Node.stat w.files [] source
  match found with
  | some (_, .dir cs) =>
    (Node.names (.dir cs)).forM fun n => copyChild destination n (Node.child (.dir cs) n)
  | _ => raise .os

def diffIn (tools : CaptureTools) (work : Path) : Action κ γ CompletedProcess := do
  let n ← nextCall
  let found ← observe fun w => Node.get work w.files
  match found with
  | none => raise .os
  | some t =>
    match readText (tools.diff n t).1 with
    | none => raise .value
    | some stdout => pure ⟨stdout, (tools.diff n t).2⟩

/-- `repo_root() / dep.target_dir` -/
def capturedPath (root : Path) (dep : Dependency) : Path := (PurePath.join ⟨true, root⟩ dep.targetDir).parts

def temporaryPath (root : Path) (dep : Dependency) (suffix : Text) : Path :=
  (PurePath.join ⟨true, root⟩ (parse (dep.name ++ "-capture-".toList ++ suffix))).parts

def diffAgainstBase (c : Checkout κ γ) (tools : CaptureTools) (dep : Dependency) (commit : Text) (cache : Option κ)
    (work : Path) : Action κ γ CompletedProcess := do
  exportRef c cache commit work
  runIn tools work .init ["init"]
  runIn tools work .config ["config", "user.name", "vendor-sync"]
  runIn tools work .config ["config", "user.email", "vendor-sync@example.invalid"]
  runIn tools work .add ["add", "-A"]
  runIn tools work .commit ["commit", "-m", "base"]
  removeTreeContents work
  copyTreeContents (capturedPath c.root dep) work
  runIn tools work .add ["add", "-A"]
  diffIn tools work

/-- Everything up to the end of the final `git diff`, whose status is not checked. -/
def captureDiff (c : Checkout κ γ) (tools : CaptureTools) (dep : Dependency) (commit : Text) :
    Action κ γ CompletedProcess := do
  let files ← observe World.files
  if pathExists files (capturedPath c.root dep) then do
    let cache ← observe fun w => w.caches (cachePath c.root dep)
    mkdirs (patchesPath c.root dep)
    withTemporaryDirectory (temporaryPath c.root dep tools.suffix)
      (diffAgainstBase c tools dep commit cache (temporaryPath c.root dep tools.suffix ++ ["work".toList]))
  else raise .systemExit

def isPatch (n : Name) : Bool := fnmatch n "*.patch".toList

def localPatch : Name := "0001-local.patch".toList

def replacePatches (patchDir : Path) (stdout : Text) : Action κ γ (Option Path) := do
  let names ← observe fun w => ((Node.get patchDir w.files).elim [] Node.names).filter isPatch
  names.forM fun n => unlink (patchDir ++ [n])
  if stdout = [] then pure none
  else do
    writeFile (patchDir ++ [localPatch]) (encodeUtf8 stdout)
    pure (some (patchDir ++ [localPatch]))

def capturePatch (c : Checkout κ γ) (tools : CaptureTools) (dep : Dependency) (commit : Text) :
    Action κ γ (Option Path) := do
  let diff ← captureDiff c tools dep commit
  replacePatches (patchesPath c.root dep) diff.stdout

def Framed (directory : Path) (files : Node Bytes) (w : World κ γ) : Prop :=
  ∀ q, ¬ directory <+: q →
    Node.kindAt q w.files = Node.kindAt q files ∧ Node.fileAt q w.files = Node.fileAt q files

def LinkFreeUnder (n : Name) (t : Node Bytes) : Prop := ∀ p target, Node.get (n :: p) t ≠ some (.link target)

def GitDirectory (t : Node Bytes) : Prop := t.isDirectory = true ∧ LinkFreeUnder dotGit t

/-- `tar` leaves a directory without a `.git`, and git makes no links in `.git`. -/
structure LinklessGit (c : Checkout κ γ) (tools : CaptureTools) : Prop where
  tar : ∀ m n cache commit, GitDirectory (c.git.tar m (c.git.archive n cache commit).1 (.dir [])).1
  git : ∀ n arguments t, GitDirectory t → GitDirectory (tools.git n arguments t).1

def Holds (directory work : Path) (files : Node Bytes) (P : Node Bytes → Prop) (w : World κ γ) : Prop :=
  Framed directory files w ∧ ∃ t, Node.get work w.files = some t ∧ P t

theorem linkFreeUnder_of_child {n : Name} {t : Node Bytes} (h : t.child n = none) : LinkFreeUnder n t := by
  intro p target hp
  rw [Node.get_cons, h] at hp
  cases hp

section Frames

variable {directory work : Path} {files : Node Bytes} {w : World κ γ}

theorem Framed.edit (h : Framed directory files w) {p : Path} (hp : directory <+: p) (new : Option (Node Bytes))
    (event : Event) : Framed directory files (w.edit event (Node.replace p new w.files)) :=
  fun q hq => ⟨(Node.kindAt_replace (fun hle => hq (hp.trans hle)) new w.files).trans (h q hq).1,
    (Node.fileAt_replace (fun hle => hq (hp.trans hle)) new w.files).trans (h q hq).2⟩

variable {P P' : Node Bytes → Prop}

theorem Holds.framed (h : Holds directory work files P w) : Framed directory files w := h.1

theorem Holds.edit (h : Framed directory files w) (hwork : directory <+: work) {t : Node Bytes} {n : Name}
    (hget : Node.get work w.files = some t) {q : Path} {new : Option (Node Bytes)}
    (hP : P (Node.replace (n :: q) new t)) (event : Event) :
    Holds directory work files P (w.edit event (Node.replace (work ++ n :: q) new w.files)) :=
  ⟨h.edit (hwork.trans (List.prefix_append _ _)) new event,
    _, Node.get_replace_append hget (List.cons_ne_nil n q) new, hP⟩

theorem holds_runIn {tools : CaptureTools} {command : Command} {arguments : List String}
    (hwork : directory <+: work)
    (hgit : ∀ n t, P t → P' (tools.git n (arguments.map String.toList) t).1) :
    Triple (Holds directory work files P) (runIn tools work command arguments : Action κ γ Unit)
      (fun _ => Holds directory work files P') (fun _ => Framed directory files) := by
  refine triple_bind (Q := fun _ => Holds directory work files P) (fun w hw => hw) fun n => ?_
  refine triple_bind (Q := fun _ => Holds directory work files P') ?_ fun succeeded => ?_
  · rintro w ⟨hframe, t, hget, hP⟩
    rw [workIn, hget]
    exact ⟨hframe.edit hwork _ _, _, Node.get_replace_of_get hget _, hgit n t hP⟩
  · exact triple_ite (fun _ => triple_pure _ fun w hw => hw) fun _ => triple_raise _ fun w hw => hw.framed

/-- What holds of the names that have not been handled yet. -/
theorem linkFreeUnder_replace {t : Node Bytes} {n m : Name} (h : LinkFreeUnder m t) (hne : m ≠ n) (q : Path)
    (new : Option (Node Bytes)) : LinkFreeUnder m (Node.replace (n :: q) new t) := by
  intro p target hp
  have hapart : Node.Apart (n :: q) (m :: p) := by
    constructor <;> intro hle <;> have heq := (List.cons_prefix_cons.1 hle).1
    · exact hne heq.symm
    · exact hne heq
  rw [Node.get_replace_apart hapart] at hp
  exact h p target hp

theorem isDirectory_replaced {t : Node Bytes} (h : t.isDirectory = true) (n : Name) (q : Path)
    (new : Option (Node Bytes)) : (Node.replace (n :: q) new t).isDirectory = true := by
  obtain ⟨d, hd, hdir⟩ := Node.isDirectory_replace (p := []) (q := n :: q) (Node.get_nil t) h (List.cons_ne_nil n q) new
  rw [← Option.some.inj hd] at hdir
  exact hdir

theorem removeChild_run (path : Path) (w : World κ γ) :
    removeChild path w = match Node.get path w.files with
      | none => (.error .os, w)
      | some _ => (.ok (), w.edit (.removed path) (Node.replace path none w.files)) := by
  rw [removeChild, observe_bind]
  cases hget : Node.get path w.files with
  | none =>
    rw [Option.any_none, if_neg Bool.false_ne_true, unlink, hget]
  | some t =>
    cases t with
    | file data => rw [Option.any_some, if_neg (by exact Bool.false_ne_true), unlink, hget]
    | link target => rw [Option.any_some, if_neg (by exact Bool.false_ne_true), unlink, hget]
    | dir cs =>
      change rmtree path w = _
      rw [rmtree, hget, Option.any_some, if_pos (by rfl)]

/-- A name that is removed is gone, and so are those before it. -/
theorem holds_removeTreeContents (hwork : directory <+: work) :
    Triple (Holds directory work files GitDirectory) (removeTreeContents work : Action κ γ Unit)
      (fun _ => Holds directory work files fun t => t.isDirectory = true ∧ ∀ n, LinkFreeUnder n t)
      (fun _ => Framed directory files) := by
  refine triple_of_forall fun w₀ ⟨hframe, t₀, hget₀, hgit₀⟩ => ?_
  refine triple_bind (Q := fun names w => w = w₀ ∧ names = t₀.names) ?_ fun names => ?_
  · rintro w rfl
    exact ⟨rfl, congrArg (fun o => o.elim [] Node.names) hget₀⟩
  refine triple_of_forall fun w₁ hw₁ => ?_
  obtain ⟨rfl, rfl⟩ := hw₁
  let Gone (done : List Name) (t : Node Bytes) : Prop :=
    GitDirectory t ∧ ∀ m, m ≠ dotGit → m ∉ t₀.names ∨ m ∈ done → t.child m = none
  refine triple_weaken (P := Holds directory work files (Gone []))
    (triple_forM (E := fun _ => Framed directory files) (fun done => Holds directory work files (Gone done))
      fun done n later hsplit => ?_) ?_ ?_ fun _ _ h => h
  · by_cases hn : n = dotGit
    · rw [if_pos hn]
      refine triple_pure _ fun w ⟨hframe, t, hget, hgit, hgone⟩ => ⟨hframe, t, hget, hgit, fun m hm hgo => ?_⟩
      refine hgone m hm (hgo.imp_right fun hmem => ?_)
      rcases List.mem_append.1 hmem with hmem | hmem
      · exact hmem
      · exact absurd ((List.mem_singleton.1 hmem).trans hn) hm
    · rw [if_neg hn]
      rintro w ⟨hframe, t, hget, ⟨hdir, hlinks⟩, hgone⟩
      rw [removeChild_run]
      rcases hnode : Node.get (work ++ [n]) w.files with _ | x
      · exact hframe
      · refine Holds.edit hframe hwork hget ⟨⟨?_, ?_⟩, fun m hm hgo => ?_⟩ _
        · exact isDirectory_replaced hdir n [] none
        · exact linkFreeUnder_replace hlinks (Ne.symm hn) [] none
        · by_cases hmn : m = n
          · rw [hmn]
            exact Node.child_setChild_self hdir n none
          · refine (Node.child_setChild_ne none hmn).trans (hgone m hm (hgo.imp_right fun hmem => ?_))
            exact (List.mem_append.1 hmem).resolve_right fun hm' => hmn (List.mem_singleton.1 hm')
  · rintro w rfl
    refine ⟨hframe, t₀, hget₀, hgit₀, fun m _ hgo => ?_⟩
    have hmem := hgo.resolve_right List.not_mem_nil
    rw [Node.mem_names, Option.not_isSome_iff_eq_none] at hmem
    exact hmem
  · rintro _ w ⟨hframe, t, hget, ⟨hdir, hlinks⟩, hgone⟩
    refine ⟨hframe, t, hget, hdir, fun n => ?_⟩
    by_cases hn : n = dotGit
    · rw [hn]
      exact hlinks
    · exact linkFreeUnder_of_child (hgone n hn (em _).symm)

theorem copyPlace_eq {t : Node Bytes} {n : Name} (hget : Node.get work w.files = some t) (h : LinkFreeUnder n t) :
    ∃ q, copyPlace w.files work n = work ++ n :: q := by
  have hbelow : Node.get (work ++ [n]) w.files = Node.get [n] t := by
    rw [Node.get_append, hget, Option.bind_some]
  rw [copyPlace, hbelow]
  rcases hnode : Node.get [n] t with _ | x
  · exact ⟨[], rfl⟩
  · cases x with
    | file data => exact ⟨[], rfl⟩
    | link target => exact absurd hnode (h [] target)
    | dir cs => exact ⟨[n], rfl⟩

def FreeAfter (done : List Name) (t : Node Bytes) : Prop :=
  t.isDirectory = true ∧ ∀ n, n ∉ done → LinkFreeUnder n t

theorem FreeAfter.replace {done : List Name} {t : Node Bytes} (h : FreeAfter done t) (n : Name) (q : Path)
    (new : Option (Node Bytes)) : FreeAfter (done ++ [n]) (Node.replace (n :: q) new t) := by
  refine ⟨isDirectory_replaced h.1 n q new, fun m hm => ?_⟩
  have hm' : m ∉ done ∧ m ≠ n := by
    constructor
    · exact fun hmem => hm (List.mem_append_left _ hmem)
    · exact fun heq => hm (List.mem_append_right _ (List.mem_singleton.2 heq))
  exact linkFreeUnder_replace (h.2 m hm'.1) hm'.2 q new

theorem holds_placeNew {done : List Name} {n : Name} {q : Path} (hwork : directory <+: work) (x : Node Bytes) :
    Triple (Holds directory work files (FreeAfter done)) (placeNew (work ++ n :: q) x : Action κ γ Unit)
      (fun _ => Holds directory work files (FreeAfter (done ++ [n]))) (fun _ => Framed directory files) := by
  rintro w ⟨hframe, t, hget, hfree⟩
  rw [placeNew]
  cases Node.get (work ++ n :: q) w.files with
  | none => exact Holds.edit hframe hwork hget (hfree.replace n q _) _
  | some y => exact hframe

theorem holds_writeFile {done : List Name} {n : Name} {q : Path} (hwork : directory <+: work) (hn : n ∉ done)
    (data : Bytes) :
    Triple (Holds directory work files (FreeAfter done)) (writeFile (work ++ n :: q) data : Action κ γ Unit)
      (fun _ => Holds directory work files (FreeAfter (done ++ [n]))) (fun _ => Framed directory files) := by
  rintro w ⟨hframe, t, hget, hfree⟩
  have hthere : Node.get (work ++ n :: q) w.files = Node.get (n :: q) t := by
    rw [Node.get_append, hget, Option.bind_some]
  rw [writeFile]
  cases hnode : Node.get (work ++ n :: q) w.files with
  | none => exact Holds.edit hframe hwork hget (hfree.replace n q _) _
  | some y =>
    cases y with
    | file before => exact Holds.edit hframe hwork hget (hfree.replace n q _) _
    | link target => exact absurd (hthere.symm.trans hnode) (hfree.2 n hn q target)
    | dir cs => exact hframe

theorem holds_copyChild {done : List Name} {n : Name} (hwork : directory <+: work) (hn : n ∉ done)
    (child : Option (Node Bytes)) :
    Triple (Holds directory work files (FreeAfter done)) (copyChild work n child : Action κ γ Unit)
      (fun _ => Holds directory work files (FreeAfter (done ++ [n]))) (fun _ => Framed directory files) := by
  refine triple_of_forall fun w hw => ?_
  obtain ⟨hframe, t, hget, hfree⟩ := hw
  have hstart : ∀ w', w' = w → Holds directory work files (FreeAfter done) w' := by
    rintro _ rfl
    exact ⟨hframe, t, hget, hfree⟩
  obtain ⟨q, hplace⟩ := copyPlace_eq hget (hfree.2 n hn)
  refine triple_bind (Q := fun seen w' => seen = w.files ∧ w' = w) ?_ fun seen => ?_
  · rintro _ rfl
    exact ⟨rfl, rfl⟩
  refine triple_of_forall fun w₁ hw₁ => ?_
  obtain ⟨rfl, rfl⟩ := hw₁
  cases child with
  | none => exact triple_raise _ fun w' hw' => (hstart w' hw').framed
  | some x =>
    cases x with
    | dir cs => exact triple_weaken (holds_placeNew hwork _) hstart (fun _ _ h => h) fun _ _ h => h
    | link target =>
      rw [hplace]
      exact triple_weaken (holds_placeNew hwork _) hstart (fun _ _ h => h) fun _ _ h => h
    | file data =>
      rw [hplace]
      exact triple_weaken (holds_writeFile hwork hn data) hstart (fun _ _ h => h) fun _ _ h => h

theorem mkdirs_existing {path : Path} {t : Node Bytes} (hget : Node.get path w.files = some t)
    (hdir : t.isDirectory = true) : mkdirs path w = (.ok ⟨⟩, w) := by
  have hskip : ∀ q ∈ path.inits, makeDirectory q w = (.ok ⟨⟩, w) := by
    intro q hq
    cases t with
    | file data => cases hdir
    | link target => cases hdir
    | dir cs =>
      obtain ⟨ds, hds⟩ := Node.directory_above ((List.mem_inits q path).1 hq) hget
      rw [makeDirectory, hds]
  have hrun := forM_skip hskip []
  rw [List.append_nil] at hrun
  exact hrun

theorem holds_copyTreeContents {source : Path} (hwork : directory <+: work) :
    Triple (Holds directory work files fun t => t.isDirectory = true ∧ ∀ n, LinkFreeUnder n t)
      (copyTreeContents source work : Action κ γ Unit)
      (fun _ => Holds directory work files fun _ => True) (fun _ => Framed directory files) := by
  have hfirst : Triple (Holds directory work files fun t => t.isDirectory = true ∧ ∀ n, LinkFreeUnder n t)
      (mkdirs work : Action κ γ Unit) (fun _ => Holds directory work files (FreeAfter []))
      (fun _ => Framed directory files) := by
    rintro w ⟨hframe, t, hget, hdir, hfree⟩
    rw [mkdirs_existing hget hdir]
    exact ⟨hframe, t, hget, hdir, fun n _ => hfree n⟩
  refine triple_bind hfirst fun _ => ?_
  refine triple_bind (Q := fun _ => Holds directory work files (FreeAfter [])) (triple_observe fun w hw => hw)
    fun found => ?_
  have hstop : ∀ e, Triple (Holds directory work files (FreeAfter [])) (raise e : Action κ γ Unit)
      (fun _ => Holds directory work files fun _ => True) (fun _ => Framed directory files) :=
    fun e => triple_raise e fun w hw => hw.framed
  rcases found with _ | ⟨place, x⟩
  · exact hstop _
  · cases x with
    | file data => exact hstop _
    | link target => exact hstop _
    | dir cs =>
      refine triple_weaken (triple_forM (E := fun _ => Framed directory files)
        (fun done => Holds directory work files (FreeAfter done)) fun done n later hsplit => ?_)
        (fun _ h => h) (fun _ w ⟨hframe, t, hget, _⟩ => ⟨hframe, t, hget, trivial⟩) fun _ _ h => h
      refine holds_copyChild hwork ?_ _
      have hnodup : (Node.names (.dir cs)).Nodup := List.nodup_dedup _
      rw [hsplit] at hnodup
      exact fun hmem => (List.nodup_append'.1 hnodup).2.2 hmem List.mem_cons_self

theorem holds_exportRef {c : Checkout κ γ} {tools : CaptureTools} (hplain : LinklessGit c tools) (cache : Option κ)
    (commit : Text) (n : Name) :
    Triple (fun w => Framed directory files w ∧ Node.get directory w.files = some (.dir []))
      (exportRef c cache commit (directory ++ [n]))
      (fun _ => Holds directory (directory ++ [n]) files GitDirectory) (fun _ => Framed directory files) := by
  rintro w ⟨hframe, hget⟩
  have hparent : ∀ q, q <+: directory → ∃ cs, Node.get q w.files = some (.dir cs) := fun q hq =>
    Node.directory_above hq hget
  have hnone : Node.get (directory ++ [n]) w.files = none := by
    rw [Node.get_append, hget]
    rfl
  have hmade := Node.get_replace_self (n := n) hget (by rfl) (some (.dir []))
  rw [exportRef_run (mkdirs_run hparent hnone) hmade]
  have hframed := (hframe.edit (List.prefix_append directory [n]) (some (.dir [])) (.created (directory ++ [n]))).edit
    (List.prefix_append directory [n])
    (some (c.git.tar (w.calls + 1) (c.git.archive w.calls cache commit).1 (.dir [])).1)
    (.extracted (directory ++ [n]) commit)
  generalize exportError c.git cache commit _ = outcome
  cases outcome with
  | error e => exact hframed
  | ok u => exact ⟨hframed, _, Node.get_replace_of_get hmade _, hplain.tar _ _ _ _⟩

theorem framed_diffAgainstBase {c : Checkout κ γ} {tools : CaptureTools} (hplain : LinklessGit c tools)
    (dep : Dependency) (commit : Text) (cache : Option κ) (n : Name) :
    Triple (fun w => Framed directory files w ∧ Node.get directory w.files = some (.dir []))
      (diffAgainstBase c tools dep commit cache (directory ++ [n])) (fun _ => Framed directory files)
      (fun _ => Framed directory files) := by
  have hwork : directory <+: directory ++ [n] := List.prefix_append _ _
  have hgit : ∀ command arguments, Triple (Holds directory (directory ++ [n]) files GitDirectory)
      (runIn tools (directory ++ [n]) command arguments : Action κ γ Unit)
      (fun _ => Holds directory (directory ++ [n]) files GitDirectory) (fun _ => Framed directory files) :=
    fun command arguments => holds_runIn hwork fun m t ht => hplain.git m _ t ht
  refine triple_bind (holds_exportRef hplain cache commit n) fun _ => ?_
  refine triple_bind (hgit _ _) fun _ => triple_bind (hgit _ _) fun _ => triple_bind (hgit _ _) fun _ => ?_
  refine triple_bind (hgit _ _) fun _ => triple_bind (hgit _ _) fun _ => ?_
  refine triple_bind (holds_removeTreeContents hwork) fun _ => triple_bind (holds_copyTreeContents hwork) fun _ => ?_
  refine triple_bind (Q := fun _ => Holds directory (directory ++ [n]) files fun _ => True)
    (holds_runIn hwork fun _ _ _ => trivial) fun _ => ?_
  refine triple_weaken (P := Framed directory files) ?_ (fun w hw => hw.framed) (fun _ _ h => h) fun _ _ h => h
  refine keeps_bind (keeps_nextCall fun w hw => hw) fun m => keeps_bind (keeps_observe _) fun found => ?_
  cases found with
  | none => exact keeps_raise _
  | some t =>
    dsimp only
    cases readText (tools.diff m t).1 with
    | none => exact keeps_raise _
    | some stdout => exact keeps_pure _

/-- A temporary directory that could be made was missing before, and is missing afterwards. -/
theorem withTemporaryDirectory_left {α : Type} {path : Path} {body : Action κ γ α}
    (hbody : Triple (fun w' => Framed path w.files w' ∧ Node.get path w'.files = some (.dir [])) body
      (fun _ => Framed path w.files) (fun _ => Framed path w.files)) :
    (withTemporaryDirectory path body w).2 = w ∨
      Node.get path w.files = none ∧ Node.get path (withTemporaryDirectory path body w).2.files = none ∧
        Framed path w.files (withTemporaryDirectory path body w).2 := by
  rw [withTemporaryDirectory]
  split
  · rename_i hfree
    obtain ⟨hparent, hnone⟩ := hfree
    obtain ⟨d, hd, hdir⟩ := (Option.any_eq_true _ _).1 hparent
    rw [Option.isNone_iff_eq_none] at hnone
    have hne : path ≠ [] := by
      rintro rfl
      cases hnone
    have hmade : Node.get path (Node.replace path (some (.dir [])) w.files) = some (.dir []) := by
      have hself := Node.get_replace_self (n := path.getLast hne) hd hdir (some (.dir []))
      rwa [List.dropLast_append_getLast hne] at hself
    have hstart : Framed path w.files (w.edit (.created path) (Node.replace path (some (.dir [])) w.files)) :=
      fun q hq => ⟨Node.kindAt_replace hq _ _, Node.fileAt_replace hq _ _⟩
    exact .inr ⟨hnone, Node.get_removed hne _, (triple_left hbody ⟨hstart, hmade⟩).edit (List.prefix_refl _) none _⟩
  · exact .inl rfl

def Untouched (files files' : Node Bytes) : Prop :=
  ∀ q, Node.kindAt q files' = Node.kindAt q files ∧ Node.fileAt q files' = Node.fileAt q files

theorem untouched_withTemporaryDirectory {α : Type} {path : Path} {body : Action κ γ α}
    (hbody : Triple (fun w' => Framed path w.files w' ∧ Node.get path w'.files = some (.dir [])) body
      (fun _ => Framed path w.files) (fun _ => Framed path w.files)) :
    Untouched w.files (withTemporaryDirectory path body w).2.files := by
  rcases withTemporaryDirectory_left hbody with hsame | ⟨hbefore, hafter, hframe⟩
  · rw [hsame]
    exact fun q => ⟨rfl, rfl⟩
  · intro q
    by_cases hq : path <+: q
    · obtain ⟨r, rfl⟩ := hq
      unfold Node.kindAt Node.fileAt
      rw [Node.get_append_of_none hbefore, Node.get_append_of_none hafter]
      exact ⟨rfl, rfl⟩
    · exact hframe q hq

def PatchesReady (patchDir : Path) (files files' : Node Bytes) : Prop :=
  (∃ cs, Node.get patchDir files' = some (.dir cs)) ∧
    ∀ q, ¬ q <+: patchDir → Node.kindAt q files' = Node.kindAt q files

theorem not_below_self (p : Path) (n : Name) : ¬ p ++ [n] <+: p := by
  intro hle
  have hlen := hle.length_le
  rw [List.length_append, List.length_singleton] at hlen
  omega

theorem keeps_kinds_mkdirs (path : Path) (files : Node Bytes) :
    Keeps (fun s : World κ γ => ∀ q, ¬ q <+: path → Node.kindAt q s.files = Node.kindAt q files) (mkdirs path) := by
  refine keeps_mkdirs fun p s hp _ hnone hs q hq => Eq.trans ?_ (hs q hq)
  by_cases hle : p <+: q
  · obtain ⟨r, rfl⟩ := hle
    have hr : r ≠ [] := by
      rintro rfl
      rw [List.append_nil] at hq
      exact hq hp
    unfold Node.kindAt
    exact congrArg _ ((Node.get_below_new hnone hr).trans (Node.get_append_of_none hnone r).symm)
  · exact Node.kindAt_replace hle _ s.files

theorem captureDiff_left {c : Checkout κ γ} {tools : CaptureTools} (hplain : LinklessGit c tools)
    (dep : Dependency) (commit : Text) (w : World κ γ) :
    Triple (fun s => s = w) (captureDiff c tools dep commit)
      (fun _ s => (∀ q, Node.fileAt q s.files = Node.fileAt q w.files) ∧
        PatchesReady (patchesPath c.root dep) w.files s.files)
      (fun _ s => ∀ q, Node.fileAt q s.files = Node.fileAt q w.files) := by
  refine triple_bind (Q := fun _ s => s = w) (fun s hs => hs) fun files => ?_
  refine triple_ite (fun _ => ?_) fun _ => triple_raise _ fun s hs q => by rw [hs]
  refine triple_bind (Q := fun _ s => s = w) (fun s hs => hs) fun cache => ?_
  refine triple_bind (Q := fun _ s => (∀ q, Node.fileAt q s.files = Node.fileAt q w.files) ∧
    PatchesReady (patchesPath c.root dep) w.files s.files) ?_ fun _ => ?_
  · rintro s rfl
    have hkeeps : Keeps (fun s' : World κ γ => ∀ q, Node.fileAt q s'.files = Node.fileAt q s.files)
        (mkdirs (patchesPath c.root dep)) :=
      keeps_mkdirs fun p s' _ _ hnone hs q => (Node.fileAt_replace_dir_nil hnone q).trans (hs q)
    have hfiles := triple_left hkeeps fun q => rfl
    have hkinds := triple_left (keeps_kinds_mkdirs (patchesPath c.root dep) s.files) (s := s) fun q _ => rfl
    rcases hrun : mkdirs (patchesPath c.root dep) s with ⟨e | u, s'⟩ <;> rw [hrun] at hfiles hkinds
    · exact hfiles
    · refine ⟨hfiles, ?_, hkinds⟩
      rcases mkdirs_ok hrun with ⟨cs, hcs, rfl⟩ | ⟨-, hnew⟩
      · exact ⟨cs, hcs⟩
      · exact ⟨[], hnew⟩
  · rintro s ⟨hfiles, ⟨cs, hcs⟩, hkinds⟩
    have hleft : Untouched s.files (withTemporaryDirectory (temporaryPath c.root dep tools.suffix)
        (diffAgainstBase c tools dep commit cache (temporaryPath c.root dep tools.suffix ++ ["work".toList])) s).2.files :=
      untouched_withTemporaryDirectory (framed_diffAgainstBase hplain dep commit cache _)
    rcases hrun : withTemporaryDirectory (temporaryPath c.root dep tools.suffix)
      (diffAgainstBase c tools dep commit cache (temporaryPath c.root dep tools.suffix ++ ["work".toList])) s
      with ⟨e | a, s'⟩ <;> rw [hrun] at hleft
    · exact fun q => (hleft q).2.trans (hfiles q)
    · refine ⟨fun q => (hleft q).2.trans (hfiles q), ?_, fun q hq => (hleft q).1.trans (hkinds q hq)⟩
      exact Node.kindAt_eq_dir.1 ((hleft _).1.trans (Node.kindAt_eq_dir.2 ⟨cs, hcs⟩))

end Frames

end LoggerBenchmarks.PatchCapture
