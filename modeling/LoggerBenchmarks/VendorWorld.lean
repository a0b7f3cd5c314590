import LoggerBenchmarks.FileTrees
import LoggerBenchmarks.LineEndings
import LoggerBenchmarks.StatefulPrograms
import LoggerBenchmarks.VendorManifest

set_option autoImplicit false

/-!
# What `update_vendor.py` acts on

The file system, git's own data and the manifest in memory, and the operations of
`pathlib` and `shutil` on them. Every change of the file system is recorded in a log
that no function of the program reads.
-/
namespace LoggerBenchmarks.VendorWorld
open PythonText PosixPaths FileTrees StatefulPrograms LineEndings VendorManifest

inductive Command where
  | clone | setUrl | fetch | revParse | archive | tar | apply | lsFiles | showHead | add
  | init | config | commit
  deriving DecidableEq

inductive Failure where
  | process (command : Command)
  | os
  | runtime
  | value
  | systemExit
  deriving DecidableEq

inductive Event where
  | removed (path : Path)
  | created (path : Path)
  | extracted (path : Path) (commit : Text)
  | filled (path : Path)
  | renamed (source destination : Path)
  | rewritten (path : Path) (before after : Bytes)

def Event.paths : Event → List Path
  | .removed p | .created p | .extracted p _ | .filled p | .rewritten p _ _ => [p]
  | .renamed p q => [p, q]

/-- `κ` is what a clone under `.vendor-cache` holds, `γ` the index and the commits of
the outer repository. -/
structure World (κ γ : Type) where
  files : Node Bytes
  caches : Path → Option κ
  repository : γ
  manifest : RawManifest
  calls : ℕ
  log : List Event

/-- The programs the script starts. Each is told the number of the call, so that any
of them may fail at any time; the flag says whether it exits with 0. `tar` and
`git apply` leave a tree in the directory they work in even when they fail. -/
structure Git (κ γ : Type) where
  clone : ℕ → Text → Option κ × Bool
  setUrl : ℕ → Text → κ → κ × Bool
  fetch : ℕ → κ → κ × Bool
  /-- `git rev-parse ref^{commit}` -/
  revParse : ℕ → Option κ → Text → Option Text
  archive : ℕ → Option κ → Text → Bytes × Bool
  tar : ℕ → Bytes → Node Bytes → Node Bytes × Bool
  apply : ℕ → Option Bytes → Node Bytes → Node Bytes × Bool
  /-- The paths of `git ls-files --eol -z` with the class after `i/`. -/
  lsFiles : ℕ → γ → PurePath → Option (List (Text × Text))
  /-- `git show HEAD:path` -/
  showHead : ℕ → γ → Text → Option Bytes
  add : ℕ → γ → Node Bytes → List PurePath → γ × Bool

def idleGit {κ γ : Type} : Git κ γ where
  clone _ _ := (none, true)
  setUrl _ _ cache := (cache, true)
  fetch _ cache := (cache, true)
  revParse _ _ ref := some ref
  archive _ _ _ := ([], true)
  tar _ _ t := (t, true)
  apply _ _ t := (t, true)
  lsFiles _ _ _ := some []
  showHead _ _ _ := none
  add _ repository _ _ := (repository, true)

structure Checkout (κ γ : Type) where
  root : Path
  pid : ℕ
  git : Git κ γ
  dumps : RawManifest → Bytes

section Operations

variable {κ γ : Type}

abbrev Action (κ γ : Type) := Prog (World κ γ) Failure

def World.edit (w : World κ γ) (event : Event) (files : Node Bytes) : World κ γ :=
  { w with files := files, log := event :: w.log }

def nextCall : Action κ γ ℕ := fun w => (.ok w.calls, { w with calls := w.calls + 1 })

theorem nextCall_bind {α : Type} (k : ℕ → Action κ γ α) (w : World κ γ) :
    (nextCall >>= k) w = k w.calls { w with calls := w.calls + 1 } := rfl

/-- `check=True` -/
def check (command : Command) (succeeded : Bool) : Action κ γ Unit :=
  if succeeded then pure () else raise (.process command)

def pathExists (files : Node Bytes) (path : Path) : Bool := (Node.stat files [] path).isSome

def isDir (files : Node Bytes) (path : Path) : Bool :=
  (Node.stat files [] path).any fun found => found.2.isDirectory

/-- `shutil.rmtree(path)`, which refuses files and links. -/
def rmtree (path : Path) : Action κ γ Unit := fun w =>
  if (Node.get path w.files).any Node.isDirectory then
    (.ok (), w.edit (.removed path) (Node.replace path none w.files))
  else (.error .os, w)

def makeDirectory (path : Path) : Action κ γ Unit := fun w =>
  match Node.get path w.files with
  | none => (.ok (), w.edit (.created path) (Node.replace path (some (.dir [])) w.files))
  | some (.dir _) => (.ok (), w)
  | some _ => (.error .os, w)

/-- `path.mkdir(parents=True, exist_ok=True)` -/
def mkdirs (path : Path) : Action κ γ Unit := path.inits.forM makeDirectory

def workIn (path : Path) (event : Event) (program : Node Bytes → Node Bytes × Bool) : Action κ γ Bool := fun w =>
  match Node.get path w.files with
  | none => (.ok false, w)
  | some t => (.ok (program t).2, w.edit event (Node.replace path (some (program t).1) w.files))

/-- `source.rename(destination)`: a directory may only replace an empty one. -/
def rename (source destination : Path) : Action κ γ Unit := fun w =>
  match Node.get source w.files with
  | none => (.error .os, w)
  | some t =>
    if (Node.get destination w.files).all fun d => t.isDirectory && d.isDirectory && d.names.isEmpty then
      (.ok (), w.edit (.renamed source destination)
        (Node.replace destination (some t) (Node.replace source none w.files)))
    else (.error .os, w)

/-- `path.write_bytes(data)`, which follows links and creates a missing file. -/
def writeBytes (path : Path) (data : Bytes) : Action κ γ Unit := fun w =>
  match Node.follow w.files Node.maxLinks [] path with
  | none => (.error .os, w)
  | some place =>
    match Node.get place w.files with
    | none => (.ok (), w.edit (.created place) (Node.replace place (some (.file data)) w.files))
    | some (.file before) =>
      (.ok (), w.edit (.rewritten place before data) (Node.replace place (some (.file data)) w.files))
    | some _ => (.error .os, w)

end Operations

section Keeps

variable {κ γ : Type}

variable {I : World κ γ → Prop} {path : Path}

theorem keeps_nextCall (h : ∀ w, I w → I { w with calls := w.calls + 1 }) : Keeps I (nextCall : Action κ γ ℕ) :=
  fun w hw => h w hw

theorem keeps_check (command : Command) (succeeded : Bool) : Keeps I (check command succeeded : Action κ γ Unit) :=
  keeps_ite (fun _ => keeps_pure _) fun _ => keeps_raise _

theorem triple_rmtree {P : World κ γ → Prop} {Q : Unit → World κ γ → Prop} {E : Failure → World κ γ → Prop}
    (h : ∀ w d, Node.get path w.files = some d → d.isDirectory = true → P w →
      Q () (w.edit (.removed path) (Node.replace path none w.files)))
    (hstop : ∀ w, P w → E .os w) : Triple P (rmtree path) Q E := by
  intro w hw
  rw [rmtree]
  by_cases hdir : (Node.get path w.files).any Node.isDirectory = true
  · obtain ⟨d, hd, hisdir⟩ := (Option.any_eq_true _ _).1 hdir
    rw [if_pos hdir]
    exact h w d hd hisdir hw
  · rw [if_neg hdir]
    exact hstop w hw

theorem keeps_rmtree (h : ∀ w d, Node.get path w.files = some d → d.isDirectory = true → I w →
      I (w.edit (.removed path) (Node.replace path none w.files))) :
    Keeps I (rmtree path : Action κ γ Unit) :=
  triple_rmtree h fun _ hw => hw

theorem keeps_makeDirectory (h : ∀ w, Node.get path w.files = none → I w →
      I (w.edit (.created path) (Node.replace path (some (.dir [])) w.files))) :
    Keeps I (makeDirectory path : Action κ γ Unit) := by
  intro w hw
  rw [makeDirectory]
  cases hget : Node.get path w.files with
  | none => exact h w hget hw
  | some t => cases t <;> exact hw

theorem keeps_mkdirs (h : ∀ q w, q <+: path → q ≠ [] → Node.get q w.files = none → I w →
      I (w.edit (.created q) (Node.replace q (some (.dir [])) w.files))) :
    Keeps I (mkdirs path : Action κ γ Unit) := by
  refine keeps_forM fun q hq => keeps_makeDirectory fun w hnone hw => ?_
  refine h q w ((List.mem_inits q path).1 hq) ?_ hnone hw
  rintro rfl
  cases hnone

theorem makeDirectory_ok {w w' : World κ γ} (h : makeDirectory path w = (.ok (), w')) :
    (∃ cs, Node.get path w.files = some (.dir cs) ∧ w' = w) ∨
      (Node.get path w.files = none ∧
        w' = w.edit (.created path) (Node.replace path (some (.dir [])) w.files)) := by
  rw [makeDirectory] at h
  rcases hget : Node.get path w.files with _ | t
  · rw [hget] at h
    exact .inr ⟨rfl, (congrArg Prod.snd h).symm⟩
  · rw [hget] at h
    cases t with
    | file data => cases h
    | link target => cases h
    | dir cs => exact .inl ⟨cs, rfl, (congrArg Prod.snd h).symm⟩

theorem inits_concat (p : Path) (n : Name) : (p ++ [n]).inits = p.inits ++ [p ++ [n]] := by
  simp [List.inits_append]

theorem mkdirs_concat_ok {p : Path} {n : Name} {w w' : World κ γ} (h : mkdirs (p ++ [n]) w = (.ok ⟨⟩, w')) :
    ∃ w₁, mkdirs p w = (.ok ⟨⟩, w₁) ∧ makeDirectory (p ++ [n]) w₁ = (.ok (), w') := by
  rw [mkdirs, inits_concat, forM_append] at h
  obtain ⟨u, w₁, hp, hlast⟩ := bind_ok h
  exact ⟨w₁, hp, (forM_singleton makeDirectory (p ++ [n]) w₁).symm.trans hlast⟩

theorem mkdirs_ok {w w' : World κ γ} (h : mkdirs path w = (.ok ⟨⟩, w')) :
    (∃ cs, Node.get path w.files = some (.dir cs) ∧ w' = w) ∨
      (Node.get path w.files = none ∧ Node.get path w'.files = some (.dir [])) := by
  induction path using List.reverseRecOn generalizing w' with
  | nil =>
    have hroot : makeDirectory [] w = (.ok (), w') := (forM_singleton makeDirectory [] w).symm.trans h
    rcases makeDirectory_ok hroot with hdir | ⟨hnone, -⟩
    · exact .inl hdir
    · cases hnone
  | append_singleton p n ih =>
    obtain ⟨w₁, hp, hlast⟩ := mkdirs_concat_ok h
    rcases ih hp with ⟨cs, hcs, rfl⟩ | ⟨hnone, hnew⟩
    · rcases makeDirectory_ok hlast with hdir | ⟨hmissing, rfl⟩
      · exact .inl hdir
      · exact .inr ⟨hmissing, Node.get_replace_self hcs (by rfl) _⟩
    · rcases makeDirectory_ok hlast with ⟨cs, hcs, -⟩ | ⟨-, rfl⟩
      · rw [Node.get_append, hnew] at hcs
        cases hcs
      · exact .inr ⟨Node.get_append_of_none hnone [n], Node.get_replace_self hnew (by rfl) _⟩

def OpenTo (path : Path) (files : Node Bytes) : Prop :=
  ∀ q, q <+: path → Node.kindAt q files = none ∨ Node.kindAt q files = some .dir

theorem OpenTo.concat {p : Path} {files : Node Bytes} (h : OpenTo p files) {n : Name}
    (hn : Node.kindAt (p ++ [n]) files = none ∨ Node.kindAt (p ++ [n]) files = some .dir) :
    OpenTo (p ++ [n]) files := by
  intro q hq
  rcases List.prefix_concat_iff.1 hq with heq | hle
  · rw [heq]
    exact hn
  · exact h q hle

theorem openTo_of_mkdirs {w w' : World κ γ} (h : mkdirs path w = (.ok ⟨⟩, w')) : OpenTo path w.files := by
  have hself : ∀ {p : Path} {w' : World κ γ}, mkdirs p w = (.ok ⟨⟩, w') →
      Node.kindAt p w.files = none ∨ Node.kindAt p w.files = some .dir := by
    intro p w' hp
    rcases mkdirs_ok hp with ⟨cs, hcs, -⟩ | ⟨hnone, -⟩
    · exact .inr (Node.kindAt_eq_dir.2 ⟨cs, hcs⟩)
    · exact .inl (Node.kindAt_eq_none.2 hnone)
  induction path using List.reverseRecOn generalizing w' with
  | nil =>
    intro q hq
    rw [List.prefix_nil.1 hq]
    exact hself h
  | append_singleton p n ih =>
    obtain ⟨w₁, hp, -⟩ := mkdirs_concat_ok h
    exact (ih hp).concat (hself h)

theorem mkdirs_of_open {w : World κ γ} (h : OpenTo path w.files) : ∃ w', mkdirs path w = (.ok ⟨⟩, w') := by
  induction path using List.reverseRecOn with
  | nil =>
    rcases h [] (List.prefix_refl []) with hnone | hdir
    · cases hnone
    · obtain ⟨cs, hcs⟩ := Node.kindAt_eq_dir.1 hdir
      refine ⟨w, (forM_singleton makeDirectory [] w).trans ?_⟩
      rw [makeDirectory, hcs]
  | append_singleton p n ih =>
    obtain ⟨w₁, hp⟩ := ih fun q hq => h q (hq.trans (List.prefix_append p [n]))
    have hmade : ∃ w', makeDirectory (p ++ [n]) w₁ = (.ok ⟨⟩, w') := by
      rw [makeDirectory]
      rcases mkdirs_ok hp with ⟨cs, -, rfl⟩ | ⟨-, hnew⟩
      · rcases h (p ++ [n]) (List.prefix_refl _) with hnone | hdir
        · rw [Node.kindAt_eq_none.1 hnone]
          exact ⟨_, rfl⟩
        · obtain ⟨ds, hds⟩ := Node.kindAt_eq_dir.1 hdir
          rw [hds]
          exact ⟨_, rfl⟩
      · rw [Node.get_append, hnew]
        exact ⟨_, rfl⟩
    obtain ⟨w', hw'⟩ := hmade
    refine ⟨w', ?_⟩
    rw [mkdirs, inits_concat, forM_append]
    exact (ok_bind hp _).trans ((forM_singleton makeDirectory (p ++ [n]) w₁).trans hw')

theorem mkdirs_run {parent : Path} {n : Name} {w : World κ γ}
    (hparent : ∀ q, q <+: parent → ∃ cs, Node.get q w.files = some (.dir cs))
    (hnone : Node.get (parent ++ [n]) w.files = none) :
    mkdirs (parent ++ [n]) w = (.ok (), w.edit (.created (parent ++ [n]))
      (Node.replace (parent ++ [n]) (some (.dir [])) w.files)) := by
  have hskip : ∀ q ∈ parent.inits, makeDirectory q w = (.ok ⟨⟩, w) := by
    intro q hq
    obtain ⟨cs, hcs⟩ := hparent q ((List.mem_inits q parent).1 hq)
    rw [makeDirectory, hcs]
  rw [mkdirs, inits_concat, forM_skip hskip]
  have hmade : makeDirectory (parent ++ [n]) w = (.ok ⟨⟩, w.edit (.created (parent ++ [n]))
      (Node.replace (parent ++ [n]) (some (.dir [])) w.files)) := by
    rw [makeDirectory, hnone]
  exact (forM_cons_ok hmade []).trans rfl

theorem keeps_workIn {event : Event} {program : Node Bytes → Node Bytes × Bool}
    (h : ∀ w d, Node.get path w.files = some d → I w →
      I (w.edit event (Node.replace path (some (program d).1) w.files))) :
    Keeps I (workIn path event program : Action κ γ Bool) := by
  intro w hw
  rw [workIn]
  cases hget : Node.get path w.files with
  | none => exact hw
  | some d => exact h w d hget hw

theorem keeps_rename {source destination : Path}
    (h : ∀ w d, Node.get source w.files = some d →
      (∀ e, Node.get destination w.files = some e → e.isDirectory = true) → I w →
      I (w.edit (.renamed source destination)
        (Node.replace destination (some d) (Node.replace source none w.files)))) :
    Keeps I (rename source destination : Action κ γ Unit) := by
  intro w hw
  rw [rename]
  cases hget : Node.get source w.files with
  | none => exact hw
  | some d =>
    dsimp only
    by_cases hfree : (Node.get destination w.files).all
        fun e => d.isDirectory && e.isDirectory && e.names.isEmpty
    · rw [if_pos hfree]
      refine h w d hget (fun e he => ?_) hw
      rw [he, Option.all_some] at hfree
      simp only [Bool.and_eq_true] at hfree
      exact hfree.1.2
    · rw [if_neg hfree]
      exact hw

end Keeps

end LoggerBenchmarks.VendorWorld
