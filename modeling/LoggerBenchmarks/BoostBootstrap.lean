import LoggerBenchmarks.FileTrees
import LoggerBenchmarks.LabelledRuns
import LoggerBenchmarks.TextStreams

set_option autoImplicit false

/-!
# Boost's completion marker

`setup_boost_simple.main` removes `third_party/boost`, makes it again, lets b2 install
into it and writes its `CMakeLists.txt` last. `logger_benchmarks_add_boost_log` tests that
file and nothing else. One step is one change of the file system, or the end of a command
that changes nothing below `TARGET_DIR`; a run can stop before any of them.
-/
namespace LoggerBenchmarks.BoostBootstrap
open FileTrees FileTrees.Node LabelledRuns LineEndings PosixPaths PythonText TextStreams

def marker : Path := ["CMakeLists.txt".toList]

def cmakeContent : Text :=
  ("# Boost.Log library - using prebuilt Boost\n" ++
    "# Libraries built by tools/setup_boost_simple.py using Boost's b2 build system\n\n" ++
    "# Create interface library for Boost.Log\n" ++
    "add_library(boost_log INTERFACE)\n\n" ++
    "# Set include directory\n" ++
    "target_include_directories(boost_log INTERFACE $\x7bCMAKE_CURRENT_SOURCE_DIR\x7d/include)\n\n" ++
    "# Link all required Boost libraries\n" ++
    "target_link_libraries(boost_log INTERFACE\n" ++
    "    $\x7bCMAKE_CURRENT_SOURCE_DIR\x7d/lib/libboost_log.a\n" ++
    "    $\x7bCMAKE_CURRENT_SOURCE_DIR\x7d/lib/libboost_log_setup.a\n" ++
    "    $\x7bCMAKE_CURRENT_SOURCE_DIR\x7d/lib/libboost_thread.a\n" ++
    "    $\x7bCMAKE_CURRENT_SOURCE_DIR\x7d/lib/libboost_filesystem.a\n" ++
    "    $\x7bCMAKE_CURRENT_SOURCE_DIR\x7d/lib/libboost_chrono.a\n" ++
    "    $\x7bCMAKE_CURRENT_SOURCE_DIR\x7d/lib/libboost_regex.a\n" ++
    "    $\x7bCMAKE_CURRENT_SOURCE_DIR\x7d/lib/libboost_atomic.a\n" ++
    "    Threads::Threads\n" ++
    "    rt\n" ++
    ")\n").toList

abbrev Install := List (Path × Bytes)

def Complete (files : Install) (t : Node Bytes) : Prop := ∀ f ∈ files, fileAt f.1 t = some f.2

instance (files : Install) (t : Node Bytes) : Decidable (Complete files t) :=
  inferInstanceAs (Decidable (∀ f ∈ files, fileAt f.1 t = some f.2))

inductive Phase where
  | idle
  | removing
  | creating
  | downloading
  | extracting
  | bootstrapping
  | building
  | marking
  | writing
  deriving DecidableEq

inductive Label where
  | start
  | removed (entry : Path)
  | cleared
  | created
  | downloaded
  | extracted
  | bootstrapped
  | built (after : Node Bytes)
  | installed (files : Install)
  | opened
  | written
  | stopped

/-- `installs` remembers what the b2 installs that ended had put in place. -/
structure State where
  phase : Phase
  tree : Option (Node Bytes)
  installs : List Install

def isRemovable : Node Bytes → Bool
  | .dir cs => cs.isEmpty
  | _ => true

def markerExists (s : State) : Bool := (s.tree.bind (get marker)).isSome

def step (s : State) (a : Label) : Option State :=
  match a, s.phase, s.tree with
  -- `if TARGET_DIR.exists()`
  | .start, .idle, none => some { s with phase := .creating }
  | .start, .idle, some _ => some { s with phase := .removing }
  -- `shutil.rmtree(TARGET_DIR)`, in the order in which the directories are listed
  | .removed (n :: p), .removing, some t =>
    if (get (n :: p) t).any isRemovable then some { s with tree := some (replace (n :: p) none t) } else none
  | .cleared, .removing, some (.dir []) => some { s with phase := .creating, tree := none }
  -- `TARGET_DIR.mkdir(parents=True)`
  | .created, .creating, none => some { s with phase := .downloading, tree := some (.dir []) }
  -- these three work in the temporary directory
  | .downloaded, .downloading, _ => some { s with phase := .extracting }
  | .extracted, .extracting, _ => some { s with phase := .bootstrapping }
  | .bootstrapped, .bootstrapping, _ => some { s with phase := .building }
  -- b2 may change the tree in any way, but it never makes the marker
  | .built after, .building, some t =>
    if (get marker t).isNone ∧ (get marker after).isSome then none else some { s with tree := some after }
  | .installed files, .building, some t =>
    if Complete files t then some { s with phase := .marking, installs := files :: s.installs } else none
  -- `cmake_file.write_text(cmake_content)`
  | .opened, .marking, some (.dir cs) =>
    some { s with phase := .writing, tree := some (replace marker (some (.file [])) (.dir cs)) }
  | .written, .writing, some t =>
    some { s with phase := .idle, tree := some (replace marker (some (.file (encodeUtf8 cmakeContent))) t) }
  -- an exception, `sys.exit(1)` or a signal
  | .stopped, _, _ => some { s with phase := .idle }
  | _, _, _ => none

/-- `EXISTS` of the marker makes CMake skip the bootstrap. -/
def needsBootstrap (s : State) : Bool := !markerExists s

def Installed (s : State) (files : Install) : Prop := files ∈ s.installs ∧ ∃ t, s.tree = some t ∧ Complete files t

def Sound (s : State) : Prop := needsBootstrap s = false → ∃ files, Installed s files

theorem installed_iff (s : State) (files : Install) :
    Installed s files ↔ files ∈ s.installs ∧ (s.tree.any fun t => decide (Complete files t)) = true := by
  simp [Installed, Option.any_eq_true]

instance (s : State) (files : Install) : Decidable (Installed s files) := decidable_of_iff' _ (installed_iff s files)

instance (s : State) : Decidable (Sound s) :=
  decidable_of_iff (needsBootstrap s = false → ∃ files ∈ s.installs, Installed s files)
    (imp_congr_right fun _ => exists_congr fun _ => and_iff_right_of_imp And.left)

/-- As long as the marker is there, rmtree takes nothing but the marker from the installation. -/
def InOrder (s : State) : Label → Prop
  | .removed entry => markerExists s = true → entry = marker ∨ ∃ files, Installed s files ∧ entry ∉ files.map Prod.fst
  | _ => True

instance (s : State) : DecidablePred (InOrder s)
  | .removed entry => decidable_of_iff
      (markerExists s = true → entry = marker ∨ ∃ files ∈ s.installs, Installed s files ∧ entry ∉ files.map Prod.fst)
      (imp_congr_right fun _ => or_congr_right (exists_congr fun _ => and_iff_right_of_imp fun h => h.1.1))
  | .start | .cleared | .created | .downloaded | .extracted | .bootstrapped | .built _ | .installed _ | .opened
  | .written | .stopped => .isTrue trivial

theorem get_below_removable {t x : Node Bytes} {entry q : Path} (hx : get entry t = some x)
    (hremovable : isRemovable x = true) (hq : q ≠ []) : get (entry ++ q) t = none := by
  obtain ⟨n, r, rfl⟩ := List.exists_cons_of_ne_nil hq
  rw [get_append, hx, Option.bind_some, get_cons]
  cases x with
  | file data => rfl
  | link target => rfl
  | dir cs =>
    rw [List.isEmpty_iff.1 hremovable]
    rfl

/-- A removed entry takes with it the files listed under its own path and no others. -/
theorem complete_removed {t x : Node Bytes} {entry : Path} (hentry : entry ≠ []) (hx : get entry t = some x)
    (hremovable : isRemovable x = true) (files : Install) :
    Complete files (replace entry none t) ↔ Complete files t ∧ entry ∉ files.map Prod.fst := by
  constructor
  · intro h
    have hapart : ∀ f ∈ files, ¬ entry <+: f.1 := by
      rintro ⟨_, data⟩ hf ⟨r, rfl⟩
      have hget := fileAt_eq_some.1 (h _ hf)
      rw [get_append_of_none (get_removed hentry t)] at hget
      cases hget
    refine ⟨fun f hf => ?_, fun hmem => ?_⟩
    · rw [← fileAt_replace (hapart f hf) none t]
      exact h f hf
    · obtain ⟨f, hf, hname⟩ := List.mem_map.1 hmem
      exact hapart f hf (hname ▸ List.prefix_rfl)
  · rintro ⟨h, hmem⟩ f hf
    have hapart : ¬ entry <+: f.1 := by
      rintro ⟨r, hr⟩
      have hne : r ≠ [] := by
        rintro rfl
        rw [List.append_nil] at hr
        exact hmem (List.mem_map.2 ⟨f, hf, hr.symm⟩)
      have hget := fileAt_eq_some.1 (h f hf)
      rw [← hr, get_below_removable hx hremovable hne] at hget
      cases hget
    rw [fileAt_replace hapart]
    exact h f hf

theorem marker_kept {entry : Path} (hentry : entry ≠ []) (hne : entry ≠ marker) (t : Node Bytes) :
    (get marker (replace entry none t)).isSome = (get marker t).isSome := by
  have hapart : ¬ entry <+: marker := by
    intro h
    rcases List.prefix_cons_iff.1 h with h | ⟨r, rfl, hr⟩
    · exact hentry h
    · exact hne (by rw [List.prefix_nil.1 hr]; rfl)
  have hkind := kindAt_replace hapart none t
  unfold kindAt at hkind
  rw [← Option.isSome_map (f := kind), hkind, Option.isSome_map]

theorem marker_of_removed {entry : Path} {t : Node Bytes} (hentry : entry ≠ [])
    (h : (get marker (replace entry none t)).isSome = true) : (get marker t).isSome = true := by
  by_cases hne : entry = marker
  · rw [← hne, get_removed hentry] at h
    cases h
  · rwa [marker_kept hentry hne] at h

def Beside (s : State) : Prop := ∃ files, Installed s files ∧ ∀ f ∈ files, ¬ marker <+: f.1

def Tidy (s : State) : Prop :=
  match s.phase with
  | .idle | .removing => True
  | .creating => s.tree = none
  | .downloading | .extracting | .bootstrapping | .building => markerExists s = false
  | .marking | .writing => Beside s

theorem tidy_of_idle {s : State} (h : s.phase = .idle) : Tidy s := by
  unfold Tidy
  rw [h]
  trivial

theorem complete_marked {files : Install} {t : Node Bytes} (hbeside : ∀ f ∈ files, ¬ marker <+: f.1)
    (h : Complete files t) (data : Bytes) : Complete files (replace marker (some (.file data)) t) := by
  intro f hf
  rw [fileAt_replace (hbeside f hf)]
  exact h f hf

theorem Beside.marked {s u : State} {t : Node Bytes} {data : Bytes} (h : Beside s) (ht : s.tree = some t)
    (hu : u.tree = some (replace marker (some (.file data)) t)) (hinstalls : u.installs = s.installs) : Beside u := by
  obtain ⟨files, ⟨hmem, t', ht', hcomplete⟩, hbeside⟩ := h
  rw [ht, Option.some.injEq] at ht'
  subst t'
  exact ⟨files, ⟨hinstalls ▸ hmem, _, hu, complete_marked hbeside hcomplete data⟩, hbeside⟩

/-- Where there is no marker, no installed file is at its path or below it. -/
theorem apart_of_complete {files : Install} {t : Node Bytes} (hmarker : get marker t = none)
    (h : Complete files t) : ∀ f ∈ files, ¬ marker <+: f.1 := by
  rintro ⟨_, data⟩ hf ⟨r, rfl⟩
  have hget := fileAt_eq_some.1 (h _ hf)
  rw [get_append_of_none hmarker] at hget
  cases hget

inductive Effect (s u : State) : Label → Prop where
  | removed {entry : Path} {t x : Node Bytes} (hphase : s.phase = .removing) (hentry : entry ≠ [])
      (ht : s.tree = some t) (hx : get entry t = some x) (hremovable : isRemovable x = true)
      (hu : u.tree = some (replace entry none t)) (hinstalls : u.installs = s.installs) : Effect s u (.removed entry)
  | unmarked {a : Label} (ha : InOrder s a) (hmarker : markerExists u = false) : Effect s u a
  | complete {a : Label} (ha : InOrder s a) (hbeside : Beside u) (hphase : u.phase ≠ .removing) : Effect s u a
  | unchanged {a : Label} (ha : InOrder s a) (htree : u.tree = s.tree) (hinstalls : u.installs = s.installs)
      (hphase : u.phase = .removing → a = .start) : Effect s u a

theorem spec_start {s u : State} (h : step s .start = some u) : Tidy u ∧ Effect s u .start := by
  obtain ⟨phase, tree, installs⟩ := s
  cases phase with
  | idle =>
    cases tree with
    | none =>
      cases h
      exact ⟨rfl, .unchanged trivial rfl rfl nofun⟩
    | some t =>
      cases h
      exact ⟨trivial, .unchanged trivial rfl rfl fun _ => rfl⟩
  | _ => cases h

theorem spec_removed {s u : State} {entry : Path} (h : step s (.removed entry) = some u) :
    Tidy u ∧ Effect s u (.removed entry) := by
  obtain ⟨phase, tree, installs⟩ := s
  cases entry with
  | nil => cases phase <;> cases h
  | cons n p =>
    cases phase with
    | removing =>
      cases tree with
      | none => cases h
      | some t =>
        obtain ⟨hany, hu⟩ := Option.ite_none_right_eq_some.1 h
        cases hu
        obtain ⟨x, hx, hremovable⟩ := (Option.any_eq_true _ _).1 hany
        exact ⟨trivial, .removed rfl (List.cons_ne_nil n p) rfl hx hremovable rfl rfl⟩
    | _ => cases h

theorem spec_cleared {s u : State} (h : step s .cleared = some u) : Tidy u ∧ Effect s u .cleared := by
  obtain ⟨phase, tree, installs⟩ := s
  cases phase with
  | removing =>
    rcases tree with _ | ⟨data | target | cs⟩
    · cases h
    · cases h
    · cases h
    · cases cs with
      | nil =>
        cases h
        exact ⟨rfl, .unmarked trivial rfl⟩
      | cons e cs => cases h
  | _ => cases h

theorem spec_created {s u : State} (h : step s .created = some u) : Tidy u ∧ Effect s u .created := by
  obtain ⟨phase, tree, installs⟩ := s
  cases phase with
  | creating =>
    cases tree with
    | none =>
      cases h
      exact ⟨rfl, .unmarked trivial rfl⟩
    | some t => cases h
  | _ => cases h

theorem spec_built {s u : State} {after : Node Bytes} (hs : Tidy s) (h : step s (.built after) = some u) :
    Tidy u ∧ Effect s u (.built after) := by
  obtain ⟨phase, tree, installs⟩ := s
  cases phase with
  | building =>
    cases tree with
    | none => cases h
    | some t =>
      obtain ⟨hguard, hu⟩ := Option.ite_none_left_eq_some.1 h
      cases hu
      have hnone : (get marker t).isSome = false := hs
      have hafter : (get marker after).isSome = false := by
        rw [Bool.eq_false_iff]
        exact fun hsome => hguard ⟨by simpa using hnone, hsome⟩
      exact ⟨hafter, .unmarked trivial hafter⟩
  | _ => cases h

theorem spec_installed {s u : State} {files : Install} (hs : Tidy s) (h : step s (.installed files) = some u) :
    Tidy u ∧ Effect s u (.installed files) := by
  obtain ⟨phase, tree, installs⟩ := s
  cases phase with
  | building =>
    cases tree with
    | none => cases h
    | some t =>
      obtain ⟨hcomplete, hu⟩ := Option.ite_none_right_eq_some.1 h
      cases hu
      have hnone : get marker t = none := Option.isSome_eq_false_iff.1 hs |> Option.isNone_iff_eq_none.1
      have hbeside : Beside ⟨.marking, some t, files :: installs⟩ :=
        ⟨files, ⟨List.mem_cons_self, t, rfl, hcomplete⟩, apart_of_complete hnone hcomplete⟩
      exact ⟨hbeside, .complete trivial hbeside nofun⟩
  | _ => cases h

theorem spec_opened {s u : State} (hs : Tidy s) (h : step s .opened = some u) : Tidy u ∧ Effect s u .opened := by
  obtain ⟨phase, tree, installs⟩ := s
  cases phase with
  | marking =>
    rcases tree with _ | ⟨data | target | cs⟩
    · cases h
    · cases h
    · cases h
    · cases h
      have hbeside : Beside ⟨.writing, some (replace marker (some (.file [])) (.dir cs)), installs⟩ :=
        Beside.marked hs rfl rfl rfl
      exact ⟨hbeside, .complete trivial hbeside nofun⟩
  | _ => cases h

theorem spec_written {s u : State} (hs : Tidy s) (h : step s .written = some u) : Tidy u ∧ Effect s u .written := by
  obtain ⟨phase, tree, installs⟩ := s
  cases phase with
  | writing =>
    cases tree with
    | none => cases h
    | some t =>
      cases h
      exact ⟨trivial, .complete trivial (Beside.marked hs rfl rfl rfl) nofun⟩
  | _ => cases h

theorem step_spec {s u : State} {a : Label} (hs : Tidy s) (h : step s a = some u) : Tidy u ∧ Effect s u a := by
  cases a with
  | start => exact spec_start h
  | removed entry => exact spec_removed h
  | cleared => exact spec_cleared h
  | created => exact spec_created h
  | downloaded =>
    obtain ⟨phase, tree, installs⟩ := s
    cases phase with
    | downloading =>
      cases h
      exact ⟨hs, .unchanged trivial rfl rfl nofun⟩
    | _ => cases h
  | extracted =>
    obtain ⟨phase, tree, installs⟩ := s
    cases phase with
    | extracting =>
      cases h
      exact ⟨hs, .unchanged trivial rfl rfl nofun⟩
    | _ => cases h
  | bootstrapped =>
    obtain ⟨phase, tree, installs⟩ := s
    cases phase with
    | bootstrapping =>
      cases h
      exact ⟨hs, .unchanged trivial rfl rfl nofun⟩
    | _ => cases h
  | built after => exact spec_built hs h
  | installed files => exact spec_installed hs h
  | opened => exact spec_opened hs h
  | written => exact spec_written hs h
  | stopped =>
    cases h
    exact ⟨trivial, .unchanged trivial rfl rfl nofun⟩

/-- Outside the removal of the former tree no step endangers the marker. -/
theorem sound_step {s u : State} {a : Label} (ht : Tidy s) (hs : Sound s) (h : step s a = some u) :
    Sound u ↔ InOrder s a := by
  cases (step_spec ht h).2 with
  | unmarked ha hmarker =>
    refine ⟨fun _ => ha, fun _ hneeds => ?_⟩
    rw [needsBootstrap, hmarker] at hneeds
    cases hneeds
  | complete ha hbeside _ =>
    obtain ⟨files, hinstalled, -⟩ := hbeside
    exact ⟨fun _ => ha, fun _ _ => ⟨files, hinstalled⟩⟩
  | unchanged ha htree hinstalls _ =>
    refine ⟨fun _ => ha, fun _ => ?_⟩
    unfold Sound needsBootstrap markerExists Installed at hs ⊢
    rwa [htree, hinstalls]
  | @removed entry t x _ hentry htree hx hremovable hu hinstalls =>
    have hinstalled : ∀ files, Installed u files ↔ Installed s files ∧ entry ∉ files.map Prod.fst := by
      intro files
      simp only [Installed, htree, hu, hinstalls, Option.some.injEq, exists_eq_left',
        complete_removed hentry hx hremovable, and_assoc]
    by_cases hmark : entry = marker
    · have hgone : markerExists u = false := by
        rw [markerExists, hu, Option.bind_some, ← hmark, get_removed hentry]
        rfl
      refine ⟨fun _ _ => .inl hmark, fun _ hneeds => ?_⟩
      rw [needsBootstrap, hgone] at hneeds
      cases hneeds
    · have hexists : markerExists u = markerExists s := by
        rw [markerExists, markerExists, hu, htree, Option.bind_some, Option.bind_some, marker_kept hentry hmark]
      simp only [Sound, InOrder, needsBootstrap, hexists, hinstalled, hmark, false_or, Bool.not_eq_false']

/-- Along any runs of the script, finished, failed or killed, the marker is sound in every
state exactly when no removal takes a header or library away while it is still there. -/
theorem marker_sound_iff {s v : State} {tr : List (State × Label)} (h : Run step s tr v)
    (hidle : s.phase = .idle) (hs : Sound s) :
    (∀ u ∈ states tr v, Sound u) ↔ ∀ e ∈ tr, InOrder e.1 e.2 := by
  exact h.along_iff InOrder Tidy Sound (tidy_of_idle hidle) hs (fun _ _ _ ht hstep => (step_spec ht hstep).1)
    fun _ _ _ ht hs hstep => sound_step ht hs hstep


def fresh : State := ⟨.idle, none, []⟩

def versionHeader : Path := ["include".toList, "boost".toList, "version.hpp".toList]

def library : Path := ["lib".toList, "libboost_log.a".toList]

def install : List Label :=
  [.start, .created, .downloaded, .extracted, .bootstrapped,
    .built (.dir [("include".toList, .dir [("boost".toList, .dir [("version.hpp".toList, .file [1])])]),
      ("lib".toList, .dir [("libboost_log.a".toList, .file [2])])]),
    .installed [(versionHeader, [1]), (library, [2])], .opened, .written]

theorem marker_sound_iff_reinstall : ∃ v, exec step fresh (install ++ [.start, .removed marker, .removed library, .stopped]) = some v ∧
    ∀ u ∈ states (trace step fresh (install ++ [.start, .removed marker, .removed library, .stopped])) v, Sound u := by
  have hsome : (exec step fresh (install ++ [.start, .removed marker, .removed library, .stopped])).isSome = true := by
    decide +kernel
  obtain ⟨v, hv⟩ := Option.isSome_iff_exists.1 hsome
  exact ⟨v, hv, (marker_sound_iff (run_of_exec step _ _ hv) rfl (by decide)).2 (by decide +kernel)⟩

/-- A second run by hand, killed after it has removed the library. -/
theorem marker_outlives_library : ∃ tr v, Run step fresh tr v ∧ ¬ Sound v := by
  have hany : ((exec step fresh (install ++ [.start, .removed library, .stopped])).any fun v => !decide (Sound v)) = true := by
    decide +kernel
  obtain ⟨v, hv, hsound⟩ := (Option.any_eq_true _ _).1 hany
  exact ⟨_, v, run_of_exec step _ _ hv, by simpa using hsound⟩

/-- Runs that CMake starts find no marker, so wherever they stop it stays sound. -/
theorem sound_of_bootstraps {s v : State} {tr : List (State × Label)} (h : Run step s tr v)
    (hidle : s.phase = .idle) (hs : Sound s) (hcmake : ∀ e ∈ tr, e.2 = .start → needsBootstrap e.1 = true) :
    ∀ u ∈ states tr v, Sound u := by
  have hremoving : s.phase = .removing → markerExists s = false := by
    rw [hidle]
    exact nofun
  intro u hu
  refine (h.invariant_along (fun s a => a = .start → needsBootstrap s = true)
    (fun s => (Tidy s ∧ Sound s) ∧ (s.phase = .removing → markerExists s = false))
    ⟨⟨tidy_of_idle hidle, hs⟩, hremoving⟩ ?_ hcmake u hu).1.2
  rintro s a u ⟨⟨ht, hsound⟩, hremoving⟩ hstart hstep
  obtain ⟨htidy, heffect⟩ := step_spec ht hstep
  rw [sound_step ht hsound hstep]
  cases heffect with
  | removed hphase hentry htree _ _ hu _ =>
    have hnone : markerExists s = false := hremoving hphase
    refine ⟨⟨htidy, fun hmarker => ?_⟩, fun _ => ?_⟩
    · rw [hnone] at hmarker
      cases hmarker
    · rw [markerExists, htree, Option.bind_some] at hnone
      rw [markerExists, hu, Option.bind_some, Bool.eq_false_iff]
      exact fun hsome => Bool.eq_false_iff.1 hnone (marker_of_removed hentry hsome)
  | unmarked ha hmarker => exact ⟨⟨htidy, ha⟩, fun _ => hmarker⟩
  | complete ha _ hphase => exact ⟨⟨htidy, ha⟩, fun hu => absurd hu hphase⟩
  | unchanged ha htree _ hphase =>
    refine ⟨⟨htidy, ha⟩, fun hu => ?_⟩
    have hneeds := hstart (hphase hu)
    rw [markerExists, htree]
    simpa [needsBootstrap, markerExists] using hneeds

end LoggerBenchmarks.BoostBootstrap
