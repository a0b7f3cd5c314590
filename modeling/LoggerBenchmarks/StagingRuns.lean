import LoggerBenchmarks.StagedTree

set_option autoImplicit false

/-!
# Runs of a synchronisation

Up to the removal of the old target only its staging directories change. A run that
ends leaves the tree at the target that `freshTree` computes, whatever stood there.
-/
namespace LoggerBenchmarks.StagingRuns
open PythonText PosixPaths FileTrees GlobPatterns StatefulPrograms LineEndings VendorManifest VendorWorld
open EolRestoring VendorStaging StagedTree

variable {κ γ : Type}

/-- The names beside the target that a synchronisation may remove or fill. -/
def Reserved (target : Path) (n : Name) : Prop :=
  n = nameOf target ∨ fnmatch n (stagingName (nameOf target) ['*']) = true ∨
    ∃ suffix, n = stagingName (nameOf target) suffix

def InZone (target p : Path) : Prop := ∃ n, Reserved target n ∧ target.dropLast ++ [n] <+: p

/-- Two trees that differ at most in the target, in its staging directories and in the
directories that were made on the way to them. -/
def Alike (target : Path) (files files' : Node Bytes) : Prop :=
  ∀ p, ¬ InZone target p → Node.fileAt p files' = Node.fileAt p files ∧
    (Node.kindAt p files' = Node.kindAt p files ∨
      p <+: target.dropLast ∧ Node.kindAt p files = none ∧ Node.kindAt p files' = some .dir)

section Zone

variable {target : Path} {files files' files'' : Node Bytes}

theorem alike_refl (target : Path) (files : Node Bytes) : Alike target files files :=
  fun _ _ => ⟨rfl, .inl rfl⟩

theorem Alike.trans (h : Alike target files files') (h' : Alike target files' files'') :
    Alike target files files'' := by
  intro p hp
  obtain ⟨hfile, hkind⟩ := h p hp
  obtain ⟨hfile', hkind'⟩ := h' p hp
  refine ⟨hfile'.trans hfile, ?_⟩
  rcases hkind' with hsame' | ⟨hparent, hnone', hdir'⟩
  · rcases hkind with hsame | ⟨hparent, hnone, hdir⟩
    · exact .inl (hsame'.trans hsame)
    · exact .inr ⟨hparent, hnone, hsame'.trans hdir⟩
  · rcases hkind with hsame | ⟨-, -, hdir⟩
    · exact .inr ⟨hparent, hsame ▸ hnone', hdir'⟩
    · rw [hdir] at hnone'
      cases hnone'

theorem alike_replace {n : Name} (hn : Reserved target n) (q : Path) (new : Option (Node Bytes)) :
    Alike target files (Node.replace (target.dropLast ++ n :: q) new files) := by
  intro p hp
  have hbelow : ¬ target.dropLast ++ n :: q <+: p := by
    intro hle
    refine hp ⟨n, hn, List.IsPrefix.trans ⟨q, ?_⟩ hle⟩
    rw [List.append_assoc, List.singleton_append]
  exact ⟨Node.fileAt_replace hbelow new files, .inl (Node.kindAt_replace hbelow new files)⟩

theorem alike_makeDirectory {n : Name} (hn : Reserved target n) {q : Path} (hq : q <+: target.dropLast ++ [n])
    (hnone : Node.get q files = none) : Alike target files (Node.replace q (some (.dir [])) files) := by
  rcases List.prefix_concat_iff.1 hq with rfl | hparent
  · exact alike_replace hn [] _
  · intro p _
    refine ⟨Node.fileAt_replace_dir_nil hnone p, ?_⟩
    by_cases hle : q <+: p
    · obtain ⟨r, rfl⟩ := hle
      have hmissing : Node.kindAt (q ++ r) files = none := Node.kindAt_eq_none.2 (Node.get_append_of_none hnone r)
      rcases Node.get_replace_some_or (p := q) (.dir []) files with hmade | hsame
      · by_cases hr : r = []
        · subst hr
          rw [List.append_nil] at hmissing ⊢
          exact .inr ⟨hparent, hmissing, Node.kindAt_eq_dir.2 ⟨[], hmade⟩⟩
        · refine .inl ?_
          rw [hmissing, Node.kindAt_eq_none, Node.get_append, hmade]
          cases r with
          | nil => exact absurd rfl hr
          | cons m r => rfl
      · refine .inl ?_
        rw [hmissing, Node.kindAt_eq_none]
        exact Node.get_append_of_none (hsame.trans hnone) r
    · exact .inl (Node.kindAt_replace hle _ files)

theorem not_inZone_above {p : Path} (h : p <+: target.dropLast) : ¬ InZone target p := by
  rintro ⟨n, -, hle⟩
  have hlen := (hle.trans h).length_le
  rw [List.length_append, List.length_singleton] at hlen
  omega

theorem reserved_staging (target : Path) (suffix : Name) : Reserved target (stagingName (nameOf target) suffix) :=
  .inr (.inr ⟨suffix, rfl⟩)

end Zone

/-- The patches `apply_patches` would apply, in order; `none` without a patch directory. -/
def recordedPatches (root : Path) (dep : Dependency) (files : Node Bytes) : Option (List (Name × Option Bytes)) :=
  (Node.stat files [] (patchesPath root dep)).map fun found =>
    (patchNames found.2).map fun n => (n, bytesAt files (patchesPath root dep ++ [n]))

/-- The patches are neither in the target or its staging directories nor found through them. -/
def PatchesFixed (root : Path) (dep : Dependency) (target : Path) (files : Node Bytes) : Prop :=
  ∀ files', Alike target files files' → recordedPatches root dep files' = recordedPatches root dep files

def appliedPatches (root : Path) (dep : Dependency) (applyLocalPatches : Bool) (files : Node Bytes) :
    List (Option Bytes) :=
  if applyLocalPatches then ((recordedPatches root dep files).getD []).map Prod.snd else []

theorem bytesAt_of_recorded {root target : Path} {dep : Dependency} {files files' : Node Bytes}
    (hfixed : PatchesFixed root dep target files) (halike : Alike target files files')
    {recorded : List (Name × Option Bytes)} (hrecorded : recordedPatches root dep files = some recorded)
    {e : Name × Option Bytes} (he : e ∈ recorded) : bytesAt files' (patchesPath root dep ++ [e.1]) = e.2 := by
  have hsame := (hfixed files' halike).trans hrecorded
  obtain ⟨found, -, hnames⟩ := Option.map_eq_some_iff.1 hsame
  rw [← hnames] at he
  obtain ⟨n, -, rfl⟩ := List.mem_map.1 he
  rfl

structure Start (γ : Type) where
  target : Path
  pid : ℕ
  files : Node Bytes
  repository : γ
  siblings : Name → Option (Node Bytes)

def Start.staging (start : Start γ) : Path := stagingPath start.target start.pid

structure Behind (start : Start γ) (w : World κ γ) : Prop where
  repository : w.repository = start.repository
  alike : Alike start.target start.files w.files
  siblings : ∀ n, n ≠ stagingName (nameOf start.target) (str start.pid) →
    Node.get (start.target.dropLast ++ [n]) w.files = start.siblings n

structure Staged (start : Start γ) (t : Node Bytes) (n : ℕ) (w : World κ γ) : Prop where
  tree : Node.get start.staging w.files = some t
  calls : w.calls = n
  behind : Behind start w

section Staging

variable {start : Start γ} {w : World κ γ}

theorem Behind.edit (h : Behind start w) (q : Path) (new : Option (Node Bytes))
    (event : Event) (n : ℕ) :
    Behind start (({ w with calls := n } : World κ γ).edit event (Node.replace (start.staging ++ q) new w.files)) where
  repository := h.repository
  alike := by
    refine h.alike.trans ?_
    rw [Start.staging, stagingPath, List.append_assoc, List.singleton_append]
    exact alike_replace (reserved_staging _ _) q new
  siblings n hn := by
    have hapart := (Node.apart_siblings (p := start.target.dropLast) hn).symm.left_of_below (List.prefix_append _ q)
    exact (Node.get_replace_apart hapart new w.files).trans (h.siblings n hn)

theorem Staged.replace {t t' : Node Bytes} {n : ℕ} (h : Staged start t n w) (event : Event) (m : ℕ) :
    Staged start t' m
      (({ w with calls := m } : World κ γ).edit event (Node.replace start.staging (some t') w.files)) where
  tree := Node.get_replace_of_get h.tree t'
  calls := rfl
  behind := by
    have hedit := h.behind.edit [] (some t') event m
    rwa [List.append_nil] at hedit

variable {c : Checkout κ γ} {dep : Dependency}

/-- The loop over the patches computes `patchedTree`. -/
theorem forM_applyPatch_run (directory : Path)
    (recorded : List (Name × Option Bytes))
    (hread : ∀ e ∈ recorded, ∀ files', Alike start.target start.files files' →
      bytesAt files' (directory ++ [e.1]) = e.2) {t : Node Bytes} {n : ℕ} (h : Staged start t n w) :
    Yields ((recorded.map Prod.fst).forM fun name => applyPatch c start.staging (directory ++ [name])) w
      (patchedTree c.git (recorded.map Prod.snd) n t) (Staged start) := by
  induction recorded generalizing w t n with
  | nil => exact ⟨w, rfl, h⟩
  | cons e recorded ih =>
    have hbytes := hread e List.mem_cons_self w.files h.behind.alike
    have hwork : workIn start.staging (.filled start.staging) (c.git.apply n e.2) { w with calls := n + 1 } =
        (.ok (c.git.apply n e.2 t).2, ({ w with calls := n + 1 } : World κ γ).edit (.filled start.staging)
          (Node.replace start.staging (some (c.git.apply n e.2 t).1) w.files)) := by
      rw [workIn]
      dsimp only
      rw [h.tree]
    set w₁ := ({ w with calls := n + 1 } : World κ γ).edit (.filled start.staging)
      (Node.replace start.staging (some (c.git.apply n e.2 t).1) w.files)
    let turn : Name → Action κ γ PUnit := fun name => applyPatch c start.staging (directory ++ [name])
    have hrun : turn e.1 w = check .apply (c.git.apply n e.2 t).2 w₁ := by
      simp only [turn]
      rw [applyPatch, observe_bind, nextCall_bind, hbytes, h.calls]
      exact ok_bind hwork _
    rw [List.map_cons, List.map_cons, patchedTree]
    unfold Yields at ih ⊢
    cases hstatus : (c.git.apply n e.2 t).2 with
    | false =>
      have hfail : turn e.1 w = (.error (.process .apply), w₁) := by rw [hrun, hstatus]; rfl
      rw [if_neg Bool.false_ne_true]
      exact ⟨_, _, forM_cons_error hfail _⟩
    | true =>
      have hok : turn e.1 w = (.ok ⟨⟩, w₁) := by rw [hrun, hstatus]; rfl
      rw [if_pos rfl, forM_cons_ok hok]
      exact ih (fun d hd => hread d (List.mem_cons_of_mem _ hd)) (h.replace _ _)

def Appliable (root staging : Path) (applyLocalPatches : Bool) (recorded : Option (List (Name × Option Bytes))) : Prop :=
  applyLocalPatches = true → recorded.isSome = true → root <+: staging

theorem applyPatches_run {flag : Bool}
    (hfixed : flag = true → PatchesFixed c.root dep start.target start.files) (happliable : Appliable c.root start.staging flag (recordedPatches c.root dep start.files))
    {t : Node Bytes} {n : ℕ} (h : Staged start t n w) :
    Yields (if flag then applyPatches c dep start.staging else pure ()) w
      (patchedTree c.git (appliedPatches c.root dep flag start.files) n t) (Staged start) := by
  unfold appliedPatches
  by_cases hflag : flag = true
  · rw [if_pos hflag, if_pos hflag]
    have hnow := hfixed hflag w.files h.behind.alike
    have hread := fun recorded (hrecorded : recordedPatches c.root dep start.files = some recorded) e he files'
        (halike : Alike start.target start.files files') =>
      bytesAt_of_recorded (e := e) (hfixed hflag) halike hrecorded he
    cases hrecorded : recordedPatches c.root dep start.files with
    | none =>
      rw [hrecorded, recordedPatches, Option.map_eq_none_iff] at hnow
      refine ⟨w, ?_, h⟩
      rw [applyPatches, observe_bind, hnow]
      rfl
    | some recorded =>
      have hroot : c.root <+: start.staging := happliable hflag (by rw [hrecorded]; rfl)
      have hloop := forM_applyPatch_run (c := c) (patchesPath c.root dep) recorded (hread recorded hrecorded) h
      rw [hrecorded, recordedPatches] at hnow
      obtain ⟨⟨place, directory⟩, hstat, hnames⟩ := Option.map_eq_some_iff.1 hnow
      have hlist : patchNames directory = recorded.map Prod.fst := by
        rw [← hnames, List.map_map]
        exact (List.map_id _).symm
      unfold Yields at hloop ⊢
      rw [applyPatches, observe_bind, hstat]
      dsimp only
      rw [if_pos hroot, hlist]
      exact hloop
  · rw [if_neg hflag, if_neg hflag]
    exact ⟨w, rfl, h⟩

end Staging

section Preparing

variable {c : Checkout κ γ} {dep : Dependency} {commit : Text} {flag : Bool} {target : Path} {w : World κ γ}

structure Kept (target : Path) (w s : World κ γ) : Prop where
  calls : s.calls = w.calls
  repository : s.repository = w.repository
  caches : s.caches = w.caches
  alike : Alike target w.files s.files

def SameSiblings (target : Path) (pid : ℕ) (w s : World κ γ) : Prop :=
  ∀ n, n ≠ stagingName (nameOf target) (str pid) →
    Node.get (target.dropLast ++ [n]) s.files = Node.get (target.dropLast ++ [n]) w.files

theorem kept_refl (target : Path) (w : World κ γ) : Kept target w w := ⟨rfl, rfl, rfl, alike_refl _ _⟩

theorem kept_removed {s : World κ γ} {n : Name} (hn : Reserved target n) (h : Kept target w s) :
    Kept target w (s.edit (.removed (target.dropLast ++ [n])) (Node.replace (target.dropLast ++ [n]) none s.files)) :=
  ⟨h.calls, h.repository, h.caches, h.alike.trans (alike_replace hn [] none)⟩

theorem keeps_kept_removeStale : Keeps (Kept target w) (removeStale target : Action κ γ Unit) :=
  keeps_removeStale fun _ _ _ hn _ _ hs => kept_removed (.inr (.inl hn)) hs

theorem keeps_kept_removeIfExists (pid : ℕ) :
    Keeps (fun s => Kept target w s ∧ SameSiblings target pid w s)
      (removeIfExists (stagingPath target pid) : Action κ γ Unit) := by
  refine keeps_removeIfExists fun s d _ _ hs => ⟨kept_removed (reserved_staging target _) hs.1, fun n hn => ?_⟩
  exact (Node.get_replace_apart (Node.apart_siblings hn).symm none s.files).trans (hs.2 n hn)

theorem keeps_kept_mkdirs (pid : ℕ) :
    Keeps (fun s => Kept target w s ∧ SameSiblings target pid w s)
      (mkdirs (stagingPath target pid) : Action κ γ Unit) := by
  refine keeps_mkdirs fun q s hq _ hnone hs => ⟨⟨hs.1.calls, hs.1.repository, hs.1.caches, ?_⟩, fun n hn => ?_⟩
  · exact hs.1.alike.trans (alike_makeDirectory (reserved_staging target _) hq hnone)
  · refine Eq.trans ?_ (hs.2 n hn)
    rcases List.prefix_concat_iff.1 hq with rfl | ⟨r, hr⟩
    · exact Node.get_replace_apart (Node.apart_siblings hn).symm _ s.files
    · rw [← hr, List.append_assoc]
      have hbelow : r ++ [n] ≠ [] := List.append_ne_nil_of_right_ne_nil r (List.cons_ne_nil _ [])
      exact (Node.get_below_new hnone hbelow).trans (Node.get_append_of_none hnone _).symm

theorem stat_directory {files : Node Bytes} {path : Path} {cs : List (Name × Node Bytes)} (hdot : dotDot ∉ path)
    (h : Node.get path files = some (.dir cs)) : Node.stat files [] path = some (path, .dir cs) := by
  have hget : Node.get ([] ++ path) files = some (.dir cs) := by rwa [List.nil_append]
  rw [Node.stat_of_get hget (fun target heq => by cases heq) hdot, List.nil_append]

theorem removeIfExists_ok {path : Path} {s s' : World κ γ} (hrun : removeIfExists path s = (.ok (), s')) :
    (pathExists s.files path = false ∧ s' = s) ∨ s'.files = Node.replace path none s.files := by
  rw [removeIfExists, observe_bind] at hrun
  by_cases hexists : pathExists s.files path = true
  · have hremoved : rmtree path s = (.ok (), s') := by rwa [if_pos hexists] at hrun
    rw [rmtree] at hremoved
    split at hremoved
    · cases hremoved
      exact .inr rfl
    · cases hremoved
  · have hsame : (pure () : Action κ γ Unit) s = (.ok (), s') := by rwa [if_neg hexists] at hrun
    exact .inl ⟨Bool.eq_false_iff.2 hexists, (congrArg Prod.snd hsame).symm⟩

theorem not_directory_of_removeIfExists {path : Path} (hdot : dotDot ∉ path) (hne : path ≠ []) {s s' : World κ γ}
    (hrun : removeIfExists path s = (.ok (), s')) (cs : List (Name × Node Bytes)) :
    Node.get path s'.files ≠ some (.dir cs) := by
  intro hdir
  rcases removeIfExists_ok hrun with ⟨hmissing, rfl⟩ | hremoved
  · rw [pathExists, stat_directory hdot hdir] at hmissing
    cases hmissing
  · rw [hremoved, Node.get_removed hne] at hdir
    cases hdir

theorem rename_ok {source destination : Path} {s s' : World κ γ} (hrun : rename source destination s = (.ok (), s')) :
    ∃ t, Node.get source s.files = some t ∧
      (∀ d, Node.get destination s.files = some d → d.names = []) ∧
      s'.files = Node.replace destination (some t) (Node.replace source none s.files) := by
  rw [rename] at hrun
  cases hget : Node.get source s.files with
  | none =>
    rw [hget] at hrun
    cases hrun
  | some t =>
    rw [hget] at hrun
    dsimp only at hrun
    split at hrun
    · rename_i hfree
      cases hrun
      refine ⟨t, rfl, fun d hd => ?_, rfl⟩
      rw [hd, Option.all_some] at hfree
      simp only [Bool.and_eq_true, List.isEmpty_iff] at hfree
      exact hfree.2
    · cases hrun

def freshFor (c : Checkout κ γ) (dep : Dependency) (commit : Text) (flag : Bool) (w : World κ γ) :
    Option (Node Bytes × ℕ) :=
  freshTree c.git (w.caches (cachePath c.root dep)) commit (appliedPatches c.root dep flag w.files) w.repository dep
    w.calls

/-- The tree before the line endings are restored has no link on a tracked path. -/
def PlainlyStaged (c : Checkout κ γ) (dep : Dependency) (commit : Text) (flag : Bool) (w : World κ γ) : Prop :=
  ∀ x y, exportedTree c.git (w.caches (cachePath c.root dep)) commit w.calls = some x →
    patchedTree c.git (appliedPatches c.root dep flag w.files) x.2 x.1 = some y →
    PlainlyTracked c w.repository dep y.1

def startOf (c : Checkout κ γ) (target : Path) (w s : World κ γ) : Start γ :=
  ⟨target, c.pid, w.files, w.repository, fun n => Node.get (target.dropLast ++ [n]) s.files⟩

theorem export_run {s s₁ : World κ γ} (hmkdirs : mkdirs (stagingPath target c.pid) s = (.ok ⟨⟩, s₁))
    (hnew : Node.get (stagingPath target c.pid) s₁.files = some (.dir [])) (hkept : Kept target w s₁) :
    Yields (exportRef c (w.caches (cachePath c.root dep)) commit (stagingPath target c.pid)) s
      (exportedTree c.git (w.caches (cachePath c.root dep)) commit w.calls) (Staged (startOf c target w s₁)) := by
  have hstart : Staged (startOf c target w s₁) (.dir []) w.calls s₁ :=
    ⟨hnew, hkept.calls, ⟨hkept.repository, hkept.alike, fun _ _ => rfl⟩⟩
  unfold Yields
  rw [exportRef_run hmkdirs hnew, hkept.calls, exportError, exportedTree, exported, hkept.calls]
  cases (c.git.archive w.calls (w.caches (cachePath c.root dep)) commit).2
  · exact ⟨_, _, rfl⟩
  · cases (c.git.tar (w.calls + 1) (c.git.archive w.calls (w.caches (cachePath c.root dep)) commit).1 (.dir [])).2
    · exact ⟨_, _, rfl⟩
    · exact ⟨_, rfl, hstart.replace _ _⟩

theorem fill_run (hdot : dotDot ∉ target) (hfixed : flag = true → PatchesFixed c.root dep target w.files)
    (happliable : Appliable c.root (stagingPath target c.pid) flag (recordedPatches c.root dep w.files))
    (hplain : PlainlyStaged c dep commit flag w) {s s₁ : World κ γ}
    (hmkdirs : mkdirs (stagingPath target c.pid) s = (.ok ⟨⟩, s₁))
    (hnew : Node.get (stagingPath target c.pid) s₁.files = some (.dir [])) (hkept : Kept target w s₁) :
    Yields (exportRef c (w.caches (cachePath c.root dep)) commit (stagingPath target c.pid) >>= fun _ =>
        (if flag then applyPatches c dep (stagingPath target c.pid) else pure ()) >>= fun _ =>
          preserveTrackedFileFormat c dep (stagingPath target c.pid)) s
      (freshFor c dep commit flag w) (Staged (startOf c target w s₁)) := by
  refine (export_run hmkdirs hnew hkept).bind fun x w₁ hx hstaged => ?_
  refine (applyPatches_run hfixed happliable hstaged).bind fun y w₂ hy hpatched => ?_
  have htracked : PlainlyTracked c w₂.repository dep y.1 := by
    rw [hpatched.behind.repository]
    exact hplain x y hx hy
  have hrestore := preserve_run (I := Behind (startOf c target w s₁))
    (fun v n hv => ⟨hv.repository, hv.alike, hv.siblings⟩)
    (fun v relative data after hv _ => hv.edit relative (some (.file after)) _ v.calls)
    hpatched.behind hpatched.tree (dotDot_not_mem_stagingPath hdot c.pid) htracked
  rw [hpatched.behind.repository, hpatched.calls] at hrestore
  exact hrestore.imp fun t n w₃ ⟨htree, hcalls, hbehind⟩ => ⟨htree, hcalls, hbehind⟩

theorem appliable_of_ok (start : Start γ)
    (hfixed : flag = true → PatchesFixed c.root dep start.target start.files) {t : Node Bytes}
    {n : ℕ} {s s' : World κ γ} (hstaged : Staged start t n s)
    (hrun : (if flag then applyPatches c dep start.staging else pure () : Action κ γ Unit) s = (.ok (), s')) :
    Appliable c.root start.staging flag (recordedPatches c.root dep start.files) := by
  intro hflag hsome
  by_contra hroot
  rw [← hfixed hflag s.files hstaged.behind.alike, recordedPatches, Option.isSome_map] at hsome
  obtain ⟨⟨place, directory⟩, hstat⟩ := Option.isSome_iff_exists.1 hsome
  have happly : applyPatches c dep start.staging s = (.ok (), s') := by rwa [if_pos hflag] at hrun
  rw [applyPatches, observe_bind, hstat] at happly
  dsimp only at happly
  rw [if_neg hroot] at happly
  cases happly

/-- The pattern for stale staging directories matches exactly the names this target gives to them. -/
def LiteralPattern (target : Path) : Prop :=
  ∀ n, fnmatch n (stagingName (nameOf target) ['*']) = true ↔ ∃ suffix, n = stagingName (nameOf target) suffix

def NoStaging (target : Path) (files : Node Bytes) : Prop :=
  ∀ suffix cs, Node.get (target.dropLast ++ [stagingName (nameOf target) suffix]) files ≠ some (.dir cs)

theorem removeStale_ok (hpattern : LiteralPattern target) (hdot : dotDot ∉ target) {w₁ : World κ γ}
    (hrun : removeStale target w = (.ok (), w₁)) : NoStaging target w₁.files := by
  let names : List Name := staleStagingNames target w.files
  let Gone (done : List Name) (s : World κ γ) : Prop := ∀ suffix cs,
    stagingName (nameOf target) suffix ∉ names ∨ stagingName (nameOf target) suffix ∈ done →
      Node.get (target.dropLast ++ [stagingName (nameOf target) suffix]) s.files ≠ some (.dir cs)
  have hstart : Gone [] w := by
    intro suffix cs hmiss hdir
    refine hmiss.resolve_right List.not_mem_nil (List.mem_filter.2 ⟨?_, (hpattern _).2 ⟨suffix, rfl⟩⟩)
    rw [Node.get_append] at hdir
    obtain ⟨d, hd, hchild⟩ := Option.bind_eq_some_iff.1 hdir
    obtain ⟨x, hx, -⟩ := Option.bind_eq_some_iff.1 hchild
    rw [hd, Option.elim_some, Node.mem_names, hx]
    rfl
  have hloop : Triple (Gone []) (names.forM fun n => (do
      let files ← observe World.files
      if isDir files (target.dropLast ++ [n]) then rmtree (target.dropLast ++ [n]) else pure () : Action κ γ Unit))
      (fun _ => Gone names) fun _ _ => True :=
    triple_forM Gone fun done n later hsplit => ?_
  · have hleft := hloop w hstart
    rw [removeStale, observe_bind] at hrun
    rw [hrun] at hleft
    exact fun suffix cs => hleft suffix cs (em _).symm
  · have hn : n ∈ names := hsplit ▸ List.mem_append_right done List.mem_cons_self
    obtain ⟨own, rfl⟩ := (hpattern n).1 (List.mem_filter.1 hn).2
    refine triple_bind (Q := fun files s => files = s.files ∧ Gone done s) (fun s hs => ⟨rfl, hs⟩) fun files => ?_
    refine triple_ite (fun _ => triple_rmtree ?_ fun _ _ => trivial) fun hnot => triple_pure _ ?_
    · rintro s d - - ⟨-, hs⟩ suffix cs hgone
      by_cases hsame : stagingName (nameOf target) suffix = stagingName (nameOf target) own
      · rw [hsame, World.edit, Node.get_removed (List.append_ne_nil_of_right_ne_nil _ (List.cons_ne_nil _ _))]
        exact fun h => nomatch h
      · rw [World.edit, Node.get_replace_apart (Node.apart_siblings (Ne.symm hsame))]
        refine hs suffix cs (hgone.imp_right fun hmem => ?_)
        exact (List.mem_append.1 hmem).resolve_right fun hlast => hsame (List.mem_singleton.1 hlast)
    · rintro s ⟨rfl, hs⟩ suffix cs hgone hdir
      by_cases hsame : stagingName (nameOf target) suffix = stagingName (nameOf target) own
      · have hdots : dotDot ∉ target.dropLast ++ [stagingName (nameOf target) own] := by
          intro hm
          rcases List.mem_append.1 hm with hm | hm
          · exact hdot (List.mem_of_mem_dropLast hm)
          · exact stagingName_ne_dotDot _ _ (List.mem_singleton.1 hm).symm
        rw [hsame] at hdir
        refine hnot ?_
        rw [isDir, stat_directory hdots hdir]
        rfl
      · refine hs suffix cs (hgone.imp_right fun hmem => ?_) hdir
        exact (List.mem_append.1 hmem).resolve_right fun hlast => hsame (List.mem_singleton.1 hlast)

/-- What is built in the staging directory starts from an empty one. -/
theorem prepareStaging_started (hdot : dotDot ∉ target) {w' : World κ γ}
    (hrun : prepareStaging c dep commit flag target w = (.ok (), w')) :
    ∃ w₁ w₂ s₁, removeStale target w = (.ok (), w₁) ∧ Alike target w.files w₂.files ∧
      mkdirs (stagingPath target c.pid) w₂ = (.ok ⟨⟩, s₁) ∧
      Node.get (stagingPath target c.pid) s₁.files = some (.dir []) ∧ Kept target w s₁ ∧
      SameSiblings target c.pid w₁ s₁ ∧
      (exportRef c (w.caches (cachePath c.root dep)) commit (stagingPath target c.pid) >>= fun _ =>
        (if flag then applyPatches c dep (stagingPath target c.pid) else pure ()) >>= fun _ =>
          preserveTrackedFileFormat c dep (stagingPath target c.pid)) w₂ = (.ok (), w') := by
  obtain ⟨_, w₁, hstale, hrest⟩ := bind_ok hrun
  obtain ⟨_, w₂, hexists, hrest⟩ := bind_ok hrest
  rw [observe_bind] at hrest
  obtain ⟨_, w₃, hexported, -⟩ := bind_ok hrest
  obtain ⟨_, s₁, hmkdirs, -⟩ := bind_ok hexported
  have hkept₁ : Kept target w w₁ := by
    have hleft := triple_left keeps_kept_removeStale (kept_refl target w)
    rwa [hstale] at hleft
  have hkept₂ : Kept target w₁ w₂ ∧ SameSiblings target c.pid w₁ w₂ := by
    have hleft := triple_left (keeps_kept_removeIfExists c.pid) ⟨kept_refl target w₁, fun _ _ => rfl⟩
    rwa [hexists] at hleft
  have hkept₃ : Kept target w₁ s₁ ∧ SameSiblings target c.pid w₁ s₁ := by
    have hleft := triple_left (keeps_kept_mkdirs c.pid) hkept₂
    rwa [hmkdirs] at hleft
  have hkept : Kept target w s₁ := ⟨hkept₃.1.calls.trans hkept₁.calls, hkept₃.1.repository.trans hkept₁.repository,
    hkept₃.1.caches.trans hkept₁.caches, hkept₁.alike.trans hkept₃.1.alike⟩
  have hdots := dotDot_not_mem_stagingPath hdot c.pid
  have hne : stagingPath target c.pid ≠ [] := List.append_ne_nil_of_right_ne_nil _ (List.cons_ne_nil _ _)
  have hnew : Node.get (stagingPath target c.pid) s₁.files = some (.dir []) := by
    rcases mkdirs_ok hmkdirs with ⟨cs, hcs, -⟩ | ⟨-, hnew⟩
    · exact absurd hcs (not_directory_of_removeIfExists hdots hne hexists cs)
    · exact hnew
  rw [hkept₂.1.caches, hkept₁.caches] at hrest
  exact ⟨w₁, w₂, s₁, hstale, hkept₁.alike.trans hkept₂.1.alike, hmkdirs, hnew, hkept, hkept₃.2, hrest⟩

/-- The tree before the line endings are restored, which may have links. -/
theorem prepareStaging_patched (hdot : dotDot ∉ target) (hfixed : flag = true → PatchesFixed c.root dep target w.files)
    {w' : World κ γ} (hrun : prepareStaging c dep commit flag target w = (.ok (), w')) :
    ∃ s₁ x y w₂, exportedTree c.git (w.caches (cachePath c.root dep)) commit w.calls = some x ∧
      patchedTree c.git (appliedPatches c.root dep flag w.files) x.2 x.1 = some y ∧
      Staged (startOf c target w s₁) y.1 y.2 w₂ ∧
      preserveTrackedFileFormat c dep (stagingPath target c.pid) w₂ = (.ok (), w') := by
  obtain ⟨w₁, w₂, s₁, -, -, hmkdirs, hnew, hkept, -, hrest⟩ := prepareStaging_started hdot hrun
  obtain ⟨_, w₃, hexported, hrest⟩ := bind_ok hrest
  obtain ⟨_, w₄, hpatched, hpreserve⟩ := bind_ok hrest
  obtain ⟨x, hx, hexport⟩ := (export_run hmkdirs hnew hkept).of_ok hexported
  have happliable := appliable_of_ok (startOf c target w s₁) hfixed hexport hpatched
  obtain ⟨y, hy, hstaged⟩ := (applyPatches_run hfixed happliable hexport).of_ok hpatched
  exact ⟨s₁, x, y, w₄, hx, hy, hstaged, hpreserve⟩

/-- A synchronisation that gets to the removal of the old target has built the fresh tree. -/
theorem prepareStaging_ok (hdot : dotDot ∉ target) (hfixed : flag = true → PatchesFixed c.root dep target w.files)
    (hplain : PlainlyStaged c dep commit flag w) {w' : World κ γ}
    (hrun : prepareStaging c dep commit flag target w = (.ok (), w')) :
    OpenTo target.dropLast w.files ∧
      Appliable c.root (stagingPath target c.pid) flag (recordedPatches c.root dep w.files) ∧ ∃ w₁ s₁ x, removeStale target w = (.ok (), w₁) ∧
      SameSiblings target c.pid w₁ s₁ ∧ freshFor c dep commit flag w = some x ∧
      Staged (startOf c target w s₁) x.1 x.2 w' := by
  obtain ⟨w₁, w₂, s₁, hstale, halike, hmkdirs, hnew, hkept, hsiblings, hrest⟩ := prepareStaging_started hdot hrun
  obtain ⟨_, w₃, hexported, hpatched⟩ := bind_ok hrest
  obtain ⟨_, w₄, hpatched, -⟩ := bind_ok hpatched
  obtain ⟨y, -, hexport⟩ := (export_run hmkdirs hnew hkept).of_ok hexported
  have happliable := appliable_of_ok (startOf c target w s₁) hfixed hexport hpatched
  obtain ⟨x, hx, hstaged⟩ := (fill_run hdot hfixed happliable hplain hmkdirs hnew hkept).of_ok hrest
  refine ⟨fun q hq => ?_, happliable, w₁, s₁, x, hstale, hsiblings, hx, hstaged⟩
  have hopen := openTo_of_mkdirs hmkdirs q (hq.trans (List.prefix_append _ _))
  rcases (halike q (not_inZone_above hq)).2 with hsame | ⟨-, hnone, -⟩
  · rwa [hsame] at hopen
  · exact .inl hnone

theorem replaceTarget_ok (htarget : target ≠ []) (pid : ℕ) {t : Node Bytes} {w' : World κ γ}
    (hget : Node.get (stagingPath target pid) w.files = some t)
    (hrun : replaceTarget target (stagingPath target pid) w = (.ok (), w')) :
    Node.get target w'.files = some t ∧ Node.get (stagingPath target pid) w'.files = none ∧
      ∀ n, n ≠ nameOf target → n ≠ stagingName (nameOf target) (str pid) →
        Node.get (target.dropLast ++ [n]) w'.files = Node.get (target.dropLast ++ [n]) w.files := by
  obtain ⟨_, w₁, hremove, hrename⟩ := bind_ok hrun
  have hapart := target_apart_staging htarget pid
  have hne : stagingPath target pid ≠ [] := List.append_ne_nil_of_right_ne_nil _ (List.cons_ne_nil _ _)
  have hsibling : ∀ n, n ≠ nameOf target → Node.Apart target (target.dropLast ++ [n]) := by
    intro n hn
    have hnames := Node.apart_siblings (p := target.dropLast) hn.symm
    rwa [dropLast_append_nameOf htarget] at hnames
  have hfiles : ∀ q, Node.Apart target q → Node.get q w₁.files = Node.get q w.files := by
    intro q hq
    rcases removeIfExists_ok hremove with ⟨-, rfl⟩ | hremoved
    · rfl
    · rw [hremoved, Node.get_replace_apart hq]
  obtain ⟨t', ht', -, hfinal⟩ := rename_ok hrename
  rw [hfiles _ hapart, hget] at ht'
  obtain rfl := Option.some.inj ht'
  have hthere := (hfiles _ hapart).trans hget
  refine ⟨?_, ?_, fun n hname hstaging => ?_⟩
  · obtain ⟨d, hd⟩ := Node.exists_get_of_append (p := target.dropLast) hthere
    have hdir := Node.isDirectory_of_get_append hd hthere (List.cons_ne_nil _ [])
    obtain ⟨d', hd', hdir'⟩ := Node.isDirectory_replace (q := [stagingName (nameOf target) (str pid)]) hd hdir
      (List.cons_ne_nil _ []) none
    have hput := Node.get_replace_self (n := nameOf target) hd' hdir' (some t)
    rw [dropLast_append_nameOf htarget] at hput
    rw [hfinal, stagingPath]
    exact hput
  · rw [hfinal, Node.get_replace_apart hapart, Node.get_removed hne]
  · rw [hfinal, Node.get_replace_apart (hsibling n hname), stagingPath,
      Node.get_replace_apart (Node.apart_siblings hstaging.symm), hfiles _ (hsibling n hname)]

end Preparing

section Synchronising

variable {c : Checkout κ γ} {dep : Dependency} {commit : Text} {flag : Bool} {w w' : World κ γ}

theorem rename_root {source : Path} (hsource : source ≠ []) {s s' : World κ γ} :
    rename source [] s ≠ (.ok (), s') := by
  intro hrun
  obtain ⟨t, ht, hempty, -⟩ := rename_ok hrun
  obtain ⟨n, q, rfl⟩ := List.exists_cons_of_ne_nil hsource
  obtain ⟨child, hchild, -⟩ := Option.bind_eq_some_iff.1 ht
  have hmem : n ∈ s.files.names := Node.mem_names.2 (by rw [hchild]; rfl)
  rw [hempty s.files (Node.get_nil _)] at hmem
  cases hmem

/-- A run that ends leaves the fresh tree at the target. -/
theorem syncDependency_ok (hfixed : flag = true → PatchesFixed c.root dep (targetPath c.root dep) w.files)
    (hplain : PlainlyStaged c dep commit flag w) (hrun : syncDependency c dep commit flag w = (.ok (), w')) :
    c.root <+: targetPath c.root dep ∧ targetPath c.root dep ≠ [] ∧
      OpenTo (targetPath c.root dep).dropLast w.files ∧
      Appliable c.root (stagingPath (targetPath c.root dep) c.pid) flag (recordedPatches c.root dep w.files) ∧
      (LiteralPattern (targetPath c.root dep) → NoStaging (targetPath c.root dep) w'.files) ∧
      ∃ x, freshFor c dep commit flag w = some x ∧ Node.get (targetPath c.root dep) w'.files = some x.1 := by
  have hdot : dotDot ∉ targetPath c.root dep := dotDot_not_mem_resolve _
  generalize htarget : targetPath c.root dep = target at hdot hfixed ⊢
  rw [syncDependency, htarget] at hrun
  by_cases hroot : c.root <+: target
  · rw [if_pos hroot] at hrun
    obtain ⟨_, w₁, hprepare, hreplace⟩ := bind_ok hrun
    have hne : target ≠ [] := by
      rintro rfl
      obtain ⟨_, w₂, -, hrename⟩ := bind_ok hreplace
      exact rename_root (List.append_ne_nil_of_right_ne_nil _ (List.cons_ne_nil _ _)) hrename
    obtain ⟨hopen, happliable, w₂, s₁, x, hstale, hsiblings, hx, hstaged⟩ :=
      prepareStaging_ok hdot hfixed hplain hprepare
    obtain ⟨hnew, hgone, hothers⟩ := replaceTarget_ok hne c.pid hstaged.tree hreplace
    refine ⟨hroot, hne, hopen, happliable, fun hpattern suffix cs => ?_, x, hx, hnew⟩
    by_cases hown : stagingName (nameOf target) suffix = stagingName (nameOf target) (str c.pid)
    · rw [hown, ← stagingPath, hgone]
      exact fun h => nomatch h
    · have hsame : Node.get (target.dropLast ++ [stagingName (nameOf target) suffix]) w₁.files =
          Node.get (target.dropLast ++ [stagingName (nameOf target) suffix]) w₂.files :=
        (hstaged.behind.siblings _ hown).trans (hsiblings _ hown)
      rw [hothers _ (stagingName_ne_self _ _) hown, hsame]
      exact removeStale_ok hpattern hdot hstale suffix cs
  · rw [if_neg hroot] at hrun
    cases hrun

theorem linkFree_of_open {path : Path} {files : Node Bytes} (h : OpenTo path files) : Node.LinkFree files [] path := by
  intro q target hq hlink
  rw [List.nil_append] at hlink
  have hkind := h q hq
  unfold Node.kindAt at hkind
  rw [hlink] at hkind
  simp [Node.kind] at hkind

theorem not_pathExists {path : Path} {files : Node Bytes} (hopen : OpenTo path files) (hdot : dotDot ∉ path)
    (hnone : Node.get path files = none) : pathExists files path = false := by
  rw [pathExists, Option.isSome_eq_false_iff, Option.isNone_iff_eq_none, Option.eq_none_iff_forall_ne_some]
  rintro ⟨place, t⟩ hstat
  obtain ⟨hfollow, hget⟩ := Node.stat_eq_some.1 hstat
  rw [Node.follow_linkFree (linkFree_of_open hopen) hdot hfollow, List.nil_append, hnone] at hget
  cases hget

theorem removeIfExists_missing {path : Path} {s : World κ γ} (h : pathExists s.files path = false) :
    removeIfExists path s = (.ok (), s) := by
  rw [removeIfExists, observe_bind, h]
  rfl

theorem openTo_of_get {path : Path} {files : Node Bytes} {cs : List (Name × Node Bytes)}
    (h : Node.get path files = some (.dir cs)) : OpenTo path files :=
  fun _ hq => .inr (Node.kindAt_eq_dir.2 (Node.directory_above hq h))

/-- At most the directory of a former run stands in the way of the synchronisation. -/
structure Ready (target : Path) (pid : ℕ) (files : Node Bytes) : Prop where
  parent : OpenTo target.dropLast files
  free : Node.get target files = none ∨ ∃ cs, Node.get target files = some (.dir cs)
  stale : staleStagingNames target files = []
  staging : Node.get (stagingPath target pid) files = none

theorem removeIfExists_directory {path : Path} {s : World κ γ} {cs : List (Name × Node Bytes)} (hdot : dotDot ∉ path)
    (h : Node.get path s.files = some (.dir cs)) :
    removeIfExists path s = (.ok (), s.edit (.removed path) (Node.replace path none s.files)) := by
  have hexists : pathExists s.files path = true := by rw [pathExists, stat_directory hdot h]; rfl
  rw [removeIfExists, observe_bind, hexists, if_pos rfl, rmtree, h, Option.any_some]
  rfl

theorem rename_free {source destination : Path} {s : World κ γ} {t : Node Bytes}
    (hsource : Node.get source s.files = some t) (hfree : Node.get destination s.files = none) :
    ∃ s', rename source destination s = (.ok (), s') := by
  rw [rename, hsource]
  dsimp only
  rw [hfree, Option.all_none, if_pos rfl]
  exact ⟨_, rfl⟩

/-- A missing target is filled, and the directory of a former run is replaced. -/
theorem replaceTarget_of_free {target : Path} (htarget : target ≠ []) (hdot : dotDot ∉ target) (pid : ℕ)
    {s : World κ γ} {t : Node Bytes} (htree : Node.get (stagingPath target pid) s.files = some t)
    (hfree : Node.get target s.files = none ∨ ∃ cs, Node.get target s.files = some (.dir cs)) :
    ∃ s', replaceTarget target (stagingPath target pid) s = (.ok (), s') := by
  rcases hfree with hnone | ⟨cs, hcs⟩
  · have hdir : ∃ ds, Node.get target.dropLast s.files = some (.dir ds) := by
      obtain ⟨d, hd⟩ := Node.exists_get_of_append htree
      have hisdir := Node.isDirectory_of_get_append hd htree (List.cons_ne_nil _ [])
      cases d with
      | file data => cases hisdir
      | link t => cases hisdir
      | dir ds => exact ⟨ds, hd⟩
    obtain ⟨ds, hds⟩ := hdir
    have hopen : OpenTo target s.files := by
      have hparent := (openTo_of_get hds).concat (n := nameOf target)
        (.inl (Node.kindAt_eq_none.2 (by rw [dropLast_append_nameOf htarget]; exact hnone)))
      rwa [dropLast_append_nameOf htarget] at hparent
    obtain ⟨s', hrename⟩ := rename_free htree hnone
    exact ⟨s', (ok_bind (removeIfExists_missing (not_pathExists hopen hdot hnone)) _).trans hrename⟩
  · have hkept : Node.get (stagingPath target pid) (Node.replace target none s.files) = some t := by
      rw [Node.get_replace_apart (target_apart_staging htarget pid), htree]
    obtain ⟨s', hrename⟩ := rename_free (s := s.edit (.removed target) (Node.replace target none s.files)) hkept
      (Node.get_removed htarget s.files)
    exact ⟨s', (ok_bind (removeIfExists_directory hdot hcs) _).trans hrename⟩

/-- Where the fresh tree can be built and nothing else stands in the way, the run ends. -/
theorem syncDependency_of_ready (hroot : c.root <+: targetPath c.root dep) (hne : targetPath c.root dep ≠ [])
    (hfixed : flag = true → PatchesFixed c.root dep (targetPath c.root dep) w.files)
    (happliable : Appliable c.root (stagingPath (targetPath c.root dep) c.pid) flag
      (recordedPatches c.root dep w.files))
    (hplain : PlainlyStaged c dep commit flag w) (hready : Ready (targetPath c.root dep) c.pid w.files)
    {x : Node Bytes × ℕ} (hx : freshFor c dep commit flag w = some x) :
    ∃ w', syncDependency c dep commit flag w = (.ok (), w') := by
  have hdot : dotDot ∉ targetPath c.root dep := dotDot_not_mem_resolve _
  rw [syncDependency, if_pos hroot]
  generalize targetPath c.root dep = target at *
  have hstale : removeStale target w = (.ok (), w) := by
    rw [removeStale, observe_bind, hready.stale]
    rfl
  have hopen : OpenTo (stagingPath target c.pid) w.files :=
    hready.parent.concat (.inl (Node.kindAt_eq_none.2 hready.staging))
  have hexists : removeIfExists (stagingPath target c.pid) w = (.ok (), w) :=
    removeIfExists_missing (not_pathExists hopen (dotDot_not_mem_stagingPath hdot c.pid) hready.staging)
  obtain ⟨s₁, hmkdirs⟩ := mkdirs_of_open hopen
  have hkept : Kept target w s₁ ∧ SameSiblings target c.pid w s₁ := by
    have hleft := triple_left (keeps_kept_mkdirs c.pid) ⟨kept_refl target w, fun _ _ => rfl⟩
    rwa [hmkdirs] at hleft
  have hnew : Node.get (stagingPath target c.pid) s₁.files = some (.dir []) := by
    rcases mkdirs_ok hmkdirs with ⟨cs, hcs, -⟩ | ⟨-, hnew⟩
    · rw [hready.staging] at hcs
      cases hcs
    · exact hnew
  have hfill := fill_run hdot hfixed happliable hplain hmkdirs hnew hkept.1
  rw [hx] at hfill
  obtain ⟨w₁, hfilled, hstaged⟩ := hfill
  have hprepare : prepareStaging c dep commit flag target w = (.ok (), w₁) :=
    (ok_bind hstale _).trans ((ok_bind hexists _).trans hfilled)
  have hsame : Node.get target w₁.files = Node.get target w.files := by
    have hsibling := (hstaged.behind.siblings (nameOf target) (stagingName_ne_self _ _).symm).trans
      (hkept.2 (nameOf target) (stagingName_ne_self _ _).symm)
    have hpath : (startOf c target w s₁).target.dropLast ++ [nameOf target] = target := dropLast_append_nameOf hne
    rwa [hpath, dropLast_append_nameOf hne] at hsibling
  obtain ⟨w', hreplace⟩ := replaceTarget_of_free hne hdot c.pid (s := w₁) hstaged.tree (hsame ▸ hready.free)
  exact ⟨w', (ok_bind hprepare _).trans hreplace⟩

structure Clear (target : Path) (files : Node Bytes) : Prop where
  parent : OpenTo target.dropLast files
  missing : Node.get target files = none
  staging : ∀ suffix, Node.get (target.dropLast ++ [stagingName (nameOf target) suffix]) files = none

theorem staleStagingNames_eq_nil_iff {target : Path} {files : Node Bytes} :
    staleStagingNames target files = [] ↔
      ∀ n, fnmatch n (stagingName (nameOf target) ['*']) = true → Node.get (target.dropLast ++ [n]) files = none := by
  rw [staleStagingNames, List.filter_eq_nil_iff]
  refine forall_congr' fun n => ?_
  rw [Node.get_append]
  cases Node.get target.dropLast files with
  | none => exact iff_of_true (fun hn => nomatch hn) fun _ => rfl
  | some d =>
    have hget : Node.get [n] d = d.child n := by
      rw [Node.get_cons]
      cases d.child n <;> rfl
    rw [Option.elim_some, Option.bind_some, hget, Node.mem_names, Option.isSome_iff_ne_none]
    exact ⟨fun h hmatch => by_contra fun hne => h hne hmatch, fun h hne hmatch => hne (h hmatch)⟩

theorem staleStagingNames_eq_nil {target : Path} {files : Node Bytes} (hpattern : LiteralPattern target)
    (hnone : ∀ suffix, Node.get (target.dropLast ++ [stagingName (nameOf target) suffix]) files = none) :
    staleStagingNames target files = [] := by
  refine staleStagingNames_eq_nil_iff.2 fun n hmatch => ?_
  obtain ⟨suffix, rfl⟩ := (hpattern n).1 hmatch
  exact hnone suffix

theorem syncDependency_of_clear (hroot : c.root <+: targetPath c.root dep) (hne : targetPath c.root dep ≠ [])
    (hpattern : LiteralPattern (targetPath c.root dep))
    (hfixed : flag = true → PatchesFixed c.root dep (targetPath c.root dep) w.files)
    (happliable : Appliable c.root (stagingPath (targetPath c.root dep) c.pid) flag
      (recordedPatches c.root dep w.files))
    (hplain : PlainlyStaged c dep commit flag w) (hclear : Clear (targetPath c.root dep) w.files)
    {x : Node Bytes × ℕ} (hx : freshFor c dep commit flag w = some x) :
    ∃ w', syncDependency c dep commit flag w = (.ok (), w') :=
  syncDependency_of_ready hroot hne hfixed happliable hplain
    ⟨hclear.parent, .inl hclear.missing, staleStagingNames_eq_nil hpattern hclear.staging, hclear.staging _⟩ hx

/-- Where there is no patch directory, and the target is not on the way to it, there are no patches. -/
theorem patchesFixed_of_missing {root target p : Path} {files : Node Bytes} (hdot : dotDot ∉ patchesPath root dep)
    (hp : p <+: patchesPath root dep) (hzone : ¬ InZone target p) (hparent : ¬ p <+: target.dropLast)
    (hopen : OpenTo p files) (hnone : Node.get p files = none) : PatchesFixed root dep target files := by
  have hmissing : ∀ files', Alike target files files' → recordedPatches root dep files' = none := by
    intro files' halike
    have hkinds : ∀ q, q <+: p → Node.kindAt q files' = none ∨ Node.kindAt q files' = some .dir := by
      intro q hq
      have hq' : ¬ InZone target q := fun ⟨n, hn, hle⟩ => hzone ⟨n, hn, hle.trans hq⟩
      rcases (halike q hq').2 with hsame | ⟨-, -, hdir⟩
      · rw [hsame]
        exact hopen q hq
      · exact .inr hdir
    have hnone' : Node.get p files' = none := by
      rcases (halike p hzone).2 with hsame | ⟨hle, -, -⟩
      · exact Node.kindAt_eq_none.1 (hsame.trans (Node.kindAt_eq_none.2 hnone))
      · exact absurd hle hparent
    obtain ⟨r, hr⟩ := hp
    have hbelow : ∀ q, Node.get (p ++ q) files' = none := Node.get_append_of_none hnone'
    have hpatches : OpenTo (patchesPath root dep) files' := by
      intro q hq
      rcases List.prefix_or_prefix_of_prefix hq ⟨r, hr⟩ with hle | ⟨q', rfl⟩
      · exact hkinds q hle
      · exact .inl (Node.kindAt_eq_none.2 (hbelow q'))
    rw [recordedPatches, Option.map_eq_none_iff, ← Option.isNone_iff_eq_none, ← Option.isSome_eq_false_iff]
    exact not_pathExists hpatches hdot (hr ▸ hbelow r)
  intro files' halike
  rw [hmissing files' halike, hmissing files (alike_refl target files)]

end Synchronising

end LoggerBenchmarks.StagingRuns
