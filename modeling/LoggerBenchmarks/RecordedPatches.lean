import LoggerBenchmarks.PatchCapture

set_option autoImplicit false

/-!
# Failed captures

What becomes of the recorded patches when one of the programs of `capture_patch`
exits with a failure status.
-/
namespace LoggerBenchmarks.RecordedPatches
open PythonText PosixPaths FileTrees StatefulPrograms LineEndings VendorManifest VendorWorld
open VendorStaging TextStreams PatchCapture

variable {κ γ : Type}

variable {patchDir : Path} {w : World κ γ}

def PatchFiles (patchDir : Path) (files : Node Bytes) : Prop :=
  ∀ n, isPatch n = true → Node.kindAt (patchDir ++ [n]) files = none ∨
    Node.kindAt (patchDir ++ [n]) files = some .file

theorem PatchFiles.congr {files files' : Node Bytes} (h : PatchFiles patchDir files)
    (hkinds : ∀ n, Node.kindAt (patchDir ++ [n]) files' = Node.kindAt (patchDir ++ [n]) files) :
    PatchFiles patchDir files' := by
  intro n hn
  rw [hkinds n]
  exact h n hn

def Unlinked (patchDir : Path) (files : Node Bytes) (done : List Name) (w : World κ γ) : Prop :=
  (∃ cs, Node.get patchDir w.files = some (.dir cs)) ∧
    ∀ n, Node.get (patchDir ++ [n]) w.files = if n ∈ done then none else Node.get (patchDir ++ [n]) files

theorem unlinked_step {files : Node Bytes} {done : List Name} {n : Name} {data : Bytes} (hn : n ∉ done)
    (hfile : Node.get (patchDir ++ [n]) files = some (.file data)) :
    Triple (Unlinked patchDir files done) (unlink (patchDir ++ [n]) : Action κ γ Unit)
      (fun _ => Unlinked patchDir files (done ++ [n])) (fun _ _ => False) := by
  rintro w ⟨⟨cs, hcs⟩, hrest⟩
  have hthere := hrest n
  rw [if_neg hn, hfile] at hthere
  rw [unlink, hthere]
  refine ⟨?_, fun m => ?_⟩
  · exact Node.kindAt_eq_dir.1 ((Node.kindAt_replace_above patchDir (List.cons_ne_nil n []) none w.files).trans
      (Node.kindAt_eq_dir.2 ⟨cs, hcs⟩))
  · by_cases hmn : m = n
    · rw [if_pos (List.mem_append_right done (List.mem_singleton.2 hmn)), hmn]
      exact Node.get_removed (List.append_ne_nil_of_right_ne_nil patchDir (List.cons_ne_nil n [])) _
    · have hkept : Node.get (patchDir ++ [m]) (Node.replace (patchDir ++ [n]) none w.files) =
          Node.get (patchDir ++ [m]) w.files := Node.get_replace_apart (Node.apart_siblings (Ne.symm hmn)) none _
      have hmem : m ∈ done ++ [n] ↔ m ∈ done := by simp [hmn]
      rw [World.edit, hkept, hrest m]
      simp only [hmem]

theorem keeps_framed_unlink (files : Node Bytes) (n : Name) :
    Keeps (Framed patchDir files) (unlink (patchDir ++ [n]) : Action κ γ Unit) := by
  intro w hw
  rw [unlink]
  have hremoved := hw.edit (List.prefix_append patchDir [n]) none (.removed (patchDir ++ [n]))
  rcases Node.get (patchDir ++ [n]) w.files with _ | x
  · exact hw
  · cases x with
    | file data => exact hremoved
    | link target => exact hremoved
    | dir cs => exact hw

/-- What the directory holds afterwards: nothing but the new patch, if one is written. -/
theorem replacePatches_run (hdir : ∃ cs, Node.get patchDir w.files = some (.dir cs))
    (hfiles : PatchFiles patchDir w.files) (stdout : Text) :
    ∃ w', replacePatches patchDir stdout w =
        (.ok (if stdout = [] then none else some (patchDir ++ [localPatch])), w') ∧
      Framed patchDir w.files w' ∧ (∃ ds, Node.get patchDir w'.files = some (.dir ds)) ∧
      ∀ n, isPatch n = true → Node.get (patchDir ++ [n]) w'.files =
        if stdout ≠ [] ∧ n = localPatch then some (.file (encodeUtf8 stdout)) else none := by
  obtain ⟨cs, hcs⟩ := hdir
  let names : List Name := (Node.names (.dir cs)).filter isPatch
  have hnodup : names.Nodup := (List.nodup_dedup _).filter _
  have hloop : Triple (Unlinked patchDir w.files []) (names.forM fun n => unlink (patchDir ++ [n]) : Action κ γ Unit)
      (fun _ => Unlinked patchDir w.files names) (fun _ _ => False) := by
    refine triple_forM (Unlinked patchDir w.files) fun done n later hsplit => ?_
    have hn : n ∉ done := by
      rw [hsplit] at hnodup
      exact fun hmem => (List.nodup_append'.1 hnodup).2.2 hmem List.mem_cons_self
    have hmem : n ∈ names := hsplit ▸ List.mem_append_right done List.mem_cons_self
    obtain ⟨hname, hpatch⟩ := List.mem_filter.1 hmem
    obtain ⟨x, hx⟩ := Option.isSome_iff_exists.1 (Node.mem_names.1 hname)
    have hget : Node.get (patchDir ++ [n]) w.files = some x := by
      rw [Node.get_append, hcs, Option.bind_some, Node.get_cons, hx]
      rfl
    have hkind := hfiles n hpatch
    unfold Node.kindAt at hkind
    rw [hget] at hkind
    cases x with
    | file data => exact unlinked_step hn hget
    | link target => simp [Node.kind] at hkind
    | dir ds => simp [Node.kind] at hkind
  have hstart : Unlinked patchDir w.files [] w := ⟨⟨cs, hcs⟩, fun n => by rw [if_neg List.not_mem_nil]⟩
  have hleft := hloop w hstart
  have hkeeps : Keeps (Framed patchDir w.files) (names.forM fun n => unlink (patchDir ++ [n]) : Action κ γ Unit) :=
    keeps_forM fun n _ => keeps_framed_unlink w.files n
  have hframe := triple_left hkeeps (s := w) fun q _ => ⟨rfl, rfl⟩
  rcases hrun : names.forM (fun n => (unlink (patchDir ++ [n]) : Action κ γ Unit)) w with ⟨e | u, w₁⟩
  · rw [hrun] at hleft
    exact hleft.elim
  rw [hrun] at hleft hframe
  obtain ⟨⟨ds, hds⟩, hrest⟩ := hleft
  have hgone : ∀ n, isPatch n = true → Node.get (patchDir ++ [n]) w₁.files = none := by
    intro n hn
    rw [hrest n]
    by_cases hmem : n ∈ names
    · rw [if_pos hmem]
    · have hname : n ∉ Node.names (.dir cs) := fun h => hmem (List.mem_filter.2 ⟨h, hn⟩)
      rw [Node.mem_names, Option.not_isSome_iff_eq_none] at hname
      rw [if_neg hmem, Node.get_append, hcs, Option.bind_some, Node.get_cons, hname, Option.bind_none]
  have hnames : ((Node.get patchDir w.files).elim [] Node.names).filter isPatch = names := by rw [hcs]; rfl
  rw [replacePatches, observe_bind, hnames, ok_bind hrun]
  by_cases hempty : stdout = []
  · subst hempty
    refine ⟨w₁, rfl, hframe, ⟨ds, hds⟩, fun n hn => ?_⟩
    rw [hgone n hn, if_neg fun h => h.1 rfl]
  · have hwrite : writeFile (patchDir ++ [localPatch]) (encodeUtf8 stdout) w₁ =
        (.ok (), w₁.edit (.created (patchDir ++ [localPatch]))
          (Node.replace (patchDir ++ [localPatch]) (some (.file (encodeUtf8 stdout))) w₁.files)) := by
      rw [writeFile, hgone localPatch (by decide +kernel)]
    rw [if_neg hempty, if_neg hempty, ok_bind hwrite]
    refine ⟨_, rfl, hframe.edit (List.prefix_append patchDir [localPatch]) _ _, ?_, fun n hn => ?_⟩
    · exact Node.kindAt_eq_dir.1 ((Node.kindAt_replace_above patchDir (List.cons_ne_nil localPatch []) _ _).trans
        (Node.kindAt_eq_dir.2 ⟨ds, hds⟩))
    · by_cases hlocal : n = localPatch
      · rw [if_pos ⟨hempty, hlocal⟩, hlocal]
        exact Node.get_replace_self hds (by rfl) _
      · rw [if_neg fun h => hlocal h.2]
        exact (Node.get_replace_apart (Node.apart_siblings (Ne.symm hlocal)) _ _).trans (hgone n hn)

variable (c : Checkout κ γ) (tools : CaptureTools) (dep : Dependency) (commit : Text) (w : World κ γ)

/-- The final `git diff` exits with a failure status after it has printed the text. -/
def DiffFails (stdout : Text) : Prop :=
  ∃ diff, (captureDiff c tools dep commit w).1 = .ok diff ∧ diff.succeeded = false ∧ diff.stdout = stdout

def CommandFails : Prop :=
  (∃ command, (captureDiff c tools dep commit w).1 = .error (.process command)) ∨
    ∃ stdout, DiffFails c tools dep commit w stdout

def SamePatches (files files' : Node Bytes) : Prop :=
  ∀ n, isPatch n = true → Node.fileAt (patchDir ++ [n]) files' = Node.fileAt (patchDir ++ [n]) files

/-- A failed command leaves the recorded patches, and `None` means that there is no difference. -/
def KeepsPatches : Prop :=
  (CommandFails c tools dep commit w →
    @SamePatches (patchesPath c.root dep) w.files (capturePatch c tools dep commit w).2.files) ∧
  ((capturePatch c tools dep commit w).1 = .ok none →
    ∃ diff, (captureDiff c tools dep commit w).1 = .ok diff ∧ diff.succeeded = true ∧ diff.stdout = [])

def AlreadyRecorded (patchDir : Path) (files : Node Bytes) (stdout : Text) : Prop :=
  stdout ≠ [] ∧ ∀ n, isPatch n = true →
    Node.fileAt (patchDir ++ [n]) files = if n = localPatch then some (encodeUtf8 stdout) else none

theorem keeps_patches_iff (hplain : LinklessGit c tools) (hfiles : PatchFiles (patchesPath c.root dep) w.files) :
    KeepsPatches c tools dep commit w ↔
      ∀ stdout, DiffFails c tools dep commit w stdout →
        AlreadyRecorded (patchesPath c.root dep) w.files stdout := by
  unfold KeepsPatches CommandFails DiffFails SamePatches
  have hleft := captureDiff_left hplain dep commit w w rfl
  rcases hrun : captureDiff c tools dep commit w with ⟨e | diff, w₁⟩
  · rw [hrun] at hleft
    rw [capturePatch, error_bind hrun]
    constructor
    · rintro - stdout ⟨diff, hdiff, -⟩
      cases hdiff
    · rintro -
      exact ⟨fun _ n _ => hleft _, fun hnone => nomatch hnone⟩
  · rw [hrun] at hleft
    obtain ⟨hbytes, hdir, hkinds⟩ := hleft
    obtain ⟨w₂, hreplace, -, -, hleft⟩ := replacePatches_run hdir (hfiles.congr fun n => hkinds _ (not_below_self _ n)) diff.stdout
    have hpatches : ∀ n, isPatch n = true → Node.fileAt (patchesPath c.root dep ++ [n]) w₂.files =
        if diff.stdout ≠ [] ∧ n = localPatch then some (encodeUtf8 diff.stdout) else none := by
      intro n hn
      unfold Node.fileAt
      rw [hleft n hn]
      split_ifs <;> rfl
    rw [capturePatch, ok_bind hrun, hreplace]
    cases hstatus : diff.succeeded with
    | true =>
      constructor
      · rintro - stdout ⟨diff', hdiff, hfail, -⟩
        cases hdiff
        rw [hstatus] at hfail
        cases hfail
      · rintro -
        constructor
        · rintro (⟨command, hcommand⟩ | ⟨stdout, diff', hdiff, hfail, -⟩)
          · cases hcommand
          · cases hdiff
            rw [hstatus] at hfail
            cases hfail
        · intro hnone
          refine ⟨diff, rfl, hstatus, ?_⟩
          by_contra hprinted
          rw [if_neg hprinted] at hnone
          cases hnone
    | false =>
      constructor
      · rintro ⟨hsame, hnothing⟩ stdout ⟨diff', hdiff, -, rfl⟩
        cases hdiff
        have hprinted : diff.stdout ≠ [] := by
          intro hempty
          obtain ⟨diff', hdiff, hsucceeded, -⟩ := hnothing (by rw [if_pos hempty])
          cases hdiff
          rw [hstatus] at hsucceeded
          cases hsucceeded
        refine ⟨hprinted, fun n hn => ?_⟩
        rw [← hsame (.inr ⟨diff.stdout, diff, rfl, hstatus, rfl⟩) n hn, hpatches n hn]
        simp [hprinted]
      · intro hrecorded
        obtain ⟨hprinted, hthere⟩ := hrecorded diff.stdout ⟨diff, rfl, hstatus, rfl⟩
        constructor
        · intro _ n hn
          rw [hpatches n hn, hthere n hn]
          simp [hprinted]
        · intro hnone
          rw [if_neg hprinted] at hnone
          cases hnone

/-- `git diff` exits with 128 and prints nothing. -/
def failingTools : CaptureTools where
  suffix := "k3v9x2qa".toList
  git _ _ t := (t, true)
  diff _ _ := ([], false)

def captureCheckout : Checkout Unit Unit where
  root := ["r".toList]
  pid := 1
  git := idleGit
  dumps _ := []

def captureDependency : Dependency := ⟨"d".toList, [], [], parse "d".toList, false, none⟩

def captureWorld : World Unit Unit where
  files := .dir [("r".toList, .dir [("d".toList, .dir [("a".toList, .file [120, 10])]),
    ("vendor_patches".toList, .dir [("d".toList, .dir [("0001-local.patch".toList, .file [43, 120, 10])])])])]
  caches _ := none
  repository := ()
  manifest := ⟨[], []⟩
  calls := 0
  log := []

theorem gitDirectory_nil : GitDirectory (.dir []) :=
  ⟨rfl, linkFreeUnder_of_child rfl⟩

theorem linkless_failing : LinklessGit captureCheckout failingTools :=
  ⟨fun _ _ _ _ => gitDirectory_nil, fun _ _ _ ht => ht⟩

theorem patchFiles_capture : PatchFiles (patchesPath captureCheckout.root captureDependency) captureWorld.files := by
  intro n _
  have hdir : Node.get (patchesPath captureCheckout.root captureDependency) captureWorld.files =
      some (.dir [("0001-local.patch".toList, .file [43, 120, 10])]) := rfl
  unfold Node.kindAt
  rw [Node.get_append, hdir, Option.bind_some, Node.get_cons, Node.child, List.lookup_cons]
  split
  · exact .inr rfl
  · exact .inl rfl

theorem keeps_patches_iff_failing :
    KeepsPatches captureCheckout failingTools captureDependency [] captureWorld ↔
      ∀ stdout, DiffFails captureCheckout failingTools captureDependency [] captureWorld stdout →
        AlreadyRecorded (patchesPath captureCheckout.root captureDependency) captureWorld.files stdout :=
  keeps_patches_iff _ _ _ _ _ linkless_failing patchFiles_capture

theorem patch_lost : ¬ KeepsPatches captureCheckout failingTools captureDependency [] captureWorld := by
  rintro ⟨hsame, -⟩
  have hfails : CommandFails captureCheckout failingTools captureDependency [] captureWorld := by
    exact .inr ⟨[], ⟨[], false⟩, by decide +kernel, rfl, rfl⟩
  have hafter : Node.fileAt ["r".toList, "vendor_patches".toList, "d".toList, "0001-local.patch".toList]
      (capturePatch captureCheckout failingTools captureDependency [] captureWorld).2.files = none := by
    decide +kernel
  have hkept := hsame hfails "0001-local.patch".toList (by decide +kernel)
  exact absurd (hafter.symm.trans hkept) (by decide +kernel)

end LoggerBenchmarks.RecordedPatches
