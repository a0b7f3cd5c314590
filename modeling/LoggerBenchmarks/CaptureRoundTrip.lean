import LoggerBenchmarks.CaptureRuns
import LoggerBenchmarks.HeadLookups

set_option autoImplicit false

/-!
# Capturing and synchronising

A vendored tree is captured as a patch and the dependency is synchronised from the same
manifest. The tree comes back where git's difference is text without CR and git leaves no
file of either tree aside.
-/
namespace LoggerBenchmarks.CaptureRoundTrip
open PythonText PosixPaths FileTrees GlobPatterns StatefulPrograms InsertionDict LineEndings VendorManifest
open VendorWorld EolRestoring VendorStaging VendorSync StagedTree StagingRuns TextStreams PatchCapture
open RecordedPatches ResyncFixpoint HeadLookups CaptureRuns

variable {κ γ : Type}

/-- `relative_to` in the line that is printed raises `ValueError` outside the root. -/
def captureOne (c : Checkout κ γ) (tools : CaptureTools) (dep : Dependency) : Action κ γ Unit := do
  let resolved ← resolveRef c dep []
  let patchPath ← capturePatch c tools dep resolved
  match patchPath with
  | none => pure ()
  | some path => if c.root <+: path then pure () else raise .value

def cmdCapturePatch (c : Checkout κ γ) (tools : CaptureTools) (names : List Text) (all : Bool) : Action κ γ Unit := do
  let raw ← observe World.manifest
  match selectDependencies (loadManifest raw) names all with
  | .selected dependencies => dependencies.forM (captureOne c tools)
  | _ => raise .systemExit

/-- The files of a tree after the change from one index to another. -/
def overlay (base new : Index) (t : Node Bytes) : Index := fun p =>
  if (base p).isSome || (new p).isSome then new p else Node.leafAt p t

/-- Nothing stands where a file is made, and none is made below another. -/
def Room (base new : Index) (t : Node Bytes) : Prop :=
  (∀ p, base p = none → new p ≠ none → Node.leafAt p t = none) ∧
    ∀ p q, overlay base new t p ≠ none → overlay base new t (p ++ q) ≠ none → q = []

/-- Git's difference of two indexes, and what `git apply` makes of the exact bytes. -/
structure Applies (git : Git κ γ) (base new : Index) (printed : Bytes) : Prop where
  nothing : printed = [] ↔ ∀ p, base p = new p
  fits : ∀ n t, printed ≠ [] → (∀ p, base p ≠ none → Node.leafAt p t = base p) →
    ((git.apply n (some printed) t).2 = true ↔ Room base new t)
  leaves : ∀ n t, printed ≠ [] → (∀ p, base p ≠ none → Node.leafAt p t = base p) →
    (git.apply n (some printed) t).2 = true → ∀ p, Node.leafAt p (git.apply n (some printed) t).1 = overlay base new t p

/-- The ref leads to the commit, and with the clone of then it does so again. -/
structure Pinned (c : Checkout κ γ) (dep : Dependency) (commit : Text) (base : Node Bytes) (w : World κ γ) : Prop where
  now : ∃ v, resolveRef c dep [] w = (.ok commit, v) ∧ Exports c dep commit base v
  again : ∀ v u, resolveRef c dep [] w = (.ok commit, v) → u.caches = v.caches →
    ∃ u', resolveRef c dep [] u = (.ok commit, u') ∧ Exports c dep commit base u'

/-- The index and `HEAD` of the outer repository hold the files of the tree and no others. -/
structure Tracks (git : Git κ γ) (dep : Dependency) (repository : γ) (eolClass : Bytes → Text)
    (listing : List (Text × Text)) (head : Text → Option Bytes) (vendored : Node Bytes) : Prop where
  works : Works git dep repository listing head
  nodup : (listing.map fun e => parse e.1).Nodup
  committed : Committed eolClass dep listing head vendored
  only : ∀ e ∈ listing, ∀ p, IsFor dep p e → Node.fileAt p vendored ≠ none

/-- Text that differs in line endings only, none of which is a lone CR in the committed file. -/
def DiffersInEol (raw data : Bytes) : Prop :=
  (0 : UInt8) ∉ raw ∧ normalizeLineEndings raw = normalizeLineEndings data ∧ Terminator.cr ∉ terminators data

/-- What a tree has at a path is what the vendored one has there, but for line endings. -/
def ComesBack (vendored t : Node Bytes) (p : Path) : Prop :=
  (Node.leafAt p vendored = none → Node.leafAt p t = none) ∧
    ∀ data, Node.fileAt p vendored = some data → ∃ raw, Node.leafAt p t = some (.file raw) ∧
      (raw = data ∨ DiffersInEol raw data)

/-- What git leaves aside in both trees comes back from the base alone, and nothing of it is in the way. -/
structure Restorable (ignored : Node Bytes → Path → Bool) (base vendored : Node Bytes) : Prop where
  free : ∀ p, baseIndex ignored base p = none → localIndex ignored base vendored p ≠ none → Node.leafAt p base = none
  aside : ∀ p, baseIndex ignored base p = none → localIndex ignored base vendored p = none →
    ComesBack vendored base p

/-- Something of the base is staged, and the difference is text without CR. -/
structure Capturable (ignored : Node Bytes → Path → Bool) (base vendored : Node Bytes) (printed : Bytes) : Prop where
  committable : Committable ignored base
  decoded : (decodeUtf8 printed).isSome = true
  no_cr : cr ∉ printed
  restorable : Restorable ignored base vendored

/-- Both commands end, the patch has the bytes that git printed, and the vendored tree is there again. -/
def Recreated (c : Checkout κ γ) (tools : CaptureTools) (args : SyncArgs) (dep : Dependency) (vendored : Node Bytes)
    (printed : Bytes) (w : World κ γ) : Prop :=
  ∃ w₁, cmdCapturePatch c tools args.names args.all w = (.ok (), w₁) ∧
    Node.fileAt (patchesPath c.root dep ++ [localPatch]) w₁.files = (if printed = [] then none else some printed) ∧
    ∃ w₂, cmdSync c args w₁ = (.ok (), w₂) ∧
      ∃ t, Node.get (targetPath c.root dep) w₂.files = some t ∧ ∀ p, Node.leafAt p t = Node.leafAt p vendored

/-- The vendored tree of the one selected dependency is committed, and git behaves as documented. -/
structure Setting (c : Checkout κ γ) (tools : CaptureTools) (args : SyncArgs) (dep : Dependency) (commit : Text)
    (base vendored : Node Bytes) (state : Node Bytes → Repository) (ignored : Node Bytes → Path → Bool)
    (eolClass : Bytes → Text) (printed : Bytes) (listing : List (Text × Text)) (head : Text → Option Bytes)
    (w : World κ γ) : Prop where
  classes : EolClasses eolClass
  linkless : LinklessGit c tools
  pinned : Pinned c dep commit base w
  capturing : CaptureGit tools state ignored base vendored printed
  applying : Applies c.git (baseIndex ignored base) (localIndex ignored base vendored) printed
  upstream : Plain base
  local_tree : Plain vendored
  regular : Node.NoLinks vendored
  laid : Laid c tools dep vendored w.files
  tracked : Tracks c.git dep w.repository eolClass listing head vendored
  plain : args.ref = [] ∧ args.update = false
  selected : selectDependencies (loadManifest w.manifest) args.names args.all = .selected [dep]

section Indexes

variable {ignored : Node Bytes → Path → Bool} {base vendored t : Node Bytes} {index : Index} {p : Path}
  {printed : Bytes}

theorem staged_eq (h : staged ignored index t p ≠ none) : staged ignored index t p = Node.leafAt p t := by
  unfold staged at h ⊢
  split_ifs at h ⊢ with htaken
  · rfl
  · exact absurd rfl h

/-- A path of the base index is staged again. -/
theorem localIndex_of_base (h : baseIndex ignored base p ≠ none) :
    localIndex ignored base vendored p = Node.leafAt p vendored := by
  rw [localIndex, staged, if_pos]
  rw [Option.isSome_iff_ne_none.2 h, Bool.or_true]

/-- What git takes of either tree is afterwards as in the vendored one. -/
theorem overlay_taken (h : baseIndex ignored base p ≠ none ∨ localIndex ignored base vendored p ≠ none) :
    overlay (baseIndex ignored base) (localIndex ignored base vendored) t p = Node.leafAt p vendored := by
  have htaken : ((baseIndex ignored base p).isSome || (localIndex ignored base vendored p).isSome) = true := by
    rcases h with h | h <;> rw [Option.isSome_iff_ne_none.2 h]
    · exact Bool.true_or _
    · exact Bool.or_true _
  rw [overlay, if_pos htaken]
  by_cases hbase : baseIndex ignored base p = none
  · exact staged_eq (h.resolve_left fun hne => hne hbase)
  · exact localIndex_of_base hbase

theorem overlay_aside (hbase : baseIndex ignored base p = none) (hlocal : localIndex ignored base vendored p = none) :
    overlay (baseIndex ignored base) (localIndex ignored base vendored) t p = Node.leafAt p t := by
  rw [overlay, hbase, hlocal]
  rfl

theorem ComesBack.congr {t' : Node Bytes} (h : Node.leafAt p t' = Node.leafAt p t) :
    ComesBack vendored t' p ↔ ComesBack vendored t p := by
  unfold ComesBack
  rw [h]

/-- A path with a file in the vendored tree has one in the result, and no other path has. -/
theorem room (h : Restorable ignored base vendored) :
    Room (baseIndex ignored base) (localIndex ignored base vendored) base := by
  have hdomain : ∀ p, overlay (baseIndex ignored base) (localIndex ignored base vendored) base p ≠ none →
      Node.leafAt p vendored ≠ none := by
    intro p hp
    by_cases htaken : baseIndex ignored base p ≠ none ∨ localIndex ignored base vendored p ≠ none
    · rwa [overlay_taken htaken] at hp
    · simp only [not_or, not_not] at htaken
      rw [overlay_aside htaken.1 htaken.2] at hp
      exact fun hnone => hp ((h.aside p htaken.1 htaken.2).1 hnone)
  refine ⟨h.free, fun p q hp hq => ?_⟩
  obtain ⟨x, hx⟩ := Option.ne_none_iff_exists'.1 (hdomain p hp)
  obtain ⟨y, hy⟩ := Option.ne_none_iff_exists'.1 (hdomain (p ++ q) hq)
  exact Node.leafAt_append hx hy

end Indexes

def patchesOf (printed : Bytes) : List (Option Bytes) := if printed = [] then [] else [some printed]

section Trees

variable {git : Git κ γ} {ignored : Node Bytes → Path → Bool} {base vendored : Node Bytes} {printed : Bytes}

theorem leafAt_of_baseIndex {p : Path} (h : baseIndex ignored base p ≠ none) :
    Node.leafAt p base = baseIndex ignored base p := (staged_eq h).symm

/-- The patch, where it applies, makes the overlay of the exported tree. -/
theorem patchedTree_leaves (happlies : Applies git (baseIndex ignored base) (localIndex ignored base vendored) printed)
    {n : ℕ} {y : Node Bytes × ℕ} (hy : patchedTree git (patchesOf printed) n base = some y) :
    (∀ p, baseIndex ignored base p = none → localIndex ignored base vendored p ≠ none → Node.leafAt p base = none) ∧
      ∀ p, Node.leafAt p y.1 = overlay (baseIndex ignored base) (localIndex ignored base vendored) base p := by
  unfold patchesOf at hy
  by_cases hprinted : printed = []
  · rw [if_pos hprinted] at hy
    cases hy
    have hsame := happlies.nothing.1 hprinted
    refine ⟨fun p hbase hlocal => absurd ((hsame p).symm.trans hbase) hlocal, fun p => ?_⟩
    by_cases hbase : baseIndex ignored base p = none
    · exact (overlay_aside hbase ((hsame p).symm.trans hbase)).symm
    · rw [overlay_taken (.inl hbase)]
      exact (leafAt_of_baseIndex hbase).trans ((hsame p).trans (localIndex_of_base hbase))
  · rw [if_neg hprinted, patchedTree] at hy
    split_ifs at hy with happlied
    cases hy
    have hfiles : ∀ p, baseIndex ignored base p ≠ none → Node.leafAt p base = baseIndex ignored base p :=
      fun p => leafAt_of_baseIndex
    exact ⟨((happlies.fits n base hprinted hfiles).1 happlied).1, happlies.leaves n base hprinted hfiles happlied⟩

theorem patchedTree_isSome (happlies : Applies git (baseIndex ignored base) (localIndex ignored base vendored) printed)
    (h : Restorable ignored base vendored) (n : ℕ) :
    ∃ y, patchedTree git (patchesOf printed) n base = some y := by
  unfold patchesOf
  by_cases hprinted : printed = []
  · rw [if_pos hprinted]
    exact ⟨_, rfl⟩
  · rw [if_neg hprinted, patchedTree,
      if_pos ((happlies.fits n base hprinted fun p => leafAt_of_baseIndex).2 (room h))]
    exact ⟨_, rfl⟩

/-- Where git took a path of either tree the patched tree has what the vendored one has. -/
theorem comesBack_iff {t : Node Bytes}
    (hleaves : ∀ p, Node.leafAt p t = overlay (baseIndex ignored base) (localIndex ignored base vendored) base p) :
    (∀ p, ComesBack vendored t p) ↔
      ∀ p, baseIndex ignored base p = none → localIndex ignored base vendored p = none →
        ComesBack vendored base p := by
  constructor
  · intro h p hbase hlocal
    exact (ComesBack.congr ((hleaves p).trans (overlay_aside hbase hlocal))).1 (h p)
  · intro h p
    by_cases htaken : baseIndex ignored base p ≠ none ∨ localIndex ignored base vendored p ≠ none
    · refine (ComesBack.congr ((hleaves p).trans (overlay_taken htaken))).2 ⟨id, fun data hdata => ?_⟩
      exact ⟨data, Node.leafAt_file.2 hdata, .inl rfl⟩
    · simp only [not_or, not_not] at htaken
      exact (ComesBack.congr ((hleaves p).trans (overlay_aside htaken.1 htaken.2))).2 (h p htaken.1 htaken.2)

theorem noLinks_of_comesBack (hlinks : Node.NoLinks vendored) {t : Node Bytes}
    (h : ∀ p, ComesBack vendored t p) : Node.NoLinks t := by
  rw [Node.noLinks_iff]
  intro p target hlink
  rcases hdata : Node.fileAt p vendored with _ | data
  · have hnone : Node.leafAt p vendored = none := by rw [hlinks.leafAt, hdata, Option.map_none]
    rw [(h p).1 hnone] at hlink
    cases hlink
  · obtain ⟨raw, hraw, -⟩ := (h p).2 data hdata
    rw [hlink] at hraw
    cases hraw

end Trees

section Restoring

variable {c : Checkout κ γ} {w : World κ γ} {vendored t : Node Bytes} {eolClass : Bytes → Text} {dep : Dependency}
  {listing : List (Text × Text)} {head : Text → Option Bytes}

theorem Tracks.answers (h : Tracks c.git dep w.repository eolClass listing head vendored) :
    Answers c.git dep w.repository listing head where
  index n _ hl := (Option.some.inj ((h.works.index n).symm.trans hl)).symm
  head n path _ hhead := (h.works.head n path).symm.trans hhead
  nodup := h.nodup
  plain := h.works.plain

/-- Restoring line endings completes, since every listed path is in `HEAD`. -/
theorem restoredStaging_ends (h : Tracks c.git dep w.repository eolClass listing head vendored) (n : ℕ) (t : Node Bytes) :
    ∃ x, restoredStaging c.git w.repository dep n t = some x := by
  refine Option.isSome_iff_exists.1 ((restoredStaging_isSome_iff h.works n t).2 fun e he => ?_)
  rintro ⟨-, hnone, p, -, hfor, -, -⟩
  have hmem := mem_listing_of_mem_entries he
  obtain ⟨data, hdata⟩ := Option.ne_none_iff_exists'.1 (h.only e hmem p hfor)
  rw [(h.committed.equal e hmem p data hfor hdata).2] at hnone
  cases hnone

/-- The committed bytes are restored from themselves and from a text with other line endings. -/
theorem restored_committed_iff (hclass : EolClasses eolClass) (raw data : Bytes) :
    restoredBytes (eolClass data) raw (some data) = some data ↔ raw = data ∨ DiffersInEol raw data := by
  unfold DiffersInEol
  by_cases hnul : (0 : UInt8) ∈ raw
  · rw [restoredBytes, if_pos hnul, Option.some_inj]
    exact ⟨.inl, fun h => h.resolve_right fun hdiffers => hdiffers.1 hnul⟩
  · constructor
    · intro h
      have hsame := restoredBytes_normalize h
      rw [restoredBytes_again hclass hnul hsame, Option.some_inj] at h
      by_cases hcr : Terminator.cr ∈ terminators data
      · rw [if_pos hcr] at h
        exact .inl h
      · exact .inr ⟨hnul, hsame.symm, hcr⟩
    · rintro (rfl | ⟨-, hsame, hcr⟩)
      · rw [restoredBytes_again hclass hnul rfl, ite_self]
      · rw [restoredBytes_again hclass hnul hsame.symm, if_neg hcr]

/-- What restoring leaves at a path is the vendored file exactly when the path comes back. -/
theorem leafAt_restored_iff (hclass : EolClasses eolClass)
    (h : Tracks c.git dep w.repository eolClass listing head vendored)
    (hlinks : Node.NoLinks vendored) (ht : Node.NoLinks t) {n : ℕ} {x : Node Bytes × ℕ}
    (hx : restoredStaging c.git w.repository dep n t = some x) (p : Path) :
    Node.leafAt p x.1 = Node.leafAt p vendored ↔ ComesBack vendored t p := by
  rw [restoredStaging, h.works.index, Option.bind_some] at hx
  obtain ⟨hkept, hdone⟩ := fileAt_restored (nodup_trackedEolInfo h.answers) hx p
  have hleft : Node.NoLinks x.1 := ht.congr (kindAt_restored hx)
  unfold ComesBack
  rw [hleft.leafAt, hlinks.leafAt, ht.leafAt]
  rcases hdata : Node.fileAt p vendored with _ | data
  · have hno : ∀ e ∈ (trackedEolInfo listing).entries, ¬ IsFor dep p e := fun e he hfor =>
      h.only e (mem_listing_of_mem_entries he) p hfor hdata
    rw [hkept hno]
    exact ⟨fun hnone => ⟨fun _ => hnone, fun data hdata => by cases hdata⟩, fun hback => hback.1 rfl⟩
  · obtain ⟨e, he, hfor⟩ := h.committed.listed p data hdata
    obtain ⟨heol, hhead⟩ := h.committed.equal e he p data hfor hdata
    obtain ⟨hnone, hsome⟩ := hdone e ((mem_trackedEolInfo h.answers e).2 he) hfor
    rcases hraw : Node.fileAt p t with _ | raw
    · rw [hnone hraw]
      constructor
      · intro hsame
        cases hsame
      · intro hback
        obtain ⟨raw, hfile, -⟩ := hback.2 data rfl
        cases hfile
    · obtain ⟨k, after, hafter, hfile⟩ := hsome raw hraw
      rw [h.works.head, heol, hhead] at hafter
      rw [hfile]
      constructor
      · intro hsame
        obtain rfl : after = data := Node.file.inj (Option.some.inj hsame)
        refine ⟨fun hnone => ?_, fun data' hdata' => ⟨raw, rfl, ?_⟩⟩
        · cases hnone
        · obtain rfl := Option.some.inj hdata'
          exact (restored_committed_iff hclass raw after).1 hafter
      · intro hback
        obtain ⟨raw', hraw', hrestored⟩ := hback.2 data rfl
        obtain rfl : raw = raw' := Node.file.inj (Option.some.inj hraw')
        rw [Option.some.inj (hafter.symm.trans ((restored_committed_iff hclass raw data).2 hrestored))]

end Restoring

section Afterwards

variable {c : Checkout κ γ} {tools : CaptureTools} {dep : Dependency} {vendored : Node Bytes} {stdout : Text}
  {w w₁ : World κ γ}

/-- A capture changes nothing beside the target that a synchronisation looks at. -/
theorem beside_kept (hlaid : Laid c tools dep vendored w.files)
    (hcaptured : Captured (patchesPath c.root dep) stdout w w₁) {n : Name} (hn : Reserved (targetPath c.root dep) n) :
    Node.kindAt ((targetPath c.root dep).dropLast ++ [n]) w₁.files =
      Node.kindAt ((targetPath c.root dep).dropLast ++ [n]) w.files := by
  have habove : ¬ (targetPath c.root dep).dropLast ++ [n] <+: patchesPath c.root dep := fun hle =>
    hlaid.apart.1 ⟨n, hn, hle⟩
  refine hcaptured.kinds _ habove fun hle => ?_
  rcases List.prefix_concat_iff.1 hle with heq | hparent
  · exact habove (heq ▸ List.prefix_refl _)
  · exact hlaid.apart.2 (hparent.trans (List.dropLast_prefix _))

theorem ready_captured (hvendored : Plain vendored) (hlaid : Laid c tools dep vendored w.files)
    (hcaptured : Captured (patchesPath c.root dep) stdout w w₁) : Ready (targetPath c.root dep) c.pid w₁.files := by
  have hdirectory : Node.kindAt (targetPath c.root dep) w.files = some .dir := by
    unfold Node.kindAt
    rw [hlaid.target, Option.map_some, Node.kind_of_isDirectory hvendored.1]
  have htarget := beside_kept hlaid hcaptured (n := nameOf (targetPath c.root dep)) (.inl rfl)
  rw [dropLast_append_nameOf hlaid.target_ne_nil, hdirectory] at htarget
  refine ⟨fun q hq => .inr ?_, .inr (Node.kindAt_eq_dir.1 htarget), ?_, ?_⟩
  · by_cases hpatches : q <+: patchesPath c.root dep
    · obtain ⟨cs, hcs⟩ := hcaptured.directory
      exact Node.kindAt_eq_dir.2 (Node.directory_above hpatches hcs)
    · have htop : q <+: targetPath c.root dep := hq.trans (List.dropLast_prefix _)
      rw [hcaptured.kinds q hpatches fun hle => hlaid.apart.2 (hle.trans htop)]
      obtain ⟨cs, hcs⟩ := Node.kindAt_eq_dir.1 hdirectory
      exact Node.kindAt_eq_dir.2 (Node.directory_above htop hcs)
  · refine staleStagingNames_eq_nil_iff.2 fun n hmatch => ?_
    rw [← Node.kindAt_eq_none, beside_kept hlaid hcaptured (.inr (.inl hmatch)), Node.kindAt_eq_none]
    exact staleStagingNames_eq_nil_iff.1 hlaid.stale n hmatch
  · rw [stagingPath, ← Node.kindAt_eq_none, beside_kept hlaid hcaptured (reserved_staging _ _), Node.kindAt_eq_none]
    exact hlaid.staging

theorem eq_singleton {names : List Name} {n : Name} (hnodup : names.Nodup) (h : ∀ m, m ∈ names ↔ m = n) : names = [n] := by
  have hperm : names.Perm [n] := (List.perm_ext_iff_of_nodup hnodup (List.nodup_singleton n)).2 fun m => by
    rw [h m, List.mem_singleton]
  exact List.perm_singleton.1 hperm

theorem patchNames_captured {patchDir : Path} {cs : List (Name × Node Bytes)} {files : Node Bytes}
    (hcs : Node.get patchDir files = some (.dir cs)) (hcaptured : Captured patchDir stdout w w₁)
    (hkinds : ∀ n, Node.kindAt (patchDir ++ [n]) files = Node.kindAt (patchDir ++ [n]) w₁.files) :
    patchNames (.dir cs) = if stdout = [] then [] else [localPatch] := by
  have hpatch : isPatch localPatch = true := by decide +kernel
  have hmem : ∀ n, n ∈ (Node.names (.dir cs)).filter isPatch ↔ stdout ≠ [] ∧ n = localPatch := by
    intro n
    have hthere : n ∈ Node.names (.dir cs) ↔ Node.get (patchDir ++ [n]) w₁.files ≠ none := by
      rw [Node.mem_names, Ne, ← Node.kindAt_eq_none, ← hkinds n, Node.kindAt_eq_none, Node.get_append, hcs,
        Option.bind_some, Node.get_cons]
      cases Node.child (.dir cs) n <;> simp [Node.get]
    rw [List.mem_filter, hthere]
    constructor
    · rintro ⟨hfound, hn⟩
      rw [hcaptured.patches n hn] at hfound
      by_contra hnot
      rw [if_neg hnot] at hfound
      exact hfound rfl
    · rintro ⟨hne, rfl⟩
      rw [hcaptured.patches localPatch hpatch, if_pos ⟨hne, rfl⟩]
      exact ⟨Option.some_ne_none _, hpatch⟩
  have hnodup : ((Node.names (.dir cs)).filter isPatch).Nodup := (List.nodup_dedup _).filter _
  change ((Node.names (.dir cs)).filter isPatch).insertionSort _ = _
  by_cases hempty : stdout = []
  · have hnil : (Node.names (.dir cs)).filter isPatch = [] :=
      List.eq_nil_iff_forall_not_mem.2 fun n hn => ((hmem n).1 hn).1 hempty
    rw [hnil, if_pos hempty]
    rfl
  · have hone := eq_singleton hnodup fun n => (hmem n).trans (and_iff_right hempty)
    rw [hone, if_neg hempty]
    rfl

/-- The one patch that a synchronisation finds after a capture. -/
theorem recorded_captured (hlaid : Laid c tools dep vendored w.files)
    (hcaptured : Captured (patchesPath c.root dep) stdout w w₁) {files : Node Bytes}
    (halike : Alike (targetPath c.root dep) w₁.files files) :
    recordedPatches c.root dep files = some (if stdout = [] then [] else [(localPatch, some (encodeUtf8 stdout))]) := by
  have hdot := hlaid.patches.2
  have hbelow : ∀ n, ¬ InZone (targetPath c.root dep) (patchesPath c.root dep ++ [n]) := by
    rintro n ⟨m, hm, hle⟩
    rcases List.prefix_concat_iff.1 hle with heq | habove
    · refine hlaid.apart.2 ?_
      rw [← (List.append_inj' heq rfl).1]
      exact List.dropLast_prefix _
    · exact hlaid.apart.1 ⟨m, hm, habove⟩
  have hsame : ∀ p, ¬ InZone (targetPath c.root dep) p → patchesPath c.root dep <+: p →
      Node.kindAt p files = Node.kindAt p w₁.files ∧ Node.fileAt p files = Node.fileAt p w₁.files := by
    intro p hp hle
    obtain ⟨hfile, hkind⟩ := halike p hp
    refine ⟨hkind.resolve_right fun h => ?_, hfile⟩
    exact hlaid.apart.2 (hle.trans (h.1.trans (List.dropLast_prefix _)))
  obtain ⟨cs, hcs⟩ : ∃ cs, Node.get (patchesPath c.root dep) files = some (.dir cs) := by
    refine Node.kindAt_eq_dir.1 ((hsame _ hlaid.apart.1 (List.prefix_refl _)).1.trans ?_)
    exact Node.kindAt_eq_dir.2 hcaptured.directory
  have hnames := patchNames_captured hcs hcaptured fun n => (hsame _ (hbelow n) (List.prefix_append _ _)).1
  rw [recordedPatches, stat_directory hdot hcs, Option.map_some, hnames]
  by_cases hempty : stdout = []
  · rw [if_pos hempty, if_pos hempty]
    rfl
  · rw [if_neg hempty, if_neg hempty, List.map_singleton]
    have hfile : Node.get (patchesPath c.root dep ++ [localPatch]) files = some (.file (encodeUtf8 stdout)) := by
      rw [← Node.fileAt_eq_some, (hsame _ (hbelow localPatch) (List.prefix_append _ _)).2, Node.fileAt_eq_some,
        hcaptured.patches localPatch (by decide +kernel), if_pos ⟨hempty, rfl⟩]
    have hdots : dotDot ∉ patchesPath c.root dep ++ [localPatch] := by
      intro hm
      rcases List.mem_append.1 hm with hm | hm
      · exact hdot hm
      · exact absurd (List.mem_singleton.1 hm) (by decide +kernel)
    have hget : Node.get ([] ++ (patchesPath c.root dep ++ [localPatch])) files = some (.file (encodeUtf8 stdout)) := hfile
    have hnolink : ∀ target, Node.file (encodeUtf8 stdout) ≠ .link target := by
      intro target hlink
      cases hlink
    have hstat := Node.stat_of_get hget hnolink hdots
    rw [bytesAt, hstat]

end Afterwards

section Synchronising

variable {c : Checkout κ γ} {dep : Dependency} {commit : Text} {flag : Bool} {w w' : World κ γ}

/-- A run that ends has patched the export, and leaves a tree of the same kinds. -/
theorem synced_patched (hne : targetPath c.root dep ≠ [])
    (hfixed : flag = true → PatchesFixed c.root dep (targetPath c.root dep) w.files)
    (hrun : syncDependency c dep commit flag w = (.ok (), w')) :
    ∃ x y t, exportedTree c.git (w.caches (cachePath c.root dep)) commit w.calls = some x ∧
      patchedTree c.git (appliedPatches c.root dep flag w.files) x.2 x.1 = some y ∧
      Node.get (targetPath c.root dep) w'.files = some t ∧ ∀ q, Node.kindAt q t = Node.kindAt q y.1 := by
  have hdot : dotDot ∉ targetPath c.root dep := dotDot_not_mem_resolve _
  rw [syncDependency] at hrun
  split_ifs at hrun with hroot
  · obtain ⟨_, w₁, hprepare, hreplace⟩ := bind_ok hrun
    obtain ⟨s₁, x, y, w₂, hx, hy, hstaged, hpreserve⟩ := prepareStaging_patched hdot hfixed hprepare
    have hkinds : ∀ q, Node.kindAt (stagingPath (targetPath c.root dep) c.pid ++ q) w₁.files = Node.kindAt q y.1 := by
      have hkeeps : Keeps (fun s : World κ γ => ∀ q,
          Node.kindAt (stagingPath (targetPath c.root dep) c.pid ++ q) s.files = Node.kindAt q y.1)
          (preserveTrackedFileFormat c dep (stagingPath (targetPath c.root dep) c.pid)) := by
        refine keeps_preserve (fun _ hs => hs) fun s repoPath place data after _ hfile _ hs q => ?_
        obtain ⟨-, -, -, hget⟩ := stagedFile_eq_some.1 hfile
        exact (Node.kindAt_rewrite hget after _).trans (hs q)
      have hstart : ∀ q, Node.kindAt (stagingPath (targetPath c.root dep) c.pid ++ q) w₂.files = Node.kindAt q y.1 := by
        intro q
        have htree : Node.get (stagingPath (targetPath c.root dep) c.pid) w₂.files = some y.1 := hstaged.tree
        unfold Node.kindAt
        rw [Node.get_append, htree, Option.bind_some]
      have hleft := triple_left hkeeps hstart
      rwa [hpreserve] at hleft
    obtain ⟨t, ht⟩ : ∃ t, Node.get (stagingPath (targetPath c.root dep) c.pid) w₁.files = some t := by
      have hthere := hkinds []
      rw [List.append_nil] at hthere
      rw [← Option.ne_none_iff_exists', Ne, ← Node.kindAt_eq_none, hthere]
      exact Option.some_ne_none _
    refine ⟨x, y, t, hx, hy, (replaceTarget_ok hne c.pid ht hreplace).1, fun q => ?_⟩
    rw [← hkinds q]
    unfold Node.kindAt
    rw [Node.get_append, ht, Option.bind_some]
  · cases hrun

variable {vendored base : Node Bytes} {ignored : Node Bytes → Path → Bool} {printed : Bytes} {eolClass : Bytes → Text}
  {listing : List (Text × Text)} {head : Text → Option Bytes}

/-- With the exact patch recorded, a synchronisation recreates the vendored tree exactly where it can be restored. -/
theorem synced_iff (hclass : EolClasses eolClass) (hexports : Exports c dep commit base w)
    (happlies : Applies c.git (baseIndex ignored base) (localIndex ignored base vendored) printed)
    (hlinks : Node.NoLinks vendored) (htracks : Tracks c.git dep w.repository eolClass listing head vendored)
    (hbelow : c.root <+: targetPath c.root dep ∧ c.root ≠ targetPath c.root dep)
    (hready : Ready (targetPath c.root dep) c.pid w.files)
    (hrecorded : ∀ files, Alike (targetPath c.root dep) w.files files → recordedPatches c.root dep files =
      some (if printed = [] then [] else [(localPatch, some printed)])) :
    (∃ w', syncDependency c dep commit true w = (.ok (), w') ∧
      ∃ t, Node.get (targetPath c.root dep) w'.files = some t ∧ ∀ p, Node.leafAt p t = Node.leafAt p vendored) ↔
      Restorable ignored base vendored := by
  have hfixed : PatchesFixed c.root dep (targetPath c.root dep) w.files := fun files halike =>
    (hrecorded files halike).trans (hrecorded w.files (alike_refl _ _)).symm
  have happlied : appliedPatches c.root dep true w.files = patchesOf printed := by
    rw [appliedPatches, if_pos rfl, hrecorded w.files (alike_refl _ _), patchesOf]
    by_cases hprinted : printed = []
    · rw [if_pos hprinted, if_pos hprinted]
      rfl
    · rw [if_neg hprinted, if_neg hprinted]
      rfl
  have hx := hexports w.calls
  obtain ⟨hne, hstaging⟩ := root_below_staging hbelow.1 hbelow.2 c.pid
  have hplain : ∀ y, patchedTree c.git (patchesOf printed) (w.calls + 2) base = some y → Node.NoLinks y.1 →
      PlainlyStaged c dep commit true w := by
    intro y hy hregular x' y' hx' hy'
    obtain rfl := Option.some.inj (hx.symm.trans hx')
    rw [happlied] at hy'
    obtain rfl := Option.some.inj (hy.symm.trans hy')
    exact plainlyTracked_of_regular hregular fun m l hl e he =>
      htracks.works.plain e (Option.some.inj ((htracks.works.index m).symm.trans hl) ▸ he)
  have hfresh : ∀ y, patchedTree c.git (patchesOf printed) (w.calls + 2) base = some y →
      freshFor c dep commit true w = restoredStaging c.git w.repository dep y.2 y.1 := by
    intro y hy
    rw [freshFor, freshTree, hx, Option.bind_some, happlied, hy, Option.bind_some]
  constructor
  · rintro ⟨w', hrun, t, ht, hleaves⟩
    obtain ⟨x', y, t', hx', hy, ht', hkinds⟩ := synced_patched hne (fun _ => hfixed) hrun
    obtain rfl := Option.some.inj (hx.symm.trans hx')
    obtain rfl := Option.some.inj (ht.symm.trans ht')
    rw [happlied] at hy
    have hregular : Node.NoLinks y.1 := by
      refine Node.NoLinks.congr ?_ fun q => (hkinds q).symm
      rw [Node.noLinks_iff]
      intro p target
      rw [hleaves p]
      exact Node.noLinks_iff.1 hlinks p target
    obtain ⟨-, -, -, -, -, z, hz, hleft⟩ := syncDependency_ok (fun _ => hfixed) (hplain y hy hregular) hrun
    obtain rfl := Option.some.inj (ht.symm.trans hleft)
    rw [hfresh y hy] at hz
    obtain ⟨hfree, hoverlay⟩ := patchedTree_leaves happlies hy
    refine ⟨hfree, (comesBack_iff hoverlay).1 fun p => ?_⟩
    exact (leafAt_restored_iff hclass htracks hlinks hregular hz p).1 (hleaves p)
  · intro hrestorable
    obtain ⟨y, hy⟩ := patchedTree_isSome happlies hrestorable (w.calls + 2)
    have hback := (comesBack_iff (patchedTree_leaves happlies hy).2).2 hrestorable.aside
    have hregular := noLinks_of_comesBack hlinks hback
    obtain ⟨z, hz⟩ := restoredStaging_ends htracks y.2 y.1
    obtain ⟨w', hrun⟩ := syncDependency_of_ready hbelow.1 hne (fun _ => hfixed) (fun _ _ => hstaging)
      (hplain y hy hregular) hready ((hfresh y hy).trans hz)
    obtain ⟨-, -, -, -, -, z', hz', hleft⟩ := syncDependency_ok (fun _ => hfixed) (hplain y hy hregular) hrun
    obtain rfl := Option.some.inj (((hfresh y hy).trans hz).symm.trans hz')
    exact ⟨w', hrun, z.1, hleft, fun p => (leafAt_restored_iff hclass htracks hlinks hregular hz p).2 (hback p)⟩

end Synchronising

section RoundTrip

variable {c : Checkout κ γ} {tools : CaptureTools} {args : SyncArgs} {dep : Dependency} {commit : Text}
  {base vendored : Node Bytes} {state : Node Bytes → Repository} {ignored : Node Bytes → Path → Bool}
  {eolClass : Bytes → Text} {printed : Bytes} {listing : List (Text × Text)} {head : Text → Option Bytes}
  {w v : World κ γ}

theorem readText_eq_none : readText printed = none ↔ (decodeUtf8 printed).isSome = false := by
  rw [readText, Option.map_eq_none_iff, Option.isSome_eq_false_iff, Option.isNone_iff_eq_none]

theorem normalize_eq_nil {data : Bytes} (h : normalizeLineEndings data = []) : data = [] := by
  cases data with
  | nil => rfl
  | cons b t =>
    by_cases hcrlf : b = cr ∧ t.head? = some lf
    · obtain ⟨rfl, hhead⟩ := hcrlf
      obtain ⟨s, rfl⟩ : ∃ s, t = lf :: s := by
        cases t with
        | nil => cases hhead
        | cons x s => exact ⟨s, by rw [Option.some.inj hhead]⟩
      rw [normalize_crlf] at h
      cases h
    · rw [normalize_cons hcrlf] at h
      cases h

theorem encodeUtf8_eq_nil {t : Text} : encodeUtf8 t = [] ↔ t = [] := by
  constructor
  · intro hnil
    cases t with
    | nil => rfl
    | cons x t =>
      rw [encodeUtf8_cons, List.append_eq_nil_iff, ← List.length_eq_zero_iff, String.length_utf8EncodeChar] at hnil
      exact absurd hnil.1 (Nat.ne_of_gt (Char.utf8Size_pos x))
  · rintro rfl
    rfl

/-- The patch has the bytes that git printed if and only if no terminator was rewritten. -/
theorem patch_written_iff {stdout : Text} {patchDir : Path} (hcaptured : Captured patchDir stdout w v)
    (hread : readText printed = some stdout) :
    Node.fileAt (patchDir ++ [localPatch]) v.files = (if printed = [] then none else some printed) ↔ cr ∉ printed := by
  have hlocal : isPatch localPatch = true := by decide +kernel
  have hwritten := hcaptured.patches localPatch hlocal
  have hbytes := encodeUtf8_readText hread
  by_cases hprinted : printed = []
  · have hempty : stdout = [] := by
      rw [← encodeUtf8_eq_nil, hbytes, hprinted]
      rfl
    rw [if_neg fun hne => hne.1 hempty] at hwritten
    refine iff_of_true ?_ (hprinted ▸ List.not_mem_nil)
    rw [if_pos hprinted, Node.fileAt, hwritten]
  · have hne : stdout ≠ [] := fun hempty => hprinted (normalize_eq_nil (hbytes.symm.trans (encodeUtf8_eq_nil.2 hempty)))
    rw [if_pos ⟨hne, rfl⟩, hbytes, ← Node.fileAt_eq_some] at hwritten
    rw [hwritten, if_neg hprinted, Option.some_inj]
    exact ⟨fun hsame => hsame ▸ cr_not_mem_normalize printed, normalize_of_not_mem⟩

theorem resolve_plain (hargs : args.ref = [] ∧ args.update = false) : resolveFor c args dep = resolveRef c dep [] := by
  rw [resolveFor, hargs.1, hargs.2]
  rfl

theorem resolved_same (hargs : args.ref = [] ∧ args.update = false) (hresolve : resolveRef c dep [] w = (.ok commit, v)) :
    v.files = w.files ∧ v.repository = w.repository ∧ v.manifest = w.manifest := by
  have hkept := triple_left (keeps_resolveFor (c := c) (I := fun s : World κ γ => s.files = w.files ∧
    s.repository = w.repository ∧ s.manifest = w.manifest) args dep (fun _ hs => hs) fun _ _ _ hs => hs) (s := w)
    ⟨rfl, rfl, rfl⟩
  rwa [resolve_plain hargs, hresolve] at hkept

/-- The command does what `capture_patch` does, as the patch directory is below the root. -/
theorem cmdCapturePatch_one (tools : CaptureTools) {names : List Text} {all : Bool} (hroot : c.root <+: patchesPath c.root dep)
    (hselected : selectDependencies (loadManifest w.manifest) names all = .selected [dep])
    (hresolve : resolveRef c dep [] w = (.ok commit, v)) :
    (∀ e v', capturePatch c tools dep commit v = (.error e, v') → cmdCapturePatch c tools names all w = (.error e, v')) ∧
      ∀ stdout v', capturePatch c tools dep commit v =
          (.ok (if stdout = ([] : Text) then none else some (patchesPath c.root dep ++ [localPatch])), v') →
        cmdCapturePatch c tools names all w = (.ok (), v') := by
  have hone : cmdCapturePatch c tools names all w = captureOne c tools dep w := by
    rw [cmdCapturePatch, observe_bind, hselected]
    exact forM_singleton _ _ _
  rw [hone, captureOne, ok_bind hresolve]
  refine ⟨fun e v' hrun => error_bind hrun _, fun stdout v' hrun => ?_⟩
  rw [ok_bind hrun]
  by_cases hempty : stdout = []
  · rw [if_pos hempty]
    rfl
  · rw [if_neg hempty]
    dsimp only
    rw [if_pos (hroot.trans (List.prefix_append _ _))]
    rfl

/-- What a capture writes is read back by the synchronisation after it. -/
theorem synced_after_capture {w₁ v₁ : World κ γ} (hclass : EolClasses eolClass)
    (hresolve : resolveRef c dep [] w₁ = (.ok commit, v₁)) (hexports : Exports c dep commit base v₁)
    (happlies : Applies c.git (baseIndex ignored base) (localIndex ignored base vendored) printed)
    (hvendored : Plain vendored) (hlinks : Node.NoLinks vendored)
    (htracks : Tracks c.git dep w.repository eolClass listing head vendored)
    (hargs : args.ref = [] ∧ args.update = false)
    (hselected : selectDependencies (loadManifest w.manifest) args.names args.all = .selected [dep])
    (hlaid : Laid c tools dep vendored w.files) {stdout : Text} (hread : encodeUtf8 stdout = printed)
    (hcaptured : Captured (patchesPath c.root dep) stdout w w₁) :
    (∃ w₂, cmdSync c args w₁ = (.ok (), w₂) ∧
      ∃ t, Node.get (targetPath c.root dep) w₂.files = some t ∧ ∀ p, Node.leafAt p t = Node.leafAt p vendored) ↔
      Restorable ignored base vendored := by
  obtain ⟨-, hrepository, hmanifest⟩ := hcaptured.records
  obtain ⟨hfiles, hrepository', -⟩ := resolved_same hargs hresolve
  rw [← hmanifest] at hselected
  rw [cmdSync_one hargs hselected ((congrFun (resolve_plain hargs) w₁).trans hresolve)]
  have hempty : stdout = [] ↔ printed = [] := by rw [← hread, encodeUtf8_eq_nil]
  have htracked : Tracks c.git dep v₁.repository eolClass listing head vendored := by
    rwa [hrepository', hrepository]
  refine synced_iff hclass hexports happlies hlinks htracked hlaid.below ?_ fun files halike => ?_
  · rw [hfiles]
    exact ready_captured hvendored hlaid hcaptured
  · rw [hfiles] at halike
    rw [recorded_captured hlaid hcaptured halike, hread]
    simp only [hempty]

/-- Capturing and synchronising recreates the vendored tree, with the patch exactly as git
printed it, if and only if the tree is capturable. -/
theorem recreated_iff
    (h : Setting c tools args dep commit base vendored state ignored eolClass printed listing head w) :
    Recreated c tools args dep vendored printed w ↔ Capturable ignored base vendored printed := by
  obtain ⟨hclass, hplain, hpinned, hgit, happlies, hbase, hvendored, hlinks, hlaid, htracks, hargs, hselected⟩ := h
  obtain ⟨v, hresolve, hexports⟩ := hpinned.now
  obtain ⟨hfiles, hrepository, hmanifest⟩ := resolved_same hargs hresolve
  obtain ⟨hfails, hsucceeds⟩ := cmdCapturePatch_one tools hlaid.patches.1 hselected hresolve
  rw [← hfiles] at hlaid
  rw [← hrepository] at htracks
  rw [← hmanifest] at hselected
  rcases capturePatch_ends hplain hgit hexports hbase hvendored hlinks hlaid with
    ⟨stdout, w₁, hcommit, hread, hcapture, hcaptured⟩ | ⟨hstops, e, herror⟩
  · have hcommand := hsucceeds stdout w₁ hcapture
    have hbytes := encodeUtf8_readText hread
    have hdecoded : (decodeUtf8 printed).isSome = true := by
      rw [← Bool.not_eq_false, ← readText_eq_none, hread]
      exact Option.some_ne_none _
    obtain ⟨v₁, hresolve₁, hexports₁⟩ := hpinned.again v w₁ hresolve hcaptured.records.1
    have hsynced := fun hcr : cr ∉ printed => synced_after_capture hclass hresolve₁ hexports₁ happlies hvendored hlinks htracks hargs
      hselected hlaid (hbytes.trans (normalize_of_not_mem hcr)) hcaptured
    have hwritten := patch_written_iff hcaptured hread
    constructor
    · rintro ⟨w₁', hcommand', hfile, hrest⟩
      obtain rfl : w₁ = w₁' := congrArg Prod.snd (hcommand.symm.trans hcommand')
      have hcr := hwritten.1 hfile
      exact ⟨hcommit, hdecoded, hcr, (hsynced hcr).1 hrest⟩
    · exact fun h => ⟨w₁, hcommand, hwritten.2 h.no_cr, (hsynced h.no_cr).2 h.restorable⟩
  · constructor
    · rintro ⟨w₁, hcommand, -⟩
      rw [hfails e _ (Prod.ext herror rfl)] at hcommand
      cases hcommand
    · intro h
      rcases hstops with hnothing | hunread
      · exact absurd h.committable hnothing
      · rw [readText_eq_none, h.decoded] at hunread
        cases hunread

end RoundTrip

/-- The directory `.git` with the committed tree and the index. -/
def withRepository (head index t : Node Bytes) : Node Bytes :=
  t.setChild dotGit (some (.dir [("head".toList, head), ("index".toList, index)]))

def stored (n : Name) (t : Node Bytes) : Node Bytes := (Node.get [dotGit, n] t).getD (.dir [])

def storedState (g : Node Bytes) : Repository where
  head p := (g.child "head".toList).bind (Node.leafAt p)
  index p := (g.child "index".toList).bind (Node.leafAt p)

def stagedFile (t : Node Bytes) : Node Bytes := (Node.fileAt ["a".toList] t).elim (.dir []) oneTree

/-- Git for a directory with the one file `a`. -/
def oneFileTools (printed : Bytes) : CaptureTools where
  suffix := "k3v9x2qa".toList
  git _ arguments t :=
    if arguments = ["init"].map String.toList then (withRepository (.dir []) (.dir []) t, true)
    else if arguments = ["add", "-A"].map String.toList then
      (withRepository (stored "head".toList t) (stagedFile t) t, true)
    else if arguments = ["commit", "-m", "base"].map String.toList then
      (withRepository (stored "index".toList t) (stored "index".toList t) t, true)
    else (t, true)
  diff _ _ := (printed, true)

/-- `git apply` knows one patch, which rewrites `a`. -/
def patchingGit (upstream vendored printed : Bytes) : Git Unit (Bytes × Bytes) :=
  { oneFileGit upstream with
    clone := fun _ _ => (some (), true)
    apply := fun _ patch t =>
      if patch = some printed then (Node.replace ["a".toList] (some (.file vendored)) t, true) else (t, false) }

def patchingCheckout (upstream vendored printed : Bytes) : Checkout Unit (Bytes × Bytes) :=
  ⟨["r".toList], 1, patchingGit upstream vendored printed, fun _ => []⟩

def vendoredWorld (vendored : Bytes) : World Unit (Bytes × Bytes) where
  files := .dir [("r".toList, .dir [("d".toList, oneTree vendored)])]
  caches _ := none
  repository := (vendored, vendored)
  manifest := ⟨[⟨"d".toList, [], "v1".toList, "d".toList, false, none, []⟩], []⟩
  calls := 0
  log := []

def vendoredDependency : Dependency := ⟨"d".toList, [], "v1".toList, parse "d".toList, false, none⟩

section OneFile

variable {head index t x : Node Bytes} {r : Repository} {upstream vendored printed : Bytes}

theorem noLinks_nil : Node.NoLinks (.dir [] : Node Bytes) := by
  intro p target h
  cases p <;> cases h

theorem noLinks_stagedFile (t : Node Bytes) : Node.NoLinks (stagedFile t) := by
  unfold stagedFile
  cases Node.fileAt ["a".toList] t with
  | none => exact noLinks_nil
  | some data => exact noLinks_oneTree data

theorem noLinks_stored (ht : GitDirectory t) (n : Name) : Node.NoLinks (stored n t) := by
  intro p target hlink
  rw [stored] at hlink
  rcases hget : Node.get [dotGit, n] t with _ | g
  · rw [hget] at hlink
    exact noLinks_nil p target hlink
  · rw [hget, Option.getD_some] at hlink
    refine ht.2 (n :: p) target ?_
    have happend := Node.get_append [dotGit, n] p t
    rw [hget, Option.bind_some, hlink] at happend
    exact happend

theorem gitDirectory_withRepository (ht : t.isDirectory = true) (hhead : Node.NoLinks head)
    (hindex : Node.NoLinks index) : GitDirectory (withRepository head index t) := by
  refine ⟨(Node.isDirectory_setChild _ _ _).trans ht, fun p target hlink => ?_⟩
  rw [withRepository, Node.get_cons, Node.child_setChild_self ht, Option.bind_some] at hlink
  cases p with
  | nil => cases hlink
  | cons n p =>
    rw [Node.get_cons, Node.child, List.lookup_cons] at hlink
    split at hlink
    · exact hhead p target hlink
    · rw [List.lookup_cons] at hlink
      split at hlink
      · exact hindex p target hlink
      · cases hlink

theorem linkless_oneFile : LinklessGit (patchingCheckout upstream vendored printed) (oneFileTools printed) where
  tar _ _ _ _ := ⟨rfl, linkFreeUnder_of_child rfl⟩
  git n arguments t ht := by
    unfold oneFileTools
    dsimp only
    split_ifs
    · exact gitDirectory_withRepository ht.1 noLinks_nil noLinks_nil
    · exact gitDirectory_withRepository ht.1 (noLinks_stored ht _) (noLinks_stagedFile t)
    · exact gitDirectory_withRepository ht.1 (noLinks_stored ht _) (noLinks_stored ht _)
    · exact ht

theorem around_withRepository (ht : t.isDirectory = true) (hsame : ∀ m, m ≠ dotGit → t.child m = x.child m)
    (hhead : ∀ p, Node.leafAt p head = r.head p) (hindex : ∀ p, Node.leafAt p index = r.index p) :
    Around storedState x r (withRepository head index t) := by
  refine ⟨(Node.isDirectory_setChild _ _ _).trans ht, fun m hm => ?_, _, Node.child_setChild_self ht _ _, ?_⟩
  · rw [withRepository, Node.child_setChild_ne _ hm]
    exact hsame m hm
  · obtain ⟨rhead, rindex⟩ := r
    obtain rfl := funext hhead
    obtain rfl := funext hindex
    rfl

/-- What is in `.git` is read back. -/
theorem leafAt_stored (h : Around storedState x r t) (p : Path) :
    Node.leafAt p (stored "head".toList t) = r.head p ∧ Node.leafAt p (stored "index".toList t) = r.index p := by
  obtain ⟨-, -, g, hg, rfl⟩ := h
  have hget : ∀ n, Node.get [dotGit, n] t = g.child n := by
    intro n
    rw [Node.get_cons, hg, Option.bind_some, Node.get_cons]
    cases g.child n <;> rfl
  have hread : ∀ o : Option (Node Bytes), Node.leafAt p (o.getD (.dir [])) = o.bind (Node.leafAt p) := by
    intro o
    cases o with
    | some y => rfl
    | none => cases p <;> rfl
  rw [stored, stored, hget, hget]
  exact ⟨hread _, hread _⟩

theorem stagedFile_around {data : Bytes} (h : Around storedState (oneTree data) r t) : stagedFile t = oneTree data := by
  have hchild : t.child "a".toList = some (.file data) := h.2.1 "a".toList (by decide)
  have hget : Node.fileAt ["a".toList] t = some data := by
    rw [Node.fileAt_eq_some, Node.get_cons, hchild]
    rfl
  rw [stagedFile, hget]
  rfl

theorem capturing_oneFile : CaptureGit (oneFileTools printed) storedState (fun _ _ => false) (oneTree upstream)
    (oneTree vendored) printed where
  init _ t ht := by
    refine ⟨rfl, around_withRepository ht.1 (fun _ _ => rfl) (fun p => ?_) fun p => ?_⟩ <;> cases p <;> rfl
  config n key value x r t h := by
    have hothers : ∀ arguments : List Text, arguments.head? = some "config".toList →
        (oneFileTools printed).git n arguments t = (t, true) := by
      intro arguments hhead
      have hne : ∀ s l, s ≠ "config" → arguments ≠ (s :: l).map String.toList := by
        rintro s l hs rfl
        exact hs (String.toList_inj.1 (Option.some.inj hhead))
      unfold oneFileTools
      dsimp only
      rw [if_neg (hne _ _ (by decide)), if_neg (hne _ _ (by decide)), if_neg (hne _ _ (by decide))]
    rw [hothers _ rfl]
    exact ⟨rfl, h⟩
  add n x r t hx h := by
    obtain ⟨data, rfl⟩ : ∃ data, x = oneTree data := by
      rcases hx with rfl | rfl
      · exact ⟨_, rfl⟩
      · exact ⟨_, rfl⟩
    refine ⟨rfl, around_withRepository h.1 h.2.1 (fun p => (leafAt_stored h p).1) fun p => ?_⟩
    rw [stagedFile_around h]
    rfl
  commit _ t h := by
    refine ⟨iff_of_true rfl ⟨["a".toList], nofun⟩, fun _ => ?_⟩
    exact around_withRepository h.1 h.2.1 (fun p => (leafAt_stored h p).2) fun p => (leafAt_stored h p).2
  diff _ _ _ := rfl

theorem leafAt_oneTree (data : Bytes) (p : Path) :
    Node.leafAt p (oneTree data) = if p = ["a".toList] then some (.file data) else none := by
  rw [(noLinks_oneTree data).leafAt]
  by_cases hp : p = ["a".toList]
  · subst hp
    rfl
  · rw [if_neg hp, Option.map_eq_none_iff, Option.eq_none_iff_forall_ne_some]
    exact fun data' hdata => hp (fileAt_oneTree hdata).1

theorem applied_oneFile (n : ℕ) (t : Node Bytes) :
    (patchingGit upstream vendored printed).apply n (some printed) t =
      (Node.replace ["a".toList] (some (.file vendored)) t, true) :=
  if_pos rfl

theorem overlay_oneFile (t : Node Bytes) (p : Path) :
    overlay (baseIndex (fun _ _ => false) (oneTree upstream))
        (localIndex (fun _ _ => false) (oneTree upstream) (oneTree vendored)) t p =
      if p = ["a".toList] then some (.file vendored) else Node.leafAt p t := by
  have hbase : baseIndex (fun _ _ => false) (oneTree upstream) p = _ := leafAt_oneTree upstream p
  have hlocal : localIndex (fun _ _ => false) (oneTree upstream) (oneTree vendored) p = _ := leafAt_oneTree vendored p
  rw [overlay, hbase, hlocal]
  by_cases hp : p = ["a".toList]
  · rw [if_pos hp, if_pos hp, if_pos hp]
    rfl
  · rw [if_neg hp, if_neg hp, if_neg hp]
    rfl

theorem room_oneFile {t : Node Bytes} (ht : Node.leafAt ["a".toList] t = some (.file upstream)) :
    Room (baseIndex (fun _ _ => false) (oneTree upstream))
      (localIndex (fun _ _ => false) (oneTree upstream) (oneTree vendored)) t := by
  have hthere : ∀ p, overlay (baseIndex (fun _ _ => false) (oneTree upstream))
      (localIndex (fun _ _ => false) (oneTree upstream) (oneTree vendored)) t p ≠ none → Node.leafAt p t ≠ none := by
    intro p hp
    rw [overlay_oneFile] at hp
    split_ifs at hp with hsame
    · rw [hsame, ht]
      exact Option.some_ne_none _
    · exact hp
  refine ⟨fun p hnone hnew => ?_, fun p q hp hq => ?_⟩
  · have hbase : baseIndex (fun _ _ => false) (oneTree upstream) p = _ := leafAt_oneTree upstream p
    have hlocal : localIndex (fun _ _ => false) (oneTree upstream) (oneTree vendored) p = _ := leafAt_oneTree vendored p
    rw [hbase] at hnone
    rw [hlocal] at hnew
    split_ifs at hnone hnew with hp
    exact absurd rfl hnew
  · obtain ⟨y, hy⟩ := Option.ne_none_iff_exists'.1 (hthere p hp)
    obtain ⟨z, hz⟩ := Option.ne_none_iff_exists'.1 (hthere _ hq)
    exact Node.leafAt_append hy hz

theorem applying_oneFile (hne : upstream ≠ vendored) (hprinted : printed ≠ []) :
    Applies (patchingGit upstream vendored printed) (baseIndex (fun _ _ => false) (oneTree upstream))
      (localIndex (fun _ _ => false) (oneTree upstream) (oneTree vendored)) printed := by
  have hstart : ∀ t, (∀ p, baseIndex (fun _ _ => false) (oneTree upstream) p ≠ none →
      Node.leafAt p t = baseIndex (fun _ _ => false) (oneTree upstream) p) →
      Node.leafAt ["a".toList] t = some (.file upstream) :=
    fun t ht => ht ["a".toList] (Option.some_ne_none _)
  refine ⟨iff_of_false hprinted fun hsame => ?_, fun n t _ ht => ?_, fun n t _ ht _ p => ?_⟩
  · exact hne (Node.file.inj (Option.some.inj (hsame ["a".toList])))
  · exact iff_of_true (congrArg Prod.snd (applied_oneFile n t)) (room_oneFile (hstart t ht))
  · have hfile := Node.fileAt_eq_some.1 (Node.leafAt_file.1 (hstart t ht))
    rw [overlay_oneFile, applied_oneFile, Node.leafAt_rewrite hfile]

theorem cloned_oneFile (v : World Unit (Bytes × Bytes)) :
    cloneOrSetUrl (patchingCheckout upstream vendored printed) vendoredDependency v =
      (.ok (), setCache (cachePath ["r".toList] vendoredDependency) (some ()) { v with calls := v.calls + 1 }) := by
  rw [cloneOrSetUrl, observe_bind, nextCall_bind]
  cases v.caches (cachePath (patchingCheckout upstream vendored printed).root vendoredDependency) <;> rfl

theorem resolved_oneFile (v : World Unit (Bytes × Bytes)) :
    ∃ v', resolveRef (patchingCheckout upstream vendored printed) vendoredDependency [] v = (.ok "v1".toList, v') := by
  have hcached : (setCache (cachePath ["r".toList] vendoredDependency) (some ()) { v with calls := v.calls + 1 }).caches
      (cachePath ["r".toList] vendoredDependency) = some () := by
    dsimp only [setCache]
    exact if_pos rfl
  have hfetched : ∀ v : World Unit (Bytes × Bytes), v.caches (cachePath ["r".toList] vendoredDependency) = some () →
      (fetchOrigin (patchingCheckout upstream vendored printed) vendoredDependency v).1 = .ok () := by
    intro v hv
    have hfound : v.caches (cachePath (patchingCheckout upstream vendored printed).root vendoredDependency) = some () := hv
    rw [fetchOrigin, observe_bind, nextCall_bind, hfound]
    rfl
  have hensured : (ensureRepoCache (patchingCheckout upstream vendored printed) vendoredDependency v).1 =
      .ok (some ()) := by
    rw [ensureRepoCache, ok_bind (cloned_oneFile v), ok_bind (eq_of_fst (hfetched _ hcached))]
    rfl
  rw [resolveRef, ok_bind (eq_of_fst hensured), nextCall_bind]
  exact ⟨_, rfl⟩

theorem pinned_oneFile (w : World Unit (Bytes × Bytes)) :
    Pinned (patchingCheckout upstream vendored printed) vendoredDependency "v1".toList (oneTree upstream) w where
  now := (resolved_oneFile w).imp fun _ h => ⟨h, fun _ => rfl⟩
  again _ u _ _ := (resolved_oneFile u).imp fun _ h => ⟨h, fun _ => rfl⟩

theorem vendored_paths :
    capturedPath ["r".toList] vendoredDependency = ["r".toList, "d".toList] ∧
      targetPath ["r".toList] vendoredDependency = ["r".toList, "d".toList] ∧
      patchesPath ["r".toList] vendoredDependency = ["r".toList, "vendor_patches".toList, "d".toList] ∧
      temporaryPath ["r".toList] vendoredDependency "k3v9x2qa".toList = ["r".toList, "d-capture-k3v9x2qa".toList] := by
  decide +kernel

theorem laid_oneFile : Laid (patchingCheckout upstream vendored printed) (oneFileTools printed) vendoredDependency
    (oneTree vendored) (vendoredWorld vendored).files := by
  obtain ⟨hcaptured, htarget, hpatches, htemporary⟩ := vendored_paths
  have hroot : Node.get ["r".toList] (vendoredWorld vendored).files = some (.dir [("d".toList, oneTree vendored)]) := rfl
  have hmissing : ∀ n p, n ≠ "d".toList → Node.get ("r".toList :: n :: p) (vendoredWorld vendored).files = none := by
    intro n p hn
    have hchild : Node.child (.dir [("d".toList, oneTree vendored)]) n = none := by
      rw [Node.child, List.lookup_cons, beq_false_of_ne hn]
      rfl
    rw [show "r".toList :: n :: p = ["r".toList] ++ n :: p from rfl, Node.get_append, hroot, Option.bind_some,
      Node.get_cons, hchild, Option.bind_none]
  have hnopatches : OpenTo ["r".toList, "vendor_patches".toList] (vendoredWorld vendored).files :=
    (openTo_of_get hroot).concat (.inl (Node.kindAt_eq_none.2 (hmissing _ [] (by decide))))
  refine ⟨hcaptured.trans htarget.symm, ?_, ?_, ?_, ?_, ?_, ?_, ?_, ?_, ?_, ?_⟩
  all_goals dsimp only [patchingCheckout, oneFileTools]
  · rw [htarget]
    decide
  · rw [htarget]
    rfl
  · rw [htarget]
    rfl
  · rw [htarget]
    exact hmissing (stagingName "d".toList (str 1)) [] (by decide +kernel)
  · rw [hpatches]
    decide
  · rw [hpatches]
    exact hnopatches.concat (.inl (Node.kindAt_eq_none.2 (hmissing _ ["d".toList] (by decide))))
  · rw [hpatches]
    exact fun n _ => .inl (Node.kindAt_eq_none.2 (hmissing _ ["d".toList, n] (by decide)))
  · rw [hpatches, htarget]
    refine ⟨?_, by decide⟩
    rintro ⟨n, hn, hle⟩
    refine SyncRecovery.not_inZone_patches ⟨n, hn, List.prefix_of_prefix_length_le hle ?_ (Nat.le_refl _)⟩
    exact List.prefix_append ["r".toList, "vendor_patches".toList] ["d".toList]
  · rw [htemporary]
    exact ⟨Node.kindAt_eq_dir.2 ⟨_, hroot⟩, hmissing _ [] (by decide)⟩
  · rw [hpatches, htarget, htemporary]
    decide

theorem tracked_oneFile (upstream vendored printed : Bytes) :
    Tracks (patchingGit upstream vendored printed) vendoredDependency (vendored, vendored) gitEolClass (oneEntry vendored)
      (oneHead vendored) (oneTree vendored) where
  works := ⟨fun _ => rfl, fun _ _ => rfl, fun e he => by
    rw [List.mem_singleton.1 he]
    exact (by decide +kernel : dotDot ∉ (parse onePath).parts)⟩
  nodup := List.nodup_singleton _
  committed := ⟨(committed_oneTree vendored).listed, (committed_oneTree vendored).equal⟩
  only e he p hfor := by
    rw [List.mem_singleton.1 he] at hfor
    have hp : relativeTo (parse onePath) vendoredDependency.targetDir = some ["a".toList] := by decide +kernel
    obtain rfl := Option.some.inj (hp.symm.trans hfor)
    nofun

theorem setting_oneFile (hne : upstream ≠ vendored) (hprinted : printed ≠ []) :
    Setting (patchingCheckout upstream vendored printed) (oneFileTools printed) plainArgs vendoredDependency "v1".toList
      (oneTree upstream) (oneTree vendored) storedState (fun _ _ => false) gitEolClass printed (oneEntry vendored)
      (oneHead vendored) (vendoredWorld vendored) where
  classes := eolClasses_git
  linkless := linkless_oneFile
  pinned := pinned_oneFile _
  capturing := capturing_oneFile
  applying := applying_oneFile hne hprinted
  upstream := ⟨rfl, rfl⟩
  local_tree := ⟨rfl, rfl⟩
  regular := noLinks_oneTree vendored
  laid := laid_oneFile
  tracked := tracked_oneFile upstream vendored printed
  plain := ⟨rfl, rfl⟩
  selected := rfl

end OneFile

def lineX : Bytes := [120, lf]

def lineY : Bytes := [121, lf]

def lineCrlf : Bytes := [120, cr, lf]

/-- What `git diff` prints when the line `x` of `a` becomes `y`. -/
def lineDiff : Bytes := encodeUtf8 ("diff --git a/a b/a\n".toList ++
  "index 587be6b4c3f93f93c489c0111bba5596147a26cb..975fbec8256d3e8a3797e7a3611380f27c49f4ac 100644\n".toList ++
  "--- a/a\n+++ b/a\n@@ -1 +1 @@\n-x\n+y\n".toList)

/-- What `git diff` prints when the line `x` of `a` gets a CR LF. -/
def crlfDiff : Bytes := encodeUtf8 ("diff --git a/a b/a\n".toList ++
  "index 587be6b4c3f93f93c489c0111bba5596147a26cb..db127bf6be70c2285b1d852d39387a37b01c3032 100644\n".toList ++
  "--- a/a\n+++ b/a\n@@ -1 +1 @@\n-x\n+x\r\n".toList)

theorem restorable_oneFile (upstream vendored : Bytes) :
    Restorable (fun _ _ => false) (oneTree upstream) (oneTree vendored) where
  free p hbase hlocal := hbase
  aside p hbase hlocal := ⟨fun _ => hbase, fun data hdata => by
    rw [← Node.leafAt_file] at hdata
    exact absurd (hlocal.symm.trans hdata) nofun⟩

/-- A changed line is captured, and the synchronisation puts it in again. -/
theorem recreated_iff_line :
    Recreated (patchingCheckout lineX lineY lineDiff) (oneFileTools lineDiff) plainArgs vendoredDependency
      (oneTree lineY) lineDiff (vendoredWorld lineY) := by
  have hprinted : lineDiff ≠ [] := by decide +kernel
  refine (recreated_iff (setting_oneFile (by decide) hprinted)).2 ⟨⟨["a".toList], nofun⟩, ?_, ?_, restorable_oneFile _ _⟩
  · decide +kernel
  · decide +kernel

/-- Python reads LF where git printed CR LF, so the patch is not what git printed. -/
theorem crlf_patch_rewritten :
    Setting (patchingCheckout lineX lineCrlf crlfDiff) (oneFileTools crlfDiff) plainArgs vendoredDependency "v1".toList
      (oneTree lineX) (oneTree lineCrlf) storedState (fun _ _ => false) gitEolClass crlfDiff (oneEntry lineCrlf)
      (oneHead lineCrlf) (vendoredWorld lineCrlf) ∧
    ¬ Recreated (patchingCheckout lineX lineCrlf crlfDiff) (oneFileTools crlfDiff) plainArgs vendoredDependency
      (oneTree lineCrlf) crlfDiff (vendoredWorld lineCrlf) := by
  refine ⟨setting_oneFile (by decide) (by decide +kernel), ?_⟩
  rintro ⟨w₁, hrun, hfile, -⟩
  have hwritten : Node.fileAt (patchesPath ["r".toList] vendoredDependency ++ [localPatch])
      (cmdCapturePatch (patchingCheckout lineX lineCrlf crlfDiff) (oneFileTools crlfDiff) plainArgs.names plainArgs.all
        (vendoredWorld lineCrlf)).2.files = some (normalizeLineEndings crlfDiff) := by decide +kernel
  rw [hrun] at hwritten
  exact absurd (hwritten.symm.trans hfile) (by decide +kernel)

end LoggerBenchmarks.CaptureRoundTrip
