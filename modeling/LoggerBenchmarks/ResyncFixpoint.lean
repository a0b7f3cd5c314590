import LoggerBenchmarks.SyncRecovery

set_option autoImplicit false

/-!
# Synchronising twice

The result of a synchronisation is committed and the same commit is synchronised
again. The second run restores line endings by the classes of the first one's files.
-/
namespace LoggerBenchmarks.ResyncFixpoint
open PythonText PosixPaths FileTrees StatefulPrograms InsertionDict LineEndings VendorManifest VendorWorld
open EolRestoring VendorStaging StagedTree StagingRuns SyncRecovery

variable {κ γ : Type}

def terminatorClass (ts : List Terminator) : Text :=
  if ts = [] then "none".toList
  else if ∀ x ∈ ts, x = .lf then "lf".toList
  else if ∀ x ∈ ts, x = .crlf then "crlf".toList
  else "mixed".toList

/-- What `git ls-files --eol` prints for the content of a file in the index. -/
structure EolClasses (eolClass : Bytes → Text) : Prop where
  terminated : ∀ data, (0 : UInt8) ∉ data → Terminator.cr ∉ terminators data →
    eolClass data = terminatorClass (terminators data)
  loneCr : ∀ data, (0 : UInt8) ∉ data → Terminator.cr ∈ terminators data → ¬ Restored (eolClass data)

theorem terminators_eq_nil {a b : Bytes} (h : normalizeLineEndings a = normalizeLineEndings b) :
    terminators a = [] ↔ terminators b = [] := by
  have hmap := congrArg terminators h
  rw [terminators_normalize, terminators_normalize] at hmap
  rw [← List.map_eq_nil_iff (f := fun _ => Terminator.lf), hmap, List.map_eq_nil_iff]

theorem normalize_of_no_terminators {d : Bytes} (h : terminators d = []) : normalizeLineEndings d = d :=
  normalize_of_all_lf fun x hx => by
    rw [h] at hx
    cases hx

theorem restoredBytes_lf {data : Bytes} (hnul : (0 : UInt8) ∉ data) (head : Option Bytes) :
    restoredBytes "lf".toList data head = some (normalizeLineEndings data) := by
  rw [restoredBytes, if_neg hnul, if_pos (.inl rfl), convertLineEndings, if_neg (by decide), if_pos rfl]

theorem restoredBytes_crlf {data : Bytes} (hnul : (0 : UInt8) ∉ data) (head : Option Bytes) :
    restoredBytes "crlf".toList data head = some (replaceLf (normalizeLineEndings data)) := by
  rw [restoredBytes, if_neg hnul, if_pos (.inr rfl), convertLineEndings, if_pos rfl]

theorem restoredBytes_mixed {data : Bytes} (hnul : (0 : UInt8) ∉ data) (head : Option Bytes) :
    restoredBytes "mixed".toList data head =
      head.map fun bytes => if normalizeLineEndings bytes = normalizeLineEndings data then bytes else data := by
  rw [restoredBytes, if_neg hnul, if_neg (by decide), if_neg (by decide)]

/-- From the raw content the second run comes back to what the first one left, unless
that has a lone CR and is not the raw content itself. -/
theorem restoredBytes_again {eolClass : Bytes → Text} (hclass : EolClasses eolClass) {data left : Bytes}
    (hnul : (0 : UInt8) ∉ data) (hsame : normalizeLineEndings left = normalizeLineEndings data) :
    restoredBytes (eolClass left) data (some left) =
      some (if Terminator.cr ∈ terminators left then data else left) := by
  have hnul' : (0 : UInt8) ∉ left := by
    rw [← mem_normalize (b := 0) (by decide) (by decide) left, hsame]
    exact fun h => hnul ((mem_normalize (by decide) (by decide) data).1 h)
  by_cases hcr : Terminator.cr ∈ terminators left
  · rw [if_pos hcr]
    exact (restored_idle (hclass.loneCr left hnul' hcr) data (some left)).1
  · rw [if_neg hcr, hclass.terminated left hnul' hcr, terminatorClass]
    by_cases hnone : terminators left = []
    · rw [if_pos hnone]
      have hidle : ¬ Restored "none".toList := by
        rintro (h | h | h) <;> exact absurd h (by decide)
      have heq : data = left := by
        rw [← normalize_of_no_terminators hnone, hsame,
          normalize_of_no_terminators ((terminators_eq_nil hsame).1 hnone)]
      rw [(restored_idle hidle data (some left)).1, heq]
    · rw [if_neg hnone]
      by_cases hlf : ∀ x ∈ terminators left, x = .lf
      · rw [if_pos hlf, restoredBytes_lf hnul, ← hsame, normalize_of_all_lf hlf]
      · rw [if_neg hlf]
        by_cases hcrlf : ∀ x ∈ terminators left, x = .crlf
        · rw [if_pos hcrlf, restoredBytes_crlf hnul, ← hsame, replaceLf_of_all_crlf hcrlf]
        · rw [if_neg hcrlf, restoredBytes_mixed hnul, Option.map_some, if_pos hsame]

/-- Bytes of `HEAD` with a lone CR that differ from the raw content by terminators only. -/
def Trapped (eolClass : Text) (data : Bytes) (head : Option Bytes) : Prop :=
  (0 : UInt8) ∉ data ∧ eolClass = "mixed".toList ∧ ∃ bytes, head = some bytes ∧
    normalizeLineEndings bytes = normalizeLineEndings data ∧ Terminator.cr ∈ terminators bytes ∧ bytes ≠ data

/-- The first run leaves a lone CR that was not there only where it writes such bytes of `HEAD`. -/
theorem trapped_iff {eolClass : Text} {data left : Bytes} {head : Option Bytes} (hnul : (0 : UInt8) ∉ data)
    (h : restoredBytes eolClass data head = some left) :
    (Terminator.cr ∈ terminators left ∧ left ≠ data) ↔ Trapped eolClass data head := by
  constructor
  · rintro ⟨hcr, hne⟩
    by_cases hrestored : Restored eolClass
    · rcases hrestored with rfl | rfl | rfl
      · rw [restoredBytes_lf hnul] at h
        rw [← Option.some.inj h, terminators_normalize] at hcr
        obtain ⟨x, -, hx⟩ := List.mem_map.1 hcr
        cases hx
      · rw [restoredBytes_crlf hnul] at h
        rw [← Option.some.inj h, terminators_replaceLf (cr_not_mem_normalize data)] at hcr
        obtain ⟨x, -, hx⟩ := List.mem_map.1 hcr
        cases hx
      · rw [restoredBytes_mixed hnul] at h
        obtain ⟨bytes, hbytes, hleft⟩ := Option.map_eq_some_iff.1 h
        split at hleft
        · rename_i hsame
          subst hleft
          exact ⟨hnul, rfl, bytes, hbytes, hsame, hcr, hne⟩
        · exact absurd hleft.symm hne
    · rw [(restored_idle hrestored data head).1] at h
      exact absurd (Option.some.inj h).symm hne
  · rintro ⟨-, rfl, bytes, rfl, hsame, hcr, hne⟩
    rw [restoredBytes_mixed hnul, Option.map_some, if_pos hsame] at h
    rw [← Option.some.inj h]
    exact ⟨hcr, hne⟩

section Trees

variable {git : Git κ γ} {repository : γ} {dep : Dependency}

def IsFor (dep : Dependency) (p : Path) (e : Text × Text) : Prop := relativeTo (parse e.1) dep.targetDir = some p

theorem fileAt_restored {entries : List (Text × Text)} {n m : ℕ} {t t' : Node Bytes}
    (hnodup : (entries.map fun e => parse e.1).Nodup)
    (hrun : restoredTree git repository dep entries n t = some (t', m)) (p : Path) :
    ((∀ e ∈ entries, ¬ IsFor dep p e) → Node.fileAt p t' = Node.fileAt p t) ∧
      ∀ e ∈ entries, IsFor dep p e →
        (Node.fileAt p t = none → Node.fileAt p t' = none) ∧
        ∀ data, Node.fileAt p t = some data → ∃ k after,
          restoredBytes e.2 data (git.showHead k repository e.1) = some after ∧ Node.fileAt p t' = some after := by
  refine ⟨fun hno => (fileAt_kept hrun p).2.2 fun e he hfor => absurd hfor (hno e he), fun e he hfor => ⟨?_, ?_⟩⟩
  · intro hnone
    have hlines := (fileAt_kept hrun p).1
    rw [hnone, Option.map_none, Option.map_eq_none_iff] at hlines
    exact hlines
  · refine fun data hdata => fileAt_entry hrun (List.Nodup.of_map _ hnodup) he hfor (fun d hd hfor' => ?_) hdata
    exact List.inj_on_of_nodup_map hnodup hd he (relativeTo_inj hfor' hfor)

end Trees

/-- What git says, whenever it answers, about one index and one `HEAD`: each path once, and none with `..`. -/
structure Answers (git : Git κ γ) (dep : Dependency) (repository : γ) (listing : List (Text × Text))
    (head : Text → Option Bytes) : Prop where
  index : ∀ n l, git.lsFiles n repository dep.targetDir = some l → l = listing
  head : ∀ n path bytes, git.showHead n repository path = some bytes → head path = some bytes
  nodup : (listing.map fun e => parse e.1).Nodup
  plain : ∀ e ∈ listing, dotDot ∉ (parse e.1).parts

/-- The index and `HEAD` hold the files of the tree. -/
structure Committed (eolClass : Bytes → Text) (dep : Dependency) (listing : List (Text × Text))
    (head : Text → Option Bytes) (t : Node Bytes) : Prop where
  listed : ∀ p data, Node.fileAt p t = some data → ∃ e ∈ listing, IsFor dep p e
  equal : ∀ e ∈ listing, ∀ p data, IsFor dep p e → Node.fileAt p t = some data →
    e.2 = eolClass data ∧ head e.1 = some data

/-- Every export of the commit is this tree of regular files. -/
structure Upstream (git : Git κ γ) (commit : Text) (t : Node Bytes) : Prop where
  exported : ∀ cache n x, exportedTree git cache commit n = some x → x.1 = t
  regular : Node.NoLinks t

/-- No patch files are recorded, whatever the target holds. -/
def NoPatches (root : Path) (dep : Dependency) (files : Node Bytes) : Prop :=
  PatchesFixed root dep (targetPath root dep) files ∧ (recordedPatches root dep files).getD [] = []

section Runs

variable {c : Checkout κ γ} {dep : Dependency} {commit : Text} {flag : Bool} {w w' : World κ γ}
  {listing : List (Text × Text)} {head : Text → Option Bytes} {upstream : Node Bytes}

theorem eq_of_parse (h : Answers c.git dep w.repository listing head) {d e : Text × Text} (hd : d ∈ listing)
    (he : e ∈ listing) (heq : parse d.1 = parse e.1) : d = e :=
  List.inj_on_of_nodup_map h.nodup hd he heq

theorem mem_trackedEolInfo (h : Answers c.git dep w.repository listing head) (e : Text × Text) :
    e ∈ (trackedEolInfo listing).entries ↔ e ∈ listing := by
  refine ⟨mem_listing_of_mem_entries, fun he => ?_⟩
  have hmem : e ∈ listing.filter (·.1 = e.1) := List.mem_filter.2 ⟨he, by simp⟩
  obtain ⟨d, hlast⟩ : ∃ d, (listing.filter (·.1 = e.1)).getLast? = some d :=
    ⟨_, List.getLast?_eq_some_getLast (List.ne_nil_of_mem hmem)⟩
  obtain ⟨hd, hkey⟩ := List.mem_filter.1 (List.mem_of_getLast? hlast)
  obtain rfl : d = e := eq_of_parse h hd he (by rw [of_decide_eq_true hkey])
  refine (mem_entries _ d.1 d.2).2 ?_
  rw [trackedEolInfo_get?, hlast, Option.map_some]

theorem nodup_trackedEolInfo (h : Answers c.git dep w.repository listing head) :
    ((trackedEolInfo listing).entries.map fun e => parse e.1).Nodup := by
  refine List.Nodup.map_on (fun d hd e he heq => ?_) (List.Nodup.of_map _ (trackedEolInfo listing).nodup)
  exact eq_of_parse h ((mem_trackedEolInfo h d).1 hd) ((mem_trackedEolInfo h e).1 he) heq

theorem restoredBytes_answer {eolClass : Text} {data after : Bytes} {head head' : Option Bytes}
    (hanswer : ∀ bytes, head = some bytes → head' = some bytes)
    (h : restoredBytes eolClass data head = some after) : restoredBytes eolClass data head' = some after := by
  cases head with
  | some bytes => rwa [hanswer bytes rfl]
  | none =>
    unfold restoredBytes at h ⊢
    split at h
    · rename_i hnul
      rwa [if_pos hnul]
    · rename_i hnul
      rw [if_neg hnul]
      split at h
      · rename_i hconvert
        rwa [if_pos hconvert]
      · rename_i hneither
        rw [if_neg hneither]
        split at h
        · rename_i hmixed
          rwa [if_pos hmixed]
        · cases h

theorem appliedPatches_nil (hpatches : flag = true → NoPatches c.root dep w.files) :
    appliedPatches c.root dep flag w.files = [] := by
  unfold appliedPatches
  by_cases hflag : flag = true
  · rw [if_pos hflag, (hpatches hflag).2]
    rfl
  · rw [if_neg hflag]

theorem plainlyStaged (hpatches : flag = true → NoPatches c.root dep w.files)
    (hanswers : Answers c.git dep w.repository listing head) (hupstream : Upstream c.git commit upstream) :
    PlainlyStaged c dep commit flag w := by
  intro x y hx hy n l hl e he _ relative hrelative
  rw [appliedPatches_nil hpatches] at hy
  obtain rfl := Option.some.inj hy
  dsimp only
  rw [hupstream.exported _ _ _ hx]
  refine ⟨fun hm => ?_, hupstream.regular.linkFree [] relative⟩
  refine hanswers.plain e (hanswers.index n l hl ▸ he) ?_
  rw [relativeTo_parts hrelative]
  exact List.mem_append_right _ hm

theorem files_left (hpatches : flag = true → NoPatches c.root dep w.files)
    (hanswers : Answers c.git dep w.repository listing head) (hupstream : Upstream c.git commit upstream)
    (hrun : syncDependency c dep commit flag w = (.ok (), w')) :
    ∃ left, Node.get (targetPath c.root dep) w'.files = some left ∧
      ∀ p, ((∀ e ∈ listing, ¬ IsFor dep p e) → Node.fileAt p left = Node.fileAt p upstream) ∧
        ∀ e ∈ listing, IsFor dep p e →
          (Node.fileAt p upstream = none → Node.fileAt p left = none) ∧
          ∀ data, Node.fileAt p upstream = some data → ∃ after,
            restoredBytes e.2 data (head e.1) = some after ∧ Node.fileAt p left = some after := by
  obtain ⟨-, -, -, -, -, x, hx, htree⟩ :=
    syncDependency_ok (fun hflag => (hpatches hflag).1) (plainlyStaged hpatches hanswers hupstream) hrun
  refine ⟨x.1, htree, fun p => ?_⟩
  obtain ⟨y, hy, hpatched⟩ := Option.bind_eq_some_iff.1 hx
  rw [appliedPatches_nil hpatches, patchedTree, Option.bind_some, hupstream.exported _ _ _ hy, restoredStaging] at hpatched
  obtain ⟨l, hl, hrestored⟩ := Option.bind_eq_some_iff.1 hpatched
  rw [hanswers.index _ l hl] at hrestored
  obtain ⟨hkept, hdone⟩ := fileAt_restored (nodup_trackedEolInfo hanswers) hrestored p
  constructor
  · exact fun hno => hkept fun e he => hno e ((mem_trackedEolInfo hanswers e).1 he)
  · intro e he hfor
    obtain ⟨hnone, hsome⟩ := hdone e ((mem_trackedEolInfo hanswers e).2 he) hfor
    refine ⟨hnone, fun data hdata => ?_⟩
    obtain ⟨k, after, hafter, hfile⟩ := hsome data hdata
    exact ⟨after, restoredBytes_answer (hanswers.head k e.1) hafter, hfile⟩

/-- A file is left where upstream has one: restored where the index lists it, else as exported. -/
theorem fileAt_left (hpatches : flag = true → NoPatches c.root dep w.files)
    (hanswers : Answers c.git dep w.repository listing head) (hupstream : Upstream c.git commit upstream)
    (hrun : syncDependency c dep commit flag w = (.ok (), w')) {left : Node Bytes}
    (hleft : Node.get (targetPath c.root dep) w'.files = some left) (p : Path) :
    (Node.fileAt p upstream = none → Node.fileAt p left = none) ∧
      ∀ data, Node.fileAt p upstream = some data → ∃ after, Node.fileAt p left = some after ∧
        ((∀ e ∈ listing, ¬ IsFor dep p e) → after = data) ∧
        ∀ e ∈ listing, IsFor dep p e → restoredBytes e.2 data (head e.1) = some after := by
  obtain ⟨t, htree, hfiles⟩ := files_left hpatches hanswers hupstream hrun
  rw [hleft] at htree
  obtain rfl := Option.some.inj htree
  obtain ⟨hkept, hdone⟩ := hfiles p
  by_cases hlisted : ∃ e ∈ listing, IsFor dep p e
  · obtain ⟨e, he, hfor⟩ := hlisted
    obtain ⟨hnone, hsome⟩ := hdone e he hfor
    refine ⟨hnone, fun data hdata => ?_⟩
    obtain ⟨after, hafter, hfile⟩ := hsome data hdata
    refine ⟨after, hfile, fun hno => absurd hfor (hno e he), fun e' he' hfor' => ?_⟩
    obtain rfl : e' = e := eq_of_parse hanswers he' he (relativeTo_inj hfor' hfor)
    exact hafter
  · have hno : ∀ e ∈ listing, ¬ IsFor dep p e := fun e he hfor => hlisted ⟨e, he, hfor⟩
    rw [hkept hno]
    exact ⟨id, fun data hdata => ⟨data, hdata, fun _ => rfl, fun e he hfor => absurd hfor (hno e he)⟩⟩

/-- The second run leaves every file as it was, unless the first one wrote bytes of `HEAD`
with a lone CR that were not upstream's. -/
theorem resync_fixpoint_iff {eolClass : Bytes → Text} (hclass : EolClasses eolClass)
    (hupstream : Upstream c.git commit upstream) (hpatches : flag = true → NoPatches c.root dep w.files)
    (hanswers : Answers c.git dep w.repository listing head)
    (hfirst : syncDependency c dep commit flag w = (.ok (), w')) {left : Node Bytes}
    (hleft : Node.get (targetPath c.root dep) w'.files = some left) {v v' : World κ γ} {flag' : Bool} {pid' : ℕ}
    {listing' : List (Text × Text)} {head' : Text → Option Bytes}
    (hpatches' : flag' = true → NoPatches c.root dep v.files)
    (hanswers' : Answers c.git dep v.repository listing' head')
    (hcommitted : Committed eolClass dep listing' head' left)
    (hsecond : syncDependency { c with pid := pid' } dep commit flag' v = (.ok (), v')) {again : Node Bytes}
    (hagain : Node.get (targetPath c.root dep) v'.files = some again) :
    (∀ p, Node.fileAt p again = Node.fileAt p left) ↔
      ¬ ∃ e ∈ listing, ∃ p data, IsFor dep p e ∧ Node.fileAt p upstream = some data ∧
        Trapped e.2 data (head e.1) := by
  have hfirst' := fun p => fileAt_left hpatches hanswers hupstream hfirst hleft p
  have hsecond' : ∀ p data, Node.fileAt p upstream = some data → ∀ after, Node.fileAt p left = some after →
      ∃ last, Node.fileAt p again = some last ∧ restoredBytes (eolClass after) data (some after) = some last := by
    intro p data hdata after hafter
    obtain ⟨last, hlast, -, hrestored⟩ :=
      (fileAt_left (c := { c with pid := pid' }) hpatches' hanswers' hupstream hsecond hagain p).2 data hdata
    obtain ⟨e, he, hfor⟩ := hcommitted.listed p after hafter
    obtain ⟨heol, hhead⟩ := hcommitted.equal e he p after hfor hafter
    exact ⟨last, hlast, heol ▸ hhead ▸ hrestored e he hfor⟩
  constructor
  · rintro hsame ⟨e, he, p, data, hfor, hdata, htrapped⟩
    obtain ⟨after, hafter, -, hrestored⟩ := (hfirst' p).2 data hdata
    obtain ⟨hcr, hne⟩ := (trapped_iff htrapped.1 (hrestored e he hfor)).2 htrapped
    obtain ⟨last, hlast, hlater⟩ := hsecond' p data hdata after hafter
    rw [restoredBytes_again hclass htrapped.1 (restoredBytes_normalize (hrestored e he hfor)), if_pos hcr] at hlater
    have heq := hsame p
    rw [hlast, hafter, ← Option.some.inj hlater] at heq
    exact hne (Option.some.inj heq).symm
  · intro hno p
    rcases hdata : Node.fileAt p upstream with _ | data
    · rw [(hfirst' p).1 hdata]
      exact (fileAt_left (c := { c with pid := pid' }) hpatches' hanswers' hupstream hsecond hagain p).1 hdata
    · obtain ⟨after, hafter, hunlisted, hrestored⟩ := (hfirst' p).2 data hdata
      obtain ⟨last, hlast, hlater⟩ := hsecond' p data hdata after hafter
      rw [hlast, hafter]
      by_cases hnul : (0 : UInt8) ∈ data
      · have hafter_eq : after = data := by
          by_cases hlisted : ∃ e ∈ listing, IsFor dep p e
          · obtain ⟨e, he, hfor⟩ := hlisted
            have hraw := hrestored e he hfor
            rw [restoredBytes, if_pos hnul] at hraw
            exact (Option.some.inj hraw).symm
          · exact hunlisted fun e he hfor => hlisted ⟨e, he, hfor⟩
        rw [restoredBytes, if_pos hnul] at hlater
        rw [← Option.some.inj hlater, hafter_eq]
      · have hsame : normalizeLineEndings after = normalizeLineEndings data ∧
            (Terminator.cr ∈ terminators after → after = data) := by
          by_cases hlisted : ∃ e ∈ listing, IsFor dep p e
          · obtain ⟨e, he, hfor⟩ := hlisted
            refine ⟨restoredBytes_normalize (hrestored e he hfor), fun hcr => ?_⟩
            by_contra hne
            exact hno ⟨e, he, p, data, hfor, hdata, (trapped_iff hnul (hrestored e he hfor)).1 ⟨hcr, hne⟩⟩
          · obtain rfl := hunlisted fun e he hfor => hlisted ⟨e, he, hfor⟩
            exact ⟨rfl, fun _ => rfl⟩
        rw [restoredBytes_again hclass hnul hsame.1] at hlater
        rw [← Option.some.inj hlater]
        split
        · rename_i hcr
          rw [hsame.2 hcr]
        · rfl

end Runs

def gitEolClass (data : Bytes) : Text :=
  if (0 : UInt8) ∈ data ∨ Terminator.cr ∈ terminators data then "-text".toList
  else terminatorClass (terminators data)

theorem eolClasses_git : EolClasses gitEolClass where
  terminated data hnul hcr := by rw [gitEolClass, if_neg (not_or.2 ⟨hnul, hcr⟩)]
  loneCr data _ hcr := by
    rw [gitEolClass, if_pos (.inr hcr)]
    rintro (h | h | h) <;> exact absurd h (by decide)

def onePath : Text := "d/a".toList

def oneEntry (index : Bytes) : List (Text × Text) := [(onePath, gitEolClass index)]

def oneHead (head : Bytes) (path : Text) : Option Bytes := if path = onePath then some head else none

def oneTree (data : Bytes) : Node Bytes := .dir [("a".toList, .file data)]

/-- The outer repository tracks the one file `d/a`: its content in the index and in `HEAD`. -/
def oneFileGit (upstream : Bytes) : Git Unit (Bytes × Bytes) :=
  { idleGit with
    tar := fun _ _ _ => (oneTree upstream, true)
    lsFiles := fun _ repository _ => some (oneEntry repository.1)
    showHead := fun _ repository => oneHead repository.2 }

def oneFileCheckout (upstream : Bytes) (pid : ℕ) : Checkout Unit (Bytes × Bytes) :=
  ⟨["r".toList], pid, oneFileGit upstream, fun _ => []⟩

def oneFileWorld (target index head : Bytes) : World Unit (Bytes × Bytes) where
  files := .dir [("r".toList, .dir [("d".toList, oneTree target)])]
  caches _ := none
  repository := (index, head)
  manifest := ⟨[], []⟩
  calls := 0
  log := []

def oneFileDependency : Dependency := ⟨"d".toList, [], [], parse "d".toList, false, none⟩

def lfContent : Bytes := [97, lf, 98, lf, 99, lf]

def mixedContent : Bytes := [97, cr, lf, 98, lf, 99, lf]

def crContent : Bytes := [97, cr, lf, 98, cr, 99, lf]

def oneFileSync (pid : ℕ) (target index head : Bytes) : Except Failure Unit × World Unit (Bytes × Bytes) :=
  syncDependency (oneFileCheckout lfContent pid) oneFileDependency [] true (oneFileWorld target index head)

theorem fileAt_oneTree {p : Path} {data data' : Bytes} (h : Node.fileAt p (oneTree data) = some data') :
    p = ["a".toList] ∧ data' = data := by
  cases p with
  | nil => cases h
  | cons n p =>
    rw [Node.fileAt_eq_some, Node.get_cons, oneTree, Node.child, List.lookup_cons] at h
    by_cases hn : n = "a".toList
    · subst hn
      rw [beq_self_eq_true] at h
      dsimp only [Option.bind_some] at h
      cases p with
      | nil =>
        cases h
        exact ⟨rfl, rfl⟩
      | cons m p => cases h
    · rw [beq_false_of_ne hn] at h
      cases h

theorem noLinks_oneTree (data : Bytes) : Node.NoLinks (oneTree data) := by
  intro p target h
  cases p with
  | nil => cases h
  | cons n p =>
    rw [Node.get_cons, oneTree, Node.child, List.lookup_cons] at h
    split at h
    · cases p with
      | nil => cases h
      | cons m p => cases h
    · cases h

theorem upstream_oneTree (upstream : Bytes) : Upstream (oneFileGit upstream) [] (oneTree upstream) where
  exported cache n x hx := by
    cases hx
    rfl
  regular := noLinks_oneTree upstream

theorem answers_oneFile (upstream target index head : Bytes) :
    Answers (oneFileGit upstream) oneFileDependency (oneFileWorld target index head).repository (oneEntry index)
      (oneHead head) where
  index _ l h := (Option.some.inj h).symm
  head _ _ _ h := h
  nodup := List.nodup_singleton _
  plain e he := by
    rw [List.mem_singleton.1 he]
    exact (by decide +kernel : dotDot ∉ (parse onePath).parts)

theorem committed_oneTree (data : Bytes) :
    Committed gitEolClass oneFileDependency (oneEntry data) (oneHead data) (oneTree data) where
  listed p data' h := by
    obtain ⟨rfl, -⟩ := fileAt_oneTree h
    exact ⟨_, List.mem_singleton_self _, (by decide +kernel : relativeTo (parse onePath) _ = _)⟩
  equal e he p data' _ h := by
    obtain ⟨-, rfl⟩ := fileAt_oneTree h
    rw [List.mem_singleton.1 he]
    exact ⟨rfl, rfl⟩

theorem noPatches_oneFile (target index head : Bytes) :
    NoPatches ["r".toList] oneFileDependency (oneFileWorld target index head).files := by
  refine ⟨patchesFixed_of_missing (p := ["r".toList, "vendor_patches".toList]) (by decide +kernel)
    (by decide +kernel) not_inZone_patches (by decide +kernel) ?_ rfl, rfl⟩
  have hparent : OpenTo ["r".toList] (oneFileWorld target index head).files := openTo_of_get rfl
  exact hparent.concat (.inl rfl)

/-- The former index has the class `mixed`, the former `HEAD` a lone CR. The second run
finds the committed class `-text` and leaves upstream's bytes. -/
theorem resync_changes :
    (oneFileSync 1 lfContent mixedContent crContent).1 = .ok () ∧
      Node.get ["r".toList, "d".toList] (oneFileSync 1 lfContent mixedContent crContent).2.files =
        some (oneTree crContent) ∧
      Committed gitEolClass oneFileDependency (oneEntry crContent) (oneHead crContent) (oneTree crContent) ∧
      (oneFileSync 2 crContent crContent crContent).1 = .ok () ∧
      Node.fileAt ["r".toList, "d".toList, "a".toList] (oneFileSync 2 crContent crContent crContent).2.files =
        some lfContent ∧ lfContent ≠ crContent :=
  ⟨by decide +kernel, rfl, committed_oneTree crContent, by decide +kernel, by decide +kernel, by decide⟩

theorem resync_fixpoint_iff_oneFile :
    (∀ p, Node.fileAt p (oneTree mixedContent) = Node.fileAt p (oneTree mixedContent)) ↔
      ¬ ∃ e ∈ oneEntry mixedContent, ∃ p data, IsFor oneFileDependency p e ∧
        Node.fileAt p (oneTree lfContent) = some data ∧ Trapped e.2 data (oneHead mixedContent e.1) := by
  have hfirst : oneFileSync 1 lfContent mixedContent mixedContent =
      (.ok (), (oneFileSync 1 lfContent mixedContent mixedContent).2) := Prod.ext (by decide +kernel) rfl
  have hsecond : oneFileSync 2 mixedContent mixedContent mixedContent =
      (.ok (), (oneFileSync 2 mixedContent mixedContent mixedContent).2) := Prod.ext (by decide +kernel) rfl
  exact resync_fixpoint_iff (c := oneFileCheckout lfContent 1) (w := oneFileWorld lfContent mixedContent mixedContent)
    (v := oneFileWorld mixedContent mixedContent mixedContent) eolClasses_git (upstream_oneTree lfContent)
    (fun _ => noPatches_oneFile _ _ _) (answers_oneFile lfContent _ _ _) hfirst rfl
    (fun _ => noPatches_oneFile _ _ _) (answers_oneFile lfContent _ _ _) (committed_oneTree mixedContent) hsecond rfl

end LoggerBenchmarks.ResyncFixpoint
