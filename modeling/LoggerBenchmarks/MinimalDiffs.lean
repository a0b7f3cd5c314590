import LoggerBenchmarks.LineEndingAlgebra
import LoggerBenchmarks.ResyncFixpoint

set_option autoImplicit false

/-!
# What restoring line endings leaves of a tree

Every file keeps its lines, and a file that differs from the committed one in its
terminators only becomes the committed one.
-/
namespace LoggerBenchmarks.MinimalDiffs
open PythonText PosixPaths FileTrees StatefulPrograms InsertionDict LineEndings VendorManifest VendorWorld
open EolRestoring VendorStaging StagedTree ResyncFixpoint LineEndingAlgebra

variable {κ γ : Type}

structure HasClass (eolClass : Text) (data : Bytes) : Prop where
  lf : eolClass = "lf".toList → lf ∈ data ∧ cr ∉ data
  crlf : eolClass = "crlf".toList → [cr, LineEndings.lf] <:+: data ∧ Paired data
  mixed : eolClass = "mixed".toList → Terminator.crlf ∈ terminators data ∧ Terminator.lf ∈ terminators data

/-- What git says, whenever it answers, about one index and one `HEAD`; no path of it has `..`. -/
structure Tells (git : Git κ γ) (dep : Dependency) (repository : γ) (listing : List (Text × Text))
    (head : Text → Option Bytes) : Prop where
  index : ∀ n l, git.lsFiles n repository dep.targetDir = some l → l = listing
  head : ∀ n path bytes, git.showHead n repository path = some bytes → head path = some bytes
  plain : ∀ e ∈ listing, dotDot ∉ (parse e.1).parts

structure CommittedAt (dep : Dependency) (listing : List (Text × Text)) (head : Text → Option Bytes) (p : Path)
    (e : Text × Text) (committed : Bytes) : Prop where
  listed : e ∈ listing
  for_file : IsFor dep p e
  unique : ∀ d ∈ listing, IsFor dep p d → d = e
  in_head : head e.1 = some committed
  class_of : HasClass e.2 committed

theorem paired_cons {b : UInt8} {t : Bytes} (h : Paired (b :: t)) (hb : b ≠ cr) : b ≠ lf ∧ Paired t := by
  refine ⟨?_, ?_, fun i hi => h.2 (i + 1) hi⟩
  · rintro rfl
    obtain ⟨j, hj, -⟩ := h.1 0 rfl
    cases hj
  · intro i hi
    obtain ⟨j, hj, hcr⟩ := h.1 (i + 1) hi
    obtain rfl : j = i := by omega
    cases j with
    | zero => exact absurd (Option.some.inj hcr) hb
    | succ j => exact ⟨j, rfl, hcr⟩

theorem paired_crlf_cons {t : Bytes} (h : Paired (cr :: lf :: t)) : Paired t := by
  constructor
  · intro i hi
    obtain ⟨j, hj, hcr⟩ := h.1 (i + 2) hi
    obtain rfl : j = i + 1 := by omega
    cases i with
    | zero => exact absurd (Option.some.inj hcr) (by decide)
    | succ i => exact ⟨i, rfl, hcr⟩
  · exact fun i hi => h.2 (i + 2) hi

theorem all_crlf_of_paired {d : Bytes} (h : Paired d) : ∀ x ∈ terminators d, x = .crlf := by
  induction d using scan_induction with
  | nil => exact fun x hx => absurd hx List.not_mem_nil
  | crlf t ih =>
    rw [terminators_crlf, List.forall_mem_cons]
    exact ⟨rfl, ih (paired_crlf_cons h)⟩
  | cons b t hb ih =>
    have hcr : b ≠ cr := by
      rintro rfl
      refine hb ⟨rfl, ?_⟩
      rw [List.head?_eq_getElem?]
      exact h.2 0 rfl
    obtain ⟨hlf, ht⟩ := paired_cons h hcr
    rw [terminators_cons hb, terminatorOf, if_neg hcr, if_neg hlf, List.nil_append]
    exact ih ht

/-- A file that differs from the committed one in its terminators only is restored to it. -/
theorem restoredBytes_committed {eolClass : Text} {data committed : Bytes} {head : Option Bytes}
    (hclass : Restored eolClass) (hof : HasClass eolClass committed) (hnul : (0 : UInt8) ∉ data)
    (hsame : normalizeLineEndings committed = normalizeLineEndings data)
    (hhead : ∀ bytes, head = some bytes → bytes = committed) {after : Bytes}
    (h : restoredBytes eolClass data head = some after) : after = committed := by
  rcases hclass with rfl | rfl | rfl
  · rw [restoredBytes_lf hnul, ← hsame, normalize_of_not_mem (hof.lf rfl).2] at h
    exact (Option.some.inj h).symm
  · rw [restoredBytes_crlf hnul, ← hsame, replaceLf_of_all_crlf (all_crlf_of_paired (hof.crlf rfl).2)] at h
    exact (Option.some.inj h).symm
  · rw [restoredBytes_mixed hnul] at h
    obtain ⟨bytes, hbytes, rfl⟩ := Option.map_eq_some_iff.1 h
    rw [hhead bytes hbytes, if_pos hsame]

theorem unique_entry {listing : List (Text × Text)} {e : Text × Text} (he : e ∈ listing)
    (hunique : ∀ d ∈ listing, d.1 = e.1 → d = e) : e ∈ (trackedEolInfo listing).entries := by
  have hmem : e ∈ listing.filter (·.1 = e.1) := List.mem_filter.2 ⟨he, decide_eq_true rfl⟩
  obtain ⟨d, hlast⟩ : ∃ d, (listing.filter (·.1 = e.1)).getLast? = some d :=
    ⟨_, List.getLast?_eq_some_getLast (List.ne_nil_of_mem hmem)⟩
  obtain ⟨hd, hkey⟩ := List.mem_filter.1 (List.mem_of_getLast? hlast)
  obtain rfl : d = e := hunique d hd (of_decide_eq_true hkey)
  refine (mem_entries _ d.1 d.2).2 ?_
  rw [trackedEolInfo_get?, hlast, Option.map_some]

/-- In a staging tree of regular files a call that completes keeps the lines of every file,
leaves files alone that are untracked, binary or of another class, and restores the committed
bytes wherever only terminators differ. -/
theorem restores_committed {c : Checkout κ γ} {dep : Dependency} {destination : Path} {w w' : World κ γ}
    {t : Node Bytes} {listing : List (Text × Text)} {head : Text → Option Bytes}
    (hget : Node.get destination w.files = some t) (hdot : dotDot ∉ destination) (hregular : Node.NoLinks t)
    (htells : Tells c.git dep w.repository listing head)
    (hrun : preserveTrackedFileFormat c dep destination w = (.ok (), w')) :
    ∃ t', Node.get destination w'.files = some t' ∧
      (∀ p, (Node.fileAt p t').map normalizeLineEndings = (Node.fileAt p t).map normalizeLineEndings) ∧
      (∀ p data, Node.fileAt p t = some data →
        (0 : UInt8) ∈ data ∨ (∀ e ∈ listing, IsFor dep p e → ¬ Restored e.2) → Node.fileAt p t' = some data) ∧
      ∀ p data e committed, Node.fileAt p t = some data → (0 : UInt8) ∉ data → Restored e.2 →
        CommittedAt dep listing head p e committed →
        normalizeLineEndings committed = normalizeLineEndings data → Node.fileAt p t' = some committed := by
  have hplain : PlainlyTracked c w.repository dep t :=
    plainlyTracked_of_regular hregular fun n l hl e he => htells.plain e (htells.index n l hl ▸ he)
  have hyields := preserve_run (I := fun _ => True) (fun _ _ _ => trivial) (fun _ _ _ _ _ _ => trivial) trivial hget
    hdot hplain
  obtain ⟨x, hx, htree, -, -⟩ := hyields.of_ok hrun
  obtain ⟨l, hl, hrestored⟩ := Option.bind_eq_some_iff.1 hx
  obtain rfl := htells.index _ l hl
  refine ⟨x.1, htree, fun p => (fileAt_kept hrestored p).1, ?_, ?_⟩
  · rintro p data hdata (hnul | hidle)
    · exact (fileAt_kept hrestored p).2.1 data hdata hnul
    · rw [(fileAt_kept hrestored p).2.2 fun e he => hidle e (mem_listing_of_mem_entries he), hdata]
  · intro p data e committed hdata hnul hclass hcommitted hsame
    have he : e ∈ (trackedEolInfo l).entries := by
      refine unique_entry hcommitted.listed fun d hd hkey => hcommitted.unique d hd ?_
      rw [IsFor, hkey]
      exact hcommitted.for_file
    obtain ⟨k, after, hafter, hfile⟩ := fileAt_entry hrestored (List.Nodup.of_map _ (trackedEolInfo l).nodup) he
      hcommitted.for_file (fun d hd => hcommitted.unique d (mem_listing_of_mem_entries hd)) hdata
    rw [hfile, restoredBytes_committed hclass hcommitted.class_of hnul hsame (fun bytes hbytes => ?_) hafter]
    exact Option.some.inj ((htells.head k e.1 bytes hbytes).symm.trans hcommitted.in_head)

def stagedWorld (staged committed : Bytes) : World Unit (Bytes × Bytes) where
  files := .dir [("r".toList, .dir [("s".toList, oneTree staged)])]
  caches _ := none
  repository := (committed, committed)
  manifest := ⟨[], []⟩
  calls := 0
  log := []

theorem tells_oneFile (upstream staged committed : Bytes) :
    Tells (oneFileGit upstream) oneFileDependency (stagedWorld staged committed).repository (oneEntry committed)
      (oneHead committed) :=
  ⟨(answers_oneFile upstream staged committed committed).index, (answers_oneFile upstream staged committed committed).head,
    (answers_oneFile upstream staged committed committed).plain⟩

theorem committedAt_mixed :
    CommittedAt oneFileDependency (oneEntry mixedContent) (oneHead mixedContent) ["a".toList]
      (onePath, gitEolClass mixedContent) mixedContent where
  listed := List.mem_singleton_self _
  for_file := (by decide +kernel : relativeTo (parse onePath) _ = _)
  unique d hd _ := List.mem_singleton.1 hd
  in_head := rfl
  class_of := by
    have hclass : gitEolClass mixedContent = "mixed".toList := by decide +kernel
    have hcrlf : gitEolClass mixedContent ≠ "crlf".toList := by decide +kernel
    exact ⟨fun h => absurd (hclass.symm.trans h) (by decide), fun h => absurd h hcrlf, fun _ => by decide +kernel⟩

theorem restores_committed_mixed : ∃ t', Node.get ["r".toList, "s".toList]
    (preserveTrackedFileFormat (oneFileCheckout [] 1) oneFileDependency ["r".toList, "s".toList]
      (stagedWorld lfContent mixedContent)).2.files = some t' ∧ Node.fileAt ["a".toList] t' = some mixedContent := by
  have hget : Node.get ["r".toList, "s".toList] (stagedWorld lfContent mixedContent).files =
      some (oneTree lfContent) := rfl
  obtain ⟨t', htree, -, -, hrestored⟩ := restores_committed (c := oneFileCheckout [] 1) hget (by decide +kernel)
    (noLinks_oneTree lfContent) (tells_oneFile [] lfContent mixedContent) (Prod.ext (by decide +kernel) rfl)
  exact ⟨t', htree, hrestored ["a".toList] lfContent _ mixedContent rfl (by decide) (.inr (.inr (by decide +kernel)))
    committedAt_mixed (by decide)⟩

end LoggerBenchmarks.MinimalDiffs
