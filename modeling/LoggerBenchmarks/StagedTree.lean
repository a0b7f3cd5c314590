import LoggerBenchmarks.VendorStaging

set_option autoImplicit false

/-!
# The tree a synchronisation builds

The content of the staging directory as a function of the commit, the recorded
patches, the index and `HEAD`: the archive, patched, with its line endings restored.
-/
namespace LoggerBenchmarks.StagedTree
open PythonText PosixPaths FileTrees GlobPatterns StatefulPrograms InsertionDict LineEndings VendorManifest
open VendorWorld EolRestoring VendorStaging

variable {κ γ : Type}

def PlainAt (dep : Dependency) (t : Node Bytes) (repoPath : Text) : Prop :=
  ∀ relative, relativeTo (parse repoPath) dep.targetDir = some relative →
    dotDot ∉ relative ∧ Node.LinkFree t [] relative

def fileIn (dep : Dependency) (t : Node Bytes) (repoPath : Text) : Option (List Name × Bytes) :=
  (relativeTo (parse repoPath) dep.targetDir).bind fun relative =>
    (Node.fileAt relative t).map fun data => (relative, data)

/-- The tree and the number of the next call; `none` where `HEAD` lacks a path. -/
def restoredTree (git : Git κ γ) (repository : γ) (dep : Dependency) :
    List (Text × Text) → ℕ → Node Bytes → Option (Node Bytes × ℕ)
  | [], n, t => some (t, n)
  | e :: es, n, t =>
    match fileIn dep t e.1 with
    | none => restoredTree git repository dep es n t
    | some (relative, data) =>
      let head := git.showHead n repository e.1
      match restoredBytes e.2 data head with
      | none => none
      | some after =>
        restoredTree git repository dep es (n + if asksHead e.2 data then 1 else 0)
          (if isWritten e.2 data head then Node.replace relative (some (.file after)) t else t)

def restoredStaging (git : Git κ γ) (repository : γ) (dep : Dependency) (n : ℕ) (t : Node Bytes) :
    Option (Node Bytes × ℕ) :=
  (git.lsFiles n repository dep.targetDir).bind fun listing =>
    restoredTree git repository dep (trackedEolInfo listing).entries (n + 1) t

def exportedTree (git : Git κ γ) (cache : Option κ) (commit : Text) (n : ℕ) : Option (Node Bytes × ℕ) :=
  let archive := git.archive n cache commit
  let extracted := git.tar (n + 1) archive.1 (.dir [])
  if archive.2 ∧ extracted.2 then some (extracted.1, n + 2) else none

def patchedTree (git : Git κ γ) : List (Option Bytes) → ℕ → Node Bytes → Option (Node Bytes × ℕ)
  | [], n, t => some (t, n)
  | patch :: patches, n, t =>
    if (git.apply n patch t).2 then patchedTree git patches (n + 1) (git.apply n patch t).1 else none

/-- The complete new tree of a dependency, built with the calls from `n` on. -/
def freshTree (git : Git κ γ) (cache : Option κ) (commit : Text) (patches : List (Option Bytes)) (repository : γ)
    (dep : Dependency) (n : ℕ) : Option (Node Bytes × ℕ) :=
  (exportedTree git cache commit n).bind fun x =>
    (patchedTree git patches x.2 x.1).bind fun y => restoredStaging git repository dep y.2 y.1

/-- The program computes the function: it ends with the tree and the number of the next
call, or it is stopped by one of the programs it starts. -/
def Yields (m : Action κ γ Unit) (w : World κ γ) (result : Option (Node Bytes × ℕ))
    (Good : Node Bytes → ℕ → World κ γ → Prop) : Prop :=
  match result with
  | none => ∃ command w', m w = (.error (.process command), w')
  | some x => ∃ w', m w = (.ok (), w') ∧ Good x.1 x.2 w'

theorem Yields.bind {m : Action κ γ Unit} {k : Unit → Action κ γ Unit} {w : World κ γ}
    {result : Option (Node Bytes × ℕ)} {next : Node Bytes × ℕ → Option (Node Bytes × ℕ)}
    {Good Good' : Node Bytes → ℕ → World κ γ → Prop} (h : Yields m w result Good)
    (hk : ∀ x w', result = some x → Good x.1 x.2 w' → Yields (k ()) w' (next x) Good') :
    Yields (m >>= k) w (result.bind next) Good' := by
  unfold Yields at h
  cases result with
  | none =>
    obtain ⟨command, w', hrun⟩ := h
    exact ⟨command, w', error_bind hrun k⟩
  | some x =>
    obtain ⟨w', hrun, hgood⟩ := h
    have hnext := hk x w' rfl hgood
    unfold Yields at hnext ⊢
    rw [Option.bind_some, ok_bind hrun k]
    exact hnext

theorem Yields.imp {m : Action κ γ Unit} {w : World κ γ} {result : Option (Node Bytes × ℕ)}
    {Good Good' : Node Bytes → ℕ → World κ γ → Prop} (h : Yields m w result Good)
    (himp : ∀ t n w', Good t n w' → Good' t n w') : Yields m w result Good' := by
  unfold Yields at h ⊢
  cases result with
  | none => exact h
  | some x =>
    obtain ⟨w', hrun, hgood⟩ := h
    exact ⟨w', hrun, himp _ _ _ hgood⟩

theorem Yields.of_ok {m : Action κ γ Unit} {w w' : World κ γ} {result : Option (Node Bytes × ℕ)}
    {Good : Node Bytes → ℕ → World κ γ → Prop} (h : Yields m w result Good) (hrun : m w = (.ok (), w')) :
    ∃ x, result = some x ∧ Good x.1 x.2 w' := by
  unfold Yields at h
  cases result with
  | none =>
    obtain ⟨command, w₁, hfail⟩ := h
    rw [hrun] at hfail
    cases hfail
  | some x =>
    obtain ⟨w₁, hok, hgood⟩ := h
    rw [hrun] at hok
    cases hok
    exact ⟨x, rfl, hgood⟩

theorem Yields.ok_iff {m : Action κ γ Unit} {w : World κ γ} {result : Option (Node Bytes × ℕ)}
    {Good : Node Bytes → ℕ → World κ γ → Prop} (h : Yields m w result Good) :
    (m w).1 = .ok () ↔ result.isSome = true := by
  unfold Yields at h
  cases result with
  | none =>
    obtain ⟨command, w', hrun⟩ := h
    simp [hrun]
  | some x =>
    obtain ⟨w', hrun, -⟩ := h
    simp [hrun]

def exported (git : Git κ γ) (cache : Option κ) (commit : Text) (destination : Path) (w : World κ γ) : World κ γ :=
  ({ w with calls := w.calls + 2 } : World κ γ).edit (.extracted destination commit)
    (Node.replace destination
      (some (git.tar (w.calls + 1) (git.archive w.calls cache commit).1 (.dir [])).1) w.files)

/-- A failing archive is reported before a failing `tar`. -/
def exportError (git : Git κ γ) (cache : Option κ) (commit : Text) (n : ℕ) : Except Failure Unit :=
  if (git.archive n cache commit).2 then
    if (git.tar (n + 1) (git.archive n cache commit).1 (.dir [])).2 then .ok () else .error (.process .tar)
  else .error (.process .archive)

theorem exportRef_run {c : Checkout κ γ} {cache : Option κ} {commit : Text} {destination : Path} {w w₁ : World κ γ}
    (hmkdirs : mkdirs destination w = (.ok (), w₁)) (hget : Node.get destination w₁.files = some (.dir [])) :
    exportRef c cache commit destination w =
      (exportError c.git cache commit w₁.calls, exported c.git cache commit destination w₁) := by
  rw [exportRef, ok_bind hmkdirs, nextCall_bind, nextCall_bind]
  have hwork : workIn destination (.extracted destination commit)
      (c.git.tar (w₁.calls + 1) (c.git.archive w₁.calls cache commit).1) { w₁ with calls := w₁.calls + 2 } =
        (.ok (c.git.tar (w₁.calls + 1) (c.git.archive w₁.calls cache commit).1 (.dir [])).2,
          exported c.git cache commit destination w₁) := by
    rw [workIn]
    dsimp only
    rw [hget]
    rfl
  rw [ok_bind hwork, exportError]
  cases (c.git.archive w₁.calls cache commit).2
  · rfl
  · cases (c.git.tar (w₁.calls + 1) (c.git.archive w₁.calls cache commit).1 (.dir [])).2 <;> rfl

section Restoring

variable {c : Checkout κ γ} {dep : Dependency} {destination : Path}

theorem stagedFile_plain {files t : Node Bytes} {repoPath : Text} (hget : Node.get destination files = some t)
    (hdot : dotDot ∉ destination) (hplain : PlainAt dep t repoPath) :
    stagedFile dep destination repoPath files = (fileIn dep t repoPath).map fun x => (destination ++ x.1, x.2) := by
  ext ⟨place, data⟩
  rw [stagedFile_eq_some, Option.map_eq_some_iff]
  constructor
  · rintro ⟨relative, hrel, hfollow, hfile⟩
    obtain ⟨hno, hfree⟩ := hplain relative hrel
    have hdots : dotDot ∉ destination ++ relative := fun hm => (List.mem_append.1 hm).elim hdot hno
    have hplace := Node.follow_linkFree (Node.LinkFree.append hget hfree) hdots hfollow
    rw [List.nil_append] at hplace
    subst hplace
    rw [Node.get_append, hget, Option.bind_some] at hfile
    refine ⟨(relative, data), ?_, rfl⟩
    rw [fileIn, hrel, Option.bind_some, Node.fileAt_eq_some.2 hfile, Option.map_some]
  · rintro ⟨⟨relative, data'⟩, hfile, heq⟩
    obtain ⟨rfl, rfl⟩ := Prod.mk.inj heq
    obtain ⟨relative', hrel, hmap⟩ := Option.bind_eq_some_iff.1 hfile
    obtain ⟨data'', hdata, heq'⟩ := Option.map_eq_some_iff.1 hmap
    obtain ⟨rfl, rfl⟩ := Prod.mk.inj heq'
    obtain ⟨hno, -⟩ := hplain _ hrel
    have hdots : dotDot ∉ destination ++ relative' := fun hm => (List.mem_append.1 hm).elim hdot hno
    have hall : Node.get ([] ++ (destination ++ relative')) files = some (.file data'') := by
      rw [List.nil_append, Node.get_append, hget, Option.bind_some]
      exact Node.fileAt_eq_some.1 hdata
    refine ⟨relative', hrel, ?_, by rw [List.nil_append] at hall; exact hall⟩
    rw [Node.follow_of_get hall (fun _ hlink => nomatch hlink) hdots, List.nil_append]

theorem fileIn_eq_some {t : Node Bytes} {repoPath : Text} {relative : List Name} {data : Bytes}
    (h : fileIn dep t repoPath = some (relative, data)) :
    relativeTo (parse repoPath) dep.targetDir = some relative ∧ Node.get relative t = some (.file data) := by
  obtain ⟨relative', hrel, hmap⟩ := Option.bind_eq_some_iff.1 h
  obtain ⟨data', hdata, heq⟩ := Option.map_eq_some_iff.1 hmap
  obtain ⟨rfl, rfl⟩ := Prod.mk.inj heq
  exact ⟨hrel, Node.fileAt_eq_some.1 hdata⟩

theorem PlainAt.congr {t t' : Node Bytes} {repoPath : Text} (h : PlainAt dep t repoPath)
    (hkinds : ∀ p, Node.kindAt p t' = Node.kindAt p t) : PlainAt dep t' repoPath :=
  fun relative hrel => ⟨(h relative hrel).1, Node.linkFree_congr hkinds (h relative hrel).2⟩

theorem get_rewritten {files t : Node Bytes} {relative : List Name} {data : Bytes}
    (hget : Node.get destination files = some t) (hfile : Node.get relative t = some (.file data)) (after : Bytes) :
    Node.get destination (Node.replace (destination ++ relative) (some (.file after)) files) =
      some (Node.replace relative (some (.file after)) t) := by
  by_cases hrel : relative = []
  · subst hrel
    rw [List.append_nil, Node.get_replace_of_get hget]
    rfl
  · exact Node.get_replace_append hget hrel _

def Restored (eolClass : Text) : Prop :=
  eolClass = "lf".toList ∨ eolClass = "crlf".toList ∨ eolClass = "mixed".toList

theorem restored_idle {eolClass : Text} (h : ¬ Restored eolClass) (data : Bytes) (head : Option Bytes) :
    restoredBytes eolClass data head = some data ∧ isWritten eolClass data head = false ∧
      asksHead eolClass data = false := by
  simp only [Restored, not_or] at h
  obtain ⟨hlf, hcrlf, hmixed⟩ := h
  have hneither : ¬ (eolClass = "lf".toList ∨ eolClass = "crlf".toList) := fun h => h.elim hlf hcrlf
  unfold restoredBytes isWritten asksHead
  rw [if_neg hneither, if_pos hmixed, if_neg hneither, if_pos hmixed]
  exact ⟨ite_self _, ite_self _, decide_eq_false fun h => hmixed h.2⟩

theorem restoreEntry_idle {e : Text × Text} (h : ¬ Restored e.2) (w : World κ γ) :
    restoreEntry c dep destination e w = (.ok (), w) := by
  rcases restoreEntry_cases c dep destination e w with ⟨-, hrun⟩ | ⟨place, data, w₁, -, rfl, hrun⟩
  · exact hrun
  · obtain ⟨hbytes, hwritten, hasks⟩ := restored_idle h data (c.git.showHead w.calls w.repository e.1)
    rw [hbytes, hwritten, hasks] at hrun
    rcases hrun with ⟨hnone, -⟩ | ⟨-, -, hrun⟩ | ⟨after, -, hyes, -⟩
    · cases hnone
    · exact hrun
    · cases hyes

theorem restoredTree_idle {git : Git κ γ} {repository : γ} {e : Text × Text} (h : ¬ Restored e.2)
    (entries : List (Text × Text)) (n : ℕ) (t : Node Bytes) :
    restoredTree git repository dep (e :: entries) n t = restoredTree git repository dep entries n t := by
  rw [restoredTree]
  rcases fileIn dep t e.1 with _ | ⟨relative, data⟩
  · rfl
  · obtain ⟨hbytes, hwritten, hasks⟩ := restored_idle h data (git.showHead n repository e.1)
    dsimp only
    rw [hbytes, hwritten, hasks]
    rfl

section Turns

variable {git : Git κ γ} {repository : γ} {e : Text × Text} {n m : ℕ} {t t' : Node Bytes}

/-- One turn gives its own file its bytes and no other file anything. -/
theorem fileAt_turn {relative : List Name} {data after : Bytes} (hfile : fileIn dep t e.1 = some (relative, data))
    (hafter : restoredBytes e.2 data (git.showHead n repository e.1) = some after) (q : Path) :
    Node.fileAt q (if isWritten e.2 data (git.showHead n repository e.1) = true then
        Node.replace relative (some (.file after)) t else t) =
      if q = relative then some after else Node.fileAt q t := by
  obtain ⟨-, hget⟩ := fileIn_eq_some hfile
  cases hw : isWritten e.2 data (git.showHead n repository e.1) with
  | true => exact Node.fileAt_rewrite hget after q
  | false =>
    rw [if_neg Bool.false_ne_true]
    by_cases hq : q = relative
    · rw [if_pos hq, hq, Node.fileAt_eq_some.2 hget, restoredBytes_of_unwritten hafter hw]
    · rw [if_neg hq]

theorem restoredTree_cons {entries : List (Text × Text)}
    (hrun : restoredTree git repository dep (e :: entries) n t = some (t', m)) :
    (fileIn dep t e.1 = none ∧ restoredTree git repository dep entries n t = some (t', m)) ∨
      ∃ relative data after n₁ t₁, fileIn dep t e.1 = some (relative, data) ∧
        restoredBytes e.2 data (git.showHead n repository e.1) = some after ∧
        (∀ q, Node.fileAt q t₁ = if q = relative then some after else Node.fileAt q t) ∧
        restoredTree git repository dep entries n₁ t₁ = some (t', m) := by
  rw [restoredTree] at hrun
  rcases hfile : fileIn dep t e.1 with _ | ⟨relative, data⟩
  · rw [hfile] at hrun
    exact .inl ⟨rfl, hrun⟩
  · rw [hfile] at hrun
    dsimp only at hrun
    rcases hafter : restoredBytes e.2 data (git.showHead n repository e.1) with _ | after
    · rw [hafter] at hrun
      cases hrun
    · rw [hafter] at hrun
      exact .inr ⟨relative, data, after, _, _, rfl, hafter, fileAt_turn hfile hafter, hrun⟩

theorem kindAt_restored {entries : List (Text × Text)}
    (hrun : restoredTree git repository dep entries n t = some (t', m)) (p : Path) :
    Node.kindAt p t' = Node.kindAt p t := by
  induction entries generalizing n t with
  | nil =>
    cases hrun
    rfl
  | cons e entries ih =>
    rw [restoredTree] at hrun
    rcases hfile : fileIn dep t e.1 with _ | ⟨relative, data⟩
    · rw [hfile] at hrun
      exact ih hrun
    · rw [hfile] at hrun
      dsimp only at hrun
      rcases hafter : restoredBytes e.2 data (git.showHead n repository e.1) with _ | after
      · rw [hafter] at hrun
        cases hrun
      · rw [hafter] at hrun
        refine (ih hrun).trans ?_
        split_ifs
        · exact Node.kindAt_rewrite (fileIn_eq_some hfile).2 after p
        · rfl

/-- What is restored has the same lines; binary files and files of other classes are left alone. -/
theorem fileAt_kept {entries : List (Text × Text)}
    (hrun : restoredTree git repository dep entries n t = some (t', m)) (p : Path) :
    (Node.fileAt p t').map normalizeLineEndings = (Node.fileAt p t).map normalizeLineEndings ∧
      (∀ data, Node.fileAt p t = some data → (0 : UInt8) ∈ data → Node.fileAt p t' = some data) ∧
      ((∀ e ∈ entries, relativeTo (parse e.1) dep.targetDir = some p → ¬ Restored e.2) →
        Node.fileAt p t' = Node.fileAt p t) := by
  induction entries generalizing n t with
  | nil =>
    cases hrun
    exact ⟨rfl, fun _ h _ => h, fun _ => rfl⟩
  | cons e entries ih =>
    rcases restoredTree_cons hrun with ⟨-, hrest⟩ | ⟨relative, data, after, n₁, t₁, hfile, hafter, hturn, hrest⟩
    · obtain ⟨hlines, hbinary, hidle⟩ := ih hrest
      exact ⟨hlines, hbinary, fun hno => hidle fun d hd => hno d (List.mem_cons_of_mem _ hd)⟩
    · obtain ⟨hlines, hbinary, hidle⟩ := ih hrest
      obtain ⟨hrelative, hget⟩ := fileIn_eq_some hfile
      rw [hturn p] at hlines hbinary hidle
      by_cases hp : p = relative
      · subst hp
        rw [if_pos rfl] at hlines hbinary hidle
        rw [Node.fileAt_eq_some.2 hget]
        refine ⟨?_, fun data' hdata hnul => ?_, fun hno => ?_⟩
        · rw [hlines, Option.map_some, Option.map_some, restoredBytes_normalize hafter]
        · obtain rfl := Option.some.inj hdata
          rw [restoredBytes, if_pos hnul] at hafter
          exact hbinary data (by rw [Option.some.inj hafter]) hnul
        · rw [hidle fun d hd => hno d (List.mem_cons_of_mem _ hd),
            ← (restored_idle (hno e List.mem_cons_self hrelative) data (git.showHead n repository e.1)).1, hafter]
      · rw [if_neg hp] at hlines hbinary hidle
        exact ⟨hlines, hbinary, fun hno => hidle fun d hd => hno d (List.mem_cons_of_mem _ hd)⟩

/-- A file with one entry is left as that entry's turn makes it. -/
theorem fileAt_entry {entries : List (Text × Text)}
    (hrun : restoredTree git repository dep entries n t = some (t', m)) (hnodup : entries.Nodup) (he : e ∈ entries)
    {p : Path} (hfor : relativeTo (parse e.1) dep.targetDir = some p)
    (hunique : ∀ d ∈ entries, relativeTo (parse d.1) dep.targetDir = some p → d = e) {data : Bytes}
    (hdata : Node.fileAt p t = some data) :
    ∃ k after, restoredBytes e.2 data (git.showHead k repository e.1) = some after ∧
      Node.fileAt p t' = some after := by
  induction entries generalizing n t with
  | nil => exact absurd he List.not_mem_nil
  | cons d entries ih =>
    obtain ⟨hd, hrest_nodup⟩ := List.nodup_cons.1 hnodup
    have hunique' : ∀ d ∈ entries, relativeTo (parse d.1) dep.targetDir = some p → d = e :=
      fun d' hd' => hunique d' (List.mem_cons_of_mem _ hd')
    rcases restoredTree_cons hrun with ⟨hnone, hrest⟩ | ⟨relative, data', after, n₁, t₁, hfile, hafter, hturn, hrest⟩
    · have hne : e ≠ d := by
        rintro rfl
        rw [fileIn, hfor, Option.bind_some, hdata] at hnone
        cases hnone
      exact ih hrest hrest_nodup ((List.mem_cons.1 he).resolve_left hne) hunique' hdata
    · obtain ⟨hrelative, hget⟩ := fileIn_eq_some hfile
      by_cases hde : d = e
      · subst hde
        obtain rfl : relative = p := Option.some.inj (hrelative.symm.trans hfor)
        obtain rfl : data = data' := Option.some.inj (hdata.symm.trans (Node.fileAt_eq_some.2 hget))
        have hkept := (fileAt_kept hrest relative).2.2 fun d' hd' hfor' => by
          rw [hunique' d' hd' hfor'] at hd'
          exact absurd hd' hd
        rw [hturn, if_pos rfl] at hkept
        exact ⟨n, after, hafter, hkept⟩
      · have hp : p ≠ relative := by
          rintro rfl
          exact hde (hunique d List.mem_cons_self hrelative)
        refine ih hrest hrest_nodup ((List.mem_cons.1 he).resolve_left (Ne.symm hde)) hunique' ?_
        rw [hturn, if_neg hp, hdata]

end Turns

section Loop

variable {I : World κ γ → Prop} (hcalls : ∀ w n, I w → I { w with calls := n })
  (hwrite : ∀ w relative data after, I w → Node.get (destination ++ relative) w.files = some (.file data) →
    I (w.edit (.rewritten (destination ++ relative) data after)
      (Node.replace (destination ++ relative) (some (.file after)) w.files)))
include hcalls hwrite

/-- The loop over the tracked paths computes `restoredTree`. -/
theorem forM_restoreEntry_run (entries : List (Text × Text)) {w : World κ γ} {t : Node Bytes} (hI : I w)
    (hget : Node.get destination w.files = some t) (hdot : dotDot ∉ destination)
    (hplain : ∀ e ∈ entries, Restored e.2 → PlainAt dep t e.1) :
    Yields (entries.forM (restoreEntry c dep destination)) w (restoredTree c.git w.repository dep entries w.calls t)
      fun t' n w' => Node.get destination w'.files = some t' ∧ w'.calls = n ∧ I w' := by
  induction entries generalizing w t with
  | nil => exact ⟨w, rfl, hget, rfl, hI⟩
  | cons e entries ih =>
    have hrest : ∀ d ∈ entries, Restored d.2 → PlainAt dep t d.1 :=
      fun d hd => hplain d (List.mem_cons_of_mem _ hd)
    by_cases hclass : Restored e.2
    · have hstaged := stagedFile_plain hget hdot (hplain e List.mem_cons_self hclass)
      unfold Yields at ih ⊢
      rw [restoredTree]
      rcases restoreEntry_cases c dep destination e w with
        ⟨hnone, hrun⟩ | ⟨place, data, w₁, hsome, rfl, hrun⟩
      · rw [hstaged, Option.map_eq_none_iff] at hnone
        rw [hnone, forM_cons_ok hrun]
        exact ih hI hget hrest
      · rw [hstaged] at hsome
        obtain ⟨⟨relative, data'⟩, hfile, heq⟩ := Option.map_eq_some_iff.1 hsome
        obtain ⟨rfl, rfl⟩ := Prod.mk.inj heq
        obtain ⟨-, hdata⟩ := fileIn_eq_some hfile
        rw [hfile]
        dsimp only
        rcases hrun with ⟨hfail, hrun⟩ | ⟨hdone, hwritten, hrun⟩ | ⟨after, hdone, hwritten, hrun⟩
        · rw [hfail]
          exact ⟨_, _, forM_cons_error hrun _⟩
        · rw [hdone, hwritten, forM_cons_ok hrun]
          exact ih (w := { w with calls := w.calls + if asksHead e.2 data' then 1 else 0 }) (hcalls w _ hI) hget hrest
        · have hthere : Node.get (destination ++ relative) w.files = some (.file data') := by
            rw [Node.get_append, hget, Option.bind_some, hdata]
          rw [hdone, hwritten, forM_cons_ok hrun]
          exact ih (w := ({ w with calls := w.calls + if asksHead e.2 data' then 1 else 0 } : World κ γ).edit _ _)
            (hwrite _ relative data' after (hcalls w _ hI) hthere) (get_rewritten hget hdata after)
            fun d hd hd' => (hrest d hd hd').congr (Node.kindAt_rewrite hdata after)
    · rw [restoredTree_idle hclass]
      unfold Yields at ih ⊢
      rw [forM_cons_ok (restoreEntry_idle hclass w)]
      exact ih hI hget hrest

omit hcalls hwrite in
/-- No link and no `..` at the paths git may list for the dependency with a class that is restored. -/
def PlainlyTracked (c : Checkout κ γ) (repository : γ) (dep : Dependency) (t : Node Bytes) : Prop :=
  ∀ n listing, c.git.lsFiles n repository dep.targetDir = some listing →
    ∀ e ∈ listing, Restored e.2 → PlainAt dep t e.1

omit hcalls hwrite in
theorem plainlyTracked_of_regular {repository : γ} {t : Node Bytes} (ht : Node.NoLinks t)
    (hpaths : ∀ n listing, c.git.lsFiles n repository dep.targetDir = some listing →
      ∀ e ∈ listing, dotDot ∉ (parse e.1).parts) : PlainlyTracked c repository dep t := by
  intro n listing hlist e he _ relative hrelative
  refine ⟨fun hm => hpaths n listing hlist e he ?_, ht.linkFree [] relative⟩
  rw [relativeTo_parts hrelative]
  exact List.mem_append_right _ hm

theorem preserve_run {w : World κ γ} {t : Node Bytes} (hI : I w) (hget : Node.get destination w.files = some t)
    (hdot : dotDot ∉ destination) (hplain : PlainlyTracked c w.repository dep t) :
    Yields (preserveTrackedFileFormat c dep destination) w (restoredStaging c.git w.repository dep w.calls t)
      fun t' n w' => Node.get destination w'.files = some t' ∧ w'.calls = n ∧ I w' := by
  unfold Yields
  rw [preserveTrackedFileFormat, nextCall_bind, observe_bind, restoredStaging]
  cases hlist : c.git.lsFiles w.calls w.repository dep.targetDir with
  | none => exact ⟨_, _, rfl⟩
  | some listing =>
    have hentries : ∀ e ∈ (trackedEolInfo listing).entries, Restored e.2 → PlainAt dep t e.1 := fun e he =>
      hplain _ listing hlist e (mem_listing_of_mem_entries he)
    exact forM_restoreEntry_run hcalls hwrite (c := c) (trackedEolInfo listing).entries
      (w := { w with calls := w.calls + 1 }) (hcalls w _ hI) hget hdot hentries

end Loop

end Restoring

end LoggerBenchmarks.StagedTree
