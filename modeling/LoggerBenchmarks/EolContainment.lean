import LoggerBenchmarks.EolRestoring

set_option autoImplicit false

/-!
# Which files the line endings are written to

A tracked path of the staging directory may be a symbolic link or lie below one:
its file is then another one, inside or outside the staging directory.
-/
namespace LoggerBenchmarks.EolContainment
open PythonText PosixPaths FileTrees StatefulPrograms InsertionDict LineEndings VendorManifest VendorWorld
open EolRestoring

variable {κ γ : Type} (c : Checkout κ γ) (dep : Dependency) (destination : Path)

def StoredAt (listing : List (Text × Text)) (files : Node Bytes) (place : Path) : Prop :=
  ∃ line ∈ listing, ∃ relative, relativeTo (parse line.1) dep.targetDir = some relative ∧
    place = destination ++ relative ∧ Node.LinkFree files destination relative

def Stops (head : Text → Option Bytes) (files : Node Bytes) (entry : Text × Text) : Prop :=
  ∃ place data, stagedFile dep destination entry.1 files = some (place, data) ∧
    restoredBytes entry.2 data (head entry.1) = none

/-- The entry leads to a file stored elsewhere, whose bytes its class would change. -/
def Strays (Stored : Path → Prop) (head : Text → Option Bytes) (files : Node Bytes) (entry : Text × Text) :
    Prop :=
  ∃ place data after, stagedFile dep destination entry.1 files = some (place, data) ∧ ¬ Stored place ∧
    restoredBytes entry.2 data (head entry.1) = some after ∧ after ≠ data

def Confined (Stored : Path → Prop) (head : Text → Option Bytes) (files : Node Bytes)
    (entries : List (Text × Text)) : Prop :=
  ∀ before entry after, entries = before ++ entry :: after →
    (∀ e ∈ before, ¬ Stops dep destination head files e) → ¬ Strays dep destination Stored head files entry

def OwnWrites (Stored : Path → Prop) (log : List Event) : Prop :=
  ∀ place before after, Event.rewritten place before after ∈ log → before ≠ after → Stored place

structure Since (Stored : Path → Prop) (files : Node Bytes) (repository : γ) (w : World κ γ) : Prop where
  kinds : ∀ p, Node.kindAt p w.files = Node.kindAt p files
  nul : ∀ p d₀ d, Node.get p files = some (.file d₀) → Node.get p w.files = some (.file d) →
    ((0 : UInt8) ∈ d ↔ (0 : UInt8) ∈ d₀)
  kept : ∀ p d, ¬ Stored p → Node.get p files = some (.file d) → Node.get p w.files = some (.file d)
  repository : w.repository = repository

variable {c dep destination} {Stored : Path → Prop} {head : Text → Option Bytes} {files : Node Bytes}
  {repository : γ} {w : World κ γ} {entry : Text × Text}

theorem confined_cons {entries : List (Text × Text)} :
    Confined dep destination Stored head files (entry :: entries) ↔
      ¬ Strays dep destination Stored head files entry ∧
        (Stops dep destination head files entry ∨ Confined dep destination Stored head files entries) := by
  constructor
  · intro h
    refine ⟨h [] entry entries rfl fun _ he => absurd he List.not_mem_nil, ?_⟩
    by_cases hstop : Stops dep destination head files entry
    · exact .inl hstop
    · refine .inr fun before e after hsplit hbefore => h (entry :: before) e after (by rw [hsplit, List.cons_append]) ?_
      intro e' he'
      rcases List.mem_cons.1 he' with rfl | he'
      · exact hstop
      · exact hbefore e' he'
  · rintro ⟨hfirst, hrest⟩ before e after hsplit hbefore
    cases before with
    | nil =>
      obtain ⟨rfl, -⟩ := List.cons.inj hsplit
      exact hfirst
    | cons b before =>
      obtain ⟨rfl, htail⟩ := List.cons.inj hsplit
      rcases hrest with hstop | hrest
      · exact absurd hstop (hbefore _ List.mem_cons_self)
      · exact hrest before e after htail fun e' he' => hbefore e' (List.mem_cons_of_mem _ he')

theorem Since.staged (h : Since Stored files repository w) {repoPath : Text} {place : Path} {data : Bytes}
    (hstaged : stagedFile dep destination repoPath w.files = some (place, data)) :
    ∃ data₀, stagedFile dep destination repoPath files = some (place, data₀) ∧
      Node.get place files = some (.file data₀) ∧ Node.get place w.files = some (.file data) := by
  obtain ⟨relative, hrel, hfollow, hget⟩ := stagedFile_eq_some.1 hstaged
  obtain ⟨data₀, hget₀⟩ := Node.file_of_kindAt (h.kinds place) hget
  rw [Node.follow_congr h.kinds] at hfollow
  exact ⟨data₀, stagedFile_eq_some.2 ⟨relative, hrel, hfollow, hget₀⟩, hget₀, hget⟩

theorem Since.stagedFrom (h : Since Stored files repository w) {repoPath : Text} {place : Path} {data₀ : Bytes}
    (hstaged : stagedFile dep destination repoPath files = some (place, data₀)) :
    ∃ data, stagedFile dep destination repoPath w.files = some (place, data) := by
  obtain ⟨relative, hrel, hfollow, hget₀⟩ := stagedFile_eq_some.1 hstaged
  obtain ⟨data, hget⟩ := Node.file_of_kindAt (h.kinds place).symm hget₀
  rw [← Node.follow_congr h.kinds] at hfollow
  exact ⟨data, stagedFile_eq_some.2 ⟨relative, hrel, hfollow, hget⟩⟩

theorem Since.stops (h : Since Stored files repository w) {place : Path} {data : Bytes}
    (hstaged : stagedFile dep destination entry.1 w.files = some (place, data)) :
    Stops dep destination head files entry ↔ restoredBytes entry.2 data (head entry.1) = none := by
  obtain ⟨data₀, hstaged₀, hget₀, hget⟩ := h.staged hstaged
  have hnul := h.nul place data₀ data hget₀ hget
  constructor
  · rintro ⟨place', data', hstaged', hnone⟩
    obtain ⟨rfl, rfl⟩ := Prod.mk.inj (Option.some.inj (hstaged₀.symm.trans hstaged'))
    obtain ⟨hno, hclass, hhead⟩ := restoredBytes_eq_none.1 hnone
    exact restoredBytes_eq_none.2 ⟨fun hmem => hno (hnul.1 hmem), hclass, hhead⟩
  · intro hnone
    obtain ⟨hno, hclass, hhead⟩ := restoredBytes_eq_none.1 hnone
    exact ⟨place, data₀, hstaged₀, restoredBytes_eq_none.2 ⟨fun hmem => hno (hnul.2 hmem), hclass, hhead⟩⟩

theorem Since.rewrite (h : Since Stored files repository w) {place : Path} {data after : Bytes} {calls : ℕ}
    (hget : Node.get place w.files = some (.file data)) (hnul : (0 : UInt8) ∈ after ↔ (0 : UInt8) ∈ data)
    (hown : after ≠ data → Stored place) (event : Event) :
    Since Stored files repository
      (({ w with calls := calls } : World κ γ).edit event (Node.replace place (some (.file after)) w.files)) where
  kinds p := (Node.kindAt_rewrite hget after p).trans (h.kinds p)
  nul p d₀ d hd₀ hd := by
    by_cases hp : p = place
    · subst hp
      rw [World.edit, Node.get_replace_of_get hget] at hd
      cases hd
      exact hnul.trans (h.nul p d₀ data hd₀ hget)
    · obtain ⟨d', hd'⟩ := Node.file_of_kindAt (h.kinds p).symm hd₀
      rw [World.edit, Node.get_rewrite hd' hget hp] at hd
      cases hd
      exact h.nul p d₀ d hd₀ hd'
  kept p d hp hd := by
    have hcurrent := h.kept p d hp hd
    by_cases hplace : p = place
    · subst hplace
      have hsame : after = data := not_not.1 fun hne => hp (hown hne)
      rw [hget] at hcurrent
      rw [World.edit, Node.get_replace_of_get hget, hsame]
      exact hcurrent
    · exact Node.get_rewrite hcurrent hget hplace after
  repository := h.repository

theorem ownWrites_cons {event : Event} {log : List Event}
    (hevent : ∀ place before after, event = .rewritten place before after → before ≠ after → Stored place)
    (h : OwnWrites Stored log) : OwnWrites Stored (event :: log) := by
  intro place before after hmem hne
  rcases List.mem_cons.1 hmem with heq | hmem
  · exact hevent place before after heq.symm hne
  · exact h place before after hmem hne

variable (hhead : ∀ n path, c.git.showHead n repository path = head path)
include hhead

theorem restoreEntry_since (h : Since Stored files repository w) (hown : OwnWrites Stored w.log)
    (hstray : ¬ Strays dep destination Stored head files entry) :
    ∃ r w', restoreEntry c dep destination entry w = (r, w') ∧ Since Stored files repository w' ∧
      OwnWrites Stored w'.log ∧
      ((r = .ok () ∧ ¬ Stops dep destination head files entry) ∨
        (∃ e, r = .error e) ∧ Stops dep destination head files entry) := by
  rcases restoreEntry_cases c dep destination entry w with
    ⟨hnone, hrun⟩ | ⟨place, data, w₁, hstaged, rfl, hrun⟩
  · refine ⟨_, _, hrun, h, hown, .inl ⟨rfl, ?_⟩⟩
    rintro ⟨place, data₀, hstaged₀, -⟩
    obtain ⟨data, hstaged⟩ := h.stagedFrom hstaged₀
    rw [hnone] at hstaged
    cases hstaged
  · have hshow : c.git.showHead w.calls w.repository entry.1 = head entry.1 := by rw [h.repository, hhead]
    rw [hshow] at hrun
    have hstops : Stops dep destination head files entry ↔ restoredBytes entry.2 data (head entry.1) = none :=
      h.stops hstaged
    have hsame : Since Stored files repository
        { w with calls := w.calls + if asksHead entry.2 data then 1 else 0 } :=
      ⟨h.kinds, h.nul, h.kept, h.repository⟩
    rcases hrun with ⟨hnone, hrun⟩ | ⟨hdata, -, hrun⟩ | ⟨after, hafter, -, hrun⟩
    · exact ⟨_, _, hrun, hsame, hown, .inr ⟨⟨_, rfl⟩, hstops.2 hnone⟩⟩
    · refine ⟨_, _, hrun, hsame, hown, .inl ⟨rfl, fun hstop => ?_⟩⟩
      rw [hstops.1 hstop] at hdata
      cases hdata
    · obtain ⟨data₀, hstaged₀, hget₀, hget⟩ := h.staged hstaged
      have hplace : after ≠ data → Stored place := by
        intro hne
        by_contra hout
        have hkept := h.kept place data₀ hout hget₀
        rw [hget] at hkept
        cases hkept
        exact hstray ⟨place, data, after, hstaged₀, hout, hafter, hne⟩
      refine ⟨_, _, hrun, h.rewrite hget (mem_restoredBytes hafter) hplace _, ownWrites_cons ?_ hown,
        .inl ⟨rfl, fun hstop => ?_⟩⟩
      · intro place' before after' heq hne
        cases heq
        exact hplace (Ne.symm hne)
      · rw [hstops.1 hstop] at hafter
        cases hafter

theorem restoreEntry_strays (h : Since Stored files repository w)
    (hstray : Strays dep destination Stored head files entry) :
    ∃ place before after, Event.rewritten place before after ∈ (restoreEntry c dep destination entry w).2.log ∧
      before ≠ after ∧ ¬ Stored place := by
  obtain ⟨place, data₀, after, hstaged₀, hout, hafter, hne⟩ := hstray
  obtain ⟨data, hstaged⟩ := h.stagedFrom hstaged₀
  obtain ⟨data', hstaged₀', hget₀, hget⟩ := h.staged hstaged
  obtain ⟨-, rfl⟩ := Prod.mk.inj (Option.some.inj (hstaged₀.symm.trans hstaged₀'))
  have hkept := h.kept place data₀ hout hget₀
  rw [hget] at hkept
  cases hkept
  rcases restoreEntry_cases c dep destination entry w with
    ⟨hnone, -⟩ | ⟨place', data', w₁, hstaged', rfl, hrun⟩
  · rw [hnone] at hstaged
    cases hstaged
  · obtain ⟨rfl, rfl⟩ := Prod.mk.inj (Option.some.inj (hstaged.symm.trans hstaged'))
    have hshow : c.git.showHead w.calls w.repository entry.1 = head entry.1 := by rw [h.repository, hhead]
    rw [hshow, hafter] at hrun
    rcases hrun with ⟨hnone, -⟩ | ⟨hdata, -⟩ | ⟨after', hafter', -, hrun⟩
    · cases hnone
    · exact absurd (Option.some.inj hdata) hne
    · rw [hrun]
      exact ⟨place, _, after', List.mem_cons_self, fun heq => hne ((Option.some.inj hafter').trans heq.symm), hout⟩

omit hhead in
theorem keeps_log (entries : List (Text × Text)) (event : Event) :
    Keeps (fun w => event ∈ w.log) (entries.forM (restoreEntry c dep destination)) :=
  keeps_forM fun _ _ => keeps_restoreEntry c (fun _ hmem => hmem) fun _ _ _ _ _ _ hmem => List.mem_cons_of_mem _ hmem

theorem forM_confined (entries : List (Text × Text)) (h : Since Stored files repository w)
    (hown : OwnWrites Stored w.log) (hconf : Confined dep destination Stored head files entries) :
    Since Stored files repository (entries.forM (restoreEntry c dep destination) w).2 ∧
      OwnWrites Stored (entries.forM (restoreEntry c dep destination) w).2.log := by
  induction entries generalizing w with
  | nil => exact ⟨h, hown⟩
  | cons entry entries ih =>
    obtain ⟨hstray, hrest⟩ := confined_cons.1 hconf
    obtain ⟨r, w', hrun, hsince, hown', hr⟩ := restoreEntry_since hhead h hown hstray
    rcases hr with ⟨rfl, hgo⟩ | ⟨⟨e, rfl⟩, -⟩
    · rw [forM_cons_ok hrun]
      exact ih hsince hown' (hrest.resolve_left hgo)
    · rw [forM_cons_error hrun]
      exact ⟨hsince, hown'⟩

theorem forM_not_confined (entries : List (Text × Text)) (h : Since Stored files repository w)
    (hown : OwnWrites Stored w.log) (hconf : ¬ Confined dep destination Stored head files entries) :
    ¬ OwnWrites Stored (entries.forM (restoreEntry c dep destination) w).2.log := by
  induction entries generalizing w with
  | nil => exact absurd (fun before e after hsplit => by simp at hsplit) hconf
  | cons entry entries ih =>
    rw [confined_cons, not_and_or, not_not, not_or] at hconf
    by_cases hstray : Strays dep destination Stored head files entry
    · obtain ⟨place, before, after, hmem, hne, hout⟩ := restoreEntry_strays hhead h hstray
      intro hall
      refine hout (hall place before after ?_ hne)
      rcases hrun : restoreEntry c dep destination entry w with ⟨e | u, w'⟩
      · rw [hrun] at hmem
        rw [forM_cons_error hrun]
        exact hmem
      · rw [hrun] at hmem
        rw [forM_cons_ok hrun]
        exact triple_left (keeps_log entries (.rewritten place before after)) hmem
    · obtain ⟨hgo, hrest⟩ := hconf.resolve_left hstray
      obtain ⟨r, w', hrun, hsince, hown', hr⟩ := restoreEntry_since hhead h hown hstray
      rcases hr with ⟨rfl, -⟩ | ⟨-, hstop⟩
      · rw [forM_cons_ok hrun]
        exact ih hsince hown' hrest
      · exact absurd hstop hgo

omit hhead

/-- Only files stored in the staging directory at tracked paths are given other bytes,
and all other files have their bytes at the end. -/
def WritesOwnFiles (c : Checkout κ γ) (dep : Dependency) (destination : Path) (listing : List (Text × Text))
    (w : World κ γ) : Prop :=
  OwnWrites (StoredAt dep destination listing w.files) (preserveTrackedFileFormat c dep destination w).2.log ∧
    ∀ place data, Node.fileAt place w.files = some data → ¬ StoredAt dep destination listing w.files place →
      Node.fileAt place (preserveTrackedFileFormat c dep destination w).2.files = some data

theorem preserve_run {listing : List (Text × Text)}
    (hlist : c.git.lsFiles w.calls w.repository dep.targetDir = some listing) :
    preserveTrackedFileFormat c dep destination w =
      (trackedEolInfo listing).entries.forM (restoreEntry c dep destination)
        { w with calls := w.calls + 1 } := by
  rw [preserveTrackedFileFormat, nextCall_bind, observe_bind, hlist]

theorem writes_own_files_iff {listing : List (Text × Text)} (hlog : w.log = [])
    (hlist : c.git.lsFiles w.calls w.repository dep.targetDir = some listing)
    (hhead : ∀ n path, c.git.showHead n w.repository path = head path) :
    WritesOwnFiles c dep destination listing w ↔
      Confined dep destination (StoredAt dep destination listing w.files) head w.files
        (trackedEolInfo listing).entries := by
  have hsince : Since (StoredAt dep destination listing w.files) w.files w.repository
      { w with calls := w.calls + 1 } :=
    ⟨fun _ => rfl, fun p d₀ d hd₀ hd => by cases hd₀.symm.trans hd; rfl, fun p d _ hd => hd, rfl⟩
  have hown : OwnWrites (StoredAt dep destination listing w.files) w.log := by
    rw [hlog]
    exact fun _ _ _ hmem => absurd hmem List.not_mem_nil
  rw [WritesOwnFiles, preserve_run hlist]
  constructor
  · rintro ⟨hwrites, -⟩
    by_contra hconf
    exact forM_not_confined hhead _ hsince hown hconf hwrites
  · intro hconf
    obtain ⟨hfinal, hwrites⟩ := forM_confined hhead _ hsince hown hconf
    refine ⟨hwrites, fun place data hdata hout => ?_⟩
    exact Node.fileAt_eq_some.2 (hfinal.kept place data hout (Node.fileAt_eq_some.1 hdata))

/-- The staged `a` is a link to `x` beside the staging directory. -/
def linkedCheckout : Checkout Unit Unit where
  root := ["r".toList]
  pid := 1
  git := { idleGit with lsFiles := fun _ _ _ => some [("d/a".toList, "lf".toList)] }
  dumps _ := []

def linkedDependency : Dependency := ⟨"d".toList, [], [], parse "d".toList, false, none⟩

def linkedStaging : Path := ["r".toList, ".d.vendor-staging-1".toList]

def linkedWorld : World Unit Unit where
  files := .dir [("r".toList, .dir [(".d.vendor-staging-1".toList, .dir [("a".toList, .link (parse "../x".toList))]),
    ("x".toList, .file [cr, lf])])]
  caches _ := none
  repository := ()
  manifest := ⟨[], []⟩
  calls := 0
  log := []

theorem linked_file_rewritten :
    ¬ WritesOwnFiles linkedCheckout linkedDependency linkedStaging [("d/a".toList, "lf".toList)] linkedWorld := by
  rintro ⟨-, hkept⟩
  have hbefore : Node.fileAt ["r".toList, "x".toList] linkedWorld.files = some [cr, lf] := by decide +kernel
  have hafter : Node.fileAt ["r".toList, "x".toList]
      (preserveTrackedFileFormat linkedCheckout linkedDependency linkedStaging linkedWorld).2.files = some [lf] := by
    decide +kernel
  have hout : ¬ StoredAt linkedDependency linkedStaging [("d/a".toList, "lf".toList)] linkedWorld.files
      ["r".toList, "x".toList] := by
    rintro ⟨line, -, relative, -, hplace, -⟩
    have htake := congrArg (List.take 2) hplace
    rw [List.take_left' (show linkedStaging.length = 2 from rfl)] at htake
    exact absurd htake (by decide +kernel)
  have hlast := hkept _ _ hbefore hout
  rw [hafter] at hlast
  exact absurd hlast (by decide)

theorem writes_own_files_iff_linked :
    WritesOwnFiles linkedCheckout linkedDependency linkedStaging [("d/a".toList, "lf".toList)] linkedWorld ↔
      Confined linkedDependency linkedStaging
        (StoredAt linkedDependency linkedStaging [("d/a".toList, "lf".toList)] linkedWorld.files) (fun _ => none)
        linkedWorld.files (trackedEolInfo [("d/a".toList, "lf".toList)]).entries :=
  writes_own_files_iff rfl rfl fun _ _ => rfl

end LoggerBenchmarks.EolContainment
