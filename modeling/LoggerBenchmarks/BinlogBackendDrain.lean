import LoggerBenchmarks.LabelledRuns

set_option autoImplicit false

/-!
# The hand-written binlog consumer thread

Producer threads log and are joined, `done` is stored, and the backend thread
alternates `binlog::consume` with a load of `done`. A `consume` call is one step:
it takes whatever is queued at that instant. `bytesConsumed` may be positive on
an empty queue, since clock syncs and event sources are written by the same call,
but it is zero only when the queue was empty.
-/
namespace LoggerBenchmarks.BinlogBackendDrain
open LabelledRuns

/-- `backend_total_time` loops with `while (true)`, `call_site_latency` with `do`. -/
inductive LoopShape where
  | whileTrue
  | doWhile
  deriving DecidableEq

def LoopShape.leaves : LoopShape → Bool → ℕ → Bool
  | .whileTrue, done, bytesConsumed => done && bytesConsumed == 0
  | .doWhile, done, bytesConsumed => !(!done || bytesConsumed != 0)

inductive Backend where
  | consuming
  | loading (bytesConsumed : ℕ)
  | testing (bytesConsumed : ℕ) (done : Bool)
  | left
  deriving DecidableEq

/-- `logged` is the history of enqueued messages; no step reads it. -/
structure State (M : Type) where
  pending : List (List M)
  queue : List M
  taken : List M
  logged : List M
  done : Bool
  backend : Backend
  deriving DecidableEq

inductive Action where
  | log (thread : ℕ)
  | storeDone
  | consume (bytesConsumed : ℕ)
  | loadDone
  | test
  deriving DecidableEq

variable {M : Type}

def start (producers : List (List M)) : State M :=
  ⟨producers, [], [], [], false, .consuming⟩

def step (shape : LoopShape) (s : State M) : Action → Option (State M)
  | .log thread =>
    match s.pending[thread]? with
    | some (m :: rest) => some { s with
        pending := s.pending.set thread rest
        queue := s.queue ++ [m]
        logged := s.logged ++ [m] }
    | _ => none
  | .storeDone =>
    -- the main thread stores once, after it has joined every producer
    if s.pending.all List.isEmpty && !s.done then some { s with done := true } else none
  | .consume bytesConsumed =>
    if s.backend = .consuming ∧ (bytesConsumed = 0 → s.queue.isEmpty) then
      some { s with
        taken := s.taken ++ s.queue
        queue := []
        backend := .loading bytesConsumed }
    else none
  | .loadDone =>
    match s.backend with
    | .loading bytesConsumed => some { s with backend := .testing bytesConsumed s.done }
    | _ => none
  | .test =>
    match s.backend with
    | .testing bytesConsumed done => some { s with
        backend := if shape.leaves done bytesConsumed then .left else .consuming }
    | _ => none

theorem leaves_iff (shape : LoopShape) (done : Bool) (bytesConsumed : ℕ) :
    shape.leaves done bytesConsumed = true ↔ done = true ∧ bytesConsumed = 0 := by
  cases shape <;> cases done <;> simp [LoopShape.leaves]

/-- Everything a step can do, guards included. -/
theorem step_cases {shape : LoopShape} {s u : State M} {a : Action} (h : step shape s a = some u) :
    (∃ thread m rest, a = .log thread ∧ s.pending[thread]? = some (m :: rest) ∧
      u = { s with
        pending := s.pending.set thread rest, queue := s.queue ++ [m], logged := s.logged ++ [m] }) ∨
    (a = .storeDone ∧ (∀ p ∈ s.pending, p = []) ∧ s.done = false ∧ u = { s with done := true }) ∨
    (∃ b, a = .consume b ∧ s.backend = .consuming ∧ (b = 0 → s.queue = []) ∧
      u = { s with taken := s.taken ++ s.queue, queue := [], backend := .loading b }) ∨
    (∃ b, a = .loadDone ∧ s.backend = .loading b ∧ u = { s with backend := .testing b s.done }) ∨
    (∃ b d, a = .test ∧ s.backend = .testing b d ∧
      u = { s with backend := if d = true ∧ b = 0 then .left else .consuming }) := by
  cases a with
  | log thread =>
    left
    simp only [step] at h
    split at h
    · rename_i m rest hp
      exact ⟨thread, m, rest, rfl, hp, (Option.some.inj h).symm⟩
    · cases h
  | storeDone =>
    right; left
    simp only [step] at h
    split at h
    · rename_i hc
      simp only [Bool.and_eq_true, List.all_eq_true, List.isEmpty_iff, Bool.not_eq_eq_eq_not,
        Bool.not_true] at hc
      exact ⟨rfl, hc.1, hc.2, (Option.some.inj h).symm⟩
    · cases h
  | consume b =>
    right; right; left
    simp only [step, List.isEmpty_iff] at h
    split at h
    · rename_i hc
      exact ⟨b, rfl, hc.1, hc.2, (Option.some.inj h).symm⟩
    · cases h
  | loadDone =>
    right; right; right; left
    simp only [step] at h
    split at h
    · rename_i b hb
      exact ⟨b, rfl, hb, (Option.some.inj h).symm⟩
    · cases h
  | test =>
    right; right; right; right
    simp only [step, leaves_iff] at h
    split at h
    · rename_i b d hb
      exact ⟨b, d, rfl, hb, (Option.some.inj h).symm⟩
    · cases h

/-- The backend has just seen an empty consume and has not loaded `done` yet. -/
def InWindow (s : State M) : Prop := s.backend = .loading 0

def LateStore (s : State M) (a : Action) : Prop :=
  a = .storeDone ∧ InWindow s ∧ s.queue ≠ []

theorem logged_step {shape : LoopShape} {s u : State M} {a : Action}
    (hs : s.logged = s.taken ++ s.queue) (h : step shape s a = some u) :
    u.logged = u.taken ++ u.queue := by
  obtain ⟨_, _, _, -, -, rfl⟩ | ⟨-, -, -, rfl⟩ | ⟨_, -, -, -, rfl⟩ | ⟨_, -, -, rfl⟩ |
    ⟨_, _, -, -, rfl⟩ := step_cases h <;> simp [hs]

/-- No record is lost: one is either taken or still queued, in the order logged. -/
theorem logged_eq_taken_queue {shape : LoopShape} {producers : List (List M)} {v : State M}
    {tr : List (State M × Action)} (h : Run (step shape) (start producers) tr v) :
    v.logged = v.taken ++ v.queue :=
  h.invariant (fun s => s.logged = s.taken ++ s.queue) rfl fun _ _ _ hs h => logged_step hs h

structure Drained (s : State M) : Prop where
  quiet : s.done = true → ∀ p ∈ s.pending, p = []
  window : s.done = true → s.backend = .loading 0 → s.queue = []
  testing : ∀ b, s.backend = .testing b true → s.done = true ∧ (b = 0 → s.queue = [])
  left : s.backend = .left → s.done = true ∧ s.queue = []

structure Stranded (s : State M) : Prop where
  quiet : ∀ p ∈ s.pending, p = []
  done : s.done = true
  queue : s.queue ≠ []
  backend : s.backend = .loading 0 ∨ s.backend = .testing 0 true ∨ s.backend = .left

theorem start_drained (producers : List (List M)) : Drained (start producers) := by
  constructor <;> simp [start]

theorem not_quiet {s : State M} {thread : ℕ} {m : M} {rest : List M}
    (hp : s.pending[thread]? = some (m :: rest)) : ¬ ∀ p ∈ s.pending, p = [] := by
  intro hq
  cases hq _ (List.mem_of_getElem? hp)

theorem drained_step {shape : LoopShape} {s u : State M} {a : Action} (hs : Drained s)
    (hg : ¬ LateStore s a) (h : step shape s a = some u) : Drained u := by
  obtain ⟨thread, m, rest, rfl, hp, rfl⟩ | ⟨rfl, hq, hd, rfl⟩ | ⟨b, rfl, hb, hz, rfl⟩ |
    ⟨b, rfl, hb, rfl⟩ | ⟨b, d, rfl, hb, rfl⟩ := step_cases h
  · -- a producer can still log only while `done` is unset
    have hd : s.done = false := by
      by_contra hd
      exact not_quiet hp (hs.quiet (by simpa using hd))
    constructor
    · intro h'
      simp [hd] at h'
    · intro h'
      simp [hd] at h'
    · intro b hb
      have := (hs.testing b hb).1
      simp [hd] at this
    · intro hl
      have := (hs.left hl).1
      simp [hd] at this
  · constructor
    · exact fun _ => hq
    · intro _ hb
      by_contra hne
      exact hg ⟨rfl, hb, hne⟩
    · intro b hb
      have := (hs.testing b hb).1
      simp [hd] at this
    · intro hl
      have := (hs.left hl).1
      simp [hd] at this
  · exact ⟨hs.quiet, fun _ _ => rfl, by simp, by simp⟩
  · refine ⟨hs.quiet, by simp, ?_, by simp⟩
    intro b' hb'
    simp only [Backend.testing.injEq] at hb'
    obtain ⟨rfl, hd⟩ := hb'
    exact ⟨hd, fun h0 => hs.window hd (by simpa [h0] using hb)⟩
  · refine ⟨hs.quiet, ?_, ?_, ?_⟩
    · intro _ hb'
      dsimp only at hb'
      split at hb' <;> cases hb'
    · intro b' hb'
      dsimp only at hb'
      split at hb' <;> cases hb'
    · intro hl
      dsimp only at hl
      split at hl
      · rename_i hc
        obtain ⟨rfl, rfl⟩ := hc
        obtain ⟨hd, hq⟩ := hs.testing 0 hb
        exact ⟨hd, hq rfl⟩
      · cases hl

theorem late_store_strands {shape : LoopShape} {s u : State M} {a : Action}
    (hl : LateStore s a) (h : step shape s a = some u) : Stranded u := by
  obtain ⟨rfl, hw, hq⟩ := hl
  obtain ⟨_, _, _, ha, -⟩ | ⟨-, hp, -, rfl⟩ | ⟨_, ha, -⟩ | ⟨_, ha, -⟩ | ⟨_, _, ha, -⟩ := step_cases h
  · cases ha
  · exact ⟨hp, rfl, hq, .inl hw⟩
  all_goals cases ha

theorem stranded_step {shape : LoopShape} {s u : State M} {a : Action} (hs : Stranded s)
    (h : step shape s a = some u) : Stranded u := by
  obtain ⟨thread, m, rest, rfl, hp, rfl⟩ | ⟨rfl, hq, hd, rfl⟩ | ⟨b, rfl, hb, hz, rfl⟩ |
    ⟨b, rfl, hb, rfl⟩ | ⟨b, d, rfl, hb, rfl⟩ := step_cases h
  · exact absurd hs.quiet (not_quiet hp)
  · rw [hs.done] at hd
    cases hd
  · rcases hs.backend with h' | h' | h' <;> rw [hb] at h' <;> cases h'
  · refine ⟨hs.quiet, hs.done, hs.queue, .inr (.inl ?_)⟩
    rcases hs.backend with h' | h' | h' <;> rw [hb] at h' <;> cases h'
    simp only [hs.done]
  · refine ⟨hs.quiet, hs.done, hs.queue, .inr (.inr ?_)⟩
    rcases hs.backend with h' | h' | h' <;> rw [hb] at h' <;> cases h'
    simp

/-- A run ends drained or stranded according to its store of `done`. -/
theorem run_drained_or_stranded {shape : LoopShape} {producers : List (List M)} {v : State M}
    {tr : List (State M × Action)} (h : Run (step shape) (start producers) tr v) :
    ((∀ p ∈ tr, ¬ LateStore p.1 p.2) ∧ Drained v) ∨ ((∃ p ∈ tr, LateStore p.1 p.2) ∧ Stranded v) := by
  have hk := h.keeps_or_breaks (fun s a => ¬ LateStore s a) Drained Stranded
    (start_drained producers) (fun _ _ _ hs hg h => drained_step hs hg h)
    (fun _ _ _ _ hg h => late_store_strands (not_not.1 hg) h) (fun _ _ _ hs h => stranded_step hs h)
  simpa only [not_not] using hk

/-- When the backend has left its loop, everything logged was taken, in order,
exactly in the runs whose store of `done` was not late. -/
theorem left_takes_all_iff (shape : LoopShape) (producers : List (List M)) (v : State M)
    (tr : List (State M × Action)) (h : Run (step shape) (start producers) tr v)
    (hleft : v.backend = .left) :
    v.taken = v.logged ↔ ∀ p ∈ tr, ¬ LateStore p.1 p.2 := by
  have hlog := logged_eq_taken_queue h
  rcases run_drained_or_stranded h with ⟨hall, hv⟩ | ⟨⟨p, hp, hl⟩, hv⟩
  · have hq := (hv.left hleft).2
    have ht : v.taken = v.logged := by simp [hlog, hq]
    exact ⟨fun _ => hall, fun _ => ht⟩
  · constructor
    · intro ht
      rw [hlog] at ht
      exact absurd (List.self_eq_append_right.1 ht) hv.queue
    · intro hall
      exact absurd hl (hall p hp)

def promptSchedule : List Action :=
  [.log 0, .consume 24, .loadDone, .test, .storeDone, .consume 0, .loadDone, .test]

def promptEnd : State ℕ := ⟨[[]], [], [7], [7], true, .left⟩

theorem left_takes_all_prompt :
    (promptEnd.taken = promptEnd.logged ↔
      ∀ p ∈ trace (step .whileTrue) (start [[7]]) promptSchedule, ¬ LateStore p.1 p.2) ∧
    (promptEnd.taken = promptEnd.logged ↔
      ∀ p ∈ trace (step .doWhile) (start [[7]]) promptSchedule, ¬ LateStore p.1 p.2) :=
  ⟨left_takes_all_iff .whileTrue [[7]] promptEnd _ (run_of_exec _ _ promptSchedule rfl) rfl,
    left_takes_all_iff .doWhile [[7]] promptEnd _ (run_of_exec _ _ promptSchedule rfl) rfl⟩

def lateSchedule : List Action := [.consume 0, .log 0, .storeDone, .loadDone, .test]

def lateEnd : State ℕ := ⟨[[]], [7], [], [7], true, .left⟩

theorem left_loses_record :
    (Run (step .whileTrue) (start [[7]]) (trace (step .whileTrue) (start [[7]]) lateSchedule) lateEnd ∧
      Run (step .doWhile) (start [[7]]) (trace (step .doWhile) (start [[7]]) lateSchedule) lateEnd) ∧
      lateEnd.backend = .left ∧ 7 ∈ lateEnd.logged ∧ 7 ∉ lateEnd.taken :=
  ⟨⟨run_of_exec _ _ lateSchedule rfl, run_of_exec _ _ lateSchedule rfl⟩, rfl, by decide, by decide⟩

end LoggerBenchmarks.BinlogBackendDrain
