import LoggerBenchmarks.LabelledRuns
import Mathlib.Data.List.Forall2

set_option autoImplicit false

/-!
# The hand-written fmtlog backend thread

`fmtlog::poll` is called until `done` has been seen, and then once more. A poll takes
messages one by one while the producers go on logging; it may end as soon as it has
taken everything that was queued when it began.
-/
namespace LoggerBenchmarks.FmtlogBackendDrain
open LabelledRuns

inductive Backend where
  | calling (forceFlush : Bool)
  | polling (forceFlush : Bool)
  | loading
  | testing (done : Bool)
  | left
  deriving DecidableEq

/-- One producer: what it has still to log, its queue, how much of the queue the running poll
has yet to take, what was processed, and the history of what it logged. -/
structure Producer (M : Type) where
  pending : List M
  queue : List M
  due : ℕ
  processed : List M
  logged : List M
  deriving DecidableEq

structure State (M : Type) where
  producers : List (Producer M)
  done : Bool
  backend : Backend
  deriving DecidableEq

inductive Action where
  | log (thread : ℕ)
  | storeDone
  | beginPoll
  | process (thread : ℕ)
  | endPoll
  | loadDone
  | test
  deriving DecidableEq

variable {M : Type}

def start (messages : List (List M)) : State M :=
  ⟨messages.map fun ms => ⟨ms, [], 0, [], []⟩, false, .calling false⟩

def Producer.log (p : Producer M) (m : M) (rest : List M) : Producer M :=
  { p with pending := rest, queue := p.queue ++ [m], logged := p.logged ++ [m] }

def Producer.process (p : Producer M) (m : M) (rest : List M) : Producer M :=
  { p with queue := rest, due := p.due - 1, processed := p.processed ++ [m] }

def Producer.snapshot (p : Producer M) : Producer M := { p with due := p.queue.length }

def step (s : State M) : Action → Option (State M)
  | .log thread =>
    match s.producers[thread]? with
    | some p =>
      match p.pending with
      | m :: rest => some { s with producers := s.producers.set thread (p.log m rest) }
      | [] => none
    | none => none
  | .storeDone =>
    -- the producers have been joined
    if s.producers.all (·.pending.isEmpty) && !s.done then some { s with done := true } else none
  | .beginPoll =>
    match s.backend with
    | .calling forceFlush =>
      some { s with producers := s.producers.map Producer.snapshot, backend := .polling forceFlush }
    | _ => none
  | .process thread =>
    match s.backend, s.producers[thread]? with
    | .polling _, some p =>
      match p.queue with
      | m :: rest => some { s with producers := s.producers.set thread (p.process m rest) }
      | [] => none
    | _, _ => none
  | .endPoll =>
    match s.backend with
    | .polling forceFlush =>
      if s.producers.all (·.due == 0) then
        some { s with backend := if forceFlush then .left else .loading }
      else none
    | _ => none
  | .loadDone => if s.backend = .loading then some { s with backend := .testing s.done } else none
  | .test =>
    match s.backend with
    | .testing done => some { s with backend := .calling done }
    | _ => none

/-- Everything a step can do, guards included. -/
theorem step_cases {s u : State M} {a : Action} (h : step s a = some u) :
    (∃ thread p m rest, a = .log thread ∧ s.producers[thread]? = some p ∧ p.pending = m :: rest ∧
      u = { s with producers := s.producers.set thread (p.log m rest) }) ∨
    (a = .storeDone ∧ (∀ p ∈ s.producers, p.pending = []) ∧ u = { s with done := true }) ∨
    (∃ f, a = .beginPoll ∧ s.backend = .calling f ∧
      u = { s with producers := s.producers.map Producer.snapshot, backend := .polling f }) ∨
    (∃ f thread p m rest, a = .process thread ∧ s.backend = .polling f ∧
      s.producers[thread]? = some p ∧ p.queue = m :: rest ∧
      u = { s with producers := s.producers.set thread (p.process m rest) }) ∨
    (∃ f, a = .endPoll ∧ s.backend = .polling f ∧ (∀ p ∈ s.producers, p.due = 0) ∧
      u = { s with backend := if f then .left else .loading }) ∨
    (a = .loadDone ∧ s.backend = .loading ∧ u = { s with backend := .testing s.done }) ∨
    (∃ d, a = .test ∧ s.backend = .testing d ∧ u = { s with backend := .calling d }) := by
  cases a with
  | log thread =>
    left
    simp only [step] at h
    split at h
    · rename_i p hp
      split at h
      · rename_i m rest hm
        exact ⟨thread, p, m, rest, rfl, hp, hm, (Option.some.inj h).symm⟩
      · cases h
    · cases h
  | storeDone =>
    right; left
    simp only [step] at h
    split at h
    · rename_i hc
      rw [Bool.and_eq_true, List.all_eq_true] at hc
      exact ⟨rfl, fun p hp => List.isEmpty_iff.1 (hc.1 p hp), (Option.some.inj h).symm⟩
    · cases h
  | beginPoll =>
    right; right; left
    simp only [step] at h
    split at h
    · rename_i f hf
      exact ⟨f, rfl, hf, (Option.some.inj h).symm⟩
    · cases h
  | process thread =>
    right; right; right; left
    simp only [step] at h
    split at h
    · rename_i f p hf hp
      split at h
      · rename_i m rest hm
        exact ⟨f, thread, p, m, rest, rfl, hf, hp, hm, (Option.some.inj h).symm⟩
      · cases h
    · cases h
  | endPoll =>
    right; right; right; right; left
    simp only [step] at h
    split at h
    · rename_i f hf
      split at h
      · rename_i hc
        rw [List.all_eq_true] at hc
        exact ⟨f, rfl, hf, fun p hp => eq_of_beq (hc p hp), (Option.some.inj h).symm⟩
      · cases h
    · cases h
  | loadDone =>
    right; right; right; right; right; left
    simp only [step] at h
    split at h
    · rename_i hl
      exact ⟨rfl, hl, (Option.some.inj h).symm⟩
    · cases h
  | test =>
    right; right; right; right; right; right
    simp only [step] at h
    split at h
    · rename_i d hd
      exact ⟨d, rfl, hd, (Option.some.inj h).symm⟩
    · cases h

structure Accounted (messages : List M) (p : Producer M) : Prop where
  queued : p.logged = p.processed ++ p.queue
  pending : messages = p.logged ++ p.pending

theorem Accounted.log {messages : List M} {p : Producer M} (h : Accounted messages p) {m : M} {rest : List M}
    (hm : p.pending = m :: rest) : Accounted messages (p.log m rest) where
  queued := by simp [Producer.log, h.queued]
  pending := by
    have hp := h.pending
    rw [hm] at hp
    simpa [Producer.log] using hp

theorem Accounted.process {messages : List M} {p : Producer M} (h : Accounted messages p) {m : M}
    {rest : List M} (hm : p.queue = m :: rest) : Accounted messages (p.process m rest) where
  queued := by
    have hq := h.queued
    rw [hm] at hq
    simpa [Producer.process] using hq
  pending := h.pending

def AllAccounted (messages : List (List M)) (s : State M) : Prop :=
  List.Forall₂ Accounted messages s.producers

theorem start_accounted (messages : List (List M)) : AllAccounted messages (start messages) := by
  unfold AllAccounted start
  rw [List.forall₂_map_right_iff, List.forall₂_same]
  exact fun ms _ => ⟨rfl, rfl⟩

theorem accounted_set {messages : List (List M)} {ps : List (Producer M)} {thread : ℕ} {p q : Producer M}
    (h : List.Forall₂ Accounted messages ps) (hp : ps[thread]? = some p)
    (hq : ∀ ms, Accounted ms p → Accounted ms q) :
    List.Forall₂ Accounted messages (ps.set thread q) := by
  induction h generalizing thread with
  | nil => cases hp
  | cons hhead htail ih =>
    cases thread with
    | zero =>
      obtain rfl := Option.some.inj hp
      exact .cons (hq _ hhead) htail
    | succ thread => exact .cons hhead (ih hp)

theorem accounted_step {messages : List (List M)} {s u : State M} {a : Action} (hs : AllAccounted messages s)
    (h : step s a = some u) : AllAccounted messages u := by
  obtain ⟨thread, p, m, rest, -, hp, hm, rfl⟩ | ⟨-, -, rfl⟩ | ⟨f, -, -, rfl⟩ |
    ⟨f, thread, p, m, rest, -, -, hp, hm, rfl⟩ | ⟨f, -, -, -, rfl⟩ | ⟨-, -, rfl⟩ | ⟨d, -, -, rfl⟩ :=
    step_cases h
  · exact accounted_set hs hp fun ms hms => hms.log hm
  · exact hs
  · unfold AllAccounted
    rw [List.forall₂_map_right_iff]
    exact hs.imp fun _ _ hms => ⟨hms.queued, hms.pending⟩
  · exact accounted_set hs hp fun ms hms => hms.process hm
  · exact hs
  · exact hs
  · exact hs

/-- The last poll begins after the last message was logged, so it has to take all that is queued. -/
structure Draining (s : State M) : Prop where
  quiet : s.done = true → ∀ p ∈ s.producers, p.pending = []
  seen : s.backend = .testing true ∨ s.backend = .calling true ∨ s.backend = .polling true ∨
    s.backend = .left → s.done = true
  due : s.backend = .polling true → ∀ p ∈ s.producers, p.queue.length ≤ p.due
  left : s.backend = .left → ∀ p ∈ s.producers, p.queue = []

theorem start_draining (messages : List (List M)) : Draining (start messages) := by
  constructor <;> simp [start]

theorem mem_set {ps : List (Producer M)} {thread : ℕ} {p q : Producer M} (h : q ∈ ps.set thread p) :
    q ∈ ps ∨ q = p :=
  List.mem_or_eq_of_mem_set h

theorem draining_step {s u : State M} {a : Action} (hs : Draining s) (h : step s a = some u) : Draining u := by
  obtain ⟨thread, p, m, rest, -, hp, hm, rfl⟩ | ⟨-, hq, rfl⟩ | ⟨f, -, hb, rfl⟩ |
    ⟨f, thread, p, m, rest, -, hb, hp, hm, rfl⟩ | ⟨f, -, hb, hdue, rfl⟩ | ⟨-, hb, rfl⟩ | ⟨d, -, hb, rfl⟩ :=
    step_cases h
  · -- a producer can still log only while `done` is unset
    have hd : ¬ s.done = true := by
      intro hd
      have hnil := hs.quiet hd p (List.mem_of_getElem? hp)
      rw [hm] at hnil
      cases hnil
    exact ⟨fun hd' => absurd hd' hd, fun hb => absurd (hs.seen hb) hd,
      fun hb => absurd (hs.seen (.inr (.inr (.inl hb)))) hd,
      fun hb => absurd (hs.seen (.inr (.inr (.inr hb)))) hd⟩
  · exact ⟨fun _ => hq, fun _ => rfl, hs.due, hs.left⟩
  · refine ⟨?_, ?_, ?_, fun hl => nomatch hl⟩
    · intro hd q hmem
      obtain ⟨p, hp, rfl⟩ := List.mem_map.1 hmem
      exact hs.quiet hd p hp
    · rintro (hl | hl | hl | hl)
      · cases hl
      · cases hl
      · obtain rfl : f = true := by simpa using hl
        exact hs.seen (.inr (.inl hb))
      · cases hl
    · intro _ q hmem
      obtain ⟨p, -, rfl⟩ := List.mem_map.1 hmem
      exact Nat.le_refl _
  · refine ⟨?_, hs.seen, ?_, ?_⟩
    · intro hd q hmem
      rcases mem_set hmem with hq | rfl
      · exact hs.quiet hd q hq
      · exact hs.quiet hd p (List.mem_of_getElem? hp)
    · intro hpoll q hmem
      rcases mem_set hmem with hq | rfl
      · exact hs.due hpoll q hq
      · have hdue := hs.due hpoll p (List.mem_of_getElem? hp)
        rw [hm, List.length_cons] at hdue
        simp only [Producer.process]
        omega
    · intro hl
      rw [hb] at hl
      cases hl
  · cases f with
    | false => exact ⟨hs.quiet, by simp, by simp, by simp⟩
    | true =>
      refine ⟨hs.quiet, fun _ => hs.seen (.inr (.inr (.inl hb))), by simp, ?_⟩
      intro _ p hp
      have hlen := hs.due hb p hp
      rw [hdue p hp, Nat.le_zero, List.length_eq_zero_iff] at hlen
      exact hlen
  · refine ⟨hs.quiet, ?_, by simp, by simp⟩
    rintro (hd | hd | hd | hd)
    · simpa using hd
    all_goals cases hd
  · refine ⟨hs.quiet, ?_, by simp, by simp⟩
    rintro (hl | hl | hl | hl)
    · cases hl
    · obtain rfl : d = true := by simpa using hl
      exact hs.seen (.inl hb)
    · cases hl
    · cases hl

theorem forall₂_processed {messages : List (List M)} {ps : List (Producer M)}
    (h : List.Forall₂ Accounted messages ps) (hdone : ∀ p ∈ ps, p.pending = [] ∧ p.queue = []) :
    ps.map Producer.processed = messages ∧ ps.map Producer.logged = messages := by
  induction h with
  | nil => exact ⟨rfl, rfl⟩
  | cons hhead _ ih =>
    obtain ⟨hprocessed, hlogged⟩ := ih fun p hp => hdone p (List.mem_cons_of_mem _ hp)
    obtain ⟨hpending, hqueue⟩ := hdone _ List.mem_cons_self
    have hl := hhead.pending
    have hq := hhead.queued
    rw [hpending, List.append_nil] at hl
    rw [hqueue, List.append_nil] at hq
    rw [List.map_cons, List.map_cons, hprocessed, hlogged, ← hq, ← hl]
    exact ⟨rfl, rfl⟩

/-- When the backend can be joined, every message of every producer was logged and processed, once
and in the order logged. -/
theorem left_processed_all (messages : List (List M)) (v : State M) (tr : List (State M × Action))
    (h : Run step (start messages) tr v) (hleft : v.backend = .left) :
    v.done = true ∧ v.producers.map Producer.logged = messages ∧
      v.producers.map Producer.processed = messages := by
  have haccounted := h.invariant (AllAccounted messages) (start_accounted messages)
    fun _ _ _ hs hstep => accounted_step hs hstep
  have hdraining := h.invariant Draining (start_draining messages) fun _ _ _ hs hstep => draining_step hs hstep
  have hdone := hdraining.seen (.inr (.inr (.inr hleft)))
  obtain ⟨hprocessed, hlogged⟩ := forall₂_processed haccounted fun p hp =>
    ⟨hdraining.quiet hdone p hp, hdraining.left hleft p hp⟩
  exact ⟨hdone, hlogged, hprocessed⟩

def twoMessages : List Action :=
  [.beginPoll, .log 0, .process 0, .endPoll, .log 0, .storeDone, .loadDone, .test, .beginPoll, .process 0,
    .endPoll]

def twoMessagesEnd : State ℕ := ⟨[⟨[], [], 0, [7, 8], [7, 8]⟩], true, .left⟩

theorem left_processed_two :
    twoMessagesEnd.done = true ∧ twoMessagesEnd.producers.map Producer.logged = [[7, 8]] ∧
      twoMessagesEnd.producers.map Producer.processed = [[7, 8]] :=
  left_processed_all [[7, 8]] twoMessagesEnd _ (run_of_exec step _ twoMessages rfl) rfl

end LoggerBenchmarks.FmtlogBackendDrain
