import Mathlib.Algebra.BigOperators.Group.Finset.Basic
import Mathlib.Algebra.Order.BigOperators.Group.Finset
import LoggerBenchmarks.LabelledRuns
import LoggerBenchmarks.LatencyHarness

set_option autoImplicit false

/-!
# The start barrier of the latency harness

`run_benchmark` spawns its threads one after the other and joins them in the same
order. Every thread runs `on_thread_start`, adds one to `started_threads` and
loads the counter until it equals `participant_count`.
-/
namespace LoggerBenchmarks.LatencyStartBarrier
open LabelledRuns LatencyHarness

/-- A call with `thread_count > 0`, an `int32_t`. The split of the messages is left
open, so that it covers shares of zero and any other distribution. -/
structure Config where
  threadCount : ℕ
  numIterations : ℕ
  share : ℕ → ℕ
  positive : 0 < threadCount
  int32 : threadCount < 2 ^ 31

def runBenchmark (threadCount numIterations messagesPerIteration : ℕ)
    (positive : 0 < threadCount) (int32 : threadCount < 2 ^ 31) : Config :=
  ⟨threadCount, numIterations, messagesForThread messagesPerIteration threadCount, positive, int32⟩

inductive Thread where
  | unspawned
  | spawned
  | starting
  | started
  | waiting
  | released
  | looping (iteration message : ℕ)
  | exiting
  | returned
  deriving DecidableEq

inductive Main where
  | spawning (threadNum : ℕ)
  | joining (threadNum : ℕ)
  | finished
  deriving DecidableEq

structure State where
  startedThreads : ℕ
  threads : ℕ → Thread
  main : Main

inductive Action where
  | main
  | thread (threadNum : ℕ)
  deriving DecidableEq

def init : State := ⟨0, fun _ => .unspawned, .spawning 0⟩

def threadStep (cfg : Config) (threadNum counter : ℕ) : Thread → Option (Thread × ℕ)
  | .unspawned => none
  | .spawned => some (.starting, counter)
  | .starting => some (.started, counter)
  | .started => some (.waiting, (counter + 1) % 2 ^ 64)
  | .waiting => some (if counter ≠ cfg.threadCount then .waiting else .released, counter)
  | .released => some (if cfg.share threadNum = 0 then .exiting else .looping 0 0, counter)
  | .looping iteration message =>
    if iteration < cfg.numIterations then
      -- either `log_func(iteration, message, v)`, or the latency is pushed and the thread waits
      if message < cfg.share threadNum then some (.looping iteration (message + 1), counter)
      else some (.looping (iteration + 1) 0, counter)
    else some (.exiting, counter)
  | .exiting => some (.returned, counter)
  | .returned => none

def mainStep (cfg : Config) (s : State) : Option State :=
  match s.main with
  | .spawning threadNum =>
    if threadNum < cfg.threadCount then some { s with
      threads := Function.update s.threads threadNum .spawned
      main := .spawning (threadNum + 1) }
    else some { s with main := .joining 0 }
  | .joining threadNum =>
    if threadNum < cfg.threadCount then
      if s.threads threadNum = .returned then some { s with main := .joining (threadNum + 1) } else none
    else some { s with main := .finished }
  | .finished => none

def step (cfg : Config) (s : State) : Action → Option State
  | .main => mainStep cfg s
  | .thread threadNum =>
    (threadStep cfg threadNum s.startedThreads (s.threads threadNum)).map fun r =>
      { s with startedThreads := r.2, threads := Function.update s.threads threadNum r.1 }

def Thread.finishedStart : Thread → Bool
  | .unspawned | .spawned | .starting => false
  | _ => true

def Thread.incremented : Thread → Bool
  | .unspawned | .spawned | .starting | .started => false
  | _ => true

/-- Past the barrier: the only program points that call `log_func` or return. -/
def Thread.pastBarrier : Thread → Bool
  | .released | .looping _ _ | .exiting | .returned => true
  | _ => false

def Thread.ticket (t : Thread) : ℕ := if t.incremented then 1 else 0

def tickets (cfg : Config) (threads : ℕ → Thread) : ℕ :=
  ∑ j ∈ Finset.range cfg.threadCount, (threads j).ticket

theorem sum_update {β : Type*} (g : ℕ → β → ℕ) (f : ℕ → β) (n i : ℕ) (b : β) (hi : i < n) :
    (∑ j ∈ Finset.range n, g j (Function.update f i b j)) + g i (f i) =
      (∑ j ∈ Finset.range n, g j (f j)) + g i b := by
  have hmem : i ∈ Finset.range n := Finset.mem_range.2 hi
  rw [← Finset.add_sum_erase _ _ hmem, ← Finset.add_sum_erase _ (fun j => g j (f j)) hmem]
  have hrest : ∑ j ∈ (Finset.range n).erase i, g j (Function.update f i b j) =
      ∑ j ∈ (Finset.range n).erase i, g j (f j) := by
    apply Finset.sum_congr rfl
    intro j hj
    rw [Function.update_of_ne (Finset.ne_of_mem_erase hj)]
  rw [hrest, Function.update_self]
  omega

theorem ticket_le_one (t : Thread) : t.ticket ≤ 1 := by
  unfold Thread.ticket
  split <;> omega

theorem tickets_le (cfg : Config) (threads : ℕ → Thread) : tickets cfg threads ≤ cfg.threadCount := by
  calc
    _ ≤ ∑ _j ∈ Finset.range cfg.threadCount, 1 := Finset.sum_le_sum fun j _ => ticket_le_one _
    _ = cfg.threadCount := by simp

theorem tickets_eq_iff (cfg : Config) (threads : ℕ → Thread) :
    tickets cfg threads = cfg.threadCount ↔
      ∀ j < cfg.threadCount, (threads j).incremented = true := by
  have hsum : ∑ _j ∈ Finset.range cfg.threadCount, 1 = cfg.threadCount := by simp
  conv_lhs => rhs; rw [← hsum]
  rw [tickets, Finset.sum_eq_sum_iff_of_le fun j _ => ticket_le_one _]
  simp only [Finset.mem_range, Thread.ticket]
  refine forall₂_congr fun j _ => ?_
  split <;> simp_all

/-- What one step of a thread does to the barrier. -/
theorem threadStep_cases {cfg : Config} {i c : ℕ} {t t' : Thread} {c' : ℕ}
    (h : threadStep cfg i c t = some (t', c')) :
    (t = .started ∧ t' = .waiting ∧ c' = (c + 1) % 2 ^ 64) ∨
    (t = .waiting ∧ c ≠ cfg.threadCount ∧ t' = .waiting ∧ c' = c) ∨
    (t = .waiting ∧ c = cfg.threadCount ∧ t' = .released ∧ c' = c) ∨
    (t.pastBarrier = true ∧ t'.pastBarrier = true ∧ c' = c) ∨
    (t.incremented = false ∧ t'.incremented = false ∧ t ≠ .unspawned ∧ t' ≠ .unspawned ∧ c' = c) := by
  cases t with
  | unspawned | returned => cases h
  | waiting =>
    simp only [threadStep, Option.some.injEq, Prod.mk.injEq] at h
    obtain ⟨rfl, rfl⟩ := h
    by_cases hc : c = cfg.threadCount <;> simp [hc]
  | released =>
    simp only [threadStep, Option.some.injEq, Prod.mk.injEq] at h
    obtain ⟨rfl, rfl⟩ := h
    split <;> simp [Thread.pastBarrier]
  | looping iteration message =>
    simp only [threadStep] at h
    split at h
    · split at h <;> cases h <;> simp [Thread.pastBarrier]
    · cases h
      simp [Thread.pastBarrier]
  | spawned | starting | started | exiting =>
    cases h
    simp [Thread.pastBarrier, Thread.incremented]

theorem incremented_of_pastBarrier {t : Thread} (h : t.pastBarrier = true) : t.incremented = true := by
  cases t <;> simp_all [Thread.pastBarrier, Thread.incremented]

theorem finishedStart_of_incremented {t : Thread} (h : t.incremented = true) :
    t.finishedStart = true := by
  cases t <;> simp_all [Thread.finishedStart, Thread.incremented]

theorem ticket_of_incremented {t : Thread} (h : t.incremented = true) : t.ticket = 1 := by
  simp [Thread.ticket, h]

theorem ticket_of_not_incremented {t : Thread} (h : t.incremented = false) : t.ticket = 0 := by
  simp [Thread.ticket, h]

theorem step_main_eq {cfg : Config} {s u : State} (h : step cfg s .main = some u) :
    (∃ k < cfg.threadCount, s.main = .spawning k ∧
      u = { s with threads := Function.update s.threads k .spawned, main := .spawning (k + 1) }) ∨
    (∃ k, cfg.threadCount ≤ k ∧ s.main = .spawning k ∧ u = { s with main := .joining 0 }) ∨
    (∃ k < cfg.threadCount, s.main = .joining k ∧ s.threads k = .returned ∧
      u = { s with main := .joining (k + 1) }) ∨
    (∃ k, cfg.threadCount ≤ k ∧ s.main = .joining k ∧ u = { s with main := .finished }) := by
  simp only [step, mainStep] at h
  split at h
  · rename_i k hk
    split at h
    · rename_i hlt
      exact .inl ⟨k, hlt, hk, (Option.some.inj h).symm⟩
    · rename_i hlt
      exact .inr (.inl ⟨k, by omega, hk, (Option.some.inj h).symm⟩)
  · rename_i k hk
    split at h
    · rename_i hlt
      split at h
      · rename_i hr
        exact .inr (.inr (.inl ⟨k, hlt, hk, hr, (Option.some.inj h).symm⟩))
      · cases h
    · rename_i hlt
      exact .inr (.inr (.inr ⟨k, by omega, hk, (Option.some.inj h).symm⟩))
  · cases h

theorem step_thread_eq {cfg : Config} {s u : State} {i : ℕ} (h : step cfg s (.thread i) = some u) :
    ∃ t' c', threadStep cfg i s.startedThreads (s.threads i) = some (t', c') ∧
      u = { s with startedThreads := c', threads := Function.update s.threads i t' } := by
  simp only [step, Option.map_eq_some_iff] at h
  obtain ⟨⟨t', c'⟩, ht, rfl⟩ := h
  exact ⟨t', c', ht, rfl⟩

def Spawned (cfg : Config) (s : State) : Prop :=
  match s.main with
  | .spawning k => k ≤ cfg.threadCount ∧ ∀ j, s.threads j = .unspawned ↔ k ≤ j
  | .joining _ | .finished => ∀ j, s.threads j = .unspawned ↔ cfg.threadCount ≤ j

structure Inv (cfg : Config) (s : State) : Prop where
  spawned : Spawned cfg s
  counter : s.startedThreads = tickets cfg s.threads
  barrier : ∀ i, (s.threads i).pastBarrier = true → s.startedThreads = cfg.threadCount

theorem Inv.lt_of_spawned {cfg : Config} {s : State} (h : Inv cfg s) {i : ℕ}
    (hi : s.threads i ≠ .unspawned) : i < cfg.threadCount := by
  have hs := h.spawned
  unfold Spawned at hs
  split at hs
  · by_contra hn
    exact hi ((hs.2 i).2 (by omega))
  all_goals
    by_contra hn
    exact hi ((hs i).2 (by omega))

theorem Inv.counter_le {cfg : Config} {s : State} (h : Inv cfg s) : s.startedThreads ≤ cfg.threadCount :=
  h.counter ▸ tickets_le cfg s.threads

theorem Inv.all_incremented {cfg : Config} {s : State} (h : Inv cfg s)
    (hc : s.startedThreads = cfg.threadCount) : ∀ j < cfg.threadCount, (s.threads j).incremented = true :=
  (tickets_eq_iff cfg s.threads).1 (h.counter ▸ hc)

theorem init_inv (cfg : Config) : Inv cfg init := by
  refine ⟨⟨Nat.zero_le _, by simp [init]⟩, ?_, by simp [init, Thread.pastBarrier]⟩
  simp [init, tickets, Thread.ticket, Thread.incremented]

theorem tickets_update {cfg : Config} (threads : ℕ → Thread) {i : ℕ} (t : Thread)
    (hi : i < cfg.threadCount) : tickets cfg (Function.update threads i t) + (threads i).ticket =
      tickets cfg threads + t.ticket :=
  sum_update (fun _ t => t.ticket) threads cfg.threadCount i t hi

theorem spawned_update {cfg : Config} {s : State} {i c : ℕ} {t : Thread} (hs : Spawned cfg s)
    (hold : s.threads i ≠ .unspawned) (hnew : t ≠ .unspawned) :
    Spawned cfg { s with startedThreads := c, threads := Function.update s.threads i t } := by
  have hiff : ∀ j, Function.update s.threads i t j = .unspawned ↔ s.threads j = .unspawned := by
    intro j
    by_cases hj : j = i
    · subst j
      simp [hold, hnew]
    · rw [Function.update_of_ne hj]
  unfold Spawned at hs ⊢
  split at hs <;> rename_i hm <;> simp only [hm, hiff] <;> exact hs

theorem pastBarrier_ne_unspawned {t : Thread} (h : t.pastBarrier = true) : t ≠ .unspawned := by
  rintro rfl
  simp [Thread.pastBarrier] at h

/-- One thread moved and its ticket, together with the counter, stayed as it was. -/
theorem inv_same_ticket {cfg : Config} {s : State} {i : ℕ} {t : Thread} (hs : Inv cfg s)
    (hold : s.threads i ≠ .unspawned) (hnew : t ≠ .unspawned) (ht : t.ticket = (s.threads i).ticket)
    (hb : t.pastBarrier = true → s.startedThreads = cfg.threadCount) :
    Inv cfg { s with threads := Function.update s.threads i t } := by
  refine ⟨spawned_update hs.spawned hold hnew, ?_, ?_⟩
  · have hu := tickets_update s.threads t (hs.lt_of_spawned hold)
    have hc := hs.counter
    dsimp only
    omega
  · intro j hj
    by_cases hji : j = i
    · subst j
      exact hb (by simpa using hj)
    · exact hs.barrier j (by simpa [Function.update_of_ne hji] using hj)

theorem thread_inv {cfg : Config} {s u : State} {i : ℕ} (hs : Inv cfg s)
    (h : step cfg s (.thread i) = some u) : Inv cfg u := by
  obtain ⟨t', c', ht, rfl⟩ := step_thread_eq h
  obtain ⟨hst, rfl, rfl⟩ | ⟨hw, hne, rfl, rfl⟩ | ⟨hw, heq, rfl, rfl⟩ | ⟨hp, hp', rfl⟩ |
    ⟨hn, hn', hold, hnew, rfl⟩ := threadStep_cases ht
  · -- the `fetch_add`: nobody is past the barrier yet, since this ticket was missing
    have hold : s.threads i ≠ .unspawned := by simp [hst]
    have hi := hs.lt_of_spawned hold
    have hu := tickets_update s.threads .waiting hi
    have h0 : (s.threads i).ticket = 0 := by simp [hst, Thread.ticket, Thread.incremented]
    have h1 : Thread.waiting.ticket = 1 := rfl
    have hc := hs.counter
    have hle := tickets_le cfg (Function.update s.threads i .waiting)
    have h32 := cfg.int32
    have hmod : (s.startedThreads + 1) % 2 ^ 64 = s.startedThreads + 1 :=
      Nat.mod_eq_of_lt (by omega)
    refine ⟨spawned_update hs.spawned hold (by simp), by dsimp only; omega, ?_⟩
    intro j hj
    have hji : j ≠ i := by
      rintro rfl
      simp [Thread.pastBarrier] at hj
    have hold' : s.startedThreads = cfg.threadCount :=
      hs.barrier j (by simpa [Function.update_of_ne hji] using hj)
    omega
  · have : Function.update s.threads i .waiting = s.threads := by rw [← hw, Function.update_eq_self]
    rw [this]
    exact hs
  · exact inv_same_ticket hs (by simp [hw]) (by simp) (by rw [hw]; rfl) fun _ => heq
  · have hb := hs.barrier i hp
    refine inv_same_ticket hs (pastBarrier_ne_unspawned hp) (pastBarrier_ne_unspawned hp') ?_ fun _ => hb
    rw [ticket_of_incremented (incremented_of_pastBarrier hp),
      ticket_of_incremented (incremented_of_pastBarrier hp')]
  · refine inv_same_ticket hs hold hnew ?_ ?_
    · rw [ticket_of_not_incremented hn, ticket_of_not_incremented hn']
    · intro hp
      have := incremented_of_pastBarrier hp
      simp [hn'] at this

theorem main_inv {cfg : Config} {s u : State} (hs : Inv cfg s)
    (h : step cfg s .main = some u) : Inv cfg u := by
  have hsp := hs.spawned
  obtain ⟨k, hk, hm, rfl⟩ | ⟨k, hk, hm, rfl⟩ | ⟨k, hk, hm, -, rfl⟩ | ⟨k, hk, hm, rfl⟩ := step_main_eq h
  · simp only [Spawned, hm] at hsp
    have hun : s.threads k = .unspawned := (hsp.2 k).2 le_rfl
    refine ⟨⟨hk, ?_⟩, ?_, ?_⟩
    · intro j
      by_cases hj : j = k
      · subst j
        simp
      · simp only [Function.update_of_ne hj, hsp.2 j]
        omega
    · have hu := tickets_update s.threads .spawned hk
      have h0 : (s.threads k).ticket = 0 := by simp [hun, Thread.ticket, Thread.incremented]
      have h1 : Thread.spawned.ticket = 0 := rfl
      have hc := hs.counter
      dsimp only
      omega
    · intro j hj
      by_cases hjk : j = k
      · subst j
        simp [Thread.pastBarrier] at hj
      · exact hs.barrier j (by simpa [Function.update_of_ne hjk] using hj)
  · simp only [Spawned, hm] at hsp
    have hkeq : k = cfg.threadCount := by omega
    exact ⟨by simpa only [Spawned, hkeq] using hsp.2, hs.counter, hs.barrier⟩
  · simp only [Spawned, hm] at hsp
    exact ⟨hsp, hs.counter, hs.barrier⟩
  · simp only [Spawned, hm] at hsp
    exact ⟨hsp, hs.counter, hs.barrier⟩

theorem step_inv {cfg : Config} (s : State) (a : Action) (u : State) (hs : Inv cfg s)
    (h : step cfg s a = some u) : Inv cfg u := by
  cases a with
  | main => exact main_inv hs h
  | thread i => exact thread_inv hs h

theorem reachable_inv {cfg : Config} {s : State} (h : Reachable (step cfg) init s) : Inv cfg s :=
  h.invariant (Inv cfg) (init_inv cfg) step_inv

def Finished (cfg : Config) (s : State) : Prop :=
  s.main = .finished ∧ ∀ j < cfg.threadCount, s.threads j = .returned

def Thread.remaining (cfg : Config) (threadNum : ℕ) : Thread → ℕ
  | .returned => 0
  | .exiting => 1
  | .looping iteration message => 2 +
      (cfg.numIterations - iteration) * (cfg.share threadNum + 1) + (cfg.share threadNum - message)
  | .released => 3 + cfg.numIterations * (cfg.share threadNum + 1) + cfg.share threadNum
  | .waiting => 4 + cfg.numIterations * (cfg.share threadNum + 1) + cfg.share threadNum
  | .started => 5 + cfg.numIterations * (cfg.share threadNum + 1) + cfg.share threadNum
  | .starting => 6 + cfg.numIterations * (cfg.share threadNum + 1) + cfg.share threadNum
  | .spawned => 7 + cfg.numIterations * (cfg.share threadNum + 1) + cfg.share threadNum
  | .unspawned => 8 + cfg.numIterations * (cfg.share threadNum + 1) + cfg.share threadNum

def Main.remaining (cfg : Config) : Main → ℕ
  | .spawning k => 3 + cfg.threadCount + (cfg.threadCount - k)
  | .joining k => 1 + (cfg.threadCount - k)
  | .finished => 0

def remaining (cfg : Config) (s : State) : ℕ :=
  s.main.remaining cfg + ∑ j ∈ Finset.range cfg.threadCount, (s.threads j).remaining cfg j

theorem remaining_update {cfg : Config} {s : State} {i c : ℕ} {t : Thread} (hi : i < cfg.threadCount)
    (ht : t.remaining cfg i < (s.threads i).remaining cfg i) :
    remaining cfg { s with startedThreads := c, threads := Function.update s.threads i t } <
      remaining cfg s := by
  have hu := sum_update (fun j t => t.remaining cfg j) s.threads cfg.threadCount i t hi
  simp only [remaining]
  omega

theorem loop_remaining {n i : ℕ} (share : ℕ) (h : i < n) :
    (n - (i + 1)) * (share + 1) + share < (n - i) * (share + 1) := by
  have hn : n - i = n - (i + 1) + 1 := by omega
  rw [hn, Nat.add_mul]
  omega

/-- A thread that exists and has not returned gets on, unless its load of the counter fails. -/
theorem threadStep_progress (cfg : Config) (i c : ℕ) (t : Thread) (hun : t ≠ .unspawned)
    (hret : t ≠ .returned) (hload : t = .waiting → c = cfg.threadCount) :
    ∃ t' c', threadStep cfg i c t = some (t', c') ∧ t'.remaining cfg i < t.remaining cfg i := by
  cases t with
  | unspawned => exact absurd rfl hun
  | returned => exact absurd rfl hret
  | waiting =>
    refine ⟨.released, c, by simp [threadStep, hload rfl], ?_⟩
    simp only [Thread.remaining]
    omega
  | released =>
    by_cases h0 : cfg.share i = 0
    · refine ⟨.exiting, c, by simp [threadStep, h0], ?_⟩
      simp only [Thread.remaining]
      omega
    · refine ⟨.looping 0 0, c, by simp [threadStep, h0], ?_⟩
      simp only [Thread.remaining, Nat.sub_zero]
      omega
  | looping k j =>
    by_cases hk : k < cfg.numIterations
    · by_cases hj : j < cfg.share i
      · refine ⟨.looping k (j + 1), c, by simp [threadStep, hk, hj], ?_⟩
        simp only [Thread.remaining]
        omega
      · refine ⟨.looping (k + 1) 0, c, by simp [threadStep, hk, hj], ?_⟩
        have hl := loop_remaining (cfg.share i) hk
        simp only [Thread.remaining, Nat.sub_zero]
        omega
    · refine ⟨.exiting, c, by simp [threadStep, hk], ?_⟩
      simp only [Thread.remaining]
      omega
  | spawned | starting | started | exiting =>
    refine ⟨_, _, rfl, ?_⟩
    simp only [Thread.remaining]
    omega

theorem thread_progress {cfg : Config} {s : State} {i : ℕ} (hs : Inv cfg s)
    (hun : s.threads i ≠ .unspawned) (hret : s.threads i ≠ .returned)
    (hload : s.threads i = .waiting → s.startedThreads = cfg.threadCount) :
    ∃ a u, step cfg s a = some u ∧ remaining cfg u < remaining cfg s := by
  obtain ⟨t', c', ht, hlt⟩ := threadStep_progress cfg i s.startedThreads (s.threads i) hun hret hload
  exact ⟨.thread i, { s with startedThreads := c', threads := Function.update s.threads i t' },
    by simp [step, ht], remaining_update (hs.lt_of_spawned hun) hlt⟩

theorem joining_progress {cfg : Config} {s : State} (hs : Inv cfg s) {k : ℕ} (hm : s.main = .joining k) :
    ∃ a u, step cfg s a = some u ∧ remaining cfg u < remaining cfg s := by
  have hsp := hs.spawned
  simp only [Spawned, hm] at hsp
  have hex : ∀ j < cfg.threadCount, s.threads j ≠ .unspawned := by
    intro j hj hun
    have := (hsp j).1 hun
    omega
  by_cases hall : ∀ j < cfg.threadCount, s.threads j = .returned
  · by_cases hk : k < cfg.threadCount
    · refine ⟨.main, { s with main := .joining (k + 1) }, by simp [step, mainStep, hm, hk, hall k hk], ?_⟩
      simp only [remaining, Main.remaining, hm]
      omega
    · refine ⟨.main, { s with main := .finished }, by simp [step, mainStep, hm, hk], ?_⟩
      simp only [remaining, Main.remaining, hm]
      omega
  · push Not at hall
    obtain ⟨j, hj, hret⟩ := hall
    by_cases hmove : ∃ i < cfg.threadCount, s.threads i ≠ .returned ∧ s.threads i ≠ .waiting
    · obtain ⟨i, hi, hr, hw⟩ := hmove
      exact thread_progress hs (hex i hi) hr fun h => absurd h hw
    · -- every thread waits or has returned, so all have incremented and the load succeeds
      push Not at hmove
      have hinc : ∀ i < cfg.threadCount, (s.threads i).incremented = true := by
        intro i hi
        by_cases hr : s.threads i = .returned
        · rw [hr]; rfl
        · rw [hmove i hi hr]; rfl
      have hc : s.startedThreads = cfg.threadCount := hs.counter ▸ (tickets_eq_iff cfg s.threads).2 hinc
      exact thread_progress hs (hex j hj) hret fun _ => hc

theorem progress {cfg : Config} (s : State) (hs : Inv cfg s) (hf : s.main ≠ .finished) :
    ∃ a u, step cfg s a = some u ∧ remaining cfg u < remaining cfg s := by
  cases hm : s.main with
  | finished => exact absurd hm hf
  | joining k => exact joining_progress hs hm
  | spawning k =>
    have hsp := hs.spawned
    simp only [Spawned, hm] at hsp
    by_cases hk : k < cfg.threadCount
    · have hun : s.threads k = .unspawned := (hsp.2 k).2 le_rfl
      refine ⟨.main, { s with threads := Function.update s.threads k .spawned, main := .spawning (k + 1) },
        by simp [step, mainStep, hm, hk], ?_⟩
      have hu := sum_update (fun j t => t.remaining cfg j) s.threads cfg.threadCount k .spawned hk
      have hlt : Thread.spawned.remaining cfg k < Thread.unspawned.remaining cfg k := by
        simp only [Thread.remaining]
        omega
      rw [hun] at hu
      simp only [remaining, Main.remaining, hm]
      omega
    · refine ⟨.main, { s with main := .joining 0 }, by simp [step, mainStep, hm, hk], ?_⟩
      simp only [remaining, Main.remaining, hm]
      omega

def Joined (cfg : Config) (s : State) : Prop :=
  match s.main with
  | .spawning _ => True
  | .joining k => ∀ j < k, s.threads j = .returned
  | .finished => ∀ j < cfg.threadCount, s.threads j = .returned

theorem threads_returned {cfg : Config} {s u : State} {i : ℕ} (h : step cfg s (.thread i) = some u)
    {j : ℕ} (hj : s.threads j = .returned) : u.threads j = .returned := by
  obtain ⟨t', c', ht, rfl⟩ := step_thread_eq h
  by_cases hji : j = i
  · subst j
    rw [hj] at ht
    cases ht
  · simpa only [Function.update_of_ne hji] using hj

theorem step_joined {cfg : Config} (s : State) (a : Action) (u : State) (hs : Joined cfg s)
    (h : step cfg s a = some u) : Joined cfg u := by
  cases a with
  | main =>
    obtain ⟨k, hk, hm, rfl⟩ | ⟨k, hk, hm, rfl⟩ | ⟨k, hk, hm, hr, rfl⟩ | ⟨k, hk, hm, rfl⟩ :=
      step_main_eq h <;> simp only [Joined, hm] at hs ⊢
    · simp
    · intro j hj
      rcases Nat.lt_succ_iff_lt_or_eq.1 hj with hlt | rfl
      · exact hs j hlt
      · exact hr
    · exact fun j hj => hs j (by omega)
  | thread i =>
    have hm : u.main = s.main := by
      obtain ⟨t', c', -, rfl⟩ := step_thread_eq h
      rfl
    unfold Joined at hs ⊢
    rw [hm]
    split at hs
    · trivial
    all_goals exact fun j hj => threads_returned h (hs j hj)

theorem threadStep_incremented {cfg : Config} {i c c' : ℕ} {t t' : Thread}
    (h : threadStep cfg i c t = some (t', c')) (ht : t.incremented = true) : t'.incremented = true := by
  obtain ⟨rfl, -⟩ | ⟨-, -, rfl, -⟩ | ⟨-, -, rfl, -⟩ | ⟨-, hp, -⟩ | ⟨hn, -⟩ := threadStep_cases h
  · cases ht
  · rfl
  · rfl
  · exact incremented_of_pastBarrier hp
  · rw [hn] at ht
    cases ht

def AllIncremented (cfg : Config) (s : State) : Prop :=
  ∀ j < cfg.threadCount, (s.threads j).incremented = true

theorem step_allIncremented {cfg : Config} {s u : State} {a : Action} (hi : Inv cfg s)
    (hs : AllIncremented cfg s) (h : step cfg s a = some u) : AllIncremented cfg u := by
  intro j hj
  cases a with
  | main =>
    obtain ⟨k, hk, hm, rfl⟩ | ⟨k, hk, hm, rfl⟩ | ⟨k, hk, hm, hr, rfl⟩ | ⟨k, hk, hm, rfl⟩ := step_main_eq h
    · -- a thread that is still to be spawned has not incremented
      have hsp := hi.spawned
      simp only [Spawned, hm] at hsp
      have hinc := hs k hk
      rw [(hsp.2 k).2 le_rfl] at hinc
      cases hinc
    all_goals exact hs j hj
  | thread i =>
    obtain ⟨t', c', ht, rfl⟩ := step_thread_eq h
    by_cases hji : j = i
    · subst j
      simpa using threadStep_incremented ht (hs i hj)
    · simpa only [Function.update_of_ne hji] using hs j hj

/-- After the last increment every load returns `participant_count`. -/
theorem load_passes {cfg : Config} {s u : State} (hi : Inv cfg s) (hs : AllIncremented cfg s)
    (h : Reachable (step cfg) s u) {i : ℕ} (hw : u.threads i = .waiting) :
    u.startedThreads = cfg.threadCount ∧
      ∃ v, step cfg u (.thread i) = some v ∧ v.threads i = .released := by
  have hu : Inv cfg u ∧ AllIncremented cfg u :=
    h.invariant (fun s => Inv cfg s ∧ AllIncremented cfg s) ⟨hi, hs⟩
      fun s a u hs h => ⟨step_inv s a u hs.1 h, step_allIncremented hs.1 hs.2 h⟩
  have hc : u.startedThreads = cfg.threadCount :=
    hu.1.counter ▸ (tickets_eq_iff cfg u.threads).2 hu.2
  refine ⟨hc, { u with threads := Function.update u.threads i .released }, ?_, by simp⟩
  simp [step, hw, threadStep, hc]

theorem reaches_finished {cfg : Config} {s : State} (h : Reachable (step cfg) init s) :
    ∃ v, Reachable (step cfg) s v ∧ Finished cfg v := by
  obtain ⟨v, hv, hm⟩ := reaches_final (Inv cfg) (fun s => s.main = .finished) (remaining cfg)
    step_inv progress s (reachable_inv h)
  have hj : Joined cfg v := (h.trans hv).invariant (Joined cfg) trivial step_joined
  simp only [Joined, hm] at hj
  exact ⟨v, hv, hm, hj⟩

/-- Nobody logs or returns before all have run `on_thread_start`, the counter never
overshoots, a load after the last increment passes, and every state can be run to the end. -/
theorem start_barrier (cfg : Config) (s : State) (h : Reachable (step cfg) init s) :
    (∀ i, (s.threads i).pastBarrier = true →
      ∀ j < cfg.threadCount, (s.threads j).finishedStart = true) ∧
    s.startedThreads ≤ cfg.threadCount ∧
    (AllIncremented cfg s → ∀ u, Reachable (step cfg) s u → ∀ i, u.threads i = .waiting →
      u.startedThreads = cfg.threadCount ∧
        ∃ v, step cfg u (.thread i) = some v ∧ v.threads i = .released) ∧
    ∃ v, Reachable (step cfg) s v ∧ Finished cfg v := by
  have hi := reachable_inv h
  refine ⟨?_, hi.counter_le, fun hs u hu i hw => load_passes hi hs hu hw, reaches_finished h⟩
  intro i hp j hj
  exact finishedStart_of_incremented (hi.all_incremented (hi.barrier i hp) j hj)

/-- Two threads sharing one message: the second has nothing to log. -/
theorem start_barrier_idle_thread : ∃ s : State, s.startedThreads = 2 ∧
    ∃ v, Reachable (step (runBenchmark 2 1 1 (by decide) (by decide))) s v ∧
      Finished (runBenchmark 2 1 1 (by decide) (by decide)) v := by
  let cfg := runBenchmark 2 1 1 (by decide) (by decide)
  have hrun := run_of_exec (step cfg) init [.main, .main, .thread 0, .thread 0,
    .thread 0, .thread 0, .thread 1, .thread 1, .thread 1, .thread 1, .thread 1] rfl
  exact ⟨_, rfl, (start_barrier cfg _ ⟨_, hrun⟩).2.2.2⟩

end LoggerBenchmarks.LatencyStartBarrier
