import LoggerBenchmarks.LabelledRuns
import LoggerBenchmarks.ListUpdates
import Mathlib.Tactic.SplitIfs

set_option autoImplicit false

/-!
# A monitor: one mutex and its condition variables

Threads that share a value behind a mutex. A critical section may begin with a wait on a
condition variable for a condition on the value, and it may notify one after it has
released the mutex. Locking, the evaluation of the condition, the body, unlocking and the
notification are steps of their own, and a thread that sleeps may wake for no reason.
-/
namespace Monitors
open LabelledRuns

variable {σ κ τ ω : Type}

/-- A critical section of a thread: `body` gives the value and the thread afterwards. -/
structure Region (σ κ τ : Type) where
  waits : Option (κ × (σ → Bool))
  body : σ → σ × τ
  notifies : σ → Option κ

def Region.Open (r : Region σ κ τ) (shared : σ) : Prop := ∀ c guard, r.waits = some (c, guard) → guard shared = true

inductive Move (σ κ τ : Type) where
  | act
  | enter (region : Region σ κ τ)

structure Program (σ κ τ ω : Type) where
  move : τ → Move σ κ τ
  act : List τ → ω → τ → Option (ω × τ)

inductive Phase (κ : Type) where
  | out
  | asleep (c : κ)
  | woken
  | holding
  | ready
  | leaving (n : Option κ)
  | notifying (c : κ)
  deriving DecidableEq

structure State (σ κ τ ω : Type) where
  shared : σ
  mutex : Option ℕ
  threads : List (Phase κ × τ)
  world : ω

inductive Action where
  | lock
  | check
  | run
  | unlock
  | notify (woken : Option ℕ)
  | spurious
  | act
  deriving DecidableEq

section Step

variable [DecidableEq κ] (P : Program σ κ τ ω)

def lockStep (s : State σ κ τ ω) (i : ℕ) (t : τ) : Option (State σ κ τ ω) :=
  if s.mutex = none then some { s with mutex := some i, threads := s.threads.set i (.holding, t) } else none

/-- `notify_one`: one of the sleepers wakes, if there is one. -/
def notifyStep (s : State σ κ τ ω) (i : ℕ) (c : κ) (t : τ) : Option ℕ → Option (State σ κ τ ω)
  | none => if ∀ x ∈ s.threads, x.1 ≠ .asleep c then some { s with threads := s.threads.set i (.out, t) } else none
  | some j =>
    match s.threads[j]? with
    | some (.asleep d, u) => if d = c then some { s with threads := (s.threads.set i (.out, t)).set j (.woken, u) } else none
    | _ => none

def threadStep (s : State σ κ τ ω) (i : ℕ) (a : Action) (phase : Phase κ) (t : τ) : Option (State σ κ τ ω) :=
  match a, phase, P.move t with
  | .lock, .out, .enter _ => lockStep s i t
  | .lock, .woken, .enter _ => lockStep s i t
  | .check, .holding, .enter r =>
    match r.waits with
    | none => some { s with threads := s.threads.set i (.ready, t) }
    | some (c, guard) =>
      if guard s.shared then some { s with threads := s.threads.set i (.ready, t) }
      else some { s with mutex := none, threads := s.threads.set i (.asleep c, t) }
  | .run, .ready, .enter r =>
    some { s with shared := (r.body s.shared).1, threads := s.threads.set i (.leaving (r.notifies s.shared), (r.body s.shared).2) }
  | .unlock, .leaving n, _ => some { s with mutex := none, threads := s.threads.set i (n.elim .out .notifying, t) }
  | .notify woken, .notifying c, _ => notifyStep s i c t woken
  | .spurious, .asleep _, _ => some { s with threads := s.threads.set i (.woken, t) }
  | .act, .out, .act =>
    (P.act (s.threads.map Prod.snd) s.world t).map fun done => { s with threads := s.threads.set i (.out, done.2), world := done.1 }
  | _, _, _ => none

def step (s : State σ κ τ ω) (label : ℕ × Action) : Option (State σ κ τ ω) :=
  s.threads[label.1]?.bind fun x => threadStep P s label.1 label.2 x.1 x.2

inductive Taken (s : State σ κ τ ω) (i : ℕ) : Action → State σ κ τ ω → Prop where
  | lock {phase : Phase κ} {t : τ} {r : Region σ κ τ} (h : s.threads[i]? = some (phase, t)) (hphase : phase = .out ∨ phase = .woken)
      (hmove : P.move t = .enter r) (hfree : s.mutex = none) :
      Taken s i .lock { s with mutex := some i, threads := s.threads.set i (.holding, t) }
  | enter {t : τ} {r : Region σ κ τ} (h : s.threads[i]? = some (.holding, t)) (hmove : P.move t = .enter r)
      (hopen : r.Open s.shared) :
      Taken s i .check { s with threads := s.threads.set i (.ready, t) }
  | sleep {t : τ} {r : Region σ κ τ} {c : κ} {guard : σ → Bool} (h : s.threads[i]? = some (.holding, t))
      (hmove : P.move t = .enter r) (hwaits : r.waits = some (c, guard)) (hguard : guard s.shared = false) :
      Taken s i .check { s with mutex := none, threads := s.threads.set i (.asleep c, t) }
  | run {t : τ} {r : Region σ κ τ} (h : s.threads[i]? = some (.ready, t)) (hmove : P.move t = .enter r) :
      Taken s i .run { s with shared := (r.body s.shared).1
                              threads := s.threads.set i (.leaving (r.notifies s.shared), (r.body s.shared).2) }
  | unlock {n : Option κ} {t : τ} (h : s.threads[i]? = some (.leaving n, t)) :
      Taken s i .unlock { s with mutex := none, threads := s.threads.set i (n.elim .out .notifying, t) }
  | notifyNone {c : κ} {t : τ} (h : s.threads[i]? = some (.notifying c, t)) (hnone : ∀ x ∈ s.threads, x.1 ≠ .asleep c) :
      Taken s i (.notify none) { s with threads := s.threads.set i (.out, t) }
  | notifyOne {c : κ} {t u : τ} {j : ℕ} (h : s.threads[i]? = some (.notifying c, t)) (hj : s.threads[j]? = some (.asleep c, u)) :
      Taken s i (.notify (some j)) { s with threads := (s.threads.set i (.out, t)).set j (.woken, u) }
  | spurious {c : κ} {t : τ} (h : s.threads[i]? = some (.asleep c, t)) :
      Taken s i .spurious { s with threads := s.threads.set i (.woken, t) }
  | act {t t' : τ} {w : ω} (h : s.threads[i]? = some (.out, t)) (hmove : P.move t = .act)
      (hact : P.act (s.threads.map Prod.snd) s.world t = some (w, t')) :
      Taken s i .act { s with threads := s.threads.set i (.out, t'), world := w }

variable {P}

theorem taken_of_step {s u : State σ κ τ ω} {i : ℕ} {a : Action} (h : step P s (i, a) = some u) : Taken P s i a u := by
  obtain ⟨⟨phase, t⟩, hi, hs⟩ := Option.bind_eq_some_iff.1 h
  dsimp only at hi hs
  unfold threadStep at hs
  split at hs
  · rename_i hmove
    unfold lockStep at hs
    split_ifs at hs with hfree
    cases hs
    exact .lock hi (.inl rfl) hmove hfree
  · rename_i hmove
    unfold lockStep at hs
    split_ifs at hs with hfree
    cases hs
    exact .lock hi (.inr rfl) hmove hfree
  · rename_i r hmove
    split at hs
    · rename_i hwaits
      cases hs
      refine .enter hi hmove fun c guard hsome => ?_
      rw [hwaits] at hsome
      cases hsome
    · rename_i c guard hwaits
      split_ifs at hs with hguard
      · cases hs
        refine .enter hi hmove fun d guard' hsome => ?_
        rw [hwaits] at hsome
        cases hsome
        exact hguard
      · cases hs
        exact .sleep hi hmove hwaits (Bool.eq_false_iff.2 hguard)
  · rename_i hmove
    cases hs
    exact .run hi hmove
  · cases hs
    exact .unlock hi
  · rename_i woken c _
    unfold notifyStep at hs
    split at hs
    · split_ifs at hs with hnone
      cases hs
      exact .notifyNone hi hnone
    · split at hs
      · rename_i d u hj
        split_ifs at hs with hd
        cases hs
        subst hd
        exact .notifyOne hi hj
      · cases hs
  · cases hs
    exact .spurious hi
  · rename_i hmove
    obtain ⟨⟨w, t'⟩, hact, rfl⟩ := Option.map_eq_some_iff.1 hs
    exact .act hi hmove hact
  · cases hs

theorem step_of_taken {s u : State σ κ τ ω} {i : ℕ} {a : Action} (h : Taken P s i a u) : step P s (i, a) = some u := by
  unfold step
  cases h with
  | lock h hphase hmove hfree =>
    rw [h]
    obtain rfl | rfl := hphase
    all_goals
      simp only [Option.bind_some, threadStep, hmove, lockStep, hfree, if_true]
  | @enter t r h hmove hguard =>
    rw [h]
    simp only [Option.bind_some, threadStep, hmove]
    split
    · rfl
    · rename_i c guard hwaits
      rw [if_pos (hguard c guard hwaits)]
  | sleep h hmove hwaits hguard =>
    rw [h]
    simp only [Option.bind_some, threadStep, hmove, hwaits, hguard, Bool.false_eq_true, if_false]
  | run h hmove =>
    rw [h]
    simp only [Option.bind_some, threadStep, hmove]
  | unlock h =>
    rw [h]
    simp only [Option.bind_some, threadStep]
  | notifyNone h hnone =>
    rw [h]
    simp only [Option.bind_some, threadStep, notifyStep]
    rw [if_pos hnone]
  | notifyOne h hj =>
    rw [h]
    simp only [Option.bind_some, threadStep, notifyStep, hj, if_true]
  | spurious h =>
    rw [h]
    simp only [Option.bind_some, threadStep]
  | act h hmove hact =>
    rw [h]
    simp only [Option.bind_some, threadStep, hmove, hact, Option.map_some]

end Step

def Phase.inside : Phase κ → Bool
  | .holding | .ready | .leaving _ => true
  | _ => false

def Program.waitsOn (P : Program σ κ τ ω) (t : τ) : Option κ :=
  match P.move t with
  | .enter r => r.waits.map Prod.fst
  | .act => none

/-- What a thread that has begun its critical section stands before. A thread that has
found its condition still finds it: nobody else can change the value. -/
def Entering (P : Program σ κ τ ω) (shared : σ) : Phase κ → τ → Prop
  | .asleep c, t => P.waitsOn t = some c
  | .woken, t | .holding, t => ∃ r, P.move t = .enter r
  | .ready, t => ∃ r, P.move t = .enter r ∧ r.Open shared
  | _, _ => True

structure Exclusive (P : Program σ κ τ ω) (s : State σ κ τ ω) : Prop where
  owner : ∀ (i : ℕ) (x : Phase κ × τ), s.threads[i]? = some x → (x.1.inside = true ↔ s.mutex = some i)
  held : ∀ i, s.mutex = some i → i < s.threads.length
  entering : ∀ (i : ℕ) (x : Phase κ × τ), s.threads[i]? = some x → Entering P s.shared x.1 x.2

def start (shared : σ) (threads : List τ) (world : ω) : State σ κ τ ω where
  shared := shared
  mutex := none
  threads := threads.map fun t => (.out, t)
  world := world

section Invariant

variable {P : Program σ κ τ ω} {s u : State σ κ τ ω} {i : ℕ} {a : Action}

theorem exclusive_start (shared : σ) (threads : List τ) (world : ω) : Exclusive P (start shared threads world) := by
  refine ⟨fun i x hx => ?_, nofun, fun i x hx => ?_⟩
  · rw [start, List.getElem?_map] at hx
    obtain ⟨t, -, rfl⟩ := Option.map_eq_some_iff.1 hx
    exact ⟨nofun, nofun⟩
  · rw [start, List.getElem?_map] at hx
    obtain ⟨t, -, rfl⟩ := Option.map_eq_some_iff.1 hx
    trivial

theorem waitsOn_enter {t : τ} {c : κ} (h : P.waitsOn t = some c) :
    ∃ r guard, P.move t = .enter r ∧ r.waits = some (c, guard) := by
  unfold Program.waitsOn at h
  split at h
  · rename_i r hmove
    obtain ⟨⟨d, guard⟩, hwaits, rfl⟩ := Option.map_eq_some_iff.1 h
    exact ⟨r, guard, hmove, hwaits⟩
  · cases h

theorem waitsOn_eq {t : τ} {r : Region σ κ τ} (h : P.move t = .enter r) : P.waitsOn t = r.waits.map Prod.fst := by
  rw [Program.waitsOn, h]

theorem waitsOn_act {t : τ} (h : P.move t = .act) : P.waitsOn t = none := by
  rw [Program.waitsOn, h]

theorem ready_open (h : Exclusive P s) {t : τ} {r : Region σ κ τ} (hi : s.threads[i]? = some (.ready, t)) (hmove : P.move t = .enter r) :
    r.Open s.shared := by
  obtain ⟨r', hmove', hopen⟩ := h.entering i _ hi
  cases hmove.symm.trans hmove'
  exact hopen

/-- One thread moves on; the value changes only in the hands of the mutex's owner. -/
theorem exclusive_set (h : Exclusive P s) {x y : Phase κ × τ} {shared : σ} {mutex : Option ℕ} {world : ω} (hx : s.threads[i]? = some x)
    (hentering : Entering P shared y.1 y.2) (howner : y.1.inside = true ↔ mutex = some i)
    (hothers : ∀ j, j ≠ i → (mutex = some j ↔ s.mutex = some j)) (hshared : shared = s.shared ∨ s.mutex = some i) :
    Exclusive P { shared := shared, mutex := mutex, threads := s.threads.set i y, world := world } := by
  refine ⟨fun j z hz => ?_, fun j hj => ?_, fun j z hz => ?_⟩
  · obtain ⟨rfl, rfl⟩ | ⟨hne, hz⟩ := ListUpdates.get_set_cases hz
    · exact howner
    · exact (h.owner j z hz).trans (hothers j hne).symm
  · rw [List.length_set]
    by_cases hne : j = i
    · rw [hne]
      exact (List.getElem?_eq_some_iff.1 hx).1
    · exact h.held j ((hothers j hne).1 hj)
  · obtain ⟨rfl, rfl⟩ | ⟨hne, hold⟩ := ListUpdates.get_set_cases hz
    · exact hentering
    · have hentered := h.entering j z hold
      obtain rfl | howns := hshared
      · exact hentered
      · have hout : z.1.inside = false := by
          rw [Bool.eq_false_iff]
          intro hinside
          exact hne (Option.some.inj (((h.owner j z hold).1 hinside).symm.trans howns))
        obtain ⟨phase, t⟩ := z
        cases phase with
        | ready => cases hout
        | _ => exact hentered

variable [DecidableEq κ]

theorem exclusive_step (h : Exclusive P s) (hs : step P s (i, a) = some u) : Exclusive P u := by
  cases taken_of_step hs with
  | @lock phase t r hi hphase hmove hfree =>
    refine exclusive_set h hi ⟨r, hmove⟩ ⟨fun _ => rfl, fun _ => rfl⟩ (fun j hne => ?_) (.inl rfl)
    rw [hfree]
    exact ⟨fun heq => absurd (Option.some.inj heq).symm hne, nofun⟩
  | @enter t r hi hmove hguard =>
    have howner := h.owner i _ hi
    exact exclusive_set h hi ⟨r, hmove, hguard⟩ howner (fun _ _ => .rfl) (.inl rfl)
  | @sleep t r c guard hi hmove hwaits hguard =>
    have howns := (h.owner i _ hi).1 rfl
    refine exclusive_set h hi (show P.waitsOn t = some c by rw [waitsOn_eq hmove, hwaits]; rfl) ⟨nofun, nofun⟩ (fun j hne => ?_) (.inl rfl)
    rw [howns]
    exact ⟨nofun, fun heq => absurd (Option.some.inj heq).symm hne⟩
  | @run t r hi hmove =>
    have howner := h.owner i _ hi
    exact exclusive_set h hi trivial howner (fun _ _ => .rfl) (.inr (howner.1 rfl))
  | @unlock n t hi =>
    have howns := (h.owner i _ hi).1 rfl
    refine exclusive_set h hi (by cases n <;> trivial) (by cases n <;> exact ⟨nofun, nofun⟩) (fun j hne => ?_) (.inl rfl)
    rw [howns]
    exact ⟨nofun, fun heq => absurd (Option.some.inj heq).symm hne⟩
  | @notifyNone c t hi hnone =>
    have howner := h.owner i _ hi
    exact exclusive_set h hi trivial howner (fun _ _ => .rfl) (.inl rfl)
  | @notifyOne c t v j hi hj =>
    have hne : j ≠ i := by
      rintro rfl
      cases hi.symm.trans hj
    obtain ⟨r, guard, hmove, -⟩ := waitsOn_enter (h.entering j _ hj)
    have howner := h.owner i _ hi
    have hmiddle : Exclusive P { s with threads := s.threads.set i (.out, t) } :=
      exclusive_set h hi trivial howner (fun _ _ => .rfl) (.inl rfl)
    have hj' : (s.threads.set i (.out, t))[j]? = some (.asleep c, v) := by rw [List.getElem?_set_ne hne.symm, hj]
    have hwoken := hmiddle.owner j _ hj'
    exact exclusive_set hmiddle hj' ⟨r, hmove⟩ hwoken (fun _ _ => .rfl) (.inl rfl)
  | @spurious c t hi =>
    obtain ⟨r, guard, hmove, -⟩ := waitsOn_enter (h.entering i _ hi)
    have howner := h.owner i _ hi
    exact exclusive_set h hi ⟨r, hmove⟩ howner (fun _ _ => .rfl) (.inl rfl)
  | @act t t' w hi hmove hact =>
    have howner := h.owner i _ hi
    exact exclusive_set h hi trivial howner (fun _ _ => .rfl) (.inl rfl)

theorem exclusive_reachable (h : Exclusive P s) (hs : Reachable (step P) s u) : Exclusive P u :=
  hs.invariant (Exclusive P) h fun _ _ _ hs' hstep => exclusive_step hs' hstep

end Invariant

/-- The monitor without its mechanism: each critical section is one step, taken when its
condition holds. -/
structure Core (σ τ ω : Type) where
  shared : σ
  threads : List τ
  world : ω

def State.core (s : State σ κ τ ω) : Core σ τ ω := ⟨s.shared, s.threads.map Prod.snd, s.world⟩

def atomicStep (P : Program σ κ τ ω) (s : Core σ τ ω) (i : ℕ) : Option (Core σ τ ω) :=
  s.threads[i]?.bind fun t =>
    match P.move t with
    | .act => (P.act s.threads s.world t).map fun done => { s with threads := s.threads.set i done.2, world := done.1 }
    | .enter r =>
      if r.waits.all fun w => w.2 s.shared then
        some { s with shared := (r.body s.shared).1, threads := s.threads.set i (r.body s.shared).2 }
      else none

section Refinement

variable {P : Program σ κ τ ω} {s u : State σ κ τ ω} {i : ℕ} {a : Action}

theorem core_set {x : Phase κ × τ} {phase : Phase κ} {shared : σ} {mutex : Option ℕ} {world : ω} (hx : s.threads[i]? = some x) :
    (State.core { shared := shared, mutex := mutex, threads := s.threads.set i (phase, x.2), world := world } : Core σ τ ω) =
      ⟨shared, s.core.threads, world⟩ := by
  have hmap : (s.threads.set i (phase, x.2)).map Prod.snd = s.threads.map Prod.snd := ListUpdates.map_set_same hx rfl
  simp only [State.core, hmap]

variable [DecidableEq κ]

theorem core_step (h : Exclusive P s) (hs : step P s (i, a) = some u) : u.core = s.core ∨ atomicStep P s.core i = some u.core := by
  cases taken_of_step hs with
  | lock hi _ _ _ => exact .inl (core_set hi)
  | enter hi _ _ => exact .inl (core_set hi)
  | sleep hi _ _ _ => exact .inl (core_set hi)
  | @run t r hi hmove =>
    refine .inr ?_
    have hopen := ready_open h hi hmove
    have ht : s.core.threads[i]? = some t := by rw [State.core, List.getElem?_map, hi]; rfl
    have hall : (r.waits.all fun w => w.2 s.core.shared) = true := by
      cases hwaits : r.waits with
      | none => rfl
      | some w => exact hopen w.1 w.2 hwaits
    rw [atomicStep, ht, Option.bind_some, hmove]
    dsimp only
    rw [if_pos hall]
    simp only [State.core, List.map_set]
  | unlock hi => exact .inl (core_set hi)
  | notifyNone hi _ => exact .inl (core_set hi)
  | @notifyOne c t v j hi hj =>
    have hne : i ≠ j := by
      rintro rfl
      cases hi.symm.trans hj
    refine .inl ?_
    have hj' : (s.threads.set i (.out, t))[j]? = some (.asleep c, v) := by rw [List.getElem?_set_ne hne, hj]
    exact (core_set (s := { s with threads := s.threads.set i (.out, t) }) hj').trans (core_set hi)
  | spurious hi => exact .inl (core_set hi)
  | @act t t' w hi hmove hact =>
    refine .inr ?_
    have ht : s.core.threads[i]? = some t := by rw [State.core, List.getElem?_map, hi]; rfl
    rw [atomicStep, ht, Option.bind_some, hmove]
    change (P.act (s.threads.map Prod.snd) s.world t).map _ = _
    rw [hact]
    simp only [State.core, Option.map_some, List.map_set]

/-- What the threads do under the mutex is a sequence of undivided critical sections. -/
theorem reachable_core (h : Exclusive P s) (hs : Reachable (step P) s u) : Reachable (atomicStep P) s.core u.core := by
  refine (hs.invariant (fun v => Exclusive P v ∧ Reachable (atomicStep P) s.core v.core) ⟨h, .refl _⟩ fun v label w hv hstep => ?_).2
  refine ⟨exclusive_step hv.1 hstep, ?_⟩
  obtain heq | hatomic := core_step hv.1 hstep
  · rw [heq]
    exact hv.2
  · exact hv.2.tail hatomic

end Refinement

/-- What there is for the waiters of each condition variable: a waiter's condition holds as
long as there is something, its body takes one, and whoever adds one notifies. -/
structure Counted (P : Program σ κ τ ω) (units : κ → σ → ℕ) : Prop where
  guarded : ∀ {t : τ} {r : Region σ κ τ} {c : κ} {guard : σ → Bool} (shared : σ), P.move t = .enter r → r.waits = some (c, guard) →
    (guard shared = true ↔ 0 < units c shared)
  lowered : ∀ {t : τ} {r : Region σ κ τ} {c : κ} {guard : σ → Bool} {shared : σ}, P.move t = .enter r → r.waits = some (c, guard) →
    guard shared = true → units c (r.body shared).1 + 1 ≤ units c shared
  raised : ∀ {t : τ} {r : Region σ κ τ} (c : κ) (shared : σ), P.move t = .enter r → r.Open shared →
    units c (r.body shared).1 ≤ units c shared ∨ units c (r.body shared).1 = units c shared + 1 ∧ r.notifies shared = some c

section Wakeups

variable [DecidableEq κ] (P : Program σ κ τ ω) (c : κ)

def awaiting (x : Phase κ × τ) : Bool :=
  match x.1 with
  | .out | .woken | .holding | .ready => P.waitsOn x.2 = some c
  | _ => false

def bringing (x : Phase κ × τ) : Bool := x.1 = .leaving (some c) ∨ x.1 = .notifying c

def coming (threads : List (Phase κ × τ)) : ℕ := threads.countP (awaiting P c) + threads.countP (bringing c)

/-- No wake-up is lost: while somebody sleeps, somebody comes for each unit. -/
def Woken (units : κ → σ → ℕ) (s : State σ κ τ ω) : Prop :=
  ∀ c, (∃ x ∈ s.threads, x.1 = .asleep c) → units c s.shared ≤ coming P c s.threads

variable {P c}

variable (P c) in
theorem coming_set {threads : List (Phase κ × τ)} {i : ℕ} {x : Phase κ × τ} (y : Phase κ × τ) (hx : threads[i]? = some x) :
    coming P c (threads.set i y) + ((if awaiting P c x then 1 else 0) + if bringing c x then 1 else 0) =
      coming P c threads + ((if awaiting P c y then 1 else 0) + if bringing c y then 1 else 0) := by
  have hawaiting := ListUpdates.countP_set (y := y) (p := awaiting P c) hx
  have hbringing := ListUpdates.countP_set (y := y) (p := bringing c) hx
  unfold coming
  omega

omit [DecidableEq κ] in
theorem asleep_set {threads : List (Phase κ × τ)} {i : ℕ} {y : Phase κ × τ} (hy : y.1 ≠ .asleep c)
    (h : ∃ z ∈ threads.set i y, z.1 = .asleep c) : ∃ z ∈ threads, z.1 = .asleep c := by
  obtain ⟨z, hz, hasleep⟩ := h
  obtain hz | rfl := List.mem_or_eq_of_mem_set hz
  · exact ⟨z, hz, hasleep⟩
  · exact absurd hasleep hy

/-- A thread that takes nothing and brings as much as it did. -/
theorem woken_set {units : κ → σ → ℕ} {s : State σ κ τ ω} (h : Woken P units s) {i : ℕ} {x y : Phase κ × τ} {mutex : Option ℕ}
    {world : ω} (hx : s.threads[i]? = some x) (hy : ∀ d, y.1 ≠ .asleep d)
    (hcoming : ∀ d, (if awaiting P d x then 1 else 0) + (if bringing d x then 1 else 0) ≤
      (if awaiting P d y then 1 else 0) + if bringing d y then 1 else 0) :
    Woken P units { shared := s.shared, mutex := mutex, threads := s.threads.set i y, world := world } := by
  intro d hd
  have hold := h d (asleep_set (hy d) hd)
  have hset := coming_set P d y hx
  have hle := hcoming d
  dsimp only
  omega

/-- Who goes to sleep has found nothing. -/
theorem woken_sleep {units : κ → σ → ℕ} (hcounted : Counted P units) {s : State σ κ τ ω} {i : ℕ} {t : τ} {r : Region σ κ τ}
    {c : κ} {guard : σ → Bool} (h : Woken P units s) (hi : s.threads[i]? = some (.holding, t)) (hmove : P.move t = .enter r)
    (hwaits : r.waits = some (c, guard)) (hguard : guard s.shared = false) :
    Woken P units { s with mutex := none, threads := s.threads.set i (.asleep c, t) } := by
  intro d hd
  dsimp only
  by_cases hdc : d = c
  · subst hdc
    have hzero : ¬ 0 < units d s.shared := fun hpos => by
      rw [(hcounted.guarded s.shared hmove hwaits).2 hpos] at hguard
      cases hguard
    omega
  · have hold := h d (asleep_set (fun heq => hdc (Phase.asleep.inj heq).symm) hd)
    have hset := coming_set P d (.asleep c, t) hi
    have hnot : awaiting P d (.holding, t) = false := by
      simp only [awaiting, waitsOn_eq hmove, hwaits, Option.map_some, Option.some.injEq, Ne.symm hdc, decide_false]
    rw [hnot] at hset
    simp only [awaiting, bringing, reduceCtorEq, decide_false, Bool.false_eq_true, if_false, or_self, Nat.add_zero] at hset
    omega

/-- Who waited has taken a unit, and who has added one notifies. -/
theorem woken_run {units : κ → σ → ℕ} (hcounted : Counted P units) {s : State σ κ τ ω} {i : ℕ} {t : τ} {r : Region σ κ τ}
    (hexclusive : Exclusive P s) (h : Woken P units s) (hi : s.threads[i]? = some (.ready, t)) (hmove : P.move t = .enter r) :
    Woken P units { s with
      shared := (r.body s.shared).1
      threads := s.threads.set i (.leaving (r.notifies s.shared), (r.body s.shared).2) } := by
  intro d hd
  have hold := h d (asleep_set (by nofun) hd)
  have hset := coming_set P d (.leaving (r.notifies s.shared), (r.body s.shared).2) hi
  have hopen := ready_open hexclusive hi hmove
  have hraised := hcounted.raised d s.shared hmove hopen
  have hbefore : bringing d ((.ready, t) : Phase κ × τ) = false := by
    simp only [bringing, reduceCtorEq, or_self, decide_false]
  rw [hbefore] at hset
  dsimp only
  by_cases hwaiting : P.waitsOn t = some d
  · obtain ⟨r', guard, hmove', hwaits⟩ := waitsOn_enter hwaiting
    obtain rfl : r = r' := by
      cases hmove.symm.trans hmove'
      rfl
    have hlowered := hcounted.lowered hmove hwaits (hopen d guard hwaits)
    have hone : (if awaiting P d (.ready, t) then 1 else 0) ≤ 1 := by split_ifs <;> omega
    simp only [Bool.false_eq_true, if_false] at hset
    omega
  · have hnot : awaiting P d (.ready, t) = false := by
      simp only [awaiting, hwaiting, decide_false]
    rw [hnot] at hset
    obtain hle | ⟨hone, hnotifies⟩ := hraised
    · simp only [Bool.false_eq_true, if_false] at hset
      omega
    · have hbrings : bringing d ((.leaving (r.notifies s.shared), (r.body s.shared).2) : Phase κ × τ) = true := by
        simp only [bringing, hnotifies, reduceCtorEq, or_false, decide_true]
      rw [hbrings] at hset
      simp only [Bool.false_eq_true, if_false, if_true] at hset
      omega

theorem woken_notifyNone {units : κ → σ → ℕ} {s : State σ κ τ ω} {i : ℕ} {c : κ} {t : τ} (h : Woken P units s)
    (hi : s.threads[i]? = some (.notifying c, t)) (hnone : ∀ x ∈ s.threads, x.1 ≠ .asleep c) :
    Woken P units { s with threads := s.threads.set i (.out, t) } := by
  intro d hd
  have hasleep := asleep_set (by nofun) hd
  have hdc : d ≠ c := by
    rintro rfl
    obtain ⟨x, hx, hsleeps⟩ := hasleep
    exact hnone x hx hsleeps
  have hold := h d hasleep
  have hset := coming_set P d (.out, t) hi
  simp only [awaiting, bringing, reduceCtorEq, Phase.notifying.injEq, Ne.symm hdc, or_self, decide_false, Bool.false_eq_true, if_false] at hset
  dsimp only
  omega

/-- The thread that wakes takes the place of the notification. -/
theorem woken_notifyOne {units : κ → σ → ℕ} {s : State σ κ τ ω} {i j : ℕ} {c : κ} {t v : τ} (hexclusive : Exclusive P s)
    (h : Woken P units s) (hi : s.threads[i]? = some (.notifying c, t)) (hj : s.threads[j]? = some (.asleep c, v)) :
    Woken P units { s with threads := (s.threads.set i (.out, t)).set j (.woken, v) } := by
  intro d hd
  have hne : i ≠ j := by
    rintro rfl
    cases hi.symm.trans hj
  have hj' : (s.threads.set i (.out, t))[j]? = some (.asleep c, v) := by rw [List.getElem?_set_ne hne, hj]
  have hold := h d (asleep_set (by nofun) (asleep_set (by nofun) hd))
  have hfirst := coming_set P d (.out, t) hi
  have hsecond := coming_set P d (.woken, v) hj'
  have hwaiting := hexclusive.entering j _ hj
  dsimp only [Entering] at hwaiting
  have hplace : (if bringing d ((.notifying c, t) : Phase κ × τ) then 1 else 0) ≤ if awaiting P d (.woken, v) then 1 else 0 := by
    simp only [bringing, awaiting, reduceCtorEq, Phase.notifying.injEq, false_or, hwaiting, Option.some.injEq, Nat.le_refl]
  have hbefore : awaiting P d (.notifying c, t) = false := rfl
  have hasleep : awaiting P d (.asleep c, v) = false := rfl
  have hbrought : bringing d ((.asleep c, v) : Phase κ × τ) = false := by
    simp only [bringing, reduceCtorEq, or_self, decide_false]
  rw [hbefore] at hfirst
  rw [hasleep, hbrought] at hsecond
  simp only [Bool.false_eq_true, if_false] at hfirst hsecond
  dsimp only
  omega

theorem woken_step {units : κ → σ → ℕ} (hcounted : Counted P units) {s u : State σ κ τ ω} {i : ℕ} {a : Action}
    (hexclusive : Exclusive P s) (h : Woken P units s) (hs : step P s (i, a) = some u) : Woken P units u := by
  cases taken_of_step hs with
  | @lock phase t r hi hphase hmove hfree =>
    refine woken_set h hi nofun fun d => ?_
    obtain rfl | rfl := hphase <;> exact Nat.le_refl _
  | enter hi hmove hguard => exact woken_set h hi nofun fun d => Nat.le_refl _
  | sleep hi hmove hwaits hguard => exact woken_sleep hcounted h hi hmove hwaits hguard
  | run hi hmove => exact woken_run hcounted hexclusive h hi hmove
  | @unlock n t hi =>
    refine woken_set h hi (by cases n <;> nofun) fun d => ?_
    cases n with
    | none => exact Nat.zero_le _
    | some c =>
      have hsame : bringing d ((.leaving (some c), t) : Phase κ × τ) = bringing d ((.notifying c, t) : Phase κ × τ) := by
        simp only [bringing, Phase.leaving.injEq, Option.some.injEq, reduceCtorEq, or_false, Phase.notifying.injEq, false_or]
      rw [hsame]
      exact Nat.le_refl _
  | notifyNone hi hnone => exact woken_notifyNone h hi hnone
  | notifyOne hi hj => exact woken_notifyOne hexclusive h hi hj
  | spurious hi =>
    refine woken_set h hi nofun fun d => ?_
    simp only [awaiting, bringing, reduceCtorEq, or_self, decide_false, Bool.false_eq_true, if_false, Nat.add_zero, Nat.zero_le]
  | @act t t' w hi hmove hact =>
    refine woken_set h hi nofun fun d => ?_
    simp only [awaiting, waitsOn_act hmove, bringing, reduceCtorEq, or_self, decide_false, Bool.false_eq_true, if_false, Nat.add_zero, Nat.zero_le]

theorem woken_start (units : κ → σ → ℕ) (shared : σ) (threads : List τ) (world : ω) : Woken P units (start shared threads world) := by
  rintro c ⟨x, hx, hasleep⟩
  obtain ⟨t, -, rfl⟩ := List.mem_map.1 hx
  cases hasleep

end Wakeups

/-- No thread can go on; a sleeper may still wake for no reason. -/
def Stuck [DecidableEq κ] (P : Program σ κ τ ω) (s : State σ κ τ ω) : Prop := ∀ i a, a ≠ .spurious → step P s (i, a) = none

section Progress

variable [DecidableEq κ] {P : Program σ κ τ ω} {s u : State σ κ τ ω}

theorem stuck_not_taken (h : Stuck P s) {i : ℕ} {a : Action} (htaken : Taken P s i a u) (ha : a ≠ .spurious) : False := by
  cases (h i a ha).symm.trans (step_of_taken htaken)

theorem stuck_free (h : Stuck P s) (hexclusive : Exclusive P s) : s.mutex = none := by
  cases hmutex : s.mutex with
  | none => rfl
  | some i =>
    exfalso
    obtain ⟨⟨phase, t⟩, hi⟩ : ∃ x, s.threads[i]? = some x := ⟨_, List.getElem?_eq_getElem (hexclusive.held i hmutex)⟩
    have hentering := hexclusive.entering i _ hi
    cases phase with
    | holding =>
      obtain ⟨r, hmove⟩ := hentering
      cases hwaits : r.waits with
      | none =>
        refine stuck_not_taken h (.enter hi hmove fun c guard hsome => ?_) nofun
        rw [hwaits] at hsome
        cases hsome
      | some w =>
        obtain ⟨c, guard⟩ := w
        cases hguard : guard s.shared with
        | false => exact stuck_not_taken h (.sleep hi hmove hwaits hguard) nofun
        | true =>
          refine stuck_not_taken h (.enter hi hmove fun d guard' hsome => ?_) nofun
          rw [hwaits] at hsome
          cases hsome
          exact hguard
    | ready =>
      obtain ⟨r, hmove, -⟩ := hentering
      exact stuck_not_taken h (.run hi hmove) nofun
    | leaving n => exact stuck_not_taken h (.unlock hi) nofun
    | out | asleep c | woken | notifying c => cases (hexclusive.owner i _ hi).2 hmutex

/-- In a stuck state a thread has nothing to do or sleeps, and its condition is false. -/
theorem stuck_thread (units : κ → σ → ℕ) (h : Stuck P s) (hexclusive : Exclusive P s) {i : ℕ} {x : Phase κ × τ}
    (hx : s.threads[i]? = some x) :
    x.1 = .out ∧ P.move x.2 = .act ∧ P.act (s.threads.map Prod.snd) s.world x.2 = none ∨
      ∃ c, x.1 = .asleep c ∧ P.waitsOn x.2 = some c ∧ (Woken P units s → units c s.shared = 0) := by
  have hfree := stuck_free h hexclusive
  have hphase : ∀ (j : ℕ) (y : Phase κ × τ), s.threads[j]? = some y →
      y.1 = .out ∧ P.move y.2 = .act ∧ P.act (s.threads.map Prod.snd) s.world y.2 = none ∨
        ∃ c, y.1 = .asleep c ∧ P.waitsOn y.2 = some c := by
    rintro j ⟨phase, t⟩ hj
    have hentering := hexclusive.entering j _ hj
    have howner := hexclusive.owner j _ hj
    rw [hfree] at howner
    cases phase with
    | out =>
      cases hmove : P.move t with
      | enter r => exact (stuck_not_taken h (.lock hj (.inl rfl) hmove hfree) nofun).elim
      | act =>
        cases hact : P.act (s.threads.map Prod.snd) s.world t with
        | none => exact .inl ⟨rfl, rfl, rfl⟩
        | some done => exact (stuck_not_taken h (.act hj hmove hact) nofun).elim
    | asleep c => exact .inr ⟨c, rfl, hentering⟩
    | woken =>
      obtain ⟨r, hmove⟩ := hentering
      exact (stuck_not_taken h (.lock hj (.inr rfl) hmove hfree) nofun).elim
    | holding | ready | leaving n => cases howner.1 rfl
    | notifying c =>
      exfalso
      by_cases hsleeper : ∃ y ∈ s.threads, y.1 = .asleep c
      · obtain ⟨⟨_, v⟩, hv, rfl⟩ := hsleeper
        obtain ⟨k, hk⟩ := List.mem_iff_getElem?.1 hv
        exact stuck_not_taken h (.notifyOne hj hk) nofun
      · exact stuck_not_taken h (.notifyNone hj fun y hy hasleep => hsleeper ⟨y, hy, hasleep⟩) nofun
  obtain hout | ⟨c, hasleep, hwaits⟩ := hphase i x hx
  · exact .inl hout
  · refine .inr ⟨c, hasleep, hwaits, fun hwoken => ?_⟩
    have hcoming := hwoken c ⟨x, List.mem_of_getElem? hx, hasleep⟩
    have hnobody : ∀ y ∈ s.threads, ¬ awaiting P c y = true ∧ ¬ bringing c y = true := by
      intro y hy
      obtain ⟨j, hj⟩ := List.mem_iff_getElem?.1 hy
      obtain ⟨hout, hmove, -⟩ | ⟨d, hsleeps, -⟩ := hphase j y hj
      · simp only [awaiting, bringing, hout, waitsOn_act hmove, reduceCtorEq, or_self, decide_false, Bool.false_eq_true, not_false_iff, and_self]
      · simp only [awaiting, bringing, hsleeps, reduceCtorEq, or_self, decide_false, Bool.false_eq_true, not_false_iff, and_self]
    have hnone : coming P c s.threads = 0 := by
      rw [coming, List.countP_eq_zero.2 fun y hy => (hnobody y hy).1, List.countP_eq_zero.2 fun y hy => (hnobody y hy).2]
    omega

end Progress

/-- `fuel` bounds the steps and critical sections before a thread, `stock` those that the
shared value will cause; a section that leaves their sum as it is will be tried again. -/
structure Spends (P : Program σ κ τ ω) (fuel : τ → ℕ) (stock : σ → ℕ) : Prop where
  act : ∀ {t t' : τ} {threads : List τ} {w w' : ω}, P.move t = .act → P.act threads w t = some (w', t') → fuel t' < fuel t
  body : ∀ {t : τ} {r : Region σ κ τ} (shared : σ), P.move t = .enter r → r.Open shared →
    fuel (r.body shared).2 + stock (r.body shared).1 ≤ fuel t + stock shared

def weight (fuel : τ → ℕ) (x : Phase κ × τ) : ℕ :=
  8 * fuel x.2 +
    match x.1 with
    | .asleep _ => 0
    | .ready => 1
    | .holding => 2
    | .out | .woken => 3
    | .notifying _ => 7
    | .leaving _ => 8

def total (fuel : τ → ℕ) : List (Phase κ × τ) → ℕ
  | [] => 0
  | x :: threads => weight fuel x + total fuel threads

def energy (fuel : τ → ℕ) (stock : σ → ℕ) (s : State σ κ τ ω) : ℕ := total fuel s.threads + 8 * stock s.shared

/-- A waking without a reason, or a critical section that will be tried again. -/
def restless (P : Program σ κ τ ω) (fuel : τ → ℕ) (stock : σ → ℕ) (e : State σ κ τ ω × (ℕ × Action)) : Bool :=
  match e.2.2, e.1.threads[e.2.1]? with
  | .spurious, _ => true
  | .run, some (_, t) =>
    match P.move t with
    | .enter r => fuel (r.body e.1.shared).2 + stock (r.body e.1.shared).1 = fuel t + stock e.1.shared
    | .act => false
  | _, _ => false

section Measure

variable [DecidableEq κ] {P : Program σ κ τ ω} {fuel : τ → ℕ} {stock : σ → ℕ} {s u : State σ κ τ ω}

omit [DecidableEq κ] in
variable (fuel) in
theorem total_set {threads : List (Phase κ × τ)} {i : ℕ} {x : Phase κ × τ} (y : Phase κ × τ) (hx : threads[i]? = some x) :
    total fuel (threads.set i y) + weight fuel x = total fuel threads + weight fuel y := by
  induction threads generalizing i with
  | nil => cases hx
  | cons z threads ih =>
    cases i with
    | zero =>
      obtain rfl := Option.some.inj hx
      rw [List.set_cons_zero, total, total]
      omega
    | succ i =>
      have h := ih hx
      rw [List.set_cons_succ, total, total]
      omega

theorem energy_step (hspends : Spends P fuel stock) (hexclusive : Exclusive P s) {label : ℕ × Action} (hs : step P s label = some u) :
    energy fuel stock u + 1 ≤ energy fuel stock s + if restless P fuel stock (s, label) then 8 else 0 := by
  obtain ⟨i, a⟩ := label
  unfold energy
  cases taken_of_step hs with
  | @lock phase t r hi hphase hmove hfree =>
    have hset := total_set fuel (.holding, t) hi
    obtain rfl | rfl := hphase
    all_goals
      dsimp only [weight] at hset ⊢
      omega
  | @enter t r hi hmove hguard =>
    have hset := total_set fuel (.ready, t) hi
    dsimp only [weight] at hset ⊢
    omega
  | @sleep t r c guard hi hmove hwaits hguard =>
    have hset := total_set fuel (.asleep c, t) hi
    dsimp only [weight] at hset ⊢
    omega
  | @run t r hi hmove =>
    have hset := total_set fuel (.leaving (r.notifies s.shared), (r.body s.shared).2) hi
    have hle := hspends.body s.shared hmove (ready_open hexclusive hi hmove)
    dsimp only [weight] at hset ⊢
    simp only [restless, hi, hmove, decide_eq_true_eq]
    split_ifs with hsame <;> omega
  | @unlock n t hi =>
    have hset := total_set fuel (n.elim .out .notifying, t) hi
    cases n
    all_goals
      dsimp only [weight, Option.elim] at hset ⊢
      omega
  | @notifyNone c t hi hnone =>
    have hset := total_set fuel (.out, t) hi
    dsimp only [weight] at hset ⊢
    omega
  | @notifyOne c t v j hi hj =>
    have hne : i ≠ j := by
      rintro rfl
      cases hi.symm.trans hj
    have hj' : (s.threads.set i (.out, t))[j]? = some (.asleep c, v) := by rw [List.getElem?_set_ne hne, hj]
    have hfirst := total_set fuel (.out, t) hi
    have hsecond := total_set fuel (.woken, v) hj'
    dsimp only [weight] at hfirst hsecond ⊢
    omega
  | @spurious c t hi =>
    have hset := total_set fuel (.woken, t) hi
    dsimp only [weight] at hset ⊢
    simp only [restless, if_true]
    omega
  | @act t t' w hi hmove hact =>
    have hset := total_set fuel (.out, t') hi
    have hlt := hspends.act hmove hact
    dsimp only [weight] at hset ⊢
    omega

/-- A run is no longer than its start allows, but for what its restless steps add. -/
theorem length_run (hspends : Spends P fuel stock) (hexclusive : Exclusive P s) {tr : List (State σ κ τ ω × (ℕ × Action))}
    (h : Run (step P) s tr u) : tr.length + energy fuel stock u ≤ energy fuel stock s + 8 * tr.countP (restless P fuel stock) := by
  induction h with
  | refl s => exact Nat.le_of_eq (Nat.zero_add _)
  | @next s v u label tr hs tail ih =>
    have hstep := energy_step hspends hexclusive hs
    have hrest := ih (exclusive_step hexclusive hs)
    rw [List.length_cons, List.countP_cons]
    split_ifs at hstep ⊢ <;> omega

end Measure

end Monitors
