import LoggerBenchmarks.Monitors
import LoggerBenchmarks.SpdlogQueue

set_option autoImplicit false

/-!
# The thread pool of spdlog

`mpmc_blocking_queue` and `thread_pool`: the threads that log post messages with a policy
for a full queue, the pool's threads handle what they take from it, and the destructor
posts a termination marker for each of them and joins them. It runs when the last owner
of the pool lets it go, after the last post.
-/
namespace LoggerBenchmarks.SpdlogPool
open LabelledRuns SpdlogQueue
open Monitors (Region Move Program)

variable {α : Type}

inductive AsyncMsg (α : Type) where
  | log (msg : α)
  | flush
  | terminate
  deriving DecidableEq

inductive OverflowPolicy where
  | block
  | overrunOldest
  | discardNew
  deriving DecidableEq

/-- `mpmc_blocking_queue`, with the history of its pushes (and who made them) and pops. -/
structure BlockingQueue (α : Type) where
  q : CircularQ (AsyncMsg α)
  enabled : 0 < q.maxItems
  pushed : List (Option ℕ × AsyncMsg α)
  popped : List (AsyncMsg α)

inductive Cv where
  | push
  | pop
  deriving DecidableEq

namespace BlockingQueue

def create (blank : AsyncMsg α) (maxItems : MaxItems) : BlockingQueue α where
  q := .create blank maxItems.count
  enabled := (CircularQ.maxItems_create blank maxItems).symm ▸ Nat.succ_pos maxItems.count
  pushed := []
  popped := []

def pushBack (s : BlockingQueue α) (who : Option ℕ) (item : AsyncMsg α) : BlockingQueue α where
  q := s.q.pushBack item
  enabled := (s.q.maxItems_pushBack item).symm ▸ s.enabled
  pushed := s.pushed ++ [(who, item)]
  popped := s.popped

def front (s : BlockingQueue α) : AsyncMsg α := s.q.front s.enabled

def popFront (s : BlockingQueue α) : BlockingQueue α where
  q := s.q.popFront
  enabled := s.enabled
  pushed := s.pushed
  popped := s.popped ++ [s.front]

end BlockingQueue

section Regions

variable {τ : Type}

/-- `enqueue`: blocks until there is room. -/
def enqueue (who : Option ℕ) (item : AsyncMsg α) (after : τ) : Region (BlockingQueue α) Cv τ where
  waits := some (.pop, fun s => !s.q.full)
  body := fun s => (s.pushBack who item, after)
  notifies := fun _ => some .push

/-- `enqueue_nowait`: gives up the oldest message if there is no room. -/
def enqueueNowait (who : Option ℕ) (item : AsyncMsg α) (after : τ) : Region (BlockingQueue α) Cv τ where
  waits := none
  body := fun s => (s.pushBack who item, after)
  notifies := fun _ => some .push

def enqueueIfHaveRoom (who : Option ℕ) (item : AsyncMsg α) (after discarded : τ) : Region (BlockingQueue α) Cv τ where
  waits := none
  body := fun s => if !s.q.full then (s.pushBack who item, after) else (s, discarded)
  notifies := fun s => if !s.q.full then some .push else none

def dequeue (after : AsyncMsg α → τ) : Region (BlockingQueue α) Cv τ where
  waits := some (.push, fun s => !s.q.empty)
  body := fun s => (s.popFront, after s.front)
  notifies := fun _ => some .pop

/-- `size`. -/
def queueSize (after : ℕ → τ) : Region (BlockingQueue α) Cv τ where
  waits := none
  body := fun s => (s, after s.q.size)
  notifies := fun _ => none

def postAsyncMsg (who : Option ℕ) (item : AsyncMsg α) (policy : OverflowPolicy) (after discarded : τ) :
    Region (BlockingQueue α) Cv τ :=
  match policy with
  | .block => enqueue who item after
  | .overrunOldest => enqueueNowait who item after
  | .discardNew => enqueueIfHaveRoom who item after discarded

end Regions

/-- What a thread that logs does: `log` and `flush` post, `waitEmpty` asks for the size of
the queue until it is zero. -/
inductive Call (α : Type) where
  | log (msg : α) (policy : OverflowPolicy)
  | flush (policy : OverflowPolicy)
  | waitEmpty
  deriving DecidableEq

/-- The threads that log, those of the pool, and the one that lets the pool go: it is the
`owner` until every thread that logs has returned, as in the benchmarks, then it runs
`~thread_pool`. The destructor waits for no logging thread: a call after it would find the
pool gone and throw. -/
inductive Thread (α : Type) where
  | frontend (id : ℕ) (calls : List (Call α))
  | discarding (id : ℕ) (calls : List (Call α))
  | returned (id : ℕ)
  | worker
  | processing (m : AsyncMsg α)
  | exited
  | owner (workers : ℕ)
  | destructor (workers left : ℕ)
  | destroyed (workers : ℕ)
  deriving DecidableEq

/-- What the sinks were given, and `discard_counter_`. -/
structure World (α : Type) where
  handled : List (AsyncMsg α)
  discardCounter : ℕ

def Thread.isReturned : Thread α → Bool
  | .frontend _ _ | .discarding _ _ => false
  | _ => true

def Thread.isExited : Thread α → Bool
  | .worker | .processing _ => false
  | _ => true

def move : Thread α → Move (BlockingQueue α) Cv (Thread α)
  | .frontend id (.log msg policy :: calls) =>
    .enter (postAsyncMsg (some id) (.log msg) policy (.frontend id calls) (.discarding id calls))
  | .frontend id (.flush policy :: calls) =>
    .enter (postAsyncMsg (some id) .flush policy (.frontend id calls) (.discarding id calls))
  | .frontend id (.waitEmpty :: calls) =>
    .enter (queueSize fun size => if size = 0 then .frontend id calls else .frontend id (.waitEmpty :: calls))
  | .worker => .enter (dequeue .processing)
  | .destructor workers (left + 1) => .enter (enqueue none .terminate (.destructor workers left))
  | _ => .act

/-- `process_next_msg_` after its dequeue, the start of `~thread_pool` and its joins. -/
def act (threads : List (Thread α)) (w : World α) : Thread α → Option (World α × Thread α)
  | .frontend id [] => some (w, .returned id)
  | .discarding id calls => some ({ w with discardCounter := w.discardCounter + 1 }, .frontend id calls)
  | .processing .terminate => some (w, .exited)
  | .processing m => some ({ w with handled := w.handled ++ [m] }, .worker)
  | .owner workers => if threads.all Thread.isReturned then some (w, .destructor workers workers) else none
  | .destructor workers 0 => if threads.all Thread.isExited then some (w, .destroyed workers) else none
  | _ => none

def program : Program (BlockingQueue α) Cv (Thread α) (World α) := ⟨move, act⟩

abbrev State (α : Type) := Monitors.State (BlockingQueue α) Cv (Thread α) (World α)
abbrev Core (α : Type) := Monitors.Core (BlockingQueue α) (Thread α) (World α)

def threads (workers : ℕ) (frontends : List (List (Call α))) : List (Thread α) :=
  .owner workers :: (frontends.mapIdx .frontend ++ List.replicate workers .worker)

def start (blank : AsyncMsg α) (maxItems : MaxItems) (workers : ℕ) (frontends : List (List (Call α))) : State α :=
  Monitors.start (.create blank maxItems) (threads workers frontends) ⟨[], 0⟩

def Call.posts : Call α → Option (AsyncMsg α × OverflowPolicy)
  | .log msg policy => some (.log msg, policy)
  | .flush policy => some (.flush, policy)
  | .waitEmpty => none

section Queue

variable (s : BlockingQueue α)

theorem full_iff : s.q.full = true ↔ s.q.size + 1 = s.q.maxItems := s.q.full_iff s.enabled

theorem size_bound : s.q.size < s.q.maxItems := s.q.size_bound s.enabled

theorem size_pushBack (who : Option ℕ) (item : AsyncMsg α) :
    (s.pushBack who item).q.size = if s.q.full then s.q.size else s.q.size + 1 := s.q.size_pushBack item s.enabled

theorem maxItems_pushBack (who : Option ℕ) (item : AsyncMsg α) : (s.pushBack who item).q.maxItems = s.q.maxItems :=
  s.q.maxItems_pushBack item

theorem not_empty_iff : (!s.q.empty) = true ↔ 0 < s.q.size := by
  rw [Bool.not_eq_true', Bool.eq_false_iff, Ne, s.q.empty_iff s.enabled, Nat.pos_iff_ne_zero]

end Queue

inductive Enters : Thread α → Region (BlockingQueue α) Cv (Thread α) → Prop where
  | post {id : ℕ} {call : Call α} {calls : List (Call α)} {item : AsyncMsg α} {policy : OverflowPolicy}
      (h : call.posts = some (item, policy)) :
      Enters (.frontend id (call :: calls)) (postAsyncMsg (some id) item policy (.frontend id calls) (.discarding id calls))
  | poll (id : ℕ) (calls : List (Call α)) :
      Enters (.frontend id (.waitEmpty :: calls))
        (queueSize fun size => if size = 0 then .frontend id calls else .frontend id (.waitEmpty :: calls))
  | take : Enters .worker (dequeue .processing)
  | terminate (workers left : ℕ) : Enters (.destructor workers (left + 1)) (enqueue none .terminate (.destructor workers left))

theorem enters_of_move {t : Thread α} {r : Region (BlockingQueue α) Cv (Thread α)} (h : program.move t = .enter r) : Enters t r := by
  unfold program at h
  dsimp only at h
  unfold move at h
  split at h
  · cases h
    exact .post rfl
  · cases h
    exact .post rfl
  · cases h
    exact .poll _ _
  · cases h
    exact .take
  · cases h
    exact .terminate _ _
  · cases h

/-- What a waiter of `push_cv_` may take, and the room for one of `pop_cv_`. -/
def units : Cv → BlockingQueue α → ℕ
  | .push, s => s.q.size
  | .pop, s => s.q.maxItems - 1 - s.q.size

theorem counted_enqueue {τ : Type} (who : Option ℕ) (item : AsyncMsg α) (after : τ) {c : Cv} {guard : BlockingQueue α → Bool}
    (s : BlockingQueue α) (h : (enqueue who item after).waits = some (c, guard)) :
    (guard s = true ↔ 0 < units c s) ∧ (guard s = true → units c (s.pushBack who item) + 1 ≤ units c s) := by
  cases h
  have hfull := full_iff s
  have hbound := size_bound s
  have hsize := size_pushBack s who item
  dsimp only [units]
  rw [maxItems_pushBack, hsize, Bool.not_eq_true', Bool.eq_false_iff]
  constructor
  · rw [Ne, hfull]
    omega
  · intro hroom
    have hne : s.q.size + 1 ≠ s.q.maxItems := fun h => hroom (hfull.2 h)
    rw [if_neg hroom]
    omega

theorem raised_pushBack (s : BlockingQueue α) (who : Option ℕ) (item : AsyncMsg α) (c : Cv) :
    units c (s.pushBack who item) ≤ units c s ∨ units c (s.pushBack who item) = units c s + 1 ∧ some Cv.push = some c := by
  have hsize := size_pushBack s who item
  cases c with
  | push =>
    dsimp only [units]
    split_ifs at hsize
    · exact .inl (Nat.le_of_eq hsize)
    · exact .inr ⟨hsize, rfl⟩
  | pop =>
    refine .inl ?_
    dsimp only [units]
    rw [maxItems_pushBack, hsize]
    split_ifs <;> omega

theorem counted : Monitors.Counted (program (α := α)) units where
  guarded s hmove hwaits := by
    cases enters_of_move hmove with
    | @post id call calls item policy h =>
      cases policy with
      | block => exact (counted_enqueue _ _ _ s hwaits).1
      | overrunOldest | discardNew => cases hwaits
    | poll id calls => cases hwaits
    | take =>
      cases hwaits
      exact not_empty_iff s
    | terminate workers left => exact (counted_enqueue _ _ _ s hwaits).1
  lowered {t r c guard s} hmove hwaits hguard := by
    cases enters_of_move hmove with
    | @post id call calls item policy h =>
      cases policy with
      | block => exact (counted_enqueue _ _ _ s hwaits).2 hguard
      | overrunOldest | discardNew => cases hwaits
    | poll id calls => cases hwaits
    | take =>
      cases hwaits
      have hpos := (not_empty_iff s).1 hguard
      change s.q.popFront.size + 1 ≤ s.q.size
      rw [s.q.size_popFront s.enabled hpos]
      omega
    | terminate workers left => exact (counted_enqueue _ _ _ s hwaits).2 hguard
  raised c s hmove hopen := by
    cases enters_of_move hmove with
    | @post id call calls item policy h =>
      cases policy with
      | block | overrunOldest => exact raised_pushBack s _ _ c
      | discardNew =>
        dsimp only [postAsyncMsg, enqueueIfHaveRoom]
        split_ifs
        · exact raised_pushBack s _ _ c
        · exact .inl (Nat.le_refl _)
    | poll id calls => exact .inl (Nat.le_refl _)
    | take =>
      have hpos := (not_empty_iff s).1 (hopen _ _ rfl)
      have hsize : s.popFront.q.size = s.q.size - 1 := s.q.size_popFront s.enabled hpos
      have hbound := size_bound s
      change units c s.popFront ≤ units c s ∨ units c s.popFront = units c s + 1 ∧ some Cv.pop = some c
      cases c with
      | push =>
        refine .inl ?_
        dsimp only [units]
        omega
      | pop =>
        refine .inr ⟨?_, rfl⟩
        change s.q.maxItems - 1 - s.popFront.q.size = s.q.maxItems - 1 - s.q.size + 1
        omega
    | terminate workers left => exact raised_pushBack s _ _ c

def fuel : Thread α → ℕ
  | .frontend _ calls => 4 * calls.length + 1
  | .discarding _ calls => 4 * calls.length + 2
  | .processing _ => 1
  | .owner workers => 4 * workers + 2
  | .destructor _ left => 4 * left + 1
  | _ => 0

def stock (s : BlockingQueue α) : ℕ := 2 * s.q.size

theorem stock_pushBack (s : BlockingQueue α) (who : Option ℕ) (item : AsyncMsg α) : stock (s.pushBack who item) ≤ stock s + 2 := by
  unfold stock
  rw [size_pushBack]
  split_ifs <;> omega

theorem spends : Monitors.Spends (program (α := α)) fuel stock where
  act {t t' threads w w'} _ hact := by
    unfold program act at hact
    dsimp only at hact
    split at hact
    · cases hact
      exact Nat.lt_succ_self _
    · cases hact
      exact Nat.lt_succ_self _
    · cases hact
      exact Nat.one_pos
    · cases hact
      exact Nat.one_pos
    · split_ifs at hact
      cases hact
      exact Nat.lt_succ_self _
    · split_ifs at hact
      cases hact
      exact Nat.one_pos
    · cases hact
  body s hmove hopen := by
    cases enters_of_move hmove with
    | @post id call calls item policy h =>
      have hstock := stock_pushBack s (some id) item
      cases policy with
      | block | overrunOldest =>
        change fuel (.frontend id calls) + stock (s.pushBack (some id) item) ≤ fuel (.frontend id (call :: calls)) + stock s
        simp only [fuel, List.length_cons]
        omega
      | discardNew =>
        dsimp only [postAsyncMsg, enqueueIfHaveRoom]
        split_ifs
        all_goals
          simp only [fuel, List.length_cons]
          omega
    | poll id calls =>
      dsimp only [queueSize]
      split_ifs
      · simp only [fuel, List.length_cons]
        omega
      · exact Nat.le_refl _
    | take =>
      have hpos := (not_empty_iff s).1 (hopen _ _ rfl)
      have hsize : s.popFront.q.size = s.q.size - 1 := s.q.size_popFront s.enabled hpos
      change fuel (.processing s.front) + stock s.popFront ≤ fuel .worker + stock s
      simp only [fuel, stock, hsize]
      omega
    | terminate workers left =>
      have hstock := stock_pushBack s none .terminate
      change fuel (.destructor workers left) + stock (s.pushBack none .terminate) ≤ fuel (.destructor workers (left + 1)) + stock s
      simp only [fuel]
      omega

inductive Stepped (c : Core α) (i : ℕ) : Core α → Prop where
  | push {id : ℕ} {call : Call α} {calls : List (Call α)} {item : AsyncMsg α} {policy : OverflowPolicy}
      (h : c.threads[i]? = some (.frontend id (call :: calls))) (hposts : call.posts = some (item, policy))
      (hroom : policy ≠ .overrunOldest → c.shared.q.full = false) :
      Stepped c i { c with shared := c.shared.pushBack (some id) item, threads := c.threads.set i (.frontend id calls) }
  | discard {id : ℕ} {call : Call α} {calls : List (Call α)} {item : AsyncMsg α}
      (h : c.threads[i]? = some (.frontend id (call :: calls))) (hposts : call.posts = some (item, .discardNew)) :
      Stepped c i { c with threads := c.threads.set i (.discarding id calls) }
  | again {id : ℕ} {calls : List (Call α)} (h : c.threads[i]? = some (.frontend id (.waitEmpty :: calls))) :
      Stepped c i { c with threads := c.threads.set i (.frontend id (.waitEmpty :: calls)) }
  | found {id : ℕ} {calls : List (Call α)} (h : c.threads[i]? = some (.frontend id (.waitEmpty :: calls))) (hempty : c.shared.q.size = 0) :
      Stepped c i { c with threads := c.threads.set i (.frontend id calls) }
  | count {id : ℕ} {calls : List (Call α)} (h : c.threads[i]? = some (.discarding id calls)) :
      Stepped c i { c with threads := c.threads.set i (.frontend id calls)
                           world := { c.world with discardCounter := c.world.discardCounter + 1 } }
  | leave {id : ℕ} (h : c.threads[i]? = some (.frontend id [])) :
      Stepped c i { c with threads := c.threads.set i (.returned id) }
  | take (h : c.threads[i]? = some .worker) (hsize : 0 < c.shared.q.size) :
      Stepped c i { c with shared := c.shared.popFront, threads := c.threads.set i (.processing c.shared.front) }
  | handle {m : AsyncMsg α} (h : c.threads[i]? = some (.processing m)) (hm : m ≠ .terminate) :
      Stepped c i { c with threads := c.threads.set i .worker, world := { c.world with handled := c.world.handled ++ [m] } }
  | exit (h : c.threads[i]? = some (.processing .terminate)) : Stepped c i { c with threads := c.threads.set i .exited }
  | begin {workers : ℕ} (h : c.threads[i]? = some (.owner workers)) (hall : c.threads.all Thread.isReturned = true) :
      Stepped c i { c with threads := c.threads.set i (.destructor workers workers) }
  | terminate {workers left : ℕ} (h : c.threads[i]? = some (.destructor workers (left + 1))) (hroom : c.shared.q.full = false) :
      Stepped c i { c with shared := c.shared.pushBack none .terminate, threads := c.threads.set i (.destructor workers left) }
  | join {workers : ℕ} (h : c.threads[i]? = some (.destructor workers 0)) (hall : c.threads.all Thread.isExited = true) :
      Stepped c i { c with threads := c.threads.set i (.destroyed workers) }

theorem stepped_enter {c c' : Core α} {i : ℕ} {t : Thread α} {r : Region (BlockingQueue α) Cv (Thread α)} (ht : c.threads[i]? = some t)
    (henters : Enters t r) (hopen : (r.waits.all fun w => w.2 c.shared) = true)
    (hc : { c with shared := (r.body c.shared).1, threads := c.threads.set i (r.body c.shared).2 } = c') : Stepped c i c' := by
  subst hc
  cases henters with
  | @post id call calls item policy hposts =>
    cases policy with
    | block => exact .push ht hposts fun _ => by rwa [← Bool.not_eq_true']
    | overrunOldest => exact .push ht hposts fun hne => absurd rfl hne
    | discardNew =>
      cases hfull : c.shared.q.full with
      | true =>
        simp only [postAsyncMsg, enqueueIfHaveRoom, hfull, Bool.not_true, Bool.false_eq_true, if_false]
        exact .discard ht hposts
      | false =>
        simp only [postAsyncMsg, enqueueIfHaveRoom, hfull, Bool.not_false, if_true]
        exact .push ht hposts fun _ => hfull
  | poll id calls =>
    by_cases hempty : c.shared.q.size = 0
    · simp only [queueSize, hempty, if_true]
      exact .found ht hempty
    · simp only [queueSize, hempty, if_false]
      exact .again ht
  | take => exact .take ht ((not_empty_iff c.shared).1 hopen)
  | terminate workers left => exact .terminate ht (by rwa [← Bool.not_eq_true'])

theorem stepped_act {c c' : Core α} {i : ℕ} {t : Thread α} (ht : c.threads[i]? = some t)
    (h : ((act c.threads c.world t).map fun done => { c with threads := c.threads.set i done.2, world := done.1 }) = some c') :
    Stepped c i c' := by
  obtain ⟨⟨w, t'⟩, hact, rfl⟩ := Option.map_eq_some_iff.1 h
  unfold act at hact
  split at hact
  · cases hact
    exact .leave ht
  · cases hact
    exact .count ht
  · cases hact
    exact .exit ht
  · rename_i m hm
    cases hact
    exact .handle ht hm
  · split_ifs at hact with hall
    cases hact
    exact .begin ht hall
  · split_ifs at hact with hall
    cases hact
    exact .join ht hall
  · cases hact

theorem stepped_of_atomicStep {c c' : Core α} {i : ℕ} (h : Monitors.atomicStep program c i = some c') : Stepped c i c' := by
  obtain ⟨t, ht, hs⟩ := Option.bind_eq_some_iff.1 h
  cases hmove : program.move t with
  | act =>
    rw [hmove] at hs
    exact stepped_act ht hs
  | enter r =>
    rw [hmove] at hs
    dsimp only at hs
    split_ifs at hs with hopen
    exact stepped_enter ht (enters_of_move hmove) hopen (Option.some.inj hs)

/-- `left` are the messages that have left the queue in their order, each with whether a
thread of the pool took it. -/
structure Accounted (s : BlockingQueue α) (left : List (AsyncMsg α × Bool)) : Prop where
  pushed : s.pushed.map Prod.snd = left.map Prod.fst ++ s.q.items
  popped : s.popped = (left.filter Prod.snd).map Prod.fst
  overrun : s.q.overrunCounter = left.countP fun x => !x.2

section Account

variable {s : BlockingQueue α} {left : List (AsyncMsg α × Bool)}

theorem accounted_room (h : Accounted s left) (who : Option ℕ) (item : AsyncMsg α) (hroom : s.q.full = false) :
    Accounted (s.pushBack who item) left := by
  have hitems : (s.pushBack who item).q.items = s.q.items ++ [item] := by
    rw [BlockingQueue.pushBack, s.q.items_pushBack item s.enabled, hroom]
    rfl
  refine ⟨?_, h.popped, ?_⟩
  · rw [hitems, BlockingQueue.pushBack, List.map_append, h.pushed, List.append_assoc]
    rfl
  · rw [BlockingQueue.pushBack, s.q.overrun_pushBack item s.enabled, hroom, h.overrun]
    rfl

theorem accounted_overrun (h : Accounted s left) (who : Option ℕ) (item : AsyncMsg α) (hfull : s.q.full = true) :
    ∃ oldest ∈ (s.pushBack who item).pushed.map Prod.snd, Accounted (s.pushBack who item) (left ++ [(oldest, false)]) := by
  have hpushed : (s.pushBack who item).pushed.map Prod.snd = left.map Prod.fst ++ (s.q.items ++ [item]) := by
    rw [BlockingQueue.pushBack, List.map_append, h.pushed, List.append_assoc]
    rfl
  have hitems : (s.pushBack who item).q.items = (s.q.items ++ [item]).tail := by
    rw [BlockingQueue.pushBack, s.q.items_pushBack item s.enabled, hfull]
    rfl
  obtain ⟨oldest, rest, hrest⟩ := List.exists_cons_of_ne_nil (List.concat_ne_nil item s.q.items)
  refine ⟨oldest, ?_, ?_, ?_, ?_⟩
  · rw [hpushed, hrest]
    exact List.mem_append_right _ List.mem_cons_self
  · rw [hpushed, hitems, hrest, List.map_append, List.append_assoc]
    rfl
  · rw [List.filter_append, List.map_append, ← h.popped]
    exact (List.append_nil _).symm
  · rw [BlockingQueue.pushBack, s.q.overrun_pushBack item s.enabled, hfull, h.overrun, List.countP_append]
    rfl

theorem accounted_popFront (h : Accounted s left) (hsize : 0 < s.q.size) : Accounted s.popFront (left ++ [(s.front, true)]) := by
  refine ⟨?_, ?_, ?_⟩
  · rw [BlockingQueue.popFront, h.pushed, s.q.items_front s.enabled hsize, List.map_append, List.append_assoc]
    rfl
  · rw [BlockingQueue.popFront, h.popped, List.filter_append, List.map_append]
    rfl
  · rw [List.countP_append, ← h.overrun]
    rfl

end Account

def AsyncMsg.isTerminate : AsyncMsg α → Bool
  | .terminate => true
  | _ => false

theorem not_terminate_of_posts {call : Call α} {item : AsyncMsg α} {policy : OverflowPolicy} (h : call.posts = some (item, policy)) :
    item.isTerminate = false := by
  cases call with
  | log msg p =>
    cases h
    rfl
  | flush p =>
    cases h
    rfl
  | waitEmpty => cases h

def sentBy (id : ℕ) (s : BlockingQueue α) : List (AsyncMsg α) := s.pushed.filterMap fun x => if x.1 = some id then some x.2 else none

theorem sentBy_pushBack (id : ℕ) (s : BlockingQueue α) (who : Option ℕ) (item : AsyncMsg α) :
    sentBy id (s.pushBack who item) = sentBy id s ++ if who = some id then [item] else [] := by
  rw [sentBy, BlockingQueue.pushBack, List.filterMap_append]
  congr 1
  simp only [List.filterMap_cons, List.filterMap_nil]
  split_ifs <;> rfl

inductive Kept : List (Call α) → List (AsyncMsg α) → Prop where
  | nil : Kept [] []
  | sent {made : List (Call α)} {sent : List (AsyncMsg α)} {call : Call α} {item : AsyncMsg α} {policy : OverflowPolicy}
      (h : Kept made sent) (hposts : call.posts = some (item, policy)) : Kept (made ++ [call]) (sent ++ [item])
  | discarded {made : List (Call α)} {sent : List (AsyncMsg α)} {call : Call α} {item : AsyncMsg α}
      (h : Kept made sent) (hposts : call.posts = some (item, .discardNew)) : Kept (made ++ [call]) sent
  | waited {made : List (Call α)} {sent : List (AsyncMsg α)} (h : Kept made sent) : Kept (made ++ [.waitEmpty]) sent

inductive Role where
  | frontend (id : ℕ)
  | worker
  | owner
  deriving DecidableEq

def role : Thread α → Role
  | .frontend id _ | .discarding id _ | .returned id => .frontend id
  | .worker | .processing _ | .exited => .worker
  | .owner _ | .destructor _ _ | .destroyed _ => .owner

def Place (workers : ℕ) (frontends : List (List (Call α))) (i : ℕ) : Role → Prop
  | .owner => i = 0
  | .frontend id => i = id + 1 ∧ ∃ calls, frontends[id]? = some calls
  | .worker => frontends.length + 1 ≤ i ∧ i < frontends.length + 1 + workers

theorem threads_cases {workers : ℕ} {frontends : List (List (Call α))} {i : ℕ} {t : Thread α}
    (h : (threads workers frontends)[i]? = some t) :
    i = 0 ∧ t = .owner workers ∨ (∃ id calls, i = id + 1 ∧ frontends[id]? = some calls ∧ t = .frontend id calls) ∨
      frontends.length + 1 ≤ i ∧ i < frontends.length + 1 + workers ∧ t = .worker := by
  unfold threads at h
  cases i with
  | zero =>
    rw [List.getElem?_cons_zero] at h
    exact .inl ⟨rfl, (Option.some.inj h).symm⟩
  | succ i =>
    rw [List.getElem?_cons_succ] at h
    by_cases hi : i < frontends.length
    · rw [List.getElem?_append_left (by rwa [List.length_mapIdx]), List.getElem?_mapIdx] at h
      obtain ⟨calls, hcalls, rfl⟩ := Option.map_eq_some_iff.1 h
      exact .inr (.inl ⟨i, calls, rfl, hcalls, rfl⟩)
    · rw [List.getElem?_append_right (by rw [List.length_mapIdx]; omega), List.length_mapIdx, List.getElem?_replicate] at h
      split_ifs at h with hlt
      exact .inr (.inr ⟨by omega, by omega, (Option.some.inj h).symm⟩)

theorem place_start {workers : ℕ} {frontends : List (List (Call α))} {i : ℕ} {t : Thread α}
    (h : (threads workers frontends)[i]? = some t) : Place workers frontends i (role t) := by
  obtain ⟨hi, rfl⟩ | ⟨id, calls, hi, hcalls, rfl⟩ | ⟨hle, hlt, rfl⟩ := threads_cases h
  · exact hi
  · exact ⟨hi, calls, hcalls⟩
  · exact ⟨hle, hlt⟩

theorem place {workers : ℕ} {frontends : List (List (Call α))} {c : Core α} {i : ℕ} {t : Thread α}
    (hroles : c.threads.map role = (threads workers frontends).map role) (ht : c.threads[i]? = some t) :
    Place workers frontends i (role t) := by
  have hrole : ((threads workers frontends).map role)[i]? = some (role t) := by
    rw [← hroles, List.getElem?_map, ht]
    rfl
  rw [List.getElem?_map] at hrole
  obtain ⟨t', ht', hsame⟩ := Option.map_eq_some_iff.1 hrole
  rw [← hsame]
  exact place_start ht'

def Serving (frontends : List (List (Call α))) (s : BlockingQueue α) : Thread α → Prop
  | .frontend id rest | .discarding id rest => ∃ made, frontends[id]? = some (made ++ rest) ∧ Kept made (sentBy id s)
  | .returned id => ∃ calls, frontends[id]? = some calls ∧ Kept calls (sentBy id s)
  | _ => True

def Ending (workers : ℕ) (all : List (Thread α)) (n : ℕ) : Thread α → Prop
  | .owner w => w = workers ∧ n = 0
  | .destructor w left => w = workers ∧ n + left = workers ∧ all.all Thread.isReturned = true
  | .destroyed w => w = workers ∧ n = workers ∧ all.all Thread.isReturned = true ∧ all.all Thread.isExited = true
  | _ => False

def hand : Thread α → List (AsyncMsg α)
  | .processing m => if m.isTerminate then [] else [m]
  | _ => []

theorem hand_processing (m : AsyncMsg α) : hand (.processing m) = if m.isTerminate then [] else [m] := rfl

def isGone : Thread α → Bool
  | .processing m => m.isTerminate
  | .exited => true
  | _ => false

def records (messages : List (AsyncMsg α)) : List (AsyncMsg α) := messages.filter fun m => !m.isTerminate

structure Sound (workers : ℕ) (frontends : List (List (Call α))) (c : Core α) : Prop where
  roles : c.threads.map role = (threads workers frontends).map role
  accounted : ∃ left, Accounted c.shared left ∧ ∀ x ∈ left, x.2 = false → x.1.isTerminate = false
  serving : ∀ (i : ℕ) (t : Thread α), c.threads[i]? = some t → Serving frontends c.shared t
  ending : ∃ messages n, c.shared.pushed.map Prod.snd = messages ++ List.replicate n .terminate ∧
    (∀ m ∈ messages, m.isTerminate = false) ∧ ∀ t : Thread α, c.threads[0]? = some t → Ending workers c.threads n t
  gone : c.threads.countP isGone = c.shared.popped.countP AsyncMsg.isTerminate
  handled : (records c.shared.popped).Perm (c.world.handled ++ c.threads.flatMap hand)
  inOrder : workers = 1 → records c.shared.popped = c.world.handled ++ c.threads.flatMap hand

section Preservation

variable {workers : ℕ} {frontends : List (List (Call α))} {c c' : Core α} {i : ℕ}

theorem serving_other {s : BlockingQueue α} {who : Option ℕ} {item : AsyncMsg α} {t : Thread α} (h : Serving frontends s t)
    (hne : ∀ id, role t = .frontend id → who ≠ some id) : Serving frontends (s.pushBack who item) t := by
  cases t with
  | frontend id rest | discarding id rest =>
    obtain ⟨made, hmade, hkept⟩ := h
    refine ⟨made, hmade, ?_⟩
    rw [sentBy_pushBack, if_neg (hne id rfl), List.append_nil]
    exact hkept
  | returned id =>
    obtain ⟨calls, hcalls, hkept⟩ := h
    refine ⟨calls, hcalls, ?_⟩
    rw [sentBy_pushBack, if_neg (hne id rfl), List.append_nil]
    exact hkept
  | _ => trivial

theorem serving_set (h : Sound workers frontends c) {t : Thread α} (ht : Serving frontends c.shared t) :
    ∀ (j : ℕ) (u : Thread α), (c.threads.set i t)[j]? = some u → Serving frontends c.shared u := by
  intro j u hu
  obtain ⟨-, rfl⟩ | ⟨-, hold⟩ := ListUpdates.get_set_cases hu
  · exact ht
  · exact h.serving j u hold

theorem all_set {p : Thread α → Bool} {all : List (Thread α)} {t : Thread α} (h : all.all p = true) (ht : p t = true) :
    (all.set i t).all p = true := by
  rw [List.all_eq_true] at h ⊢
  intro u hu
  obtain hu | rfl := List.mem_or_eq_of_mem_set hu
  · exact h u hu
  · exact ht

theorem not_all {p : Thread α → Bool} {all : List (Thread α)} {t : Thread α} (ht : all[i]? = some t) (hp : p t = false) :
    ¬ all.all p = true := by
  intro hall
  rw [List.all_eq_true] at hall
  rw [hall t (List.mem_of_getElem? ht)] at hp
  cases hp

/-- While a thread logs, the destructor has not begun. -/
theorem ending_logging {n : ℕ} {t u : Thread α} (hi : c.threads[i]? = some t) (hlogs : t.isReturned = false)
    (h : Ending workers c.threads n u) : ∃ w, u = .owner w ∧ w = workers ∧ n = 0 := by
  cases u with
  | owner w => exact ⟨w, rfl, h⟩
  | destructor w left => exact absurd h.2.2 (not_all hi hlogs)
  | destroyed w => exact absurd h.2.2.1 (not_all hi hlogs)
  | _ => exact h.elim

theorem ending_working {n : ℕ} {t t' u : Thread α} (hi : c.threads[i]? = some t) (hworks : t.isExited = false) (ht' : t'.isReturned = true)
    (h : Ending workers c.threads n u) : Ending workers (c.threads.set i t') n u := by
  cases u with
  | owner w => exact h
  | destructor w left => exact ⟨h.1, h.2.1, all_set h.2.2 ht'⟩
  | destroyed w => exact absurd h.2.2.2 (not_all hi hworks)
  | _ => exact h

theorem hands_set {t t' : Thread α} (hi : c.threads[i]? = some t) (hhand : hand t' = hand t) :
    (c.threads.set i t').flatMap hand = c.threads.flatMap hand := by
  rw [ListUpdates.flatMap_set hand hi, ListUpdates.flatMap_split hand hi, hhand]

theorem gone_set {t t' : Thread α} (hi : c.threads[i]? = some t) (hgone : isGone t' = isGone t) :
    (c.threads.set i t').countP isGone = c.threads.countP isGone := by
  have hcount := ListUpdates.countP_set (y := t') (p := isGone) hi
  rw [hgone] at hcount
  omega

theorem sound_keeps (h : Sound workers frontends c) {t t' : Thread α} {world : World α} (hi : c.threads[i]? = some t)
    (hrole : role t' = role t) (hserving : Serving frontends c.shared t') (hhand : hand t' = hand t) (hgone : isGone t' = isGone t)
    (hworld : world.handled = c.world.handled)
    (hending : ∀ n, (∀ u, c.threads[0]? = some u → Ending workers c.threads n u) →
      ∀ u, (c.threads.set i t')[0]? = some u → Ending workers (c.threads.set i t') n u) :
    Sound workers frontends { c with threads := c.threads.set i t', world := world } := by
  have hhands := hands_set hi hhand
  obtain ⟨messages, n, hpushed, hmessages, hend⟩ := h.ending
  refine ⟨(ListUpdates.map_set_same hi hrole).trans h.roles, h.accounted, serving_set h hserving,
    ⟨messages, n, hpushed, hmessages, hending n hend⟩, ?_, ?_, fun hone => ?_⟩
  · exact (gone_set hi hgone).trans h.gone
  · dsimp only
    rw [hhands, hworld]
    exact h.handled
  · dsimp only
    rw [hhands, hworld]
    exact h.inOrder hone

theorem ending_frontend (h : Sound workers frontends c) {t t' : Thread α} {id n : ℕ} (hi : c.threads[i]? = some t)
    (hrole : role t = .frontend id) (hlogs : t.isReturned = false) (hend : ∀ u, c.threads[0]? = some u → Ending workers c.threads n u)
    {u : Thread α} (hu : (c.threads.set i t')[0]? = some u) : ∃ w, u = .owner w ∧ w = workers ∧ n = 0 := by
  have hplace := place h.roles hi
  rw [hrole] at hplace
  obtain ⟨rfl, -⟩ := hplace
  rw [List.getElem?_set_ne (Nat.succ_ne_zero id)] at hu
  exact ending_logging hi hlogs (hend u hu)

theorem sound_frontend (h : Sound workers frontends c) {t t' : Thread α} {world : World α} {id : ℕ} (hi : c.threads[i]? = some t)
    (hrole : role t = .frontend id) (hlogs : t.isReturned = false) (hrole' : role t' = role t) (hserving : Serving frontends c.shared t')
    (hworld : world.handled = c.world.handled) : Sound workers frontends { c with threads := c.threads.set i t', world := world } := by
  have hidle : ∀ x : Thread α, role x = .frontend id → hand x = [] ∧ isGone x = false := by
    intro x hx
    cases x with
    | frontend | discarding | returned => exact ⟨rfl, rfl⟩
    | _ => cases hx
  have ht := hidle t hrole
  have ht' := hidle t' (hrole'.trans hrole)
  refine sound_keeps h hi hrole' hserving (ht'.1.trans ht.1.symm) (ht'.2.trans ht.2.symm) hworld fun n hend u hu => ?_
  obtain ⟨w, rfl, hw, hn⟩ := ending_frontend h hi hrole hlogs hend hu
  exact ⟨hw, hn⟩

/-- A message is pushed by a thread that is not one of the pool's. -/
theorem sound_push (h : Sound workers frontends c) {t t' : Thread α} {who : Option ℕ} {item : AsyncMsg α} (hi : c.threads[i]? = some t)
    (hrole : role t' = role t) (hhand : hand t' = hand t) (hgone : isGone t' = isGone t)
    (hserving : ∀ (j : ℕ) (u : Thread α), (c.threads.set i t')[j]? = some u → Serving frontends (c.shared.pushBack who item) u)
    (hroom : c.shared.q.full = true → ∀ m ∈ (c.shared.pushBack who item).pushed.map Prod.snd, m.isTerminate = false)
    (hending : ∃ messages n, (c.shared.pushBack who item).pushed.map Prod.snd = messages ++ List.replicate n .terminate ∧
      (∀ m ∈ messages, m.isTerminate = false) ∧ ∀ u : Thread α, (c.threads.set i t')[0]? = some u → Ending workers (c.threads.set i t') n u) :
    Sound workers frontends { c with shared := c.shared.pushBack who item, threads := c.threads.set i t' } := by
  have hhands := hands_set hi hhand
  obtain ⟨left, haccounted, hleft⟩ := h.accounted
  refine ⟨(ListUpdates.map_set_same hi hrole).trans h.roles, ?_, hserving, hending, ?_, ?_, fun hone => ?_⟩
  · cases hfull : c.shared.q.full with
    | false => exact ⟨left, accounted_room haccounted who item hfull, hleft⟩
    | true =>
      obtain ⟨oldest, hmem, hnew⟩ := accounted_overrun haccounted who item hfull
      refine ⟨_, hnew, fun x hx hover => ?_⟩
      obtain hx | hx := List.mem_append.1 hx
      · exact hleft x hx hover
      · obtain rfl := List.mem_singleton.1 hx
        exact hroom hfull oldest hmem
  · exact (gone_set hi hgone).trans h.gone
  · change (records c.shared.popped).Perm (c.world.handled ++ (c.threads.set i t').flatMap hand)
    rw [hhands]
    exact h.handled
  · change records c.shared.popped = c.world.handled ++ (c.threads.set i t').flatMap hand
    rw [hhands]
    exact h.inOrder hone

theorem sound_sent (h : Sound workers frontends c) {id : ℕ} {call : Call α} {calls : List (Call α)} {item : AsyncMsg α}
    {policy : OverflowPolicy} (hi : c.threads[i]? = some (.frontend id (call :: calls))) (hposts : call.posts = some (item, policy)) :
    Sound workers frontends { c with shared := c.shared.pushBack (some id) item, threads := c.threads.set i (.frontend id calls) } := by
  obtain ⟨messages, n, hpushed, hmessages, hend⟩ := h.ending
  have hplace := place h.roles hi
  obtain ⟨rfl, -⟩ := hplace
  have hitem := not_terminate_of_posts hposts
  have hzero : n = 0 := by
    have hlen : 0 < c.threads.length := Nat.lt_of_le_of_lt (Nat.zero_le _) (List.getElem?_eq_some_iff.1 hi).1
    obtain ⟨w, -, -, hn⟩ := ending_logging hi rfl (hend _ (List.getElem?_eq_getElem hlen))
    exact hn
  have hafter : (c.shared.pushBack (some id) item).pushed.map Prod.snd = messages ++ [item] := by
    rw [BlockingQueue.pushBack, List.map_append, hpushed, hzero, List.replicate_zero, List.append_nil]
    rfl
  have hplain : ∀ m ∈ messages ++ [item], m.isTerminate = false := by
    intro m hm
    obtain hm | hm := List.mem_append.1 hm
    · exact hmessages m hm
    · rw [List.mem_singleton.1 hm]
      exact hitem
  refine sound_push h hi rfl rfl rfl (fun j u hu => ?_) (fun _ => ?_) ⟨messages ++ [item], 0, ?_, hplain, fun u hu => ?_⟩
  · obtain ⟨-, rfl⟩ | ⟨hne, hold⟩ := ListUpdates.get_set_cases hu
    · obtain ⟨made, hmade, hkept⟩ := h.serving _ _ hi
      refine ⟨made ++ [call], ?_, ?_⟩
      · rw [hmade, List.append_assoc]
        rfl
      · rw [sentBy_pushBack, if_pos rfl]
        exact .sent hkept hposts
    · refine serving_other (h.serving j u hold) fun id' hrole heq => ?_
      have hother := place h.roles hold
      rw [hrole] at hother
      exact hne (hother.1.trans (congrArg (· + 1) (Option.some.inj heq).symm))
  · rw [hafter]
    exact hplain
  · rw [hafter, List.replicate_zero, List.append_nil]
  · obtain ⟨w, rfl, hw, -⟩ := ending_frontend h hi rfl rfl hend hu
    exact ⟨hw, rfl⟩

theorem sound_terminate (h : Sound workers frontends c) {w left : ℕ} (hi : c.threads[i]? = some (.destructor w (left + 1)))
    (hroom : c.shared.q.full = false) :
    Sound workers frontends { c with shared := c.shared.pushBack none .terminate, threads := c.threads.set i (.destructor w left) } := by
  obtain ⟨messages, n, hpushed, hmessages, hend⟩ := h.ending
  obtain rfl : i = 0 := place h.roles hi
  obtain ⟨hw, hn, hall⟩ := hend _ hi
  refine sound_push h hi rfl rfl rfl (fun j u hu => ?_) (fun hfull => ?_) ⟨messages, n + 1, ?_, hmessages, fun u hu => ?_⟩
  · obtain ⟨-, rfl⟩ | ⟨-, hold⟩ := ListUpdates.get_set_cases hu
    · trivial
    · exact serving_other (h.serving j u hold) fun id _ heq => by cases heq
  · rw [hroom] at hfull
    cases hfull
  · rw [BlockingQueue.pushBack, List.map_append, hpushed, List.append_assoc, List.replicate_succ']
    rfl
  · rw [ListUpdates.get_set_self hi] at hu
    cases hu
    exact ⟨hw, by omega, all_set hall rfl⟩

theorem serving_popFront {s : BlockingQueue α} {t : Thread α} (h : Serving frontends s t) : Serving frontends s.popFront t := by
  cases t with
  | _ => exact h

theorem records_append (xs : List (AsyncMsg α)) (m : AsyncMsg α) : records (xs ++ [m]) = records xs ++ hand (.processing m) := by
  rw [records, List.filter_append]
  congr 1
  rw [hand_processing, List.filter_singleton]
  cases m.isTerminate <;> rfl

theorem alone (h : Sound 1 frontends c) {t : Thread α} (hi : c.threads[i]? = some t) (hrole : role t = .worker) :
    (c.threads.take i).flatMap hand = [] ∧ (c.threads.drop (i + 1)).flatMap hand = [] := by
  have hplace := place h.roles hi
  rw [hrole] at hplace
  have hother : ∀ j u, c.threads[j]? = some u → j ≠ i → hand u = [] := by
    intro j u hj hne
    have hthere := place h.roles hj
    cases u with
    | processing m =>
      have h₁ := hplace.1
      have h₂ := hplace.2
      have h₃ := hthere.1
      have h₄ := hthere.2
      omega
    | _ => rfl
  constructor
  · refine List.flatMap_eq_nil_iff.2 fun u hu => ?_
    obtain ⟨j, hj⟩ := List.mem_iff_getElem?.1 hu
    rw [List.getElem?_take] at hj
    split_ifs at hj with hlt
    exact hother j u hj (Nat.ne_of_lt hlt)
  · refine List.flatMap_eq_nil_iff.2 fun u hu => ?_
    obtain ⟨j, hj⟩ := List.mem_iff_getElem?.1 hu
    rw [List.getElem?_drop] at hj
    exact hother _ u hj (by omega)

theorem sound_take (h : Sound workers frontends c) (hi : c.threads[i]? = some .worker) (hsize : 0 < c.shared.q.size) :
    Sound workers frontends { c with shared := c.shared.popFront, threads := c.threads.set i (.processing c.shared.front) } := by
  obtain ⟨left, haccounted, hleft⟩ := h.accounted
  obtain ⟨messages, n, hpushed, hmessages, hend⟩ := h.ending
  have hhands := ListUpdates.flatMap_set (y := .processing c.shared.front) hand hi
  have hbefore := ListUpdates.flatMap_split hand hi
  have hplace := place h.roles hi
  have hroles : (c.threads.set i (.processing c.shared.front)).map role = c.threads.map role := ListUpdates.map_set_same hi rfl
  refine ⟨hroles.trans h.roles, ⟨_, accounted_popFront haccounted hsize, fun x hx hover => ?_⟩,
    fun j u hu => ?_, ⟨messages, n, hpushed, hmessages, fun u hu => ?_⟩, ?_, ?_, fun hone => ?_⟩
  · obtain hx | hx := List.mem_append.1 hx
    · exact hleft x hx hover
    · rw [List.mem_singleton.1 hx] at hover
      cases hover
  · obtain ⟨-, rfl⟩ | ⟨-, hold⟩ := ListUpdates.get_set_cases hu
    · trivial
    · exact serving_popFront (h.serving j u hold)
  · have hne : i ≠ 0 := by
      have h₁ := hplace.1
      omega
    rw [List.getElem?_set_ne hne] at hu
    exact ending_working hi rfl rfl (hend u hu)
  · have hcount := ListUpdates.countP_set (y := .processing c.shared.front) (p := isGone) hi
    have hold := h.gone
    change (c.threads.set i _).countP isGone = (c.shared.popped ++ [c.shared.front]).countP AsyncMsg.isTerminate
    rw [List.countP_append, List.countP_singleton]
    change _ + 0 = _ + (if c.shared.front.isTerminate = true then 1 else 0) at hcount
    omega
  · change (records (c.shared.popped ++ [c.shared.front])).Perm (c.world.handled ++ (c.threads.set i _).flatMap hand)
    rw [records_append, hhands]
    have hold := h.handled
    rw [hbefore] at hold
    refine (hold.append_right _).trans ?_
    change (c.world.handled ++ ((c.threads.take i).flatMap hand ++ [] ++ (c.threads.drop (i + 1)).flatMap hand) ++ _).Perm _
    simp only [List.append_assoc, List.nil_append]
    exact List.Perm.append_left _ (List.Perm.append_left _ List.perm_append_comm)
  · subst hone
    obtain ⟨hfirst, hlast⟩ := alone h hi rfl
    change records (c.shared.popped ++ [c.shared.front]) = c.world.handled ++ (c.threads.set i _).flatMap hand
    rw [records_append, h.inOrder rfl, hbefore, hhands, hfirst, hlast]
    simp only [List.append_assoc, List.append_nil, List.nil_append]
    rfl

theorem sound_handle (h : Sound workers frontends c) {m : AsyncMsg α} (hi : c.threads[i]? = some (.processing m)) (hm : m ≠ .terminate) :
    Sound workers frontends
      { c with threads := c.threads.set i .worker, world := { c.world with handled := c.world.handled ++ [m] } } := by
  obtain ⟨messages, n, hpushed, hmessages, hend⟩ := h.ending
  have hplain : m.isTerminate = false := by
    cases m with
    | terminate => exact absurd rfl hm
    | log | flush => rfl
  have hhand : hand (.processing m) = [m] := by
    rw [hand_processing, hplain]
    rfl
  have hhands := ListUpdates.flatMap_set (y := .worker) hand hi
  have hbefore := ListUpdates.flatMap_split hand hi
  rw [hhand] at hbefore
  have hplace := place h.roles hi
  have hroles : (c.threads.set i .worker).map role = c.threads.map role := ListUpdates.map_set_same hi rfl
  refine ⟨hroles.trans h.roles, h.accounted, serving_set h trivial,
    ⟨messages, n, hpushed, hmessages, fun u hu => ?_⟩, ?_, ?_, fun hone => ?_⟩
  · have hne : i ≠ 0 := by
      have h₁ := hplace.1
      omega
    rw [List.getElem?_set_ne hne] at hu
    exact ending_working hi rfl rfl (hend u hu)
  · have hcount := ListUpdates.countP_set (y := .worker) (p := isGone) hi
    have hold := h.gone
    change _ + (if m.isTerminate = true then 1 else 0) = _ + 0 at hcount
    rw [hplain] at hcount
    change (c.threads.set i .worker).countP isGone = c.shared.popped.countP AsyncMsg.isTerminate
    simp only [Bool.false_eq_true, if_false] at hcount
    omega
  · change (records c.shared.popped).Perm (c.world.handled ++ [m] ++ (c.threads.set i .worker).flatMap hand)
    have hold := h.handled
    rw [hbefore] at hold
    rw [hhands]
    refine hold.trans ?_
    change (c.world.handled ++ ((c.threads.take i).flatMap hand ++ [m] ++ (c.threads.drop (i + 1)).flatMap hand)).Perm
      (c.world.handled ++ [m] ++ ((c.threads.take i).flatMap hand ++ [] ++ (c.threads.drop (i + 1)).flatMap hand))
    simp only [List.append_assoc, List.append_nil]
    refine List.Perm.append_left _ ?_
    rw [← List.append_assoc, ← List.append_assoc]
    exact List.Perm.append_right _ List.perm_append_comm
  · subst hone
    obtain ⟨hfirst, hlast⟩ := alone h hi rfl
    change records c.shared.popped = c.world.handled ++ [m] ++ (c.threads.set i .worker).flatMap hand
    rw [h.inOrder rfl, hbefore, hhands, hfirst, hlast]
    simp only [List.append_assoc, List.append_nil]
    rfl

theorem sound_step (h : Sound workers frontends c) (hs : Stepped c i c') : Sound workers frontends c' := by
  cases hs with
  | push hi hposts hroom => exact sound_sent h hi hposts
  | @discard id call calls item hi hposts =>
    obtain ⟨made, hmade, hkept⟩ := h.serving i _ hi
    refine sound_frontend h hi rfl rfl rfl ⟨made ++ [call], ?_, .discarded hkept hposts⟩ rfl
    rw [hmade, List.append_assoc]
    rfl
  | again hi => exact sound_frontend h hi rfl rfl rfl (h.serving i _ hi) rfl
  | @found id calls hi hempty =>
    obtain ⟨made, hmade, hkept⟩ := h.serving i _ hi
    refine sound_frontend h hi rfl rfl rfl ⟨made ++ [.waitEmpty], ?_, .waited hkept⟩ rfl
    rw [hmade, List.append_assoc]
    rfl
  | count hi =>
    have hserving := h.serving i _ hi
    exact sound_frontend h hi rfl rfl rfl hserving rfl
  | leave hi =>
    obtain ⟨made, hmade, hkept⟩ := h.serving i _ hi
    rw [List.append_nil] at hmade
    exact sound_frontend h hi rfl rfl rfl ⟨made, hmade, hkept⟩ rfl
  | take hi hsize => exact sound_take h hi hsize
  | handle hi hm => exact sound_handle h hi hm
  | exit hi =>
    refine sound_keeps h hi rfl trivial rfl rfl rfl fun n hend u hu => ?_
    have hne : i ≠ 0 := by
      have h₁ := (place h.roles hi).1
      omega
    rw [List.getElem?_set_ne hne] at hu
    exact ending_working hi rfl rfl (hend u hu)
  | @begin w hi hall =>
    refine sound_keeps h hi rfl trivial rfl rfl rfl fun n hend u hu => ?_
    obtain rfl : i = 0 := place h.roles hi
    obtain ⟨rfl, rfl⟩ := hend _ hi
    rw [ListUpdates.get_set_self hi] at hu
    cases hu
    exact ⟨rfl, Nat.zero_add _, all_set hall rfl⟩
  | terminate hi hroom => exact sound_terminate h hi hroom
  | @join w hi hall =>
    refine sound_keeps h hi rfl trivial rfl rfl rfl fun n hend u hu => ?_
    obtain rfl : i = 0 := place h.roles hi
    obtain ⟨rfl, hn, hreturned⟩ := hend _ hi
    rw [ListUpdates.get_set_self hi] at hu
    cases hu
    exact ⟨rfl, hn, all_set hreturned rfl, all_set hall rfl⟩

end Preservation

section Runs

variable {blank : AsyncMsg α} {maxItems : MaxItems} {workers : ℕ} {frontends : List (List (Call α))} {s : State α}

theorem core_start : (start blank maxItems workers frontends).core = ⟨.create blank maxItems, threads workers frontends, ⟨[], 0⟩⟩ := by
  unfold start Monitors.start Monitors.State.core
  dsimp only
  rw [List.map_map]
  congr 1
  exact List.map_id _

theorem sound_start : Sound workers frontends (start blank maxItems workers frontends).core := by
  rw [core_start]
  have hidle : ∀ t ∈ threads workers frontends, hand t = [] ∧ isGone t = false := by
    intro t ht
    obtain ⟨i, hi⟩ := List.mem_iff_getElem?.1 ht
    obtain ⟨-, rfl⟩ | ⟨id, calls, -, -, rfl⟩ | ⟨-, -, rfl⟩ := threads_cases hi
    all_goals exact ⟨rfl, rfl⟩
  have hhands : (threads workers frontends).flatMap hand = [] := List.flatMap_eq_nil_iff.2 fun t ht => (hidle t ht).1
  have hgone : (threads workers frontends).countP isGone = 0 := by
    refine List.countP_eq_zero.2 fun t ht => ?_
    rw [(hidle t ht).2]
    nofun
  have hitems : (CircularQ.create blank maxItems.count).items = [] := CircularQ.items_create blank maxItems.count
  refine ⟨rfl, ⟨[], ⟨?_, rfl, rfl⟩, nofun⟩, fun i t hi => ?_, ⟨[], 0, rfl, nofun, fun t ht => ?_⟩, hgone, ?_, fun _ => ?_⟩
  · exact hitems.symm
  · obtain ⟨-, rfl⟩ | ⟨id, calls, -, hcalls, rfl⟩ | ⟨-, -, rfl⟩ := threads_cases hi
    · trivial
    · exact ⟨[], hcalls, .nil⟩
    · trivial
  · cases ht
    exact ⟨rfl, rfl⟩
  · dsimp only
    rw [hhands]
    exact .nil
  · dsimp only
    rw [hhands]
    rfl

theorem exclusive_pool (h : Reachable (Monitors.step program) (start blank maxItems workers frontends) s) : Monitors.Exclusive program s :=
  Monitors.exclusive_reachable (Monitors.exclusive_start _ _ _) h

/-- What the undivided critical sections keep holds in every run of the pool. -/
theorem core_invariant (I : Core α → Prop) (hstart : I (start blank maxItems workers frontends).core)
    (hstep : ∀ c i c', I c → Stepped c i c' → I c')
    (h : Reachable (Monitors.step program) (start blank maxItems workers frontends) s) : I s.core := by
  have hatomic := Monitors.reachable_core (Monitors.exclusive_start _ _ _) h
  exact hatomic.invariant I hstart fun c i c' hc hs => hstep c i c' hc (stepped_of_atomicStep hs)

theorem sound_reachable (h : Reachable (Monitors.step program) (start blank maxItems workers frontends) s) :
    Sound workers frontends s.core :=
  core_invariant (Sound workers frontends) sound_start (fun _ _ _ => sound_step) h

theorem maxItems_reachable (h : Reachable (Monitors.step program) (start blank maxItems workers frontends) s) :
    s.shared.q.maxItems = maxItems.count + 1 := by
  refine core_invariant (fun c => c.shared.q.maxItems = maxItems.count + 1) (CircularQ.maxItems_create blank maxItems)
    (fun c i c' hc hs => ?_) h
  cases hs with
  | push | terminate => exact (maxItems_pushBack _ _ _).trans hc
  | _ => exact hc

end Runs

end LoggerBenchmarks.SpdlogPool
