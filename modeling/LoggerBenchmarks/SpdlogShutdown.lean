import LoggerBenchmarks.SpdlogPool

set_option autoImplicit false

/-!
# What a thread pool of spdlog has handled

At any time, when its queue is seen empty and when its destructor returns. The benchmarks
end their time measurement with the destructor, after a last flush.
-/
namespace LoggerBenchmarks.SpdlogShutdown
open LabelledRuns SpdlogQueue SpdlogPool

variable {α : Type} {blank : AsyncMsg α} {maxItems : MaxItems} {workers : ℕ}
  {frontends : List (List (Call α))} {s : State α}

section Core

variable {c : Core α}

theorem frontend_at (h : Sound workers frontends c) {id : ℕ} {calls : List (Call α)} (hcalls : frontends[id]? = some calls) :
    ∃ t, c.threads[id + 1]? = some t ∧ role t = .frontend id := by
  have hlt := (List.getElem?_eq_some_iff.1 hcalls).1
  have hstart : (threads workers frontends)[id + 1]? = some (.frontend id calls) := by
    unfold threads
    rw [List.getElem?_cons_succ, List.getElem?_append_left (by rwa [List.length_mapIdx]), List.getElem?_mapIdx, hcalls]
    rfl
  have hrole : (c.threads.map role)[id + 1]? = some (.frontend id) := by
    rw [h.roles, List.getElem?_map, hstart]
    rfl
  rw [List.getElem?_map] at hrole
  exact Option.map_eq_some_iff.1 hrole

theorem kept_so_far (h : Sound workers frontends c) {id : ℕ} {calls : List (Call α)} (hcalls : frontends[id]? = some calls) :
    ∃ made rest, calls = made ++ rest ∧ Kept made (sentBy id c.shared) := by
  obtain ⟨t, ht, hrole⟩ := frontend_at h hcalls
  have hserving := h.serving _ _ ht
  cases t with
  | frontend id' rest | discarding id' rest =>
    cases hrole
    obtain ⟨made, hmade, hkept⟩ := hserving
    exact ⟨made, rest, Option.some.inj (hcalls.symm.trans hmade), hkept⟩
  | returned id' =>
    cases hrole
    obtain ⟨all, hall, hkept⟩ := hserving
    refine ⟨all, [], ?_, hkept⟩
    rw [List.append_nil]
    exact Option.some.inj (hcalls.symm.trans hall)
  | _ => cases hrole

/-- Once every thread that logs has returned, it has made all its calls. -/
theorem kept_all (h : Sound workers frontends c) (hreturned : c.threads.all Thread.isReturned = true) {id : ℕ} {calls : List (Call α)}
    (hcalls : frontends[id]? = some calls) : Kept calls (sentBy id c.shared) := by
  obtain ⟨t, ht, hrole⟩ := frontend_at h hcalls
  have hserving := h.serving _ _ ht
  have hdone := List.all_eq_true.1 hreturned t (List.mem_of_getElem? ht)
  cases t with
  | frontend id' rest | discarding id' rest => cases hdone
  | returned id' =>
    cases hrole
    obtain ⟨all, hall, hkept⟩ := hserving
    rw [Option.some.inj (hcalls.symm.trans hall)]
    exact hkept
  | _ => cases hrole

theorem count_workers (h : Sound workers frontends c) : c.threads.countP (fun t => role t = .worker) = workers := by
  have hmap : ∀ all : List (Thread α), all.countP (fun t => role t = .worker) = (all.map role).countP (· = .worker) := by
    intro all
    rw [List.countP_map]
    rfl
  rw [hmap, h.roles, ← hmap, threads, List.countP_cons, List.countP_append]
  have hfront : (frontends.mapIdx Thread.frontend).countP (fun t => role t = .worker) = 0 := by
    refine List.countP_eq_zero.2 fun t ht => ?_
    obtain ⟨i, hi, rfl⟩ := List.mem_mapIdx.1 ht
    nofun
  have hpool : (List.replicate workers (Thread.worker (α := α))).countP (fun t => role t = .worker) = workers := by
    rw [List.countP_replicate]
    rfl
  rw [hfront, hpool]
  exact Nat.zero_add _

/-- When all threads of the pool have ended, each has taken a marker and none holds a message. -/
theorem exited_all (h : Sound workers frontends c) (hexited : c.threads.all Thread.isExited = true) :
    c.shared.popped.countP AsyncMsg.isTerminate = workers ∧ c.threads.flatMap hand = [] := by
  have heach := List.all_eq_true.1 hexited
  constructor
  · rw [← h.gone, ← count_workers h]
    refine List.countP_congr fun t ht => ?_
    have hdone := heach t ht
    cases t with
    | worker | processing m => cases hdone
    | exited => exact ⟨fun _ => rfl, fun _ => rfl⟩
    | _ => exact ⟨nofun, nofun⟩
  · refine List.flatMap_eq_nil_iff.2 fun t ht => ?_
    have hdone := heach t ht
    cases t with
    | processing m => cases hdone
    | _ => rfl

end Core

theorem count_markers (left : List (AsyncMsg α × Bool)) (h : ∀ x ∈ left, x.2 = false → x.1.isTerminate = false) :
    (left.map Prod.fst).countP AsyncMsg.isTerminate = ((left.filter Prod.snd).map Prod.fst).countP AsyncMsg.isTerminate := by
  induction left with
  | nil => rfl
  | cons x left ih =>
    obtain ⟨hx, hleft⟩ := List.forall_mem_cons.1 h
    obtain ⟨m, taken⟩ := x
    rw [List.map_cons, List.countP_cons, ih hleft]
    cases taken with
    | true =>
      rw [List.filter_cons_of_pos rfl, List.map_cons, List.countP_cons]
    | false =>
      rw [List.filter_cons_of_neg (show ¬ (m, false).2 = true from Bool.false_ne_true), hx rfl]
      rfl

theorem count_plain {messages : List (AsyncMsg α)} (h : ∀ m ∈ messages, m.isTerminate = false) :
    messages.countP AsyncMsg.isTerminate = 0 :=
  List.countP_eq_zero.2 fun m hm => by rw [h m hm]; exact Bool.false_ne_true

/-- A marker has been taken or is still in the queue: none is given up for room. -/
theorem markers_taken (h : Sound workers frontends s.core) {n : ℕ} {messages : List (AsyncMsg α)}
    (hpushed : s.shared.pushed.map Prod.snd = messages ++ List.replicate n .terminate) (hplain : ∀ m ∈ messages, m.isTerminate = false) :
    s.shared.popped.countP AsyncMsg.isTerminate + s.shared.q.items.countP AsyncMsg.isTerminate = n := by
  obtain ⟨left, haccounted, hleft⟩ := h.accounted
  change Accounted s.shared left at haccounted
  have hcount := congrArg (List.countP AsyncMsg.isTerminate) (hpushed.symm.trans haccounted.pushed)
  rw [List.countP_append, List.countP_append, count_plain hplain, count_markers left hleft, ← haccounted.popped] at hcount
  have hmarkers : (List.replicate n (.terminate : AsyncMsg α)).countP AsyncMsg.isTerminate = n := by
    rw [List.countP_replicate]
    rfl
  omega

/-- What is behind all markers is nothing: the last message is one. -/
theorem nothing_behind {front items messages : List (AsyncMsg α)} {n : ℕ} (hn : 0 < n)
    (h : messages ++ List.replicate n .terminate = front ++ items) (hplain : items.countP AsyncMsg.isTerminate = 0) : items = [] := by
  obtain rfl | ⟨rest, last, rfl⟩ := List.eq_nil_or_concat items
  · rfl
  · obtain ⟨k, rfl⟩ := Nat.exists_eq_succ_of_ne_zero (Nat.ne_of_gt hn)
    rw [List.replicate_succ', List.concat_eq_append, ← List.append_assoc, ← List.append_assoc] at h
    obtain ⟨-, hlast⟩ := List.append_inj' h rfl
    rw [List.concat_eq_append, List.countP_append, ← hlast] at hplain
    change _ + 1 = 0 at hplain
    omega

/-- What has left the queue: the records, each with whether it was taken, and the markers. -/
theorem markers_last {left : List (AsyncMsg α × Bool)} {messages : List (AsyncMsg α)} {n : ℕ}
    (h : left.map Prod.fst = messages ++ List.replicate n .terminate) (hplain : ∀ m ∈ messages, m.isTerminate = false)
    (hleft : ∀ x ∈ left, x.2 = false → x.1.isTerminate = false) :
    ∃ sent, sent.map Prod.fst = messages ∧ left = sent ++ List.replicate n (.terminate, true) ∧
      records ((left.filter Prod.snd).map Prod.fst) = (sent.filter Prod.snd).map Prod.fst := by
  obtain ⟨sent, markers, rfl, hsent, hmarkers⟩ := List.map_eq_append_iff.1 h
  have hall : markers = List.replicate n (.terminate, true) := by
    have hlength : markers.length = n := by
      have h := congrArg List.length hmarkers
      rwa [List.length_map, List.length_replicate] at h
    rw [List.eq_replicate_iff]
    refine ⟨hlength, fun x hx => ?_⟩
    have hfst : x.1 = .terminate := by
      have hmem : x.1 ∈ markers.map Prod.fst := List.mem_map_of_mem hx
      rw [hmarkers] at hmem
      exact (List.mem_replicate.1 hmem).2
    obtain ⟨m, taken⟩ := x
    dsimp only at hfst
    subst hfst
    cases taken with
    | true => rfl
    | false => cases hleft _ (List.mem_append_right _ hx) rfl
  refine ⟨sent, hsent, by rw [hall], ?_⟩
  have hrecords : records ((sent.filter Prod.snd).map Prod.fst) = (sent.filter Prod.snd).map Prod.fst := by
    refine List.filter_eq_self.2 fun m hm => ?_
    obtain ⟨x, hx, rfl⟩ := List.mem_map.1 hm
    have hmem : x.1 ∈ messages := hsent ▸ List.mem_map_of_mem (List.mem_of_mem_filter hx)
    rw [hplain _ hmem]
    rfl
  have hnone : records (((List.replicate n ((.terminate : AsyncMsg α), true)).filter Prod.snd).map Prod.fst) = [] := by
    refine List.filter_eq_nil_iff.2 fun m hm => ?_
    obtain ⟨x, hx, rfl⟩ := List.mem_map.1 hm
    rw [(List.mem_replicate.1 (List.mem_of_mem_filter hx)).2]
    nofun
  rw [hall, List.filter_append, List.map_append, records, List.filter_append]
  exact (congrArg₂ (· ++ ·) hrecords hnone).trans (List.append_nil _)

def turn (i : ℕ) : List (ℕ × Monitors.Action) := [(i, .lock), (i, .check), (i, .run), (i, .unlock), (i, .notify none)]

/-- A queue for one message, a pool of one thread, and a thread that logs once and flushes. -/
def oneRecord : State ℕ := start .flush ⟨1, by decide⟩ 1 [[.log 7 .block, .flush .block]]

def toFlush : List (ℕ × Monitors.Action) := turn 1 ++ turn 2 ++ [(2, .act)] ++ turn 1 ++ turn 2

def toEnd : List (ℕ × Monitors.Action) := toFlush ++ [(2, .act), (1, .act), (0, .act)] ++ turn 0 ++ turn 2 ++ [(2, .act), (0, .act)]

def flushTaken : State ℕ := (exec (Monitors.step program) oneRecord toFlush).getD oneRecord

def poolDestroyed : State ℕ := (exec (Monitors.step program) oneRecord toEnd).getD oneRecord

theorem flushTaken_run : Run (Monitors.step program) oneRecord (trace (Monitors.step program) oneRecord toFlush) flushTaken :=
  run_of_exec _ _ _ rfl

theorem poolDestroyed_run : Run (Monitors.step program) oneRecord (trace (Monitors.step program) oneRecord toEnd) poolDestroyed :=
  run_of_exec _ _ _ rfl

/-- At any time: what left the queue and what is in it make up what was pushed, each thread
has pushed what it kept of its calls, and what was taken is handled or in a thread's hand. -/
theorem accounted_always (h : Reachable (Monitors.step program) (start blank maxItems workers frontends) s) :
    (∃ left, Accounted s.shared left) ∧ s.shared.q.items.length ≤ maxItems.count ∧
      (∀ id calls, frontends[id]? = some calls → ∃ made rest, calls = made ++ rest ∧ Kept made (sentBy id s.shared)) ∧
      (records s.shared.popped).Perm (s.world.handled ++ s.core.threads.flatMap hand) ∧
      (workers = 1 → records s.shared.popped = s.world.handled ++ s.core.threads.flatMap hand) := by
  have hsound := sound_reachable h
  have hmax := maxItems_reachable h
  obtain ⟨left, haccounted, -⟩ := hsound.accounted
  refine ⟨⟨left, haccounted⟩, ?_, fun id calls hcalls => kept_so_far hsound hcalls, hsound.handled, hsound.inOrder⟩
  have hbound := size_bound s.shared
  rw [s.shared.q.length_items s.shared.enabled]
  omega

theorem accounted_always_flushTaken :
    (∃ left, Accounted flushTaken.shared left) ∧ flushTaken.shared.q.items.length ≤ 1 ∧
      (∀ id calls, [[Call.log 7 .block, .flush .block]][id]? = some calls →
        ∃ made rest, calls = made ++ rest ∧ Kept made (sentBy id flushTaken.shared)) ∧
      (records flushTaken.shared.popped).Perm (flushTaken.world.handled ++ flushTaken.core.threads.flatMap hand) ∧
      (1 = 1 → records flushTaken.shared.popped = flushTaken.world.handled ++ flushTaken.core.threads.flatMap hand) :=
  accounted_always ⟨_, flushTaken_run⟩

/-- Every post waits for room, as in the benchmarks. -/
def Blocking (frontends : List (List (Call α))) : Prop :=
  ∀ calls ∈ frontends, ∀ call ∈ calls, ∀ item policy, call.posts = some (item, policy) → policy = .block

def messagesOf (calls : List (Call α)) : List (AsyncMsg α) := calls.filterMap fun call => call.posts.map Prod.fst

theorem messages_of_kept {calls : List (Call α)} {sent : List (AsyncMsg α)} (h : Kept calls sent)
    (hblocking : ∀ call ∈ calls, ∀ item policy, call.posts = some (item, policy) → policy = .block) : sent = messagesOf calls := by
  induction h with
  | nil => rfl
  | @sent made sent call item policy _ hposts ih =>
    rw [messagesOf, List.filterMap_append, ih fun c hc => hblocking c (List.mem_append_left _ hc)]
    simp only [List.filterMap_cons, List.filterMap_nil, hposts, Option.map_some]
    rfl
  | @discarded made sent call item _ hposts _ =>
    cases hblocking call (List.mem_append_right _ List.mem_cons_self) item _ hposts
  | waited _ ih =>
    rw [messagesOf, List.filterMap_append, ih fun c hc => hblocking c (List.mem_append_left _ hc)]
    exact (List.append_nil _).symm

theorem no_overrun (hblocking : Blocking frontends)
    (h : Reachable (Monitors.step program) (start blank maxItems workers frontends) s) : s.shared.q.overrunCounter = 0 := by
  refine (core_invariant (fun c => Sound workers frontends c ∧ c.shared.q.overrunCounter = 0) ⟨sound_start, rfl⟩
    (fun c i c' hc hs => ⟨sound_step hc.1 hs, ?_⟩) h).2
  have hroomy : ∀ who item, c.shared.q.full = false → (c.shared.pushBack who item).q.overrunCounter = 0 := by
    intro who item hroom
    rw [BlockingQueue.pushBack, c.shared.q.overrun_pushBack item c.shared.enabled, hroom, hc.2]
    rfl
  cases hs with
  | @push id call calls item policy hi hposts hroom =>
    obtain ⟨made, hmade, -⟩ := hc.1.serving i _ hi
    have hpolicy := hblocking _ (List.mem_of_getElem? hmade) call (List.mem_append_right _ List.mem_cons_self) item policy hposts
    exact hroomy _ _ (hroom (by rw [hpolicy]; decide))
  | terminate hi hroom => exact hroomy _ _ hroom
  | _ => exact hc.2

/-- `~thread_pool` returns when every record has left the queue, and all but those that were
given up for room have been handled. -/
theorem handled_when_destroyed (hworkers : 0 < workers)
    (h : Reachable (Monitors.step program) (start blank maxItems workers frontends) s)
    (hdone : s.core.threads[0]? = some (.destroyed workers)) :
    ∃ sent : List (AsyncMsg α × Bool), s.shared.pushed.map Prod.snd = sent.map Prod.fst ++ List.replicate workers .terminate ∧
      s.world.handled.Perm ((sent.filter Prod.snd).map Prod.fst) ∧
      (workers = 1 → s.world.handled = (sent.filter Prod.snd).map Prod.fst) ∧
      s.shared.q.overrunCounter = sent.countP (fun x => !x.2) ∧
      (∀ id calls, frontends[id]? = some calls → Kept calls (sentBy id s.shared)) ∧
      (Blocking frontends → (∀ x ∈ sent, x.2 = true) ∧
        ∀ id calls, frontends[id]? = some calls → sentBy id s.shared = messagesOf calls) := by
  have hsound := sound_reachable h
  obtain ⟨left, haccounted, hleft⟩ := hsound.accounted
  obtain ⟨messages, n, hpushed, hplain, hend⟩ := hsound.ending
  obtain ⟨-, rfl, hreturned, hexited⟩ := hend _ hdone
  obtain ⟨hgone, hhands⟩ := exited_all hsound hexited
  change Accounted s.shared left at haccounted
  change s.shared.pushed.map Prod.snd = _ at hpushed
  change s.shared.popped.countP _ = _ at hgone
  have hsplit := haccounted.pushed
  have hitems : s.shared.q.items = [] := by
    refine nothing_behind hworkers (hpushed.symm.trans hsplit) ?_
    have hcount := markers_taken hsound hpushed hplain
    omega
  rw [hitems, List.append_nil] at hsplit
  obtain ⟨sent, rfl, hmarked, hrecords⟩ := markers_last (hsplit.symm.trans hpushed) hplain hleft
  have hhandled : (records s.shared.popped).Perm (s.world.handled ++ s.core.threads.flatMap hand) := hsound.handled
  have horder : n = 1 → records s.shared.popped = s.world.handled ++ s.core.threads.flatMap hand := hsound.inOrder
  rw [haccounted.popped, hrecords, hhands, List.append_nil] at hhandled horder
  have hoverrun : s.shared.q.overrunCounter = sent.countP fun x => !x.2 := by
    rw [haccounted.overrun, hmarked, List.countP_append, List.countP_replicate]
    rfl
  have hkept : ∀ id calls, frontends[id]? = some calls → Kept calls (sentBy id s.shared) :=
    fun id calls hcalls => kept_all hsound hreturned hcalls
  refine ⟨sent, hpushed, hhandled.symm, fun hone => (horder hone).symm, hoverrun, hkept, fun hblocking => ⟨fun x hx => ?_, ?_⟩⟩
  · rw [no_overrun hblocking h] at hoverrun
    have hnot := List.countP_eq_zero.1 hoverrun.symm x hx
    rwa [Bool.not_eq_true', Bool.not_eq_false] at hnot
  · intro id calls hcalls
    exact messages_of_kept (hkept id calls hcalls) (hblocking calls (List.mem_of_getElem? hcalls))

theorem handled_when_destroyed_oneRecord :
    poolDestroyed.world.handled = [.log 7, .flush] ∧
    ∃ sent : List (AsyncMsg ℕ × Bool), poolDestroyed.shared.pushed.map Prod.snd = sent.map Prod.fst ++ List.replicate 1 .terminate ∧
      poolDestroyed.world.handled.Perm ((sent.filter Prod.snd).map Prod.fst) ∧
      (1 = 1 → poolDestroyed.world.handled = (sent.filter Prod.snd).map Prod.fst) ∧
      poolDestroyed.shared.q.overrunCounter = sent.countP (fun x => !x.2) ∧
      (∀ id calls, [[Call.log 7 .block, .flush .block]][id]? = some calls → Kept calls (sentBy id poolDestroyed.shared)) ∧
      (Blocking [[Call.log 7 .block, .flush .block]] → (∀ x ∈ sent, x.2 = true) ∧
        ∀ id calls, [[Call.log 7 .block, .flush .block]][id]? = some calls → sentBy id poolDestroyed.shared = messagesOf calls) :=
  ⟨rfl, handled_when_destroyed Nat.one_pos ⟨_, poolDestroyed_run⟩ rfl⟩

def due : Thread α → List Unit
  | .frontend _ calls => (messagesOf calls).map fun _ => ()
  | .discarding _ calls => () :: (messagesOf calls).map fun _ => ()
  | _ => []

section Posts

variable {c c' : Core α} {i : ℕ}

theorem messagesOf_posts {call : Call α} {calls : List (Call α)} {item : AsyncMsg α} {policy : OverflowPolicy}
    (h : call.posts = some (item, policy)) : messagesOf (call :: calls) = item :: messagesOf calls := by
  rw [messagesOf, List.filterMap_cons, h]
  rfl

theorem due_set {t : Thread α} (t' : Thread α) (hi : c.threads[i]? = some t) :
    ((c.threads.set i t').flatMap due).length + (due t).length = (c.threads.flatMap due).length + (due t').length := by
  rw [ListUpdates.flatMap_set due hi, ListUpdates.flatMap_split due hi]
  simp only [List.length_append]
  omega

def posted (c : Core α) : ℕ :=
  (c.shared.pushed.filter fun x => x.1.isSome).length + c.world.discardCounter + (c.threads.flatMap due).length

/-- A step that neither pushes nor counts, of a thread with as many posts to make as before. -/
theorem posted_set {t t' : Thread α} {shared : BlockingQueue α} {world : World α} (hi : c.threads[i]? = some t)
    (hpushed : shared.pushed = c.shared.pushed) (hcounter : world.discardCounter = c.world.discardCounter)
    (hdue : (due t').length = (due t).length) :
    posted ⟨shared, c.threads.set i t', world⟩ = posted c := by
  have hset := due_set t' hi
  unfold posted
  dsimp only
  rw [hpushed, hcounter]
  omega

theorem posted_step (h : Stepped c i c') : posted c' = posted c := by
  cases h with
  | @push id call calls item policy hi hposts hroom =>
    have hset := due_set (.frontend id calls) hi
    simp only [due, List.length_map, messagesOf_posts hposts, List.length_cons] at hset
    dsimp only [posted, BlockingQueue.pushBack]
    rw [List.filter_append, List.length_append, List.filter_cons_of_pos rfl, List.filter_nil, List.length_singleton]
    omega
  | @discard id call calls item hi hposts =>
    refine posted_set hi rfl rfl ?_
    simp only [due, List.length_map, messagesOf_posts hposts, List.length_cons]
  | again hi | found hi | leave hi | take hi | handle hi | exit hi | begin hi | join hi => exact posted_set hi rfl rfl rfl
  | @count id calls hi =>
    have hset := due_set (.frontend id calls) hi
    simp only [due, List.length_map, List.length_cons] at hset
    dsimp only [posted]
    omega
  | @terminate w left hi hroom =>
    have hset := due_set (.destructor w left) hi
    simp only [due] at hset
    have hmarker : ([((none : Option ℕ), (.terminate : AsyncMsg α))].filter fun x => x.1.isSome) = [] := rfl
    dsimp only [posted, BlockingQueue.pushBack]
    rw [List.filter_append, List.length_append, hmarker, List.length_nil]
    omega

theorem due_start : ((threads workers frontends).flatMap due).length = (frontends.flatMap messagesOf).length := by
  have hfront : ∀ name : ℕ → ℕ, ((frontends.mapIdx fun i calls => Thread.frontend (name i) calls).flatMap due).length =
      (frontends.flatMap messagesOf).length := by
    induction frontends with
    | nil => exact fun _ => rfl
    | cons calls frontends ih =>
      intro name
      rw [List.mapIdx_cons, List.flatMap_cons, List.flatMap_cons, List.length_append, List.length_append, due, List.length_map,
        ih fun i => name (i + 1)]
  have hpool : (List.replicate workers (Thread.worker (α := α))).flatMap due = [] := by
    refine List.flatMap_eq_nil_iff.2 fun t ht => ?_
    rw [(List.mem_replicate.1 ht).2]
    rfl
  rw [threads, List.flatMap_cons, List.flatMap_append, hpool, List.append_nil]
  exact hfront id

end Posts

/-- No post is lost without being counted: each was pushed, or counted by `discard_counter_`,
or is still to be made. -/
theorem posts_accounted (h : Reachable (Monitors.step program) (start blank maxItems workers frontends) s) :
    (s.shared.pushed.filter fun x => x.1.isSome).length + s.world.discardCounter + (s.core.threads.flatMap due).length =
      (frontends.flatMap messagesOf).length := by
  refine core_invariant (fun c => posted c = (frontends.flatMap messagesOf).length) ?_ (fun c i c' hc hs => (posted_step hs).trans hc) h
  rw [core_start, posted, due_start]
  exact Nat.zero_add _

def refusing : State ℕ := start .flush ⟨1, by decide⟩ 1 [[.log 7 .block, .log 8 .discardNew]]

def toRefusal : List (ℕ × Monitors.Action) := turn 1 ++ [(1, .lock), (1, .check), (1, .run), (1, .unlock), (1, .act), (1, .act)]

def refused : State ℕ := (exec (Monitors.step program) refusing toRefusal).getD refusing

theorem posts_accounted_refused :
    refused.world.discardCounter = 1 ∧
    (refused.shared.pushed.filter fun x => x.1.isSome).length + refused.world.discardCounter + (refused.core.threads.flatMap due).length =
      ([[Call.log 7 .block, .log 8 .discardNew]].flatMap messagesOf).length :=
  ⟨rfl, posts_accounted ⟨_, run_of_exec (Monitors.step program) refusing toRefusal rfl⟩⟩

/-- A queue that is seen empty tells that everything was taken or given up; it was handled
only if no thread of the pool still has a message in hand. -/
theorem handled_when_empty_iff (h : Reachable (Monitors.step program) (start blank maxItems workers frontends) s)
    (hempty : s.shared.q.size = 0) :
    ∃ left : List (AsyncMsg α × Bool), s.shared.pushed.map Prod.snd = left.map Prod.fst ∧ s.shared.q.overrunCounter = left.countP (fun x => !x.2) ∧
      ((records ((left.filter Prod.snd).map Prod.fst)).Perm s.world.handled ↔ ∀ t ∈ s.core.threads, hand t = []) := by
  have hsound := sound_reachable h
  obtain ⟨left, haccounted, -⟩ := hsound.accounted
  have hitems : s.shared.q.items = [] := by
    rw [← List.length_eq_zero_iff, s.shared.q.length_items s.shared.enabled, hempty]
  have hsplit : s.shared.pushed.map Prod.snd = left.map Prod.fst ++ s.shared.q.items := haccounted.pushed
  rw [hitems, List.append_nil] at hsplit
  have hhandled : (records s.shared.popped).Perm (s.world.handled ++ s.core.threads.flatMap hand) := hsound.handled
  have hpopped : s.shared.popped = (left.filter Prod.snd).map Prod.fst := haccounted.popped
  refine ⟨left, hsplit, haccounted.overrun, ?_⟩
  rw [← hpopped, ← List.flatMap_eq_nil_iff]
  constructor
  · intro hall
    have hlength := (hhandled.symm.trans hall).length_eq
    rw [List.length_append] at hlength
    exact List.length_eq_zero_iff.1 (by omega)
  · intro hnone
    rw [hnone, List.append_nil] at hhandled
    exact hhandled

/-- The queue is empty, and the flush is not yet handled. -/
theorem handled_when_empty_iff_flushTaken :
    flushTaken.core.threads.flatMap hand = [.flush] ∧
    ∃ left : List (AsyncMsg ℕ × Bool), flushTaken.shared.pushed.map Prod.snd = left.map Prod.fst ∧
      flushTaken.shared.q.overrunCounter = left.countP (fun x => !x.2) ∧
      ((records ((left.filter Prod.snd).map Prod.fst)).Perm flushTaken.world.handled ↔ ∀ t ∈ flushTaken.core.threads, hand t = []) :=
  ⟨rfl, handled_when_empty_iff ⟨_, flushTaken_run⟩ rfl⟩

section Progress

theorem woken_reachable (h : Reachable (Monitors.step program) (start blank maxItems workers frontends) s) :
    Monitors.Woken program units s := by
  refine (h.invariant (fun s => Monitors.Exclusive program s ∧ Monitors.Woken program units s)
    ⟨Monitors.exclusive_start _ _ _, Monitors.woken_start _ _ _ _⟩ fun s label u hs hstep => ?_).2
  exact ⟨Monitors.exclusive_step hs.1 hstep, Monitors.woken_step counted hs.1 hs.2 hstep⟩

theorem countP_lt {β : Type} {p q : β → Bool} {xs : List β} (hpq : ∀ x, p x = true → q x = true) {x : β} (hx : x ∈ xs)
    (hp : p x = false) (hq : q x = true) : xs.countP p < xs.countP q := by
  induction xs with
  | nil => cases hx
  | cons y xs ih =>
    have hle : xs.countP p ≤ xs.countP q := List.countP_mono_left fun z _ => hpq z
    rw [List.countP_cons, List.countP_cons]
    obtain rfl | hx := List.mem_cons.1 hx
    · rw [hp, hq]
      simp only [Bool.false_eq_true, if_false, if_true]
      omega
    · have h := ih hx
      have hhead : (if p y = true then 1 else 0) ≤ if q y = true then 1 else 0 := by
        by_cases hy : p y = true
        · rw [if_pos hy, if_pos (hpq y hy)]
        · rw [if_neg hy]
          exact Nat.zero_le _
      omega

theorem waitsOn_cases {t : Thread α} {c : Cv} (h : program.waitsOn t = some c) :
    (∃ id calls, t = .frontend id calls ∧ c = .pop) ∨ (∃ w left, t = .destructor w (left + 1) ∧ c = .pop) ∨ t = .worker ∧ c = .push := by
  obtain ⟨r, guard, hmove, hwaits⟩ := Monitors.waitsOn_enter h
  cases enters_of_move hmove with
  | @post id call calls item policy hposts =>
    cases policy with
    | block =>
      cases hwaits
      exact .inl ⟨id, _, rfl, rfl⟩
    | overrunOldest | discardNew => cases hwaits
  | poll id calls => cases hwaits
  | take =>
    cases hwaits
    exact .inr (.inr ⟨rfl, rfl⟩)
  | terminate w left =>
    cases hwaits
    exact .inr (.inl ⟨w, left, rfl, rfl⟩)

/-- What a thread of a stuck pool is: at its end, or asleep where there is nothing for it. -/
inductive Blocked (s : State α) : Thread α → Prop where
  | returned (id : ℕ) : Blocked s (.returned id)
  | exited : Blocked s .exited
  | destroyed (w : ℕ) : Blocked s (.destroyed w)
  | owner {w : ℕ} (h : ¬ s.core.threads.all Thread.isReturned = true) : Blocked s (.owner w)
  | joining {w : ℕ} (h : ¬ s.core.threads.all Thread.isExited = true) : Blocked s (.destructor w 0)
  | full {t : Thread α} (hposts : (∃ id calls, t = .frontend id calls) ∨ ∃ w left, t = .destructor w (left + 1))
      (h : units .pop s.shared = 0) : Blocked s t
  | empty (h : units .push s.shared = 0) : Blocked s .worker

theorem blocked_of_stuck (hexclusive : Monitors.Exclusive program s) (hwoken : Monitors.Woken program units s)
    (hstuck : Monitors.Stuck program s) {t : Thread α} (ht : t ∈ s.core.threads) : Blocked s t := by
  obtain ⟨x, hx, rfl⟩ := List.mem_map.1 ht
  obtain ⟨i, hi⟩ := List.mem_iff_getElem?.1 hx
  obtain ⟨-, hmove, hact⟩ | ⟨c, -, hwaits, hnone⟩ := Monitors.stuck_thread units hstuck hexclusive hi
  · obtain ⟨phase, t⟩ := x
    dsimp only at hmove hact ⊢
    cases t with
    | frontend id calls =>
      cases calls with
      | nil => cases hact
      | cons call calls =>
        cases call with
        | log | flush | waitEmpty => cases hmove
    | discarding id calls => cases hact
    | returned id => exact .returned id
    | worker => cases hmove
    | processing m =>
      cases m with
      | log | flush | terminate => cases hact
    | exited => exact .exited
    | owner w =>
      refine .owner fun hall => ?_
      change (if s.core.threads.all Thread.isReturned then _ else none) = none at hact
      rw [if_pos hall] at hact
      cases hact
    | destructor w left =>
      cases left with
      | zero =>
        refine .joining fun hall => ?_
        change (if s.core.threads.all Thread.isExited then _ else none) = none at hact
        rw [if_pos hall] at hact
        cases hact
      | succ left => cases hmove
    | destroyed w => exact .destroyed w
  · have hzero := hnone hwoken
    obtain ⟨id, calls, heq, rfl⟩ | ⟨w, left, heq, rfl⟩ | ⟨heq, rfl⟩ := waitsOn_cases hwaits
    · exact .full (.inl ⟨id, calls, heq⟩) hzero
    · exact .full (.inr ⟨w, left, heq⟩) hzero
    · rw [heq]
      exact .empty hzero

theorem all_exited {all : List (Thread α)} (h : ∀ t ∈ all, Blocked s t) (hpos : 0 < units .push s.shared) :
    all.all Thread.isExited = true := by
  refine List.all_eq_true.2 fun t ht => ?_
  cases h t ht with
  | full hposts =>
    obtain ⟨id, calls, rfl⟩ | ⟨w, left, rfl⟩ := hposts
    all_goals rfl
  | empty hzero => omega
  | _ => rfl

/-- No thread of a stuck pool waits for room: there is a message for a thread of the pool. -/
theorem not_full (hmax : 0 < maxItems.count) (hworkers : 0 < workers) (hsound : Sound workers frontends s.core)
    (hsize : s.shared.q.maxItems = maxItems.count + 1) (hblocked : ∀ t ∈ s.core.threads, Blocked s t) {t : Thread α} (ht : t ∈ s.core.threads)
    (hposts : (∃ id calls, t = .frontend id calls) ∨ ∃ w left, t = .destructor w (left + 1)) : units .pop s.shared ≠ 0 := by
  intro hfull
  have hbound := size_bound s.shared
  have hpos : 0 < units .push s.shared := by
    dsimp only [units] at hfull ⊢
    omega
  have hexited := all_exited hblocked hpos
  obtain ⟨hgone, -⟩ := exited_all hsound hexited
  change s.shared.popped.countP _ = _ at hgone
  obtain ⟨messages, n, hpushed, hplain, hend⟩ := hsound.ending
  have hcount := markers_taken hsound hpushed hplain
  have hlen : 0 < s.core.threads.length := List.length_pos_of_mem ht
  have hending := hend _ (List.getElem?_eq_getElem hlen)
  obtain ⟨i, hi⟩ := List.mem_iff_getElem?.1 ht
  obtain ⟨id, calls, rfl⟩ | ⟨w, left, rfl⟩ := hposts
  · obtain ⟨w, -, -, hn⟩ := ending_logging hi rfl hending
    omega
  · obtain rfl : i = 0 := place hsound.roles hi
    obtain ⟨-, hn, -⟩ := hend _ hi
    omega

/-- A pool that cannot go on has been destroyed. -/
theorem destroyed_of_stuck (hmax : 0 < maxItems.count) (hworkers : 0 < workers)
    (h : Reachable (Monitors.step program) (start blank maxItems workers frontends) s) (hstuck : Monitors.Stuck program s) :
    s.core.threads[0]? = some (.destroyed workers) := by
  have hexclusive := exclusive_pool h
  have hsound := sound_reachable h
  have hsize := maxItems_reachable h
  have hwoken := woken_reachable h
  have hblocked : ∀ t ∈ s.core.threads, Blocked s t := fun t ht => blocked_of_stuck hexclusive hwoken hstuck ht
  have hroom := fun {t : Thread α} => not_full hmax hworkers hsound hsize hblocked (t := t)
  obtain ⟨messages, n, hpushed, hplain, hend⟩ := hsound.ending
  have hcount := markers_taken hsound hpushed hplain
  have hfirst : ∃ t, s.core.threads[0]? = some t := by
    have hlength := congrArg List.length hsound.roles
    rw [List.length_map, List.length_map, threads, List.length_cons] at hlength
    exact ⟨_, List.getElem?_eq_getElem (by omega)⟩
  obtain ⟨t, ht⟩ := hfirst
  have hmem := List.mem_of_getElem? ht
  have hending := hend t ht
  rw [ht]
  cases hblocked t hmem with
  | returned | exited | empty => exact hending.elim
  | destroyed w => rw [hending.1]
  | @owner w hnot =>
    refine absurd (List.all_eq_true.2 fun u hu => ?_) hnot
    cases hblocked u hu with
    | full hposts hzero => exact absurd hzero (hroom hu hposts)
    | _ => rfl
  | @joining w hnot =>
    refine absurd (List.all_eq_true.2 fun u hu => ?_) hnot
    cases hblocked u hu with
    | full hposts hzero => exact absurd hzero (hroom hu hposts)
    | empty hzero =>
      exfalso
      have hitems : s.shared.q.items = [] := by
        rw [← List.length_eq_zero_iff, s.shared.q.length_items s.shared.enabled]
        exact hzero
      rw [hitems, List.countP_nil] at hcount
      have hgone : s.core.threads.countP isGone = s.shared.popped.countP AsyncMsg.isTerminate := hsound.gone
      have hcountWorkers := count_workers hsound
      have hn := hending.2.1
      have hlt := countP_lt (p := isGone) (q := fun t => role t = .worker) (fun u hu => ?_) hu rfl rfl
      · omega
      · cases u with
        | processing | exited => rfl
        | _ => cases hu
    | _ => rfl
  | full hposts hzero => exact absurd hzero (hroom hmem hposts)

theorem total_append {τ κ : Type} (cost : τ → ℕ) (xs ys : List (Monitors.Phase κ × τ)) :
    Monitors.total cost (xs ++ ys) = Monitors.total cost xs + Monitors.total cost ys := by
  induction xs with
  | nil => exact (Nat.zero_add _).symm
  | cons x xs ih =>
    rw [List.cons_append, Monitors.total, Monitors.total, ih, Nat.add_assoc]

theorem total_frontends (frontends : List (List (Call α))) (name : ℕ → ℕ) :
    Monitors.total fuel ((frontends.mapIdx fun i calls => Thread.frontend (name i) calls).map (Prod.mk (Monitors.Phase.out (κ := Cv)))) =
      11 * frontends.length + 32 * frontends.flatten.length := by
  induction frontends generalizing name with
  | nil => rfl
  | cons calls frontends ih =>
    have hrest := ih fun i => name (i + 1)
    rw [List.mapIdx_cons, List.map_cons, Monitors.total, hrest, List.flatten_cons, List.length_append, List.length_cons]
    simp only [Monitors.weight, fuel]
    omega

theorem total_workers (n : ℕ) :
    Monitors.total fuel ((List.replicate n (Thread.worker (α := α))).map (Prod.mk (Monitors.Phase.out (κ := Cv)))) = 3 * n := by
  induction n with
  | zero => rfl
  | succ n ih =>
    rw [List.replicate_succ, List.map_cons, Monitors.total, ih]
    simp only [Monitors.weight, fuel]
    omega

/-- The steps that a pool takes at most, when no thread wakes without a reason and no queue
that is asked for its size is found to hold something. -/
def stepBound (workers : ℕ) (frontends : List (List (Call α))) : ℕ :=
  19 + 35 * workers + 11 * frontends.length + 32 * frontends.flatten.length

theorem energy_start : Monitors.energy fuel stock (start blank maxItems workers frontends) = stepBound workers frontends := by
  have hfront := total_frontends frontends id
  have hpool := total_workers (α := α) workers
  have hsize : (CircularQ.create blank maxItems.count).size = 0 := rfl
  change Monitors.total fuel ((threads workers frontends).map (Prod.mk .out)) + 8 * (2 * (CircularQ.create blank maxItems.count).size) = _
  rw [hsize, threads, List.map_cons, List.map_append, Monitors.total, total_append, hpool]
  change Monitors.total fuel ((frontends.mapIdx Thread.frontend).map _) = _ at hfront
  rw [hfront]
  simp only [Monitors.weight, fuel, stepBound]
  omega

/-- With room for one message a pool is always destroyed in the end: every run is bounded,
but for wake-ups without a reason and for repeated looks at the size, and a pool that
cannot go on has been destroyed. -/
theorem ends_destroyed (hmax : 0 < maxItems.count) (hworkers : 0 < workers) {tr : List (State α × (ℕ × Monitors.Action))}
    (h : Run (Monitors.step program) (start blank maxItems workers frontends) tr s) :
    tr.length ≤ stepBound workers frontends + 8 * tr.countP (Monitors.restless program fuel stock) ∧
      (Monitors.Stuck program s → s.core.threads[0]? = some (.destroyed workers)) := by
  refine ⟨?_, fun hstuck => destroyed_of_stuck hmax hworkers ⟨tr, h⟩ hstuck⟩
  have hlength := Monitors.length_run spends (Monitors.exclusive_start _ _ _) h
  have hstart : Monitors.energy fuel stock (start blank maxItems workers frontends) = stepBound workers frontends := energy_start
  unfold start at hstart
  omega

theorem ends_destroyed_oneRecord :
    (trace (Monitors.step program) oneRecord toEnd).length ≤ stepBound 1 [[Call.log 7 .block, .flush .block]] +
        8 * (trace (Monitors.step program) oneRecord toEnd).countP (Monitors.restless program fuel stock) ∧
      (Monitors.Stuck program poolDestroyed → poolDestroyed.core.threads[0]? = some (.destroyed 1)) :=
  ends_destroyed Nat.one_pos Nat.one_pos poolDestroyed_run

end Progress

def noRoom : MaxItems := ⟨0, by decide⟩

theorem full_without_room (h : Reachable (Monitors.step program) (start blank noRoom workers frontends) s) :
    s.shared.q.maxItems = 1 ∧ s.shared.q.full = true := by
  have hcells : s.shared.q.maxItems = 1 := maxItems_reachable h
  have hbound := size_bound s.shared
  exact ⟨hcells, (full_iff s.shared).2 (by omega)⟩

theorem no_markers (h : Reachable (Monitors.step program) (start blank noRoom workers frontends) s) :
    ∀ m ∈ s.shared.pushed.map Prod.snd, m.isTerminate = false := by
  refine (core_invariant
    (fun c => c.shared.q.maxItems = 1 ∧ ∀ m ∈ c.shared.pushed.map Prod.snd, m.isTerminate = false)
    ⟨CircularQ.maxItems_create blank noRoom, nofun⟩ (fun c i c' hc hs => ?_) h).2
  cases hs with
  | @push id call calls item policy hi hposts hroom =>
    refine ⟨(maxItems_pushBack _ _ _).trans hc.1, ?_⟩
    dsimp only [BlockingQueue.pushBack]
    rw [List.map_append, List.forall_mem_append]
    exact ⟨hc.2, List.forall_mem_singleton.2 (not_terminate_of_posts hposts)⟩
  | terminate hi hroom =>
    -- One cell is the marker of a full queue, and there is no other.
    have hbound := size_bound c.shared
    have hfull := (full_iff c.shared).2 (by omega)
    rw [hroom] at hfull
    cases hfull
  | _ => exact hc

/-- A queue without room for a message is always full and no termination marker gets in, so
that the pool is never destroyed. -/
theorem never_destroyed_without_room (hworkers : 0 < workers)
    (h : Reachable (Monitors.step program) (start blank noRoom workers frontends) s) :
    s.shared.q.maxItems = 1 ∧ s.shared.q.full = true ∧ (∀ m ∈ s.shared.pushed.map Prod.snd, m.isTerminate = false) ∧
      s.core.threads[0]? ≠ some (.destroyed workers) := by
  obtain ⟨hcells, hfull⟩ := full_without_room h
  refine ⟨hcells, hfull, no_markers h, fun hdone => ?_⟩
  obtain ⟨messages, n, hpushed, -, hend⟩ := (sound_reachable h).ending
  obtain ⟨-, hn, -⟩ := hend _ hdone
  have hnone := count_plain (no_markers h)
  change s.shared.pushed.map Prod.snd = _ at hpushed
  rw [hpushed, List.countP_append, List.countP_replicate] at hnone
  change _ + n = 0 at hnone
  omega

/-- A thread overwrites its own message, and the destructor goes to sleep before its first marker. -/
def roomless : State ℕ := start .flush noRoom 1 [[.log 7 .overrunOldest, .log 8 .overrunOldest]]

def toSleep : List (ℕ × Monitors.Action) := turn 1 ++ turn 1 ++ [(1, .act), (0, .act), (0, .lock), (0, .check)]

def sleeping : State ℕ := (exec (Monitors.step program) roomless toSleep).getD roomless

theorem never_destroyed_without_room_sleeping :
    sleeping.threads[0]? = some (.asleep .pop, .destructor 1 1) ∧ sleeping.shared.q.overrunCounter = 2 ∧
    sleeping.shared.q.maxItems = 1 ∧ sleeping.shared.q.full = true ∧
      (∀ m ∈ sleeping.shared.pushed.map Prod.snd, m.isTerminate = false) ∧
      sleeping.core.threads[0]? ≠ some (.destroyed 1) :=
  ⟨rfl, rfl, never_destroyed_without_room Nat.one_pos ⟨_, run_of_exec (Monitors.step program) roomless toSleep rfl⟩⟩

end LoggerBenchmarks.SpdlogShutdown
