import LoggerBenchmarks.FmtlogRing

set_option autoImplicit false

/-!
# The ring of a fmtlog thread never gets stuck

With `FMTLOG_BLOCK` a producer tries again until its message has room. It gets room as
soon as the poller has emptied the ring, unless the message is as long as the ring.
-/
namespace LoggerBenchmarks.FmtlogRingProgress
open LabelledRuns BipBuffer FmtlogRing

variable {β : Type}

def pollerStep (count : ℕ) (s : State β) (a : Action) : Option (State β) := if polling a then step true count s a else none

section Poller

variable {count : ℕ} {s u : State β}

theorem pollerStep_eq {a : Action} (h : pollerStep count s a = some u) : polling a = true ∧ step true count s a = some u := by
  unfold pollerStep at h
  split at h
  · exact ⟨‹_›, h⟩
  · cases h

theorem reachable_of_poller (h : Reachable (pollerStep count) s u) : Reachable (step true count) s u := by
  obtain ⟨tr, hrun⟩ := h
  induction hrun with
  | refl s => exact .refl s
  | next hs _ ih => exact Reachable.trans ⟨_, .single (pollerStep_eq hs).2⟩ ih

structure SameWriter (s u : State β) : Prop where
  writer : u.writer = s.writer
  pending : u.pending = s.pending
  attempts : u.attempts = s.attempts
  writeIdx : u.writeIdx = s.writeIdx

theorem sameWriter_step {a : Action} (h : pollerStep count s a = some u) : SameWriter s u := by
  obtain ⟨hpolling, hs⟩ := pollerStep_eq h
  cases a with
  | front | wrap | again | copy | pop =>
    simp only [step] at hs
    split at hs
    · cases hs
      exact ⟨rfl, rfl, rfl, rfl⟩
    · cases hs
  | _ => cases hpolling

structure Drained (s : State β) : Prop where
  idle : s.reader = .idle
  empty : (s.blk s.readIdx).size = 0

theorem Drained.stored (h : Drained s) (hinv : Inv count s) : s.stored = [] ∧ s.readIdx = s.tail := by
  rcases front_cases hinv.layout hinv.ended with ⟨hstored, -, hflat⟩ | ⟨m, rest, -, hsize, -⟩ | ⟨hmark, -⟩
  · exact ⟨hstored, stretch_eq_nil hflat.content hflat.order⟩
  · exact absurd (hsize.symm.trans h.empty) m.size_ne.1
  · rw [h.empty] at hmark
    cases hmark

/-- How many steps the poller has at most before it. -/
def work (s : State β) : ℕ :=
  6 * s.stored.length +
    match s.reader with
    | .copied => 0
    | .holding => 1
    | .wrapped => 2
    | .wrapping => 3
    | .idle => if (s.blk s.readIdx).size = 0 then 0 else 4

theorem poller_progress (hinv : Inv count s) (hbusy : ¬ Drained s) :
    ∃ a u, pollerStep count s a = some u ∧ work u < work s := by
  cases hreader : s.reader with
  | idle =>
    have hsize : (s.blk s.readIdx).size ≠ 0 := fun hempty => hbusy ⟨hreader, hempty⟩
    have hfront : pollerStep count s .front =
        some { s with reader := if (s.blk s.readIdx).size = 1 then .wrapping else .holding } := by
      simp only [pollerStep, polling, step, hreader, if_neg hsize, if_true]
    refine ⟨_, _, hfront, ?_⟩
    unfold work
    dsimp only
    rw [hreader, if_neg hsize]
    split_ifs
    all_goals
      dsimp only
      omega
  | wrapping =>
    have hwrap : pollerStep count s .wrap = some { s with readIdx := 0, reader := .wrapped } := by
      simp only [pollerStep, polling, step, hreader, if_true]
    refine ⟨_, _, hwrap, ?_⟩
    unfold work
    rw [hreader]
    dsimp only
    omega
  | wrapped =>
    have hread := hinv.reader
    unfold ReaderInv at hread
    rw [hreader] at hread
    have hagain : pollerStep count s .again =
        some { s with reader := if (s.blk 0).size = 0 then .idle else .holding } := by
      simp only [pollerStep, polling, step, hreader, if_true]
    refine ⟨_, _, hagain, ?_⟩
    unfold work
    dsimp only at hread ⊢
    rw [hreader, hread]
    split_ifs
    all_goals
      dsimp only
      omega
  | holding =>
    have hcopy : pollerStep count s .copy =
        some { s with
          reader := .copied
          processed := s.processed ++ [stretch s.blk s.readIdx (s.readIdx + blocks (s.blk s.readIdx).size)] } := by
      simp only [pollerStep, polling, step, hreader, if_true]
    refine ⟨_, _, hcopy, ?_⟩
    unfold work
    rw [hreader]
    dsimp only
    omega
  | copied =>
    obtain ⟨m, rest, hstored, -⟩ := held_cells hinv (.inr hreader)
    have hpop : pollerStep count s .pop =
        some { s with readIdx := s.readIdx + blocks (s.blk s.readIdx).size, reader := .idle, stored := s.stored.tail } := by
      simp only [pollerStep, polling, step, hreader, if_true]
    refine ⟨_, _, hpop, ?_⟩
    unfold work
    rw [hreader, hstored]
    dsimp only
    rw [List.tail_cons, List.length_cons]
    split_ifs
    all_goals omega

theorem SameWriter.trans {v : State β} (h : SameWriter s u) (h' : SameWriter u v) : SameWriter s v :=
  ⟨h'.writer.trans h.writer, h'.pending.trans h.pending, h'.attempts.trans h.attempts, h'.writeIdx.trans h.writeIdx⟩

/-- The poller empties the ring. -/
theorem drains (hinv : Inv count s) : ∃ u, Reachable (step true count) s u ∧ Inv count u ∧ Drained u ∧ SameWriter s u := by
  have hbegin : Inv count s ∧ SameWriter s s := ⟨hinv, rfl, rfl, rfl, rfl⟩
  have hstep : ∀ v a u, Inv count v ∧ SameWriter s v → pollerStep count v a = some u → Inv count u ∧ SameWriter s u :=
    fun v a u hv hs => ⟨inv_step a hv.1 (pollerStep_eq hs).2, hv.2.trans (sameWriter_step hs)⟩
  obtain ⟨u, hreach, hdrained⟩ := reaches_final _ Drained work hstep (fun v hv => poller_progress hv.1) s hbegin
  obtain ⟨hinvU, hsame⟩ := hreach.invariant _ hbegin hstep
  exact ⟨u, reachable_of_poller hreach, hinvU, hdrained, hsame⟩

end Poller

section Producer

variable {count : ℕ} {s u : State β} {m : Message β} {rest : List (Message β)}

def Gets (count : ℕ) (s : State β) : Prop :=
  ∃ u, Reachable (step true count) s u ∧ u.writer = .reserving ∧ u.pending = s.pending

theorem Gets.before (h : Gets count u) (hreach : Reachable (step true count) s u) (hpending : u.pending = s.pending) :
    Gets count s := by
  obtain ⟨v, hv, hwriter, hsame⟩ := h
  exact ⟨v, hreach.trans hv, hwriter, hsame.trans hpending⟩

theorem Gets.step (h : Gets count u) {a : Action} (hs : FmtlogRing.step true count s a = some u) (hpending : u.pending = s.pending) :
    Gets count s :=
  h.before ⟨_, .single hs⟩ hpending

theorem tested_room (h : blocks m.size < s.freeWriteCnt) : s.tested true m rest = { s with writer := .reserving } :=
  if_neg (Nat.not_le.2 h)

theorem tested_full (h : s.freeWriteCnt ≤ blocks m.size) : s.tested true m rest = { s with writer := .ready } :=
  if_pos h

theorem gets_reserving (hwriter : s.writer = .reserving) : Gets count s := ⟨s, .refl s, hwriter, rfl⟩

/-- In an emptied ring the load finds enough room, or that it has to begin again. -/
theorem gets_loading_begin (hwriter : s.writer = .loading) (hpending : s.pending = m :: rest) (hfits : blocks m.size < count)
    (hread : s.readIdx = 0) (hwrite : s.writeIdx = 0) : Gets count s := by
  have hload : step true count s .load =
      some { s with freeWriteCnt := count - s.writeIdx, writer := .reserving } := by
    simp only [step, hwriter, hpending]
    rw [if_pos (by omega), if_neg (by omega), tested_room (by dsimp only; omega)]
  have hreserving : Gets count { s with freeWriteCnt := count - s.writeIdx, writer := .reserving } := gets_reserving rfl
  exact hreserving.step hload rfl

theorem gets_ready_begin (hwriter : s.writer = .ready) (hpending : s.pending = m :: rest) (hfits : blocks m.size < count)
    (hread : s.readIdx = 0) (hwrite : s.writeIdx = 0) : Gets count s := by
  have halloc : step true count s .alloc =
      some { s with writer := if s.freeWriteCnt ≤ blocks m.size then .loading else .reserving } := by
    simp only [step, hwriter, hpending]
  by_cases hroom : s.freeWriteCnt ≤ blocks m.size
  · rw [if_pos hroom] at halloc
    have hloading : Gets count { s with writer := .loading } := gets_loading_begin rfl hpending hfits hread hwrite
    exact hloading.step halloc rfl
  · rw [if_neg hroom] at halloc
    have hreserving : Gets count { s with writer := .reserving } := gets_reserving rfl
    exact hreserving.step halloc rfl

theorem gets_marking (hinv : Inv count s) {cache : ℕ} (hwriter : s.writer = .marking cache)
    (hpending : s.pending = m :: rest) (hfits : blocks m.size < count) : Gets count s := by
  by_cases hroom : cache ≤ blocks m.size
  · -- the poller has to follow to the beginning first
    have hmark : step true count s .mark =
        some { s with blk := s.setSize s.writeIdx 1, writeIdx := 0, freeWriteCnt := cache, writer := .ready } := by
      simp only [step, hwriter, hpending]
      rw [tested_full hroom]
    obtain ⟨v, hreach, hinvV, hdrained, hsame⟩ := drains (inv_step .mark hinv hmark)
    have hready : v.writer = .ready := hsame.writer
    have hwrite : v.writeIdx = 0 := hsame.writeIdx
    have hread : v.readIdx = 0 := by
      rw [(hdrained.stored hinvV).2, State.tail, hready, hwrite]
    have hnext : v.pending = m :: rest := hsame.pending.trans hpending
    exact ((gets_ready_begin hready hnext hfits hread hwrite).before hreach hsame.pending).step hmark rfl
  · have hmark : step true count s .mark =
        some { s with blk := s.setSize s.writeIdx 1, writeIdx := 0, freeWriteCnt := cache, writer := .reserving } := by
      simp only [step, hwriter, hpending]
      rw [tested_room (Nat.not_le.1 hroom)]
    have hreserving : Gets count
        { s with blk := s.setSize s.writeIdx 1, writeIdx := 0, freeWriteCnt := cache, writer := .reserving } :=
      gets_reserving rfl
    exact hreserving.step hmark rfl

theorem gets_clearing (hinv : Inv count s) {cache : ℕ} (hwriter : s.writer = .clearing cache)
    (hpending : s.pending = m :: rest) (hfits : blocks m.size < count) : Gets count s := by
  have hclear : step true count s .clear = some { s with blk := s.setSize 0 0, writer := .marking cache } := by
    simp only [step, hwriter]
  exact (gets_marking (inv_step .clear hinv hclear) rfl hpending hfits).step hclear rfl

theorem gets_loading (hinv : Inv count s) (hwriter : s.writer = .loading) (hdrained : Drained s)
    (hpending : s.pending = m :: rest) (hfits : blocks m.size < count) : Gets count s := by
  have hread : s.readIdx = s.writeIdx := by
    rw [(hdrained.stored hinv).2, State.tail, hwriter]
  by_cases hwrap : count - s.writeIdx ≤ blocks m.size ∧ s.readIdx ≠ 0
  · have hload : step true count s .load =
        some { s with freeWriteCnt := count - s.writeIdx, writer := .clearing s.readIdx } := by
      simp only [step, hwriter, hpending]
      rw [if_pos hread.le, if_pos hwrap]
    exact (gets_clearing (inv_step .load hinv hload) rfl hpending hfits).step hload rfl
  · have hroom : blocks m.size < count - s.writeIdx := by
      by_contra hfull
      exact hwrap ⟨Nat.not_lt.1 hfull, by omega⟩
    have hload : step true count s .load =
        some { s with freeWriteCnt := count - s.writeIdx, writer := .reserving } := by
      simp only [step, hwriter, hpending]
      rw [if_pos hread.le, if_neg hwrap, tested_room hroom]
    have hreserving : Gets count { s with freeWriteCnt := count - s.writeIdx, writer := .reserving } := gets_reserving rfl
    exact hreserving.step hload rfl

theorem gets_ready (hinv : Inv count s) (hwriter : s.writer = .ready) (hdrained : Drained s)
    (hpending : s.pending = m :: rest) (hfits : blocks m.size < count) : Gets count s := by
  have halloc : step true count s .alloc =
      some { s with writer := if s.freeWriteCnt ≤ blocks m.size then .loading else .reserving } := by
    simp only [step, hwriter, hpending]
  by_cases hroom : s.freeWriteCnt ≤ blocks m.size
  · rw [if_pos hroom] at halloc
    have hloading : Gets count { s with writer := .loading } :=
      gets_loading (inv_step .alloc hinv halloc) rfl ⟨hdrained.idle, hdrained.empty⟩ hpending hfits
    exact hloading.step halloc rfl
  · rw [if_neg hroom] at halloc
    have hreserving : Gets count { s with writer := .reserving } := gets_reserving rfl
    exact hreserving.step halloc rfl

theorem pushes {start next : ℕ} (hinv : Inv count s) (hwriter : s.writer = .filling start next)
    (hpending : s.pending = m :: rest) : ∃ u, Reachable (step true count) s u ∧ u.pending = rest := by
  have hnext : next ≤ blocks m.size := by
    have hwriterInv := hinv.writer
    unfold WriterInv at hwriterInv
    rw [hwriter] at hwriterInv
    obtain ⟨m', rest', hpending', -, hle, -⟩ := hwriterInv
    obtain ⟨rfl, rfl⟩ := List.cons.inj (hpending.symm.trans hpending')
    exact hle
  induction hleft : blocks m.size - next generalizing s next with
  | zero =>
    have hpush : step true count s .push = some
        { s with
          blk := s.setSize start m.size
          writer := .ready
          pending := rest
          attempts := s.attempts ++ [(m, true)]
          stored := s.stored ++ [m] } := by
      simp only [step, hwriter, hpending]
      rw [if_pos (by omega)]
    exact ⟨_, ⟨_, .single hpush⟩, rfl⟩
  | succ left ih =>
    have hfill : ∃ cell, step true count s .fill =
        some { s with blk := Function.update s.blk (start + next) cell, writer := .filling start (next + 1) } := by
      cases next with
      | zero =>
        refine ⟨{ s.blk start with rest := m.logId }, ?_⟩
        simp only [step, hwriter, hpending]
        rfl
      | succ next =>
        have hlength : next < m.body.length := by
          have hfilled := m.filled
          rw [m.size_eq] at hleft
          omega
        refine ⟨m.body[next], ?_⟩
        simp only [step, hwriter, hpending, List.getElem?_eq_getElem hlength]
        rfl
    obtain ⟨cell, hfill⟩ := hfill
    obtain ⟨u, hreach, hu⟩ := ih (inv_step .fill hinv hfill) rfl hpending (by omega) (by omega)
    exact ⟨u, Reachable.trans ⟨_, .single hfill⟩ hreach, hu⟩

/-- The next message is pushed, if it is shorter than the ring. -/
theorem advances (hinv : Inv count s) (hpending : s.pending = m :: rest) (hfits : blocks m.size < count) :
    ∃ u, Reachable (step true count) s u ∧ Inv count u ∧ u.pending = rest := by
  have hfilling : ∃ u start next, Reachable (step true count) s u ∧ Inv count u ∧ u.writer = .filling start next ∧
      u.pending = m :: rest := by
    by_cases hbusy : ∃ start next, s.writer = .filling start next
    · obtain ⟨start, next, hwriter⟩ := hbusy
      exact ⟨s, start, next, .refl s, hinv, hwriter, hpending⟩
    · have hgets : Gets count s := by
        obtain ⟨v, hreach, hinvV, hdrained, hsame⟩ := drains hinv
        have hnext : v.pending = m :: rest := hsame.pending.trans hpending
        refine Gets.before ?_ hreach hsame.pending
        cases hwriter : v.writer with
        | ready => exact gets_ready hinvV hwriter hdrained hnext hfits
        | loading => exact gets_loading hinvV hwriter hdrained hnext hfits
        | clearing cache => exact gets_clearing hinvV hwriter hnext hfits
        | marking cache => exact gets_marking hinvV hwriter hnext hfits
        | reserving => exact gets_reserving hwriter
        | filling start next => exact absurd ⟨start, next, hsame.writer ▸ hwriter⟩ hbusy
      obtain ⟨v, hreach, hwriter, hsame⟩ := hgets
      have hinvV := hreach.invariant _ hinv fun _ a _ hv hs => inv_step a hv hs
      have hreserve : step true count v .reserve = some
          { v with
            blk := v.setSize (v.writeIdx + blocks m.size) 0
            writeIdx := v.writeIdx + blocks m.size
            freeWriteCnt := v.freeWriteCnt - blocks m.size
            writer := .filling v.writeIdx 0 } := by
        simp only [step, hwriter, hsame.trans hpending]
      exact ⟨_, _, _, hreach.tail hreserve, inv_step .reserve hinvV hreserve, rfl, hsame.trans hpending⟩
  obtain ⟨v, start, next, hreach, hinvV, hwriter, hnext⟩ := hfilling
  obtain ⟨u, hpush, hu⟩ := pushes hinvV hwriter hnext
  exact ⟨u, hreach.trans hpush, hpush.invariant _ hinvV fun _ a _ hv hs => inv_step a hv hs, hu⟩

theorem all_pushed (hinv : Inv count s) (hfits : ∀ m ∈ s.pending, blocks m.size < count) :
    ∃ u, Reachable (step true count) s u ∧ Inv count u ∧ u.pending = [] := by
  induction hpending : s.pending generalizing s with
  | nil => exact ⟨s, .refl s, hinv, hpending⟩
  | cons m rest ih =>
    rw [hpending] at hfits
    obtain ⟨hfit, hrest⟩ := List.forall_mem_cons.1 hfits
    obtain ⟨v, hreach, hinvV, hv⟩ := advances hinv hpending hfit
    obtain ⟨u, hpushed, hinvU, hu⟩ := ih hinvV (hv ▸ hrest) hv
    exact ⟨u, hreach.trans hpushed, hinvU, hu⟩

end Producer

/-- A blocking producer gives no message up, and what it has pushed was shorter than the ring. -/
def Short (count : ℕ) (s : State β) : Prop := ∀ e ∈ s.attempts, e.2 = true ∧ blocks e.1.size < count

theorem attempts_cases {count : ℕ} {s u : State β} {a : Action} (hs : step true count s a = some u) :
    u.attempts = s.attempts ∨
      ∃ start next m rest, s.writer = .filling start next ∧ s.pending = m :: rest ∧
        u.attempts = s.attempts ++ [(m, true)] := by
  cases a with
  | push =>
    simp only [step] at hs
    split at hs
    · rename_i start next m rest hwriter hpending
      split at hs
      · cases hs
        exact .inr ⟨start, next, m, rest, hwriter, hpending, rfl⟩
      · cases hs
    · cases hs
  | load | mark =>
    simp only [step, State.tested, if_true] at hs
    split at hs
    · left
      split_ifs at hs
      all_goals
        cases hs
        rfl
    · cases hs
  | fill =>
    simp only [step] at hs
    split at hs
    · cases hs
      exact .inl rfl
    · obtain ⟨cell, -, rfl⟩ := Option.map_eq_some_iff.1 hs
      exact .inl rfl
    · cases hs
  | alloc | clear | reserve | front | wrap | again | copy | pop =>
    simp only [step] at hs
    split at hs
    · cases hs
      exact .inl rfl
    · cases hs

theorem short_step {count : ℕ} {s u : State β} {a : Action} (hinv : Inv count s) (h : Short count s)
    (hs : step true count s a = some u) : Short count u := by
  unfold Short
  rcases attempts_cases hs with hsame | ⟨start, next, m, rest, hwriter, hpending, hpushed⟩
  · rw [hsame]
    exact h
  · have hwriterInv := hinv.writer
    unfold WriterInv at hwriterInv
    rw [hwriter] at hwriterInv
    obtain ⟨m', rest', hpending', hend, -, -⟩ := hwriterInv
    obtain ⟨rfl, -⟩ := List.cons.inj (hpending.symm.trans hpending')
    have hroom := hinv.layout.room.2
    have hfree := hinv.free
    unfold State.bound at hroom
    rw [hpushed, List.forall_mem_append, List.forall_mem_singleton]
    exact ⟨h, rfl, by dsimp only; omega⟩

section Delivery

variable {count : ℕ} {zero : β} {messages : List (Message β)} {s : State β}

theorem reached_short (hcount : 0 < count) (h : Reachable (step true count) (start count zero messages) s) :
    Short count s := by
  have hboth := h.invariant (fun s => Inv count s ∧ Short count s) ⟨inv_start hcount zero messages, nofun⟩
    fun _ a _ hv hs => ⟨inv_step a hv.1 hs, short_step hv.1 hv.2 hs⟩
  exact hboth.2

/-- A blocking producer has pushed all that it has attempted. -/
theorem Short.logged (h : Short count s) : s.logged = s.attempts.map Prod.fst := by
  unfold State.logged
  rw [List.filter_eq_self.2 fun e he => (h e he).1]

theorem processed_all (h : Accounted messages s) (hshort : Short count s) (hpending : s.pending = [])
    (hunread : s.unread = []) : s.processed = messages.map Message.cells := by
  have hattempted := h.attempted
  have hqueued := h.queued
  rw [hpending, List.append_nil] at hattempted
  rwa [hunread, List.map_nil, List.append_nil, hshort.logged, hattempted] at hqueued

end Delivery

/-- With `FMTLOG_BLOCK` everything can still be delivered, from every state, exactly when every message with
its header takes fewer cells than the ring has. -/
theorem deliverable_iff (count : ℕ) (hcount : 0 < count) (zero : β) (messages : List (Message β)) :
    (∀ s, Reachable (step true count) (start count zero messages) s →
      ∃ u, Reachable (step true count) s u ∧ u.processed = messages.map Message.cells) ↔
      ∀ m ∈ messages, blocks m.size < count := by
  constructor
  · intro h m hm
    obtain ⟨u, hreach, hprocessed⟩ := h _ (.refl _)
    have haccounted := reached_accounted hcount hreach
    have hshort := reached_short hcount hreach
    have hattempted := haccounted.attempted
    have hpending : u.pending = [] := by
      have hqueued := congrArg List.length haccounted.queued
      have hall := congrArg List.length hattempted
      rw [hprocessed, hshort.logged] at hqueued
      simp only [List.length_append, List.length_map] at hqueued hall
      exact List.length_eq_zero_iff.1 (by omega)
    rw [hpending, List.append_nil] at hattempted
    rw [← hattempted] at hm
    obtain ⟨e, he, rfl⟩ := List.mem_map.1 hm
    exact (hshort e he).2
  · intro hfits s hreach
    have hinv := reached_inv hcount hreach
    have hsuffix : ∀ m ∈ s.pending, blocks m.size < count := by
      intro m hm
      refine hfits m ?_
      rw [← (reached_accounted hcount hreach).attempted]
      exact List.mem_append_right _ hm
    obtain ⟨v, hpushed, hinvV, hpending⟩ := all_pushed hinv hsuffix
    obtain ⟨u, hdrain, hinvU, hdrained, hsame⟩ := drains hinvV
    have hall := hreach.trans (hpushed.trans hdrain)
    refine ⟨u, hpushed.trans hdrain, ?_⟩
    refine processed_all (reached_accounted hcount hall) (reached_short hcount hall) (hsame.pending.trans hpending) ?_
    unfold State.unread
    rw [hdrained.idle]
    exact (hdrained.stored hinvU).1

theorem deliverable_two :
    (∀ s, Reachable (step true 4) (start 4 0 [stamp 7, stamp 8]) s →
      ∃ u, Reachable (step true 4) s u ∧ u.processed = [stamp 7, stamp 8].map Message.cells) ↔
      ∀ m ∈ [stamp 7, stamp 8], blocks m.size < 4 :=
  deliverable_iff 4 (by decide) 0 [stamp 7, stamp 8]

end LoggerBenchmarks.FmtlogRingProgress
