import LoggerBenchmarks.FmtlogRing
import LoggerBenchmarks.FmtlogBackendDrain
import LoggerBenchmarks.ListUpdates

set_option autoImplicit false

/-!
# The fmtlog backend thread with its queues

Every thread that logs has a buffer with a queue; `poll` goes over the buffers. A thread
that exits marks its buffer, and a poll deletes a marked buffer in which it has found
nothing. Which buffer comes next is left open, and so is which time stamps a poll stops at.
-/
namespace LoggerBenchmarks.FmtlogPoll
open LabelledRuns ListUpdates FmtlogRing
open FmtlogBackendDrain (Backend)

variable {β : Type}

/-- What the running poll knows of a buffer: it has not looked yet, it has found nothing and goes on to
`shouldDeallocate`, it has a header or has had one, it has found nothing. -/
inductive Look where
  | unseen
  | checking
  | busy
  | nothing
  deriving DecidableEq

/-- `due` is the number of messages pushed when the running poll began. -/
structure Buffer (β : Type) where
  varq : FmtlogRing.State β
  look : Look
  due : ℕ
  shouldDeallocate : Bool
  deleted : Bool

structure System (β : Type) where
  buffers : List (Buffer β)
  done : Bool
  backend : Backend

inductive Action where
  | varq (thread : ℕ) (a : FmtlogRing.Action)
  | exit (thread : ℕ)
  | check (thread : ℕ)
  | storeDone
  | beginPoll
  | endPoll
  | loadDone
  | test
  deriving DecidableEq

def Buffer.start (count : ℕ) (zero : β) (messages : List (Message β)) : Buffer β :=
  ⟨FmtlogRing.start count zero messages, .unseen, 0, false, false⟩

def start (count : ℕ) (zero : β) (messages : List (List (Message β))) : System β :=
  ⟨messages.map (Buffer.start count zero), false, .calling false⟩

def Look.after (look : Look) (a : FmtlogRing.Action) (reader : Reader) : Look :=
  match a, reader with
  | .front, .idle | .again, .idle => if look = .unseen then .checking else .nothing
  | .front, .holding | .again, .holding => .busy
  | _, _ => look

def Buffer.polled (b : Buffer β) (backend : Backend) : Prop :=
  (∃ forceFlush, backend = .polling forceFlush) ∧ b.deleted = false ∧ (b.look = .unseen ∨ b.look = .busy)

instance (b : Buffer β) (backend : Backend) : Decidable (b.polled backend) := by
  unfold Buffer.polled
  cases backend with
  | polling forceFlush =>
    exact decidable_of_iff (b.deleted = false ∧ (b.look = .unseen ∨ b.look = .busy))
      ⟨fun h => ⟨⟨forceFlush, rfl⟩, h⟩, fun h => h.2⟩
  | _ => exact isFalse (by rintro ⟨⟨forceFlush, h⟩, -⟩; cases h)

def Buffer.settled (b : Buffer β) : Bool :=
  b.deleted || b.look == .nothing || b.look == .unseen && b.due == 0 && b.varq.reader == .idle

/-- The message at the front came after the poll began: its time stamp is later, or its log info is not known. -/
def Buffer.late (b : Buffer β) : Bool :=
  !b.deleted && b.varq.reader == .holding && b.due ≤ b.varq.processed.length

/-- The poll has found nothing anywhere, or it has nothing but headers and one of them is late. -/
def System.ended (s : System β) : Bool :=
  s.buffers.all Buffer.settled ||
    s.buffers.all (fun b => b.settled || b.look == .busy && b.varq.reader == .holding) && s.buffers.any Buffer.late

def Buffer.begun (b : Buffer β) : Buffer β :=
  { b with look := if b.varq.reader = .idle then .unseen else .busy, due := b.varq.logged.length }

def Buffer.checked (b : Buffer β) : Buffer β :=
  { b with look := .nothing, deleted := b.deleted || b.shouldDeallocate }

def step (block : Bool) (count : ℕ) (s : System β) : Action → Option (System β)
  | .varq thread a =>
    match s.buffers[thread]? with
    | some b =>
      if polling a = true → b.polled s.backend then
        (FmtlogRing.step block count b.varq a).map fun varq =>
          { s with buffers := s.buffers.set thread { b with varq := varq, look := b.look.after a varq.reader } }
      else none
    | none => none
  | .exit thread =>
    match s.buffers[thread]? with
    | some b =>
      if b.varq.pending.isEmpty then
        some { s with buffers := s.buffers.set thread { b with shouldDeallocate := true } }
      else none
    | none => none
  | .check thread =>
    match s.buffers[thread]? with
    | some b =>
      if b.look = .checking then
        some { s with buffers := s.buffers.set thread b.checked }
      else none
    | none => none
  | .storeDone =>
    if s.buffers.all (·.varq.pending.isEmpty) then some { s with done := true } else none
  | .beginPoll =>
    match s.backend with
    | .calling forceFlush => some { s with buffers := s.buffers.map Buffer.begun, backend := .polling forceFlush }
    | _ => none
  | .endPoll =>
    match s.backend with
    | .polling forceFlush =>
      if s.ended then some { s with backend := if forceFlush then .left else .loading } else none
    | _ => none
  | .loadDone => if s.backend = .loading then some { s with backend := .testing s.done } else none
  | .test =>
    match s.backend with
    | .testing done => some { s with backend := .calling done }
    | _ => none

/-- Everything a step can do, guards included. -/
theorem step_cases {block : Bool} {count : ℕ} {s u : System β} {act : Action} (h : step block count s act = some u) :
    (∃ thread a b varq, act = .varq thread a ∧ s.buffers[thread]? = some b ∧
      (polling a = true → b.polled s.backend) ∧ FmtlogRing.step block count b.varq a = some varq ∧
      u = { s with buffers := s.buffers.set thread { b with varq := varq, look := b.look.after a varq.reader } }) ∨
    (∃ thread b, act = .exit thread ∧ s.buffers[thread]? = some b ∧ b.varq.pending = [] ∧
      u = { s with buffers := s.buffers.set thread { b with shouldDeallocate := true } }) ∨
    (∃ thread b, act = .check thread ∧ s.buffers[thread]? = some b ∧ b.look = .checking ∧
      u = { s with buffers := s.buffers.set thread b.checked }) ∨
    (act = .storeDone ∧ (∀ b ∈ s.buffers, b.varq.pending = []) ∧ u = { s with done := true }) ∨
    (∃ f, act = .beginPoll ∧ s.backend = .calling f ∧
      u = { s with buffers := s.buffers.map Buffer.begun, backend := .polling f }) ∨
    (∃ f, act = .endPoll ∧ s.backend = .polling f ∧ s.ended = true ∧
      u = { s with backend := if f then .left else .loading }) ∨
    (act = .loadDone ∧ s.backend = .loading ∧ u = { s with backend := .testing s.done }) ∨
    (∃ d, act = .test ∧ s.backend = .testing d ∧ u = { s with backend := .calling d }) := by
  cases act with
  | varq thread a =>
    left
    simp only [step] at h
    split at h
    · rename_i b hb
      split at h
      · rename_i hpolled
        obtain ⟨varq, hvarq, rfl⟩ := Option.map_eq_some_iff.1 h
        exact ⟨thread, a, b, varq, rfl, hb, hpolled, hvarq, rfl⟩
      · cases h
    · cases h
  | exit thread =>
    right; left
    simp only [step] at h
    split at h
    · rename_i b hb
      split at h
      · rename_i hpending
        exact ⟨thread, b, rfl, hb, List.isEmpty_iff.1 hpending, (Option.some.inj h).symm⟩
      · cases h
    · cases h
  | check thread =>
    right; right; left
    simp only [step] at h
    split at h
    · rename_i b hb
      split at h
      · rename_i hlook
        exact ⟨thread, b, rfl, hb, hlook, (Option.some.inj h).symm⟩
      · cases h
    · cases h
  | storeDone =>
    right; right; right; left
    simp only [step] at h
    split at h
    · rename_i hall
      rw [List.all_eq_true] at hall
      exact ⟨rfl, fun b hb => List.isEmpty_iff.1 (hall b hb), (Option.some.inj h).symm⟩
    · cases h
  | beginPoll =>
    right; right; right; right; left
    simp only [step] at h
    split at h
    · rename_i f hf
      exact ⟨f, rfl, hf, (Option.some.inj h).symm⟩
    · cases h
  | endPoll =>
    right; right; right; right; right; left
    simp only [step] at h
    split at h
    · rename_i f hf
      split at h
      · rename_i hended
        exact ⟨f, rfl, hf, hended, (Option.some.inj h).symm⟩
      · cases h
    · cases h
  | loadDone =>
    right; right; right; right; right; right; left
    simp only [step] at h
    split at h
    · rename_i hl
      exact ⟨rfl, hl, (Option.some.inj h).symm⟩
    · cases h
  | test =>
    right; right; right; right; right; right; right
    simp only [step] at h
    split at h
    · rename_i d hd
      exact ⟨d, rfl, hd, (Option.some.inj h).symm⟩
    · cases h

structure Sound (count : ℕ) (done : Bool) (backend : Backend) (b : Buffer β) : Prop where
  ring : FmtlogRing.Inv count b.varq
  account : b.varq.processed ++ b.varq.unread.map Message.cells = b.varq.logged.map Message.cells
  quiet : done = true ∨ b.shouldDeallocate = true → b.varq.pending = []
  deleted : b.deleted = true → b.shouldDeallocate = true
  due : backend = .polling true → b.varq.logged.length ≤ b.due
  found : backend = .polling true → b.look = .checking ∨ b.look = .nothing → b.varq.unread = []

structure Base (count : ℕ) (s : System β) : Prop where
  sound : ∀ b ∈ s.buffers, Sound count s.done s.backend b
  seen : s.backend = .testing true ∨ s.backend = .calling true ∨ s.backend = .polling true ∨ s.backend = .left →
    s.done = true

section Step

variable {block : Bool} {count : ℕ} {s u : System β} {b : Buffer β}

theorem Sound.varq {done : Bool} {backend : Backend} {a : FmtlogRing.Action} {varq : FmtlogRing.State β}
    (h : Sound count done backend b) (hdone : backend = .polling true → done = true)
    (hpolled : polling a = true → b.polled backend) (hs : FmtlogRing.step block count b.varq a = some varq) :
    Sound count done backend { b with varq := varq, look := b.look.after a varq.reader } := by
  have haccounted : Accounted (b.varq.attempts.map Prod.fst ++ b.varq.pending) b.varq := ⟨rfl, h.account⟩
  refine ⟨inv_step a h.ring hs, (accounted_step a h.ring haccounted hs).queued, ?_, h.deleted, ?_, ?_⟩
  · intro hquiet
    exact (quiet_step hs (h.quiet hquiet)).1
  · intro hlast
    obtain ⟨-, hlogged, -⟩ := quiet_step hs (h.quiet (.inl (hdone hlast)))
    dsimp only
    rw [hlogged]
    exact h.due hlast
  · intro hlast hlook
    dsimp only at hlook ⊢
    obtain ⟨-, -, hunread⟩ := quiet_step hs (h.quiet (.inl (hdone hlast)))
    by_cases hpolling : polling a = true
    · -- only a look that finds nothing leads there
      obtain ⟨-, -, hbusy⟩ := hpolled hpolling
      have hempty : (a = .front ∨ a = .again) ∧ varq.reader = .idle := by
        revert hlook
        unfold Look.after
        split
        · rename_i hreader
          exact fun _ => ⟨.inl rfl, hreader⟩
        · rename_i hreader
          exact fun _ => ⟨.inr rfl, hreader⟩
        · rintro (hlook | hlook) <;> cases hlook
        · rintro (hlook | hlook) <;> cases hlook
        · intro hlook
          rcases hbusy with hb | hb
          all_goals
            rw [hb] at hlook
            rcases hlook with hlook | hlook <;> cases hlook
      exact found_nothing h.ring hs hempty.1 hempty.2
    · rw [hunread (Bool.eq_false_iff.2 hpolling)]
      refine h.found hlast ?_
      have hsame : b.look.after a varq.reader = b.look := by
        cases a with
        | front | again => exact absurd rfl hpolling
        | _ => rfl
      rwa [hsame] at hlook

theorem base_step {act : Action} (h : Base count s) (hs : step block count s act = some u) : Base count u := by
  obtain ⟨thread, a, b, varq, -, hb, hpolled, hvarq, rfl⟩ | ⟨thread, b, -, hb, hpending, rfl⟩ |
    ⟨thread, b, -, hb, hlook, rfl⟩ | ⟨-, hpending, rfl⟩ | ⟨f, -, hf, rfl⟩ | ⟨f, -, hf, -, rfl⟩ | ⟨-, hl, rfl⟩ |
    ⟨d, -, hd, rfl⟩ := step_cases hs
  · refine ⟨fun c hc => ?_, h.seen⟩
    rcases List.mem_or_eq_of_mem_set hc with hc | rfl
    · exact h.sound c hc
    · exact (h.sound b (List.mem_of_getElem? hb)).varq (fun hlast => h.seen (.inr (.inr (.inl hlast)))) hpolled hvarq
  · refine ⟨fun c hc => ?_, h.seen⟩
    rcases List.mem_or_eq_of_mem_set hc with hc | rfl
    · exact h.sound c hc
    · have hsound := h.sound b (List.mem_of_getElem? hb)
      exact ⟨hsound.ring, hsound.account, fun _ => hpending, fun _ => rfl, hsound.due, hsound.found⟩
  · refine ⟨fun c hc => ?_, h.seen⟩
    rcases List.mem_or_eq_of_mem_set hc with hc | rfl
    · exact h.sound c hc
    · have hsound := h.sound b (List.mem_of_getElem? hb)
      refine ⟨hsound.ring, hsound.account, hsound.quiet, ?_, hsound.due, fun hlast _ => hsound.found hlast (.inl hlook)⟩
      intro hdeleted
      rcases Bool.or_eq_true_iff.1 hdeleted with hdeleted | hmarked
      · exact hsound.deleted hdeleted
      · exact hmarked
  · refine ⟨fun c hc => ?_, fun _ => rfl⟩
    have hsound := h.sound c hc
    exact ⟨hsound.ring, hsound.account, fun _ => hpending c hc, hsound.deleted, hsound.due, hsound.found⟩
  · refine ⟨fun c hc => ?_, ?_⟩
    · obtain ⟨b, hb, rfl⟩ := List.mem_map.1 hc
      have hsound := h.sound b hb
      refine ⟨hsound.ring, hsound.account, hsound.quiet, hsound.deleted, fun _ => le_rfl, ?_⟩
      intro _ hlook
      unfold Buffer.begun at hlook
      dsimp only at hlook
      split_ifs at hlook
      all_goals rcases hlook with hlook | hlook <;> cases hlook
    · rintro (hb | hb | hb | hb)
      · cases hb
      · cases hb
      · obtain rfl : f = true := Backend.polling.inj hb
        exact h.seen (.inr (.inl hf))
      · cases hb
  · have hnot : ∀ f, (if f = true then Backend.left else Backend.loading) ≠ .polling true := by
      intro f
      cases f <;> nofun
    refine ⟨fun c hc => ?_, ?_⟩
    · have hsound := h.sound c hc
      exact ⟨hsound.ring, hsound.account, hsound.quiet, hsound.deleted, fun hlast => absurd hlast (hnot f),
        fun hlast => absurd hlast (hnot f)⟩
    · cases f with
      | false => rintro (hb | hb | hb | hb) <;> cases hb
      | true => exact fun _ => h.seen (.inr (.inr (.inl hf)))
  · refine ⟨fun c hc => ?_, ?_⟩
    · have hsound := h.sound c hc
      exact ⟨hsound.ring, hsound.account, hsound.quiet, hsound.deleted, nofun, nofun⟩
    · rintro (hb | hb | hb | hb)
      · exact Backend.testing.inj hb
      all_goals cases hb
  · refine ⟨fun c hc => ?_, ?_⟩
    · have hsound := h.sound c hc
      exact ⟨hsound.ring, hsound.account, hsound.quiet, hsound.deleted, nofun, nofun⟩
    · rintro (hb | hb | hb | hb)
      · cases hb
      · obtain rfl : d = true := Backend.calling.inj hb
        exact h.seen (.inl hd)
      · cases hb
      · cases hb

theorem base_start (hcount : 0 < count) (zero : β) (messages : List (List (Message β))) :
    Base count (start count zero messages) := by
  refine ⟨fun b hb => ?_, ?_⟩
  · obtain ⟨ms, -, rfl⟩ := List.mem_map.1 hb
    refine ⟨inv_start hcount zero ms, rfl, ?_, nofun, nofun, nofun⟩
    rintro (h | h) <;> cases h
  · rintro (h | h | h | h) <;> cases h

end Step

/-- When the poll comes to delete a buffer, nothing has been pushed since it found the buffer empty. -/
def DeletesEmpty (s : System β) : Action → Prop
  | .check thread => ∀ b, s.buffers[thread]? = some b → b.shouldDeallocate = true → b.varq.unread = []
  | _ => True

def Buffer.lost (b : Buffer β) : Prop := b.deleted = true ∧ b.varq.unread ≠ []

def Lost (s : System β) : Prop := ∃ b ∈ s.buffers, b.lost

structure Kept (s : System β) : Prop where
  kept : ¬ Lost s
  left : s.backend = .left → ∀ b ∈ s.buffers, b.varq.unread = []

section Deletion

variable {block : Bool} {count : ℕ} {s u : System β} {b c : Buffer β}

theorem lost_set {buffers : List (Buffer β)} {thread : ℕ} (hb : buffers[thread]? = some b)
    (hkeep : b.lost → c.lost) (h : ∃ b ∈ buffers, b.lost) : ∃ b ∈ buffers.set thread c, b.lost := by
  obtain ⟨d, hd, hlost⟩ := h
  obtain ⟨i, hi⟩ := List.mem_iff_getElem?.1 hd
  by_cases hthread : thread = i
  · subst hthread
    obtain rfl := Option.some.inj (hb.symm.trans hi)
    obtain ⟨hlength, -⟩ := List.getElem?_eq_some_iff.1 hb
    exact ⟨c, List.mem_set hlength c, hkeep hlost⟩
  · have hkept : (buffers.set thread c)[i]? = some d := by
      rw [List.getElem?_set_ne hthread, hi]
    exact ⟨d, List.mem_of_getElem? hkept, hlost⟩

/-- The queue of a buffer that is deleted or after the last poll stays as it is. -/
theorem unread_frozen {backend : Backend} {done : Bool} {a : FmtlogRing.Action} {varq : FmtlogRing.State β}
    (h : Sound count done backend b) (hpolled : polling a = true → b.polled backend)
    (hs : FmtlogRing.step block count b.varq a = some varq)
    (hfrozen : b.deleted = true ∨ backend = .left ∧ done = true) : varq.unread = b.varq.unread := by
  have hquiet : b.varq.pending = [] := by
    rcases hfrozen with hdeleted | ⟨-, hdone⟩
    · exact h.quiet (.inr (h.deleted hdeleted))
    · exact h.quiet (.inl hdone)
  refine (quiet_step hs hquiet).2.2 (Bool.eq_false_iff.2 fun hpolling => ?_)
  obtain ⟨⟨f, hf⟩, hdeleted, -⟩ := hpolled hpolling
  rcases hfrozen with htrue | ⟨hleft, -⟩
  · rw [hdeleted] at htrue
    cases htrue
  · rw [hf] at hleft
    cases hleft

/-- The last poll ends only when it has found nothing anywhere. -/
theorem ended_unread (h : Base count s) (hkept : ¬ Lost s) (hlast : s.backend = .polling true) (hended : s.ended = true) :
    ∀ b ∈ s.buffers, b.varq.unread = [] := by
  have hsettled : ∀ b ∈ s.buffers, b.settled = true → b.varq.unread = [] := by
    intro b hb hsettled
    unfold Buffer.settled at hsettled
    simp only [Bool.or_eq_true, Bool.and_eq_true, beq_iff_eq] at hsettled
    have hsound := h.sound b hb
    rcases hsettled with (hdeleted | hnothing) | ⟨⟨-, hdue⟩, -⟩
    · by_contra hne
      exact hkept ⟨b, hb, hdeleted, hne⟩
    · exact hsound.found hlast (.inr hnothing)
    · have hlogged := hsound.due hlast
      have hlength := congrArg List.length hsound.account
      simp only [List.length_append, List.length_map] at hlength
      exact List.length_eq_zero_iff.1 (by omega)
  have hlate : ∀ b ∈ s.buffers, b.late = false := by
    intro b hb
    by_contra hlate
    rw [Bool.not_eq_false] at hlate
    unfold Buffer.late at hlate
    simp only [Bool.and_eq_true, Bool.not_eq_true', beq_iff_eq, decide_eq_true_eq] at hlate
    obtain ⟨⟨-, hholding⟩, hdue⟩ := hlate
    have hsound := h.sound b hb
    have hlogged := hsound.due hlast
    have hlength := congrArg List.length hsound.account
    simp only [List.length_append, List.length_map] at hlength
    obtain ⟨m, rest, hstored, -⟩ := held_cells hsound.ring (.inl hholding)
    have hunread : b.varq.unread = m :: rest := by
      unfold State.unread
      rw [hholding, hstored]
    rw [hunread, List.length_cons] at hlength
    omega
  unfold System.ended at hended
  rcases Bool.or_eq_true_iff.1 hended with hall | hsome
  · rw [List.all_eq_true] at hall
    exact fun b hb => hsettled b hb (hall b hb)
  · obtain ⟨-, hany⟩ := Bool.and_eq_true_iff.1 hsome
    obtain ⟨b, hb, hblate⟩ := List.any_eq_true.1 hany
    rw [hlate b hb] at hblate
    cases hblate

theorem kept_step {act : Action} (hbase : Base count s) (h : Kept s) (hempty : DeletesEmpty s act)
    (hs : step block count s act = some u) : Kept u := by
  obtain ⟨thread, a, b, varq, -, hb, hpolled, hvarq, rfl⟩ | ⟨thread, b, -, hb, hpending, rfl⟩ |
    ⟨thread, b, rfl, hb, hlook, rfl⟩ | ⟨-, hpending, rfl⟩ | ⟨f, -, hf, rfl⟩ | ⟨f, -, hf, hended, rfl⟩ | ⟨-, hl, rfl⟩ |
    ⟨d, -, hd, rfl⟩ := step_cases hs
  · have hsound := hbase.sound b (List.mem_of_getElem? hb)
    refine ⟨?_, fun hleft c hc => ?_⟩
    · rintro ⟨c, hc, hdeleted, hne⟩
      rcases List.mem_or_eq_of_mem_set hc with hc | rfl
      · exact h.kept ⟨c, hc, hdeleted, hne⟩
      · dsimp only at hdeleted hne
        rw [unread_frozen hsound hpolled hvarq (.inl hdeleted)] at hne
        exact h.kept ⟨b, List.mem_of_getElem? hb, hdeleted, hne⟩
    · rcases List.mem_or_eq_of_mem_set hc with hc | rfl
      · exact h.left hleft c hc
      · dsimp only at hleft ⊢
        rw [unread_frozen hsound hpolled hvarq (.inr ⟨hleft, hbase.seen (.inr (.inr (.inr hleft)))⟩)]
        exact h.left hleft b (List.mem_of_getElem? hb)
  · refine ⟨?_, fun hleft c hc => ?_⟩
    · rintro ⟨c, hc, hlost⟩
      rcases List.mem_or_eq_of_mem_set hc with hc | rfl
      · exact h.kept ⟨c, hc, hlost⟩
      · exact h.kept ⟨b, List.mem_of_getElem? hb, hlost⟩
    · rcases List.mem_or_eq_of_mem_set hc with hc | rfl
      · exact h.left hleft c hc
      · exact h.left hleft b (List.mem_of_getElem? hb)
  · refine ⟨?_, fun hleft c hc => ?_⟩
    · rintro ⟨c, hc, hdeleted, hne⟩
      rcases List.mem_or_eq_of_mem_set hc with hc | rfl
      · exact h.kept ⟨c, hc, hdeleted, hne⟩
      · rcases Bool.or_eq_true_iff.1 hdeleted with hdeleted | hmarked
        · exact h.kept ⟨b, List.mem_of_getElem? hb, hdeleted, hne⟩
        · exact hne (hempty b hb hmarked)
    · rcases List.mem_or_eq_of_mem_set hc with hc | rfl
      · exact h.left hleft c hc
      · exact h.left hleft b (List.mem_of_getElem? hb)
  · exact ⟨h.kept, h.left⟩
  · refine ⟨?_, nofun⟩
    rintro ⟨c, hc, hlost⟩
    obtain ⟨b, hb, rfl⟩ := List.mem_map.1 hc
    exact h.kept ⟨b, hb, hlost⟩
  · refine ⟨h.kept, fun hleft => ?_⟩
    cases f with
    | false => cases hleft
    | true =>
      have hunread := ended_unread hbase h.kept hf hended
      exact hunread
  · exact ⟨h.kept, nofun⟩
  · exact ⟨h.kept, nofun⟩

/-- A message in a deleted buffer stays there. -/
theorem lost_step {act : Action} (hbase : Base count s) (h : Lost s) (hs : step block count s act = some u) : Lost u := by
  obtain ⟨thread, a, b, varq, -, hb, hpolled, hvarq, rfl⟩ | ⟨thread, b, -, hb, hpending, rfl⟩ |
    ⟨thread, b, -, hb, hlook, rfl⟩ | ⟨-, hpending, rfl⟩ | ⟨f, -, hf, rfl⟩ | ⟨f, -, hf, hended, rfl⟩ | ⟨-, hl, rfl⟩ |
    ⟨d, -, hd, rfl⟩ := step_cases hs
  · refine lost_set hb ?_ h
    rintro ⟨hdeleted, hne⟩
    refine ⟨hdeleted, ?_⟩
    rwa [unread_frozen (hbase.sound b (List.mem_of_getElem? hb)) hpolled hvarq (.inl hdeleted)]
  · exact lost_set hb id h
  · refine lost_set hb ?_ h
    rintro ⟨hdeleted, hne⟩
    exact ⟨Bool.or_eq_true_iff.2 (.inl hdeleted), hne⟩
  · exact h
  · obtain ⟨b, hb, hlost⟩ := h
    exact ⟨b.begun, List.mem_map_of_mem hb, hlost⟩
  · exact h
  · exact h
  · exact h

theorem lost_of_deletes {act : Action} (hne : ¬ DeletesEmpty s act) (hs : step block count s act = some u) : Lost u := by
  cases act with
  | check thread =>
    unfold DeletesEmpty at hne
    push Not at hne
    obtain ⟨b, hb, hmarked, hunread⟩ := hne
    obtain ⟨thread', b', hact, hb', -, rfl⟩ : ∃ thread' b', Action.check thread = .check thread' ∧
        s.buffers[thread']? = some b' ∧ b'.look = .checking ∧
        u = { s with buffers := s.buffers.set thread' b'.checked } := by
      obtain ⟨_, _, _, _, hact, -⟩ | ⟨_, _, hact, -⟩ | hcheck | ⟨hact, -⟩ | ⟨_, hact, -⟩ | ⟨_, hact, -⟩ | ⟨hact, -⟩ |
        ⟨_, hact, -⟩ := step_cases hs
      · cases hact
      · cases hact
      · exact hcheck
      all_goals cases hact
    obtain rfl := Action.check.inj hact
    obtain rfl := Option.some.inj (hb.symm.trans hb')
    obtain ⟨hlength, -⟩ := List.getElem?_eq_some_iff.1 hb
    exact ⟨b.checked, List.mem_set hlength _, Bool.or_eq_true_iff.2 (.inr hmarked), hunread⟩
  | _ => exact absurd trivial hne

end Deletion

def System.messages (s : System β) : List (List (Message β)) :=
  s.buffers.map fun b => b.varq.attempts.map Prod.fst ++ b.varq.pending

theorem messages_step {block : Bool} {count : ℕ} {s u : System β} {act : Action} (hbase : Base count s)
    (hs : step block count s act = some u) : u.messages = s.messages := by
  unfold System.messages
  obtain ⟨thread, a, b, varq, -, hb, hpolled, hvarq, rfl⟩ | ⟨thread, b, -, hb, hpending, rfl⟩ |
    ⟨thread, b, -, hb, hlook, rfl⟩ | ⟨-, hpending, rfl⟩ | ⟨f, -, hf, rfl⟩ | ⟨f, -, hf, hended, rfl⟩ | ⟨-, hl, rfl⟩ |
    ⟨d, -, hd, rfl⟩ := step_cases hs
  · have hsound := hbase.sound b (List.mem_of_getElem? hb)
    have haccounted : Accounted (b.varq.attempts.map Prod.fst ++ b.varq.pending) b.varq := ⟨rfl, hsound.account⟩
    exact map_set_same hb (accounted_step a hsound.ring haccounted hvarq).attempted
  · exact map_set_same hb rfl
  · exact map_set_same hb rfl
  · rfl
  · dsimp only
    rw [List.map_map]
    rfl
  all_goals rfl

/-- When the backend can be joined, every thread has attempted its messages in order, and what was copied of
each thread is a beginning of what it pushed. It is all of it exactly when no buffer was deleted after a push that came
between the poll's look and its check. -/
theorem left_copied_iff (block : Bool) (count : ℕ) (hcount : 0 < count) (zero : β) (messages : List (List (Message β)))
    (v : System β) (tr : List (System β × Action)) (h : Run (step block count) (start count zero messages) tr v)
    (hleft : v.backend = .left) :
    v.buffers.map (fun b => b.varq.attempts.map Prod.fst) = messages ∧
      (∀ b ∈ v.buffers, b.varq.processed <+: b.varq.logged.map Message.cells) ∧
      ((∀ b ∈ v.buffers, b.varq.processed = b.varq.logged.map Message.cells) ↔ ∀ e ∈ tr, DeletesEmpty e.1 e.2) := by
  have hbase : Base count v ∧ v.messages = messages := by
    refine h.invariant (fun s => Base count s ∧ s.messages = messages) ⟨base_start hcount zero messages, ?_⟩
      fun s act u hs hstep => ⟨base_step hs.1 hstep, (messages_step hs.1 hstep).trans hs.2⟩
    unfold System.messages start
    rw [List.map_map]
    exact List.map_id messages
  obtain ⟨hbase, hmessages⟩ := hbase
  have hdone := hbase.seen (.inr (.inr (.inr hleft)))
  refine ⟨?_, fun b hb => ⟨_, (hbase.sound b hb).account⟩, ?_⟩
  · rw [← hmessages]
    refine List.map_congr_left fun b hb => ?_
    rw [(hbase.sound b hb).quiet (.inl hdone), List.append_nil]
  · have hstart : Base count (start count zero messages) ∧ Kept (start count zero messages) := by
      refine ⟨base_start hcount zero messages, ?_, nofun⟩
      rintro ⟨b, hb, hdeleted, -⟩
      obtain ⟨ms, -, rfl⟩ := List.mem_map.1 hb
      cases hdeleted
    rcases h.keeps_or_breaks DeletesEmpty (fun s => Base count s ∧ Kept s) (fun s => Base count s ∧ Lost s) hstart
      (fun s act u hs hempty hstep => ⟨base_step hs.1 hstep, kept_step hs.1 hs.2 hempty hstep⟩)
      (fun s act u hs hne hstep => ⟨base_step hs.1 hstep, lost_of_deletes hne hstep⟩)
      (fun s act u hs hstep => ⟨base_step hs.1 hstep, lost_step hs.1 hs.2 hstep⟩) with ⟨hall, -, hkept⟩ | ⟨hsome, -, hlost⟩
    · refine iff_of_true (fun b hb => ?_) hall
      have haccount := (hbase.sound b hb).account
      rwa [hkept.left hleft b hb, List.map_nil, List.append_nil] at haccount
    · refine iff_of_false (fun hcopied => ?_) (fun hall => ?_)
      · obtain ⟨b, hb, -, hne⟩ := hlost
        have haccount := (hbase.sound b hb).account
        rw [hcopied b hb] at haccount
        exact hne (List.map_eq_nil_iff.1 (List.append_right_eq_self.1 haccount))
      · obtain ⟨e, he, hne⟩ := hsome
        exact hne (hall e he)

/-- One message, pushed between a poll's look and its check, by a thread that then exits. -/
def exitsBetween : List Action :=
  [.beginPoll, .varq 0 .front] ++ [.alloc, .reserve, .fill, .fill, .push].map (Action.varq 0) ++
    [.exit 0, .check 0, .endPoll, .storeDone, .loadDone, .test, .beginPoll, .endPoll]

def exitsBetweenEnd : System ℕ := (exec (step true 4) (start 4 0 [[stamp 7]]) exitsBetween).get rfl

theorem left_copied_exitsBetween :
    exitsBetweenEnd.buffers.map (fun b => b.varq.attempts.map Prod.fst) = [[stamp 7]] ∧
      (∀ b ∈ exitsBetweenEnd.buffers, b.varq.processed <+: b.varq.logged.map Message.cells) ∧
      ((∀ b ∈ exitsBetweenEnd.buffers, b.varq.processed = b.varq.logged.map Message.cells) ↔
        ∀ e ∈ trace (step true 4) (start 4 0 [[stamp 7]]) exitsBetween, DeletesEmpty e.1 e.2) :=
  left_copied_iff true 4 (by decide) 0 [[stamp 7]] exitsBetweenEnd _
    (run_of_exec (step true 4) _ exitsBetween (Option.some_get rfl).symm) rfl

end LoggerBenchmarks.FmtlogPoll
