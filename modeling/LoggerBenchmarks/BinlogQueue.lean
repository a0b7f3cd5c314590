import LoggerBenchmarks.BipBuffer
import Mathlib.Data.Int.Basic
import Mathlib.Order.Lattice

set_option autoImplicit false

/-!
# The queue of a binlog channel

`Queue`, `QueueWriter` and `QueueReader`. The writer of a channel adds one entry after
the other, the reader takes all that is committed when it looks. A step is one access
to what the two threads share.
-/
namespace LoggerBenchmarks.BinlogQueue
open BipBuffer

variable {β : Type}

structure Entry (β : Type) where
  bytes : List β
  sized : bytes ≠ []

structure Queue (β : Type) where
  writeIndex : ℕ
  dataEnd : ℕ
  capacity : ℕ
  buffer : ℕ → β
  readIndex : ℕ

/-- Where the writer is in `addEvent`. `full`: the queue has no room for the entry. -/
inductive Writing (β : Type) where
  | idle
  | loading (entry : Entry β)
  | placing (entry : Entry β) (r : ℕ)
  | full (entry : Entry β)
  | copying (entry : Entry β) (start next : ℕ)

inductive Reading where
  | idle
  | loaded (readEnd : ℕ)
  | copied (readEnd : ℕ)
  deriving DecidableEq

/-- A queue with its writer and its reader. `stored` are the entries committed and not given back, `due` the number of
them when the reader loaded the write index. -/
structure Channel (β : Type) where
  queue : Queue β
  writePos : ℕ
  writeEnd : ℕ
  writing : Writing β
  reading : Reading
  stored : List (Entry β)
  due : ℕ

inductive Action (β : Type) where
  | beginWrite (entry : Entry β)
  | load
  | maximize
  | writeBuffer
  | endWrite
  | again
  | giveUp
  | beginRead
  | leave
  | copy
  | endRead

def Channel.start (capacity : ℕ) (zero : β) : Channel β where
  queue := ⟨0, 0, capacity, fun _ => zero, 0⟩
  writePos := 0
  writeEnd := 0
  writing := .idle
  reading := .idle
  stored := []
  due := 0

def Channel.writeCapacity (c : Channel β) : ℕ := c.writeEnd - c.writePos

def Channel.begun (c : Channel β) (entry : Entry β) : Channel β :=
  { c with writing := if entry.bytes.length ≤ c.writeCapacity then .copying entry c.writePos 0 else .loading entry }

def Channel.maximizeWriteCapacity (c : Channel β) (r : ℕ) : Channel β :=
  let w := c.queue.writeIndex
  if w < r then { c with writePos := w, writeEnd := r - 1 }
  else
    let rightSize : ℤ := c.queue.capacity - w
    let leftSize : ℤ := r - 1
    if leftSize ≤ rightSize then { c with writePos := w, writeEnd := w + (c.queue.capacity - w) }
    else { c with queue := { c.queue with dataEnd := w }, writePos := 0, writeEnd := r - 1 }

def Channel.tested (c : Channel β) (entry : Entry β) : Channel β :=
  { c with writing := if entry.bytes.length ≤ c.writeCapacity then .copying entry c.writePos 0 else .full entry }

def Queue.readable (q : Queue β) (w : ℕ) : List β :=
  if q.readIndex ≤ w then stretch q.buffer q.readIndex w
  else if q.readIndex < q.dataEnd then stretch q.buffer q.readIndex q.dataEnd ++ stretch q.buffer 0 w
  else stretch q.buffer 0 w

def Channel.step (c : Channel β) : Action β → Option (Channel β)
  | .beginWrite entry =>
    match c.writing with
    | .idle => some (c.begun entry)
    | _ => none
  | .load =>
    match c.writing with
    | .loading entry => some { c with writing := .placing entry c.queue.readIndex }
    | _ => none
  | .maximize =>
    match c.writing with
    | .placing entry r => some ((c.maximizeWriteCapacity r).tested entry)
    | _ => none
  | .writeBuffer =>
    match c.writing with
    | .copying entry start next =>
      entry.bytes[next]?.map fun byte => { c with
        queue := { c.queue with buffer := Function.update c.queue.buffer c.writePos byte }
        writePos := c.writePos + 1
        writing := .copying entry start (next + 1) }
    | _ => none
  | .endWrite =>
    match c.writing with
    | .copying entry _ next =>
      if next = entry.bytes.length then
        some { c with
          queue := { c.queue with writeIndex := c.writePos }
          writing := .idle
          stored := c.stored ++ [entry] }
      else none
    | _ => none
  | .again =>
    match c.writing with
    | .full entry => some (c.begun entry)
    | _ => none
  | .giveUp =>
    match c.writing with
    | .full _ => some { c with writing := .idle }
    | _ => none
  | .beginRead =>
    match c.reading with
    | .idle => some { c with reading := .loaded c.queue.writeIndex, due := c.stored.length }
    | _ => none
  | .leave =>
    match c.reading with
    | .loaded readEnd => if (c.queue.readable readEnd).isEmpty then some { c with reading := .idle } else none
    | _ => none
  | .copy =>
    match c.reading with
    | .loaded readEnd => some { c with reading := .copied readEnd }
    | _ => none
  | .endRead =>
    match c.reading with
    | .copied readEnd =>
      some { c with
        queue := { c.queue with readIndex := readEnd }
        reading := .idle
        stored := c.stored.drop c.due }
    | _ => none

def Channel.found (c : Channel β) : List β :=
  match c.reading with
  | .loaded readEnd => c.queue.readable readEnd
  | _ => []

def bytesOf (entries : List (Entry β)) : List β := entries.flatMap Entry.bytes

theorem bytesOf_append (xs ys : List (Entry β)) : bytesOf (xs ++ ys) = bytesOf xs ++ bytesOf ys := List.flatMap_append

theorem bytesOf_eq_nil {entries : List (Entry β)} (h : bytesOf entries = []) : entries = [] := by
  cases entries with
  | nil => rfl
  | cons entry rest => exact absurd (List.append_eq_nil_iff.1 h).1 entry.sized

theorem readable_eq (q : Queue β) {w : ℕ} (h : w < q.readIndex) :
    q.readable w = stretch q.buffer q.readIndex q.dataEnd ++ stretch q.buffer 0 w := by
  unfold Queue.readable
  rw [if_neg (Nat.not_le.2 h)]
  split_ifs with hmore
  · rfl
  · have hnil : stretch q.buffer q.readIndex q.dataEnd = [] := by
      rw [stretch, Nat.sub_eq_zero_of_le (Nat.not_lt.1 hmore)]
      rfl
    rw [hnil, List.nil_append]

/-- In one piece, or in two; in two also when the writer has gone to the beginning and has not committed yet. -/
def Layout (q : Queue β) (tail bound : ℕ) (stored : List (Entry β)) : Prop :=
  (q.writeIndex = tail ∧ Flat q.buffer q.capacity q.readIndex tail bound (bytesOf stored)) ∨
    ∃ front back, stored = front ++ back ∧ bound < q.readIndex ∧
      (q.writeIndex = tail ∨ q.writeIndex = q.dataEnd ∧ back = [] ∧ tail = 0) ∧
      Wrapped q.buffer q.capacity q.readIndex q.dataEnd tail bound (bytesOf front) (bytesOf back)

section Layout

variable {q : Queue β} {tail bound : ℕ} {stored : List (Entry β)}

theorem Layout.room (h : Layout q tail bound stored) : tail ≤ bound ∧ bound ≤ q.capacity := by
  rcases h with ⟨-, hflat⟩ | ⟨front, back, -, -, -, hwrapped⟩
  · exact ⟨hflat.room, hflat.bound⟩
  · exact ⟨hwrapped.room, hwrapped.bound.trans (hwrapped.order.trans hwrapped.inside)⟩

theorem Layout.committed (h : Layout q tail bound stored) (hread : q.readIndex ≤ q.writeIndex) :
    Flat q.buffer q.capacity q.readIndex q.writeIndex q.writeIndex (bytesOf stored) ∧
      (q.writeIndex = tail ∨ q.writeIndex = q.dataEnd ∧ tail = 0 ∧ bound < q.readIndex) := by
  rcases h with ⟨rfl, hflat⟩ | ⟨front, back, rfl, hlt, hwrite, hwrapped⟩
  · exact ⟨hflat.rebound le_rfl (hflat.room.trans hflat.bound), .inl rfl⟩
  · have hroom := hwrapped.room
    rcases hwrite with htail | ⟨hend, rfl, htail⟩
    · omega
    · refine ⟨?_, .inr ⟨hend, htail, hlt⟩⟩
      rw [hend, List.append_nil]
      exact ⟨hwrapped.order, le_rfl, hwrapped.inside, hwrapped.front⟩

theorem Layout.wrapped (h : Layout q tail bound stored) (hread : q.writeIndex < q.readIndex) :
    q.writeIndex = tail ∧ bound < q.readIndex ∧ ∃ front back, stored = front ++ back ∧
      Wrapped q.buffer q.capacity q.readIndex q.dataEnd tail bound (bytesOf front) (bytesOf back) := by
  rcases h with ⟨htail, hflat⟩ | ⟨front, back, hsplit, hlt, hwrite, hwrapped⟩
  · have horder := hflat.order
    omega
  · rcases hwrite with htail | ⟨hend, -, -⟩
    · exact ⟨htail, hlt, front, back, hsplit, hwrapped⟩
    · have horder := hwrapped.order
      omega

theorem Layout.fill (h : Layout q tail bound stored) {x : ℕ} (hx : tail ≤ x) (hlt : x < bound) (byte : β) :
    Layout { q with buffer := Function.update q.buffer x byte } tail bound stored := by
  rcases h with ⟨htail, hflat⟩ | ⟨front, back, hsplit, hbound, hwrite, hwrapped⟩
  · exact .inl ⟨htail, hflat.fill (.inr hx) byte⟩
  · exact .inr ⟨front, back, hsplit, hbound, hwrite, hwrapped.fill hx hlt byte⟩

theorem Layout.commit (h : Layout q tail bound stored) {tail' : ℕ} (hle : tail ≤ tail') (hroom : tail' ≤ bound)
    {entry : Entry β} (hbytes : stretch q.buffer tail tail' = entry.bytes) :
    Layout { q with writeIndex := tail' } tail' bound (stored ++ [entry]) := by
  have hsingle : bytesOf [entry] = entry.bytes := List.flatMap_singleton Entry.bytes entry
  rcases h with ⟨-, hflat⟩ | ⟨front, back, rfl, hbound, -, hwrapped⟩
  · left
    have hcommit := hflat.commit hle hroom
    rw [hbytes, ← hsingle, ← bytesOf_append] at hcommit
    exact ⟨rfl, hcommit⟩
  · refine .inr ⟨front, back ++ [entry], List.append_assoc _ _ _, hbound, .inl rfl, ?_⟩
    have hcommit := hwrapped.commit hle hroom
    rw [hbytes, ← hsingle, ← bytesOf_append] at hcommit
    exact hcommit

end Layout

def Channel.tail (c : Channel β) : ℕ :=
  match c.writing with
  | .copying _ start _ => start
  | _ => c.writePos

def WritingInv (c : Channel β) : Prop :=
  match c.writing with
  | .idle | .loading _ | .full _ => True
  | .placing _ r => (c.queue.writeIndex < r ∧ r ≤ c.queue.capacity ∧
      (c.queue.readIndex ≤ c.queue.writeIndex ∨ r ≤ c.queue.readIndex)) ∨
        r ≤ c.queue.readIndex ∧ c.queue.readIndex ≤ c.queue.writeIndex
  | .copying entry start next => c.writePos = start + next ∧ start + entry.bytes.length ≤ c.writeEnd ∧
      next ≤ entry.bytes.length ∧ stretch c.queue.buffer start (start + next) = entry.bytes.take next

structure Writable (c : Channel β) : Prop where
  layout : Layout c.queue c.tail c.writeEnd c.stored
  writing : WritingInv c

section Writer

variable {c d : Channel β} {entry : Entry β}

theorem writable_start (capacity : ℕ) (zero : β) : Writable (Channel.start capacity zero) := by
  refine ⟨.inl ⟨rfl, le_rfl, le_rfl, Nat.zero_le _, stretch_self _ _⟩, trivial⟩

theorem writable_at (hlayout : Layout c.queue c.writePos c.writeEnd c.stored) {other : Writing β}
    (hother : other = .idle ∨ other = .loading entry ∨ other = .full entry) : Writable { c with writing := other } := by
  rcases hother with rfl | rfl | rfl
  all_goals exact ⟨hlayout, trivial⟩

theorem writable_copying (hlayout : Layout c.queue c.writePos c.writeEnd c.stored)
    (hroom : entry.bytes.length ≤ c.writeCapacity) : Writable { c with writing := .copying entry c.writePos 0 } := by
  have hinside := hlayout.room.1
  unfold Channel.writeCapacity at hroom
  refine ⟨hlayout, rfl, by dsimp only; omega, Nat.zero_le _, ?_⟩
  rw [Nat.add_zero, stretch_self]
  rfl

theorem writable_begun (hlayout : Layout c.queue c.writePos c.writeEnd c.stored) : Writable (c.begun entry) := by
  unfold Channel.begun
  split_ifs with hroom
  · exact writable_copying hlayout hroom
  · exact writable_at hlayout (.inr (.inl rfl))

theorem writable_tested (hlayout : Layout c.queue c.writePos c.writeEnd c.stored) : Writable (c.tested entry) := by
  unfold Channel.tested
  split_ifs with hroom
  · exact writable_copying hlayout hroom
  · exact writable_at hlayout (.inr (.inr rfl))

theorem layout_maximized {r : ℕ} (h : Writable c) (hwriting : c.writing = .placing entry r) :
    Layout (c.maximizeWriteCapacity r).queue (c.maximizeWriteCapacity r).writePos (c.maximizeWriteCapacity r).writeEnd
      (c.maximizeWriteCapacity r).stored := by
  have hplacing := h.writing
  unfold WritingInv at hplacing
  rw [hwriting] at hplacing
  dsimp only at hplacing
  unfold Channel.maximizeWriteCapacity
  dsimp only
  split_ifs with hbehind hright
  · dsimp only
    by_cases hread : c.queue.readIndex ≤ c.queue.writeIndex
    · obtain ⟨hflat, -⟩ := h.layout.committed hread
      exact .inl ⟨rfl, hflat.rebound (by omega) (by omega)⟩
    · obtain ⟨htail, -, front, back, hsplit, hwrapped⟩ := h.layout.wrapped (Nat.not_le.1 hread)
      refine .inr ⟨front, back, hsplit, by omega, .inl rfl, ?_⟩
      rw [htail]
      exact hwrapped.rebound (by omega) (by omega)
  · obtain ⟨hflat, -⟩ := h.layout.committed (by omega)
    have hinside := hflat.bound
    exact .inl ⟨rfl, hflat.rebound (by dsimp only; omega) (by dsimp only; omega)⟩
  · obtain ⟨hflat, -⟩ := h.layout.committed (by omega)
    have hinside := hflat.bound
    refine .inr ⟨c.stored, [], (List.append_nil _).symm, by dsimp only; omega, .inr ⟨rfl, rfl, rfl⟩, ?_⟩
    exact hflat.wrap (by dsimp only; omega)

theorem tail_eq (h : ∀ entry start next, c.writing ≠ .copying entry start next) : c.tail = c.writePos := by
  unfold Channel.tail
  cases hwriting : c.writing with
  | copying entry start next => exact absurd hwriting (h entry start next)
  | _ => rfl

theorem writable_writeBuffer (h : Writable c) {start next : ℕ} (hwriting : c.writing = .copying entry start next) {byte : β}
    (hbyte : entry.bytes[next]? = some byte) :
    Writable { c with
      queue := { c.queue with buffer := Function.update c.queue.buffer c.writePos byte }
      writePos := c.writePos + 1
      writing := .copying entry start (next + 1) } := by
  obtain ⟨hlength, -⟩ := List.getElem?_eq_some_iff.1 hbyte
  have hcopying := h.writing
  have hlayout := h.layout
  unfold WritingInv at hcopying
  unfold Channel.tail at hlayout
  rw [hwriting] at hcopying hlayout
  dsimp only at hcopying hlayout
  obtain ⟨hpos, hroom, -, hcopied⟩ := hcopying
  refine ⟨hlayout.fill (by omega) (by omega) byte, by dsimp only; omega, hroom, hlength, ?_⟩
  dsimp only
  rw [hpos, ← Nat.add_assoc, stretch_succ _ (Nat.le_add_right _ _), stretch_update _ (.inr le_rfl), hcopied,
    Function.update_self, List.take_add_one, hbyte]
  rfl

theorem writable_endWrite (h : Writable c) {start : ℕ} (hwriting : c.writing = .copying entry start entry.bytes.length) :
    Writable { c with
      queue := { c.queue with writeIndex := c.writePos }
      writing := .idle
      stored := c.stored ++ [entry] } := by
  have hcopying := h.writing
  have hlayout := h.layout
  unfold WritingInv at hcopying
  unfold Channel.tail at hlayout
  rw [hwriting] at hcopying hlayout
  dsimp only at hcopying hlayout
  obtain ⟨hpos, hroom, -, hcopied⟩ := hcopying
  refine ⟨hlayout.commit (by omega) (by omega) ?_, trivial⟩
  rw [hpos, hcopied, List.take_length]

end Writer

def Channel.released (c : Channel β) (readEnd : ℕ) : Channel β :=
  { c with queue := { c.queue with readIndex := readEnd }, stored := c.stored.drop c.due }

def Between (i j k : ℕ) : Prop := i ≤ j ∧ j ≤ k ∨ k < i ∧ i ≤ j ∨ j ≤ k ∧ k < i

/-- The reader has loaded the write index. The writer may go on, and the reader may give back at any time. -/
structure Looked (c : Channel β) (readEnd : ℕ) : Prop where
  between : Between c.queue.readIndex readEnd c.queue.writeIndex
  due : c.due ≤ c.stored.length
  readable : c.queue.readable readEnd = bytesOf (c.stored.take c.due)
  released : Writable (c.released readEnd)

def ReadingInv (c : Channel β) : Prop :=
  match c.reading with
  | .idle => True
  | .loaded readEnd | .copied readEnd => Looked c readEnd

structure Inv (c : Channel β) : Prop where
  writable : Writable c
  reading : ReadingInv c

section Reader

variable {c : Channel β} {entry : Entry β} {readEnd : ℕ}

theorem released_maximize (r : ℕ) :
    (c.released readEnd).maximizeWriteCapacity r = (c.maximizeWriteCapacity r).released readEnd := by
  unfold Channel.maximizeWriteCapacity Channel.released
  dsimp only
  split_ifs <;> rfl

theorem maximize_queue (r : ℕ) : (c.maximizeWriteCapacity r).queue = c.queue ∨ r ≤ c.queue.writeIndex ∧
    (c.maximizeWriteCapacity r).queue = { c.queue with dataEnd := c.queue.writeIndex } := by
  unfold Channel.maximizeWriteCapacity
  dsimp only
  split_ifs with hbehind
  · exact .inl rfl
  · exact .inl rfl
  · exact .inr ⟨Nat.not_lt.1 hbehind, rfl⟩

/-- What the reader has found is not where the writer writes. -/
theorem readable_fill {q : Queue β} {tail bound : ℕ} {stored : List (Entry β)} (h : Layout q tail bound stored)
    (hbetween : Between q.readIndex readEnd q.writeIndex) {x : ℕ} (hx : tail ≤ x) (hlt : x < bound) (byte : β) :
    Queue.readable { q with buffer := Function.update q.buffer x byte } readEnd = q.readable readEnd := by
  unfold Between at hbetween
  by_cases hbehind : readEnd < q.readIndex
  · rw [readable_eq q hbehind, readable_eq { q with buffer := Function.update q.buffer x byte } hbehind]
    obtain ⟨htail, hbound, -⟩ := h.wrapped (by omega)
    dsimp only
    rw [stretch_update _ (.inl (by omega)), stretch_update _ (.inr (by omega))]
  · unfold Queue.readable
    rw [if_pos (Nat.not_lt.1 hbehind), if_pos (Nat.not_lt.1 hbehind)]
    refine stretch_update _ ?_ byte
    dsimp only
    by_cases hread : q.readIndex ≤ q.writeIndex
    · obtain ⟨-, htail | ⟨-, -, hbound⟩⟩ := h.committed hread
      · right
        omega
      · left
        omega
    · obtain ⟨-, hbound, -⟩ := h.wrapped (Nat.not_le.1 hread)
      left
      omega

/-- The reader gives back everything that was committed when it looked. -/
theorem looked_beginRead (h : Writable c) :
    Looked { c with reading := .loaded c.queue.writeIndex, due := c.stored.length } c.queue.writeIndex := by
  have hlayout := h.layout
  refine ⟨?_, le_rfl, ?_, ?_, ?_⟩
  · unfold Between
    dsimp only
    omega
  · dsimp only
    rw [List.take_length]
    by_cases hread : c.queue.readIndex ≤ c.queue.writeIndex
    · obtain ⟨hflat, -⟩ := hlayout.committed hread
      unfold Queue.readable
      rw [if_pos hread, hflat.content]
    · obtain ⟨htail, -, front, back, hsplit, hwrapped⟩ := hlayout.wrapped (Nat.not_le.1 hread)
      rw [readable_eq _ (Nat.not_le.1 hread), hwrapped.front, htail, hwrapped.back, ← bytesOf_append, hsplit]
  · change Layout { c.queue with readIndex := c.queue.writeIndex } c.tail c.writeEnd (c.stored.drop c.stored.length)
    rw [List.drop_length]
    have hroom := hlayout.room
    by_cases hread : c.queue.readIndex ≤ c.queue.writeIndex
    · obtain ⟨hflat, htail | ⟨hend, htail, hbound⟩⟩ := hlayout.committed hread
      · rw [← htail] at hroom ⊢
        exact .inl ⟨rfl, le_rfl, hroom.1, hroom.2, stretch_self _ _⟩
      · refine .inr ⟨[], [], rfl, by dsimp only; omega, .inr ⟨hend, rfl, htail⟩, ?_⟩
        rw [htail]
        dsimp only
        rw [← hend]
        exact ⟨le_rfl, hflat.bound, Nat.zero_le _, by omega, stretch_self _ _, stretch_self _ _⟩
    · obtain ⟨htail, -⟩ := hlayout.wrapped (Nat.not_le.1 hread)
      rw [← htail] at hroom ⊢
      exact .inl ⟨rfl, le_rfl, hroom.1, hroom.2, stretch_self _ _⟩
  · have hwriting := h.writing
    unfold WritingInv at hwriting ⊢
    unfold Channel.released
    dsimp only
    cases hc : c.writing with
    | placing entry r =>
      rw [hc] at hwriting
      dsimp only at hwriting ⊢
      omega
    | _ =>
      rw [hc] at hwriting
      exact hwriting

theorem Looked.begun (h : Looked c readEnd) (htail : c.tail = c.writePos) : Looked (c.begun entry) readEnd := by
  refine ⟨h.between, h.due, h.readable, ?_⟩
  have hlayout := h.released.layout
  have hsame : (c.released readEnd).tail = c.tail := rfl
  rw [hsame, htail] at hlayout
  exact writable_begun hlayout

theorem Looked.load (h : Looked c readEnd) (hwritable : Writable c) (hwriting : c.writing = .loading entry) :
    Looked { c with writing := .placing entry c.queue.readIndex } readEnd := by
  refine ⟨h.between, h.due, h.readable, ?_, ?_⟩
  · have hlayout := h.released.layout
    unfold Channel.tail Channel.released at hlayout ⊢
    rw [hwriting] at hlayout
    exact hlayout
  · have hbetween := h.between
    have hroom := hwritable.layout
    unfold Between at hbetween
    unfold WritingInv Channel.released
    dsimp only
    by_cases hread : c.queue.readIndex ≤ c.queue.writeIndex
    · omega
    · obtain ⟨-, hbound, front, back, -, hwrapped⟩ := hroom.wrapped (Nat.not_le.1 hread)
      have horder := hwrapped.order
      have hinside := hwrapped.inside
      omega

theorem Looked.maximize {r : ℕ} (h : Looked c readEnd) (hwritable : Writable c) (hwriting : c.writing = .placing entry r) :
    Looked ((c.maximizeWriteCapacity r).tested entry) readEnd := by
  have hbetween := h.between
  have hreleased := layout_maximized h.released (r := r) hwriting
  rw [released_maximize] at hreleased
  have hsame : (c.maximizeWriteCapacity r).stored = c.stored ∧ (c.maximizeWriteCapacity r).due = c.due := by
    unfold Channel.maximizeWriteCapacity
    dsimp only
    split_ifs <;> exact ⟨rfl, rfl⟩
  have hreadable : (c.maximizeWriteCapacity r).queue.readable readEnd = c.queue.readable readEnd ∧
      Between (c.maximizeWriteCapacity r).queue.readIndex readEnd (c.maximizeWriteCapacity r).queue.writeIndex := by
    rcases maximize_queue (c := c) r with hqueue | ⟨hbehind, hqueue⟩
    · rw [hqueue]
      exact ⟨rfl, hbetween⟩
    · -- the entries are in one piece, so that their end does not matter
      have hplacing := hwritable.writing
      unfold WritingInv at hplacing
      rw [hwriting] at hplacing
      unfold Between at hbetween
      dsimp only at hplacing
      rw [hqueue]
      refine ⟨?_, h.between⟩
      unfold Queue.readable
      dsimp only
      rw [if_pos (by omega), if_pos (by omega)]
  refine ⟨hreadable.2, ?_, ?_, ?_⟩
  · change (c.maximizeWriteCapacity r).due ≤ (c.maximizeWriteCapacity r).stored.length
    rw [hsame.1, hsame.2]
    exact h.due
  · change (c.maximizeWriteCapacity r).queue.readable readEnd =
      bytesOf ((c.maximizeWriteCapacity r).stored.take (c.maximizeWriteCapacity r).due)
    rw [hreadable.1, hsame.1, hsame.2]
    exact h.readable
  · exact writable_tested hreleased

theorem Looked.writeBuffer {start next : ℕ} {byte : β} (h : Looked c readEnd) (hwritable : Writable c)
    (hwriting : c.writing = .copying entry start next) (hbyte : entry.bytes[next]? = some byte) :
    Looked { c with
      queue := { c.queue with buffer := Function.update c.queue.buffer c.writePos byte }
      writePos := c.writePos + 1
      writing := .copying entry start (next + 1) } readEnd := by
  obtain ⟨hlength, -⟩ := List.getElem?_eq_some_iff.1 hbyte
  have hcopying := hwritable.writing
  have hlayout := hwritable.layout
  unfold WritingInv at hcopying
  unfold Channel.tail at hlayout
  rw [hwriting] at hcopying hlayout
  dsimp only at hcopying hlayout
  refine ⟨h.between, h.due, ?_, ?_⟩
  · rw [← h.readable]
    exact readable_fill hlayout h.between (by omega) (by omega) byte
  · exact writable_writeBuffer h.released hwriting hbyte

theorem Looked.endWrite {start : ℕ} (h : Looked c readEnd) (hwritable : Writable c)
    (hwriting : c.writing = .copying entry start entry.bytes.length) :
    Looked { c with
      queue := { c.queue with writeIndex := c.writePos }
      writing := .idle
      stored := c.stored ++ [entry] } readEnd := by
  have hcopying := hwritable.writing
  have hlayout := hwritable.layout
  have hbetween := h.between
  have hdue := h.due
  have hpos := List.length_pos_iff.2 entry.sized
  unfold WritingInv at hcopying
  unfold Channel.tail at hlayout
  rw [hwriting] at hcopying hlayout
  dsimp only at hcopying hlayout
  refine ⟨?_, ?_, ?_, ?_⟩
  · unfold Between at hbetween ⊢
    dsimp only
    by_cases hread : c.queue.readIndex ≤ c.queue.writeIndex
    · obtain ⟨-, htail | ⟨-, -, hbound⟩⟩ := hlayout.committed hread
      · omega
      · omega
    · obtain ⟨htail, hbound, -⟩ := hlayout.wrapped (Nat.not_le.1 hread)
      omega
  · dsimp only
    rw [List.length_append]
    omega
  · dsimp only
    rw [List.take_append_of_le_length hdue]
    exact h.readable
  · have hreleased := writable_endWrite h.released hwriting
    unfold Channel.released at hreleased ⊢
    dsimp only at hreleased ⊢
    rw [List.drop_append_of_le_length hdue]
    exact hreleased

end Reader

theorem inv_start (capacity : ℕ) (zero : β) : Inv (Channel.start capacity zero) := ⟨writable_start capacity zero, trivial⟩

section Step

variable {c d : Channel β}

/-- The writer's steps leave the reader where it is. -/
theorem reading_of_looked (h : ReadingInv c) (hreading : d.reading = c.reading)
    (hlooked : ∀ readEnd, Looked c readEnd → Looked d readEnd) : ReadingInv d := by
  unfold ReadingInv at h ⊢
  rw [hreading]
  cases hc : c.reading with
  | idle => trivial
  | loaded readEnd | copied readEnd =>
    rw [hc] at h
    exact hlooked readEnd h

theorem inv_begun {entry : Entry β} (h : Inv c) (htail : c.tail = c.writePos) : Inv (c.begun entry) := by
  have hlayout := h.writable.layout
  rw [htail] at hlayout
  exact ⟨writable_begun hlayout, reading_of_looked h.reading rfl fun _ hlooked => hlooked.begun htail⟩

theorem inv_giveUp {entry : Entry β} (h : Inv c) (hwriting : c.writing = .full entry) : Inv { c with writing := .idle } := by
  have htail : c.tail = c.writePos := tail_eq (by rw [hwriting]; nofun)
  have hlayout := h.writable.layout
  rw [htail] at hlayout
  refine ⟨⟨hlayout, trivial⟩, reading_of_looked h.reading rfl fun readEnd hlooked => ?_⟩
  have hreleased := hlooked.released.layout
  rw [show (c.released readEnd).tail = c.tail from rfl, htail] at hreleased
  exact ⟨hlooked.between, hlooked.due, hlooked.readable, hreleased, trivial⟩

theorem inv_load {entry : Entry β} (h : Inv c) (hwriting : c.writing = .loading entry) :
    Inv { c with writing := .placing entry c.queue.readIndex } := by
  refine ⟨⟨?_, ?_⟩, reading_of_looked h.reading rfl fun _ hlooked => hlooked.load h.writable hwriting⟩
  · have hlayout := h.writable.layout
    unfold Channel.tail at hlayout
    rw [hwriting] at hlayout
    exact hlayout
  · unfold WritingInv
    dsimp only
    by_cases hread : c.queue.readIndex ≤ c.queue.writeIndex
    · exact .inr ⟨le_rfl, hread⟩
    · obtain ⟨-, -, front, back, -, hwrapped⟩ := h.writable.layout.wrapped (Nat.not_le.1 hread)
      exact .inl ⟨Nat.not_le.1 hread, hwrapped.order.trans hwrapped.inside, .inr le_rfl⟩

theorem inv_maximize {entry : Entry β} {r : ℕ} (h : Inv c) (hwriting : c.writing = .placing entry r) :
    Inv ((c.maximizeWriteCapacity r).tested entry) := by
  refine ⟨writable_tested (layout_maximized h.writable hwriting), reading_of_looked h.reading ?_ fun _ hlooked =>
    hlooked.maximize h.writable hwriting⟩
  unfold Channel.tested Channel.maximizeWriteCapacity
  dsimp only
  split_ifs <;> rfl

theorem Inv.looked {readEnd : ℕ} (h : Inv c) (hreading : c.reading = .loaded readEnd ∨ c.reading = .copied readEnd) :
    Looked c readEnd := by
  have hlooked := h.reading
  unfold ReadingInv at hlooked
  rcases hreading with hreading | hreading
  · rw [hreading] at hlooked
    exact hlooked
  · rw [hreading] at hlooked
    exact hlooked

theorem inv_step {a : Action β} (h : Inv c) (hs : c.step a = some d) : Inv d := by
  cases a with
  | beginWrite entry =>
    simp only [Channel.step] at hs
    split at hs
    · rename_i hwriting
      cases hs
      exact inv_begun h (tail_eq (by rw [hwriting]; nofun))
    · cases hs
  | again =>
    simp only [Channel.step] at hs
    split at hs
    · rename_i entry hwriting
      cases hs
      exact inv_begun h (tail_eq (by rw [hwriting]; nofun))
    · cases hs
  | giveUp =>
    simp only [Channel.step] at hs
    split at hs
    · rename_i entry hwriting
      cases hs
      exact inv_giveUp h hwriting
    · cases hs
  | load =>
    simp only [Channel.step] at hs
    split at hs
    · rename_i entry hwriting
      cases hs
      exact inv_load h hwriting
    · cases hs
  | maximize =>
    simp only [Channel.step] at hs
    split at hs
    · rename_i entry r hwriting
      cases hs
      exact inv_maximize h hwriting
    · cases hs
  | writeBuffer =>
    simp only [Channel.step] at hs
    split at hs
    · rename_i entry start next hwriting
      obtain ⟨byte, hbyte, rfl⟩ := Option.map_eq_some_iff.1 hs
      exact ⟨writable_writeBuffer h.writable hwriting hbyte, reading_of_looked h.reading rfl fun _ hlooked =>
        hlooked.writeBuffer h.writable hwriting hbyte⟩
    · cases hs
  | endWrite =>
    simp only [Channel.step] at hs
    split at hs
    · rename_i entry start next hwriting
      split at hs
      · rename_i hall
        subst hall
        cases hs
        exact ⟨writable_endWrite h.writable hwriting, reading_of_looked h.reading rfl fun _ hlooked =>
          hlooked.endWrite h.writable hwriting⟩
      · cases hs
    · cases hs
  | beginRead =>
    simp only [Channel.step] at hs
    split at hs
    · cases hs
      exact ⟨⟨h.writable.layout, h.writable.writing⟩, looked_beginRead h.writable⟩
    · cases hs
  | leave =>
    simp only [Channel.step] at hs
    split at hs
    · split_ifs at hs
      cases hs
      exact ⟨⟨h.writable.layout, h.writable.writing⟩, trivial⟩
    · cases hs
  | copy =>
    simp only [Channel.step] at hs
    split at hs
    · rename_i readEnd hreading
      have hlooked := h.looked (.inl hreading)
      cases hs
      exact ⟨⟨h.writable.layout, h.writable.writing⟩, hlooked.between, hlooked.due, hlooked.readable,
        hlooked.released.layout, hlooked.released.writing⟩
    · cases hs
  | endRead =>
    simp only [Channel.step] at hs
    split at hs
    · rename_i readEnd hreading
      have hlooked := h.looked (.inr hreading)
      cases hs
      exact ⟨⟨hlooked.released.layout, hlooked.released.writing⟩, trivial⟩
    · cases hs

end Step

section Effects

variable {c d : Channel β}

theorem endWrite_cases (hs : c.step .endWrite = some d) : ∃ entry start,
    c.writing = .copying entry start entry.bytes.length ∧ d.stored = c.stored ++ [entry] ∧ d.reading = c.reading ∧
      d.due = c.due := by
  simp only [Channel.step] at hs
  split at hs
  · rename_i entry start next hwriting
    split at hs
    · rename_i hall
      subst hall
      cases hs
      exact ⟨entry, start, hwriting, rfl, rfl, rfl⟩
    · cases hs
  · cases hs

theorem beginRead_cases (hs : c.step .beginRead = some d) :
    c.reading = .idle ∧ d.stored = c.stored ∧ d.reading = .loaded c.queue.writeIndex ∧ d.due = c.stored.length := by
  simp only [Channel.step] at hs
  split at hs
  · rename_i hreading
    cases hs
    exact ⟨hreading, rfl, rfl, rfl⟩
  · cases hs

theorem leave_cases (hs : c.step .leave = some d) : ∃ readEnd, c.reading = .loaded readEnd ∧ c.queue.readable readEnd = [] ∧
    d.stored = c.stored ∧ d.reading = .idle ∧ d.due = c.due := by
  simp only [Channel.step] at hs
  split at hs
  · rename_i readEnd hreading
    split_ifs at hs with hnothing
    cases hs
    exact ⟨readEnd, hreading, List.isEmpty_iff.1 hnothing, rfl, rfl, rfl⟩
  · cases hs

theorem copy_cases (hs : c.step .copy = some d) : ∃ readEnd, c.reading = .loaded readEnd ∧ d.stored = c.stored ∧
    d.reading = .copied readEnd ∧ d.due = c.due := by
  simp only [Channel.step] at hs
  split at hs
  · rename_i readEnd hreading
    cases hs
    exact ⟨readEnd, hreading, rfl, rfl, rfl⟩
  · cases hs

theorem endRead_cases (hs : c.step .endRead = some d) : ∃ readEnd, c.reading = .copied readEnd ∧
    d.stored = c.stored.drop c.due ∧ d.reading = .idle ∧ d.due = c.due := by
  simp only [Channel.step] at hs
  split at hs
  · rename_i readEnd hreading
    cases hs
    exact ⟨readEnd, hreading, rfl, rfl, rfl⟩
  · cases hs

def Action.inner : Action β → Bool
  | .beginWrite _ | .load | .maximize | .writeBuffer | .again | .giveUp => true
  | _ => false

theorem inner_step {a : Action β} (hs : c.step a = some d) (ha : a.inner = true) :
    d.stored = c.stored ∧ d.reading = c.reading ∧ d.due = c.due := by
  cases a with
  | maximize =>
    simp only [Channel.step] at hs
    split at hs
    · cases hs
      unfold Channel.tested Channel.maximizeWriteCapacity
      dsimp only
      split_ifs <;> exact ⟨rfl, rfl, rfl⟩
    · cases hs
  | writeBuffer =>
    simp only [Channel.step] at hs
    split at hs
    · obtain ⟨byte, -, rfl⟩ := Option.map_eq_some_iff.1 hs
      exact ⟨rfl, rfl, rfl⟩
    · cases hs
  | beginWrite entry | again | giveUp | load =>
    simp only [Channel.step] at hs
    split at hs
    · cases hs
      exact ⟨rfl, rfl, rfl⟩
    · cases hs
  | _ => cases ha

end Effects

/-- The two buffers that `beginRead` returns, the second one empty when there was no wrap-around. -/
def Queue.parts (q : Queue β) (w : ℕ) : List β × List β :=
  if q.readIndex ≤ w then (stretch q.buffer q.readIndex w, [])
  else if q.readIndex < q.dataEnd then (stretch q.buffer q.readIndex q.dataEnd, stretch q.buffer 0 w)
  else (stretch q.buffer 0 w, [])

theorem readable_parts (q : Queue β) (w : ℕ) : q.readable w = (q.parts w).1 ++ (q.parts w).2 := by
  unfold Queue.readable Queue.parts
  split_ifs
  · exact (List.append_nil _).symm
  · rfl
  · exact (List.append_nil _).symm

/-- Entries whose bytes begin with those of others are more than these. -/
theorem length_le_of_bytesOf {xs ys : List (Entry β)} {more : List β} {all : List (Entry β)} (hxs : xs <+: all) (hys : ys <+: all)
    (h : bytesOf xs = bytesOf ys ++ more) : ys.length ≤ xs.length := by
  by_contra hlt
  obtain ⟨rest, rfl⟩ := List.prefix_of_prefix_length_le hxs hys (Nat.le_of_lt (Nat.not_le.1 hlt))
  have hlength := congrArg List.length h
  rw [bytesOf_append, List.length_append, List.length_append] at hlength
  have hrest : bytesOf rest = [] := List.length_eq_zero_iff.1 (by omega)
  rw [bytesOf_eq_nil hrest, List.append_nil] at hlt
  exact hlt le_rfl

theorem parts_whole {c : Channel β} {readEnd : ℕ} (hinv : Inv c) (h : Looked c readEnd) :
    ∃ front back, c.stored.take c.due = front ++ back ∧ c.queue.parts readEnd = (bytesOf front, bytesOf back) := by
  have hreadable := h.readable
  have hbetween := h.between
  rw [readable_parts] at hreadable
  have hwhole : (c.queue.parts readEnd).2 = [] →
      ∃ front back, c.stored.take c.due = front ++ back ∧ c.queue.parts readEnd = (bytesOf front, bytesOf back) := by
    intro hnil
    rw [hnil, List.append_nil] at hreadable
    exact ⟨c.stored.take c.due, [], (List.append_nil _).symm, Prod.ext hreadable hnil⟩
  by_cases hone : c.queue.readIndex ≤ readEnd
  · refine hwhole ?_
    unfold Queue.parts
    rw [if_pos hone]
  · by_cases hmore : c.queue.readIndex < c.queue.dataEnd
    · unfold Between at hbetween
      obtain ⟨-, -, front, back, hsplit, hwrapped⟩ := hinv.writable.layout.wrapped (by omega)
      have hparts : c.queue.parts readEnd = (bytesOf front, stretch c.queue.buffer 0 readEnd) := by
        unfold Queue.parts
        rw [if_neg hone, if_pos hmore, hwrapped.front]
      rw [hparts] at hreadable ⊢
      have hfront : front <+: c.stored := ⟨back, hsplit.symm⟩
      have hle := length_le_of_bytesOf (List.take_prefix c.due c.stored) hfront hreadable.symm
      obtain ⟨rest, hrest⟩ := List.prefix_of_prefix_length_le hfront (List.take_prefix c.due c.stored) hle
      refine ⟨front, rest, hrest.symm, Prod.ext rfl ?_⟩
      rw [← hrest, bytesOf_append] at hreadable
      exact List.append_cancel_left hreadable
    · refine hwhole ?_
      unfold Queue.parts
      rw [if_neg hone, if_neg hmore]

def Queue.unreadWriteSize (q : Queue β) : ℕ :=
  if q.readIndex ≤ q.writeIndex then q.writeIndex - q.readIndex else q.dataEnd - q.readIndex + q.writeIndex

/-- The indices count the bytes of the entries that are committed and not given back. -/
theorem unreadWriteSize_eq {c : Channel β} (h : Inv c) : c.queue.unreadWriteSize = (bytesOf c.stored).length := by
  have hlayout := h.writable.layout
  unfold Queue.unreadWriteSize
  split_ifs with hread
  · rw [← (hlayout.committed hread).1.content, length_stretch]
  · obtain ⟨htail, -, front, back, hsplit, hwrapped⟩ := hlayout.wrapped (Nat.not_le.1 hread)
    rw [hsplit, bytesOf_append, List.length_append, ← hwrapped.front, ← hwrapped.back, length_stretch, length_stretch, htail,
      Nat.sub_zero]

def Channel.touched (c : Channel β) : Action β → List ℕ
  | .writeBuffer => [c.writePos]
  | .copy =>
    match c.reading with
    | .loaded readEnd =>
      if c.queue.readIndex ≤ readEnd then List.range' c.queue.readIndex (readEnd - c.queue.readIndex)
      else List.range' c.queue.readIndex (c.queue.dataEnd - c.queue.readIndex) ++ List.range' 0 readEnd
    | _ => []
  | _ => []

theorem touched_lt {c d : Channel β} {a : Action β} (h : Inv c) (hs : c.step a = some d) {i : ℕ} (hi : i ∈ c.touched a) :
    i < c.queue.capacity := by
  have hlayout := h.writable.layout
  have hroom := hlayout.room
  cases a with
  | writeBuffer =>
    obtain rfl := List.mem_singleton.1 hi
    simp only [Channel.step] at hs
    split at hs
    · rename_i entry start next hwriting
      obtain ⟨byte, hbyte, -⟩ := Option.map_eq_some_iff.1 hs
      obtain ⟨hlength, -⟩ := List.getElem?_eq_some_iff.1 hbyte
      have hcopying := h.writable.writing
      unfold WritingInv at hcopying
      rw [hwriting] at hcopying
      dsimp only at hcopying
      omega
    · cases hs
  | copy =>
    have hreading := h.reading
    unfold ReadingInv at hreading
    unfold Channel.touched at hi
    dsimp only at hi
    cases hc : c.reading with
    | loaded readEnd =>
      rw [hc] at hi hreading
      dsimp only at hi
      have hbetween := hreading.between
      unfold Between at hbetween
      have hend : c.queue.readIndex ≤ c.queue.writeIndex ∧ c.queue.writeIndex ≤ c.queue.capacity ∨
          c.queue.writeIndex < c.queue.readIndex ∧ c.queue.dataEnd ≤ c.queue.capacity ∧
            c.queue.readIndex ≤ c.queue.dataEnd := by
        by_cases hread : c.queue.readIndex ≤ c.queue.writeIndex
        · exact .inl ⟨hread, (hlayout.committed hread).1.bound⟩
        · obtain ⟨-, -, front, back, -, hwrapped⟩ := hlayout.wrapped (Nat.not_le.1 hread)
          exact .inr ⟨Nat.not_le.1 hread, hwrapped.inside, hwrapped.order⟩
      have hreleased := hreading.released.layout
      have hgiven : readEnd ≤ c.queue.capacity := by
        rcases hreleased with ⟨-, hflat⟩ | ⟨front, back, -, -, -, hwrapped⟩
        · exact hflat.order.trans (hflat.room.trans hflat.bound)
        · exact hwrapped.order.trans hwrapped.inside
      split_ifs at hi with hone
      · rw [List.mem_range'_1] at hi
        omega
      · rw [List.mem_append, List.mem_range'_1, List.mem_range'_1] at hi
        omega
    | _ =>
      rw [hc] at hi
      cases hi
  | _ => cases hi

end LoggerBenchmarks.BinlogQueue
