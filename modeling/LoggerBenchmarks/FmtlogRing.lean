import Mathlib.Algebra.Group.Nat.Defs
import LoggerBenchmarks.BipBuffer
import LoggerBenchmarks.LabelledRuns

set_option autoImplicit false

/-!
# The queue of a fmtlog thread

`SPSCVarQueueOPT`: a ring of cells of the size of a message header. The producer
allocates, fills and pushes a message; the poller looks at the front, copies and pops
it. A step is one access to what the two threads share.
-/
namespace LoggerBenchmarks.FmtlogRing
open LabelledRuns BipBuffer

variable {β : Type}

/-- The `size` field of a header and the rest of the cell. -/
structure Cell (β : Type) where
  size : ℕ
  rest : β
  deriving DecidableEq

def headerSize : ℕ := 8

/-- `blk_sz` -/
def blocks (size : ℕ) : ℕ := (size + headerSize - 1) / headerSize

/-- A message of so many bytes: its log id and the cells behind its header. `log` and `alloc` count
its bytes in 32 bits, in which they fit with the header and what `alloc` adds to round up. -/
structure Message (β : Type) where
  bytes : ℕ
  logId : β
  body : List (Cell β)
  filled : body.length + 1 = blocks (bytes + headerSize)
  word : bytes + 2 * headerSize < 2 ^ 32

/-- `size += sizeof(MsgHeader)` of a `uint32_t`. -/
def Message.size (m : Message β) : ℕ := (m.bytes + headerSize) % 2 ^ 32

def Message.cells (m : Message β) : List (Cell β) := ⟨m.size, m.logId⟩ :: m.body

def Message.hollow (m : Message β) : List (Cell β) := ⟨0, m.logId⟩ :: m.body

inductive Writer where
  | ready
  | loading
  | clearing (cache : ℕ)
  | marking (cache : ℕ)
  | reserving
  | filling (start next : ℕ)
  deriving DecidableEq

inductive Reader where
  | idle
  | wrapping
  | wrapped
  | holding
  | copied
  deriving DecidableEq

/-- The ring, the two threads, what is still to be logged, and the histories: the messages attempted and
whether they were pushed, those stored, and what was copied. -/
structure State (β : Type) where
  blk : ℕ → Cell β
  writeIdx : ℕ
  freeWriteCnt : ℕ
  readIdx : ℕ
  writer : Writer
  reader : Reader
  pending : List (Message β)
  attempts : List (Message β × Bool)
  stored : List (Message β)
  processed : List (List (Cell β))

inductive Action where
  | alloc | load | clear | mark | reserve | fill | push
  | front | wrap | again | copy | pop
  deriving DecidableEq

def start (count : ℕ) (zero : β) (messages : List (Message β)) : State β where
  blk _ := ⟨0, zero⟩
  writeIdx := 0
  freeWriteCnt := count
  readIdx := 0
  writer := .ready
  reader := .idle
  pending := messages
  attempts := []
  stored := []
  processed := []

def State.setSize (s : State β) (i size : ℕ) : ℕ → Cell β := Function.update s.blk i { s.blk i with size := size }

/-- The last test of `alloc`. Without room the producer tries again, or gives the message up. -/
def State.tested (block : Bool) (s : State β) (m : Message β) (rest : List (Message β)) : State β :=
  if s.freeWriteCnt ≤ blocks m.size then
    if block then { s with writer := .ready }
    else { s with writer := .ready, pending := rest, attempts := s.attempts ++ [(m, false)] }
  else { s with writer := .reserving }

/-- `FMTLOG_BLOCK` is `block`, `BLK_CNT` is `count`. -/
def step (block : Bool) (count : ℕ) (s : State β) : Action → Option (State β)
  | .alloc =>
    match s.writer, s.pending with
    | .ready, m :: _ => some { s with writer := if s.freeWriteCnt ≤ blocks m.size then .loading else .reserving }
    | _, _ => none
  | .load =>
    match s.writer, s.pending with
    | .loading, m :: rest =>
      if s.readIdx ≤ s.writeIdx then
        if count - s.writeIdx ≤ blocks m.size ∧ s.readIdx ≠ 0 then
          some { s with freeWriteCnt := count - s.writeIdx, writer := .clearing s.readIdx }
        else some (State.tested block { s with freeWriteCnt := count - s.writeIdx } m rest)
      else some (State.tested block { s with freeWriteCnt := s.readIdx - s.writeIdx } m rest)
    | _, _ => none
  | .clear =>
    match s.writer with
    | .clearing cache => some { s with blk := s.setSize 0 0, writer := .marking cache }
    | _ => none
  | .mark =>
    match s.writer, s.pending with
    | .marking cache, m :: rest =>
      some (State.tested block { s with blk := s.setSize s.writeIdx 1, writeIdx := 0, freeWriteCnt := cache } m rest)
    | _, _ => none
  | .reserve =>
    match s.writer, s.pending with
    | .reserving, m :: _ =>
      some { s with
        blk := s.setSize (s.writeIdx + blocks m.size) 0
        writeIdx := s.writeIdx + blocks m.size
        freeWriteCnt := s.freeWriteCnt - blocks m.size
        writer := .filling s.writeIdx 0 }
    | _, _ => none
  | .fill =>
    match s.writer, s.pending with
    | .filling start 0, m :: _ =>
      some { s with
        blk := Function.update s.blk start { s.blk start with rest := m.logId }
        writer := .filling start 1 }
    | .filling start (next + 1), m :: _ =>
      m.body[next]?.map fun cell =>
        { s with blk := Function.update s.blk (start + (next + 1)) cell, writer := .filling start (next + 2) }
    | _, _ => none
  | .push =>
    match s.writer, s.pending with
    | .filling start next, m :: rest =>
      if next = blocks m.size then
        some { s with
          blk := s.setSize start m.size
          writer := .ready
          pending := rest
          attempts := s.attempts ++ [(m, true)]
          stored := s.stored ++ [m] }
      else none
    | _, _ => none
  | .front =>
    match s.reader with
    | .idle =>
      some { s with reader :=
        if (s.blk s.readIdx).size = 1 then .wrapping else if (s.blk s.readIdx).size = 0 then .idle else .holding }
    | _ => none
  | .wrap =>
    match s.reader with
    | .wrapping => some { s with readIdx := 0, reader := .wrapped }
    | _ => none
  | .again =>
    match s.reader with
    | .wrapped => some { s with reader := if (s.blk 0).size = 0 then .idle else .holding }
    | _ => none
  | .copy =>
    match s.reader with
    | .holding =>
      some { s with
        reader := .copied
        processed := s.processed ++
          [stretch s.blk s.readIdx (s.readIdx + blocks (s.blk s.readIdx).size)] }
    | _ => none
  | .pop =>
    match s.reader with
    | .copied =>
      some { s with
        readIdx := s.readIdx + blocks (s.blk s.readIdx).size
        reader := .idle
        stored := s.stored.tail }
    | _ => none

def polling : Action → Bool
  | .front | .wrap | .again | .copy | .pop => true
  | _ => false

def touched (s : State β) : Action → List ℕ
  | .alloc | .load | .wrap => []
  | .clear | .again => [0]
  | .mark => [s.writeIdx]
  | .reserve => (s.pending.head?).elim [] fun m => [s.writeIdx + blocks m.size]
  | .fill => match s.writer with | .filling start next => [start + next] | _ => []
  | .push => match s.writer with | .filling start _ => [start] | _ => []
  | .front | .pop => [s.readIdx]
  | .copy => List.range' s.readIdx (blocks (s.blk s.readIdx).size)

theorem Message.size_eq (m : Message β) : m.size = m.bytes + headerSize := by
  have hword := m.word
  exact Nat.mod_eq_of_lt (by omega)

theorem Message.length_cells (m : Message β) : m.cells.length = blocks m.size := by
  rw [m.size_eq]
  exact m.filled

theorem Message.length_hollow (m : Message β) : m.hollow.length = blocks m.size := m.length_cells

theorem Message.blocks_pos (m : Message β) : 0 < blocks m.size := by
  rw [← m.length_cells]
  exact Nat.succ_pos _

theorem Message.size_ne (m : Message β) : m.size ≠ 0 ∧ m.size ≠ 1 := by
  rw [m.size_eq, headerSize]
  omega

def Layout (count : ℕ) (blk : ℕ → Cell β) (read tail bound : ℕ) (stored : List (Message β)) : Prop :=
  Flat blk count read tail bound (stored.flatMap Message.cells) ∨
    ∃ front back stop, stored = front ++ back ∧ stop < count ∧ (blk stop).size = 1 ∧
      Wrapped blk count read stop tail bound (front.flatMap Message.cells) (back.flatMap Message.cells)

section Layout

variable {count read tail bound : ℕ} {blk : ℕ → Cell β} {stored rest : List (Message β)} {m : Message β}

theorem stretch_message {stop : ℕ} {more : List (Cell β)}
    (h : stretch blk read stop = m.cells ++ more) (hle : read ≤ stop) :
    (blk read).size = m.size ∧ read + blocks m.size ≤ stop ∧ stretch blk read (read + blocks m.size) = m.cells := by
  have hlen := congrArg List.length h
  rw [length_stretch, List.length_append, m.length_cells] at hlen
  have hfit : read + blocks m.size ≤ stop := by
    have hpos := m.blocks_pos
    omega
  have htake := congrArg (List.take (blocks m.size)) h
  rw [take_stretch blk hfit, List.take_left' m.length_cells] at htake
  refine ⟨?_, hfit, htake⟩
  rw [stretch_cons blk (Nat.lt_add_of_pos_right m.blocks_pos), Message.cells] at htake
  exact congrArg Cell.size (List.cons.inj htake).1

theorem stretch_eq_nil {stop : ℕ} (h : stretch blk read stop = []) (hle : read ≤ stop) : read = stop := by
  have hlen := congrArg List.length h
  rw [length_stretch, List.length_nil] at hlen
  omega

theorem front_cases (h : Layout count blk read tail bound stored) (hended : (blk tail).size = 0) :
    (stored = [] ∧ (blk read).size = 0 ∧ Flat blk count read tail bound []) ∨
      (∃ m rest, stored = m :: rest ∧ (blk read).size = m.size ∧
        stretch blk read (read + blocks m.size) = m.cells ∧
        Layout count blk (read + blocks m.size) tail bound rest) ∨
      ((blk read).size = 1 ∧ bound ≤ read ∧ read < count ∧
        Flat blk count 0 tail bound (stored.flatMap Message.cells)) := by
  rcases h with hflat | ⟨front, back, stop, rfl, hstop, hmark, hwrapped⟩
  · cases stored with
    | nil =>
      obtain rfl := stretch_eq_nil hflat.content hflat.order
      exact .inl ⟨rfl, hended, hflat⟩
    | cons m rest =>
      obtain ⟨hsize, hfit, hcells⟩ := stretch_message hflat.content hflat.order
      refine .inr (.inl ⟨m, rest, rfl, hsize, hcells, .inl ?_⟩)
      have hreleased := hflat.release (k := blocks m.size) (by
        rw [List.flatMap_cons, List.length_append, m.length_cells]
        exact Nat.le_add_right _ _)
      rwa [List.flatMap_cons, List.drop_left' m.length_cells] at hreleased
  · cases front with
    | nil =>
      obtain rfl := stretch_eq_nil hwrapped.front hwrapped.order
      exact .inr (.inr ⟨hmark, hwrapped.bound, hstop, hwrapped.unwrap⟩)
    | cons m front =>
      obtain ⟨hsize, hfit, hcells⟩ := stretch_message hwrapped.front hwrapped.order
      refine .inr (.inl ⟨m, front ++ back, rfl, hsize, hcells, .inr ⟨front, back, stop, rfl, hstop, hmark, ?_⟩⟩)
      have hreleased := hwrapped.release (k := blocks m.size) (by
        rw [List.flatMap_cons, List.length_append, m.length_cells]
        exact Nat.le_add_right _ _)
      rwa [List.flatMap_cons, List.drop_left' m.length_cells] at hreleased

theorem Layout.fill (h : Layout count blk read tail bound stored) {x : ℕ} (hx : tail ≤ x) (hlt : x < bound)
    (cell : Cell β) : Layout count (Function.update blk x cell) read tail bound stored := by
  rcases h with hflat | ⟨front, back, stop, hsplit, hstop, hmark, hwrapped⟩
  · exact .inl (hflat.fill (.inr hx) cell)
  · refine .inr ⟨front, back, stop, hsplit, hstop, ?_, hwrapped.fill hx hlt cell⟩
    have hne : stop ≠ x := by
      have hbound := hwrapped.bound
      have horder := hwrapped.order
      omega
    rw [Function.update_of_ne hne]
    exact hmark

theorem Layout.push (h : Layout count blk read tail bound stored) {tail' : ℕ} (hle : tail ≤ tail')
    (hroom : tail' ≤ bound) (hcells : stretch blk tail tail' = m.cells) :
    Layout count blk read tail' bound (stored ++ [m]) := by
  rcases h with hflat | ⟨front, back, stop, rfl, hstop, hmark, hwrapped⟩
  · left
    have hcommit := hflat.commit hle hroom
    rwa [hcells, ← List.flatMap_singleton Message.cells m, ← List.flatMap_append] at hcommit
  · refine .inr ⟨front, back ++ [m], stop, List.append_assoc _ _ _, hstop, hmark, ?_⟩
    have hcommit := hwrapped.commit hle hroom
    rwa [hcells, ← List.flatMap_singleton Message.cells m, ← List.flatMap_append] at hcommit

theorem Layout.room (h : Layout count blk read tail bound stored) : tail ≤ bound ∧ bound ≤ count := by
  rcases h with hflat | ⟨front, back, stop, -, -, -, hwrapped⟩
  · exact ⟨hflat.room, hflat.bound⟩
  · exact ⟨hwrapped.room, hwrapped.bound.trans (hwrapped.order.trans hwrapped.inside)⟩

/-- The read index decides which of the two it is. -/
theorem Layout.flat (h : Layout count blk read tail bound stored) (hread : read < bound) :
    Flat blk count read tail bound (stored.flatMap Message.cells) := by
  rcases h with hflat | ⟨front, back, stop, -, -, -, hwrapped⟩
  · exact hflat
  · have hbound := hwrapped.bound
    omega

theorem Layout.rebound (h : Layout count blk read tail bound stored) {bound' : ℕ} (hread : tail < read) (hroom : tail ≤ bound')
    (hbound : bound' ≤ read) : Layout count blk read tail bound' stored := by
  rcases h with hflat | ⟨front, back, stop, hsplit, hstop, hmark, hwrapped⟩
  · have horder := hflat.order
    omega
  · exact .inr ⟨front, back, stop, hsplit, hstop, hmark, hwrapped.rebound hroom hbound⟩

/-- The cells the producer may fill are not the one at the front. -/
theorem Layout.ne_front (h : Layout count blk read tail bound stored) (hended : (blk tail).size = 0) {x : ℕ}
    (hx : tail ≤ x) (hlt : x < bound) (hfront : stored ≠ [] ∨ (blk read).size = 1) : read ≠ x := by
  rcases h with hflat | ⟨front, back, stop, -, -, -, hwrapped⟩
  · have horder := hflat.order
    have hne : read ≠ tail := by
      rintro rfl
      rcases hfront with hstored | hone
      · obtain ⟨m, rest, rfl⟩ := List.exists_cons_of_ne_nil hstored
        have hlen := congrArg List.length hflat.content
        rw [stretch_self, List.flatMap_cons, List.length_append, m.length_cells] at hlen
        have hpos := m.blocks_pos
        simp only [List.length_nil] at hlen
        omega
      · rw [hended] at hone
        cases hone
    omega
  · have hbound := hwrapped.bound
    omega

end Layout

def State.tail (s : State β) : ℕ :=
  match s.writer with
  | .filling start _ => start
  | _ => s.writeIdx

def State.bound (s : State β) : ℕ := s.writeIdx + s.freeWriteCnt

def State.unread (s : State β) : List (Message β) :=
  match s.reader with
  | .copied => s.stored.tail
  | _ => s.stored

def WriterInv (s : State β) : Prop :=
  match s.writer with
  | .ready | .loading => True
  | .clearing cache => 0 < cache ∧ cache ≤ s.readIdx ∧ s.readIdx ≤ s.writeIdx
  | .marking cache => 0 < cache ∧ cache ≤ s.readIdx ∧ s.readIdx ≤ s.writeIdx ∧ (s.blk 0).size = 0
  | .reserving => ∃ m rest, s.pending = m :: rest ∧ blocks m.size < s.freeWriteCnt
  | .filling start next => ∃ m rest, s.pending = m :: rest ∧ start + blocks m.size = s.writeIdx ∧
      next ≤ blocks m.size ∧ stretch s.blk start (start + next) = m.hollow.take next

def ReaderInv (s : State β) : Prop :=
  match s.reader with
  | .idle => True
  | .wrapping => (s.blk s.readIdx).size = 1
  | .wrapped => s.readIdx = 0
  | .holding | .copied => s.stored ≠ [] ∧ (s.blk s.readIdx).size ≠ 1

structure Inv (count : ℕ) (s : State β) : Prop where
  layout : Layout count s.blk s.readIdx s.tail s.bound s.stored
  free : 0 < s.freeWriteCnt
  ended : (s.blk s.tail).size = 0
  next : (s.blk s.writeIdx).size = 0
  order : s.tail ≤ s.writeIdx
  writer : WriterInv s
  reader : ReaderInv s

theorem inv_start {count : ℕ} (hcount : 0 < count) (zero : β) (messages : List (Message β)) :
    Inv count (start count zero messages) where
  layout := by
    left
    refine ⟨le_rfl, Nat.zero_le _, ?_, stretch_self _ _⟩
    exact (Nat.zero_add count).le
  free := hcount
  ended := rfl
  next := rfl
  order := le_rfl
  writer := trivial
  reader := trivial

section Step

variable {block : Bool} {count : ℕ} {s u : State β}

/-- A front that the poller has seen is still there when the producer has filled a cell. -/
theorem Inv.reader_fill (h : Inv count s) {x : ℕ} (hx : s.tail ≤ x) (hlt : x < s.bound) {cell : Cell β}
    (hblk : u.blk = Function.update s.blk x cell) (hread : u.readIdx = s.readIdx) (hreader : u.reader = s.reader)
    (hstored : s.stored ≠ [] → u.stored ≠ []) : ReaderInv u := by
  have hreaderInv := h.reader
  unfold ReaderInv at hreaderInv ⊢
  rw [hreader, hread, hblk]
  cases hs : s.reader with
  | idle => trivial
  | wrapping =>
    rw [hs] at hreaderInv
    dsimp only at hreaderInv ⊢
    rw [Function.update_of_ne (h.layout.ne_front h.ended hx hlt (.inr hreaderInv))]
    exact hreaderInv
  | wrapped =>
    rw [hs] at hreaderInv
    exact hreaderInv
  | holding | copied =>
    rw [hs] at hreaderInv
    dsimp only at hreaderInv ⊢
    rw [Function.update_of_ne (h.layout.ne_front h.ended hx hlt (.inl hreaderInv.1))]
    exact ⟨hstored hreaderInv.1, hreaderInv.2⟩

/-- Private steps of the producer between two messages. -/
theorem Inv.idle (h : Inv count s) {free : ℕ} {writer : Writer} {pending : List (Message β)}
    {attempts : List (Message β × Bool)}
    (hlayout : Layout count s.blk s.readIdx s.writeIdx (s.writeIdx + free) s.stored) (hfree : 0 < free)
    (hwriter : WriterInv { s with freeWriteCnt := free, writer := writer, pending := pending, attempts := attempts })
    (hfilling : ∀ start next, writer ≠ .filling start next) :
    Inv count { s with freeWriteCnt := free, writer := writer, pending := pending, attempts := attempts } := by
  have hnew : State.tail { s with freeWriteCnt := free, writer := writer, pending := pending, attempts := attempts } =
      s.writeIdx := by
    unfold State.tail
    cases writer with
    | filling start next => exact absurd rfl (hfilling start next)
    | _ => rfl
  refine ⟨?_, hfree, ?_, h.next, hnew.le, hwriter, h.reader⟩
  · rw [hnew]
    exact hlayout
  · rw [hnew]
    exact h.next

theorem inv_tested (h : Inv count s) {free : ℕ} {m : Message β} {rest : List (Message β)}
    (hpending : s.pending = m :: rest)
    (hlayout : Layout count s.blk s.readIdx s.writeIdx (s.writeIdx + free) s.stored) (hfree : 0 < free) :
    Inv count (State.tested block { s with freeWriteCnt := free } m rest) := by
  unfold State.tested
  dsimp only
  split_ifs with hfull
  · exact h.idle hlayout hfree trivial nofun
  · exact h.idle hlayout hfree trivial nofun
  · exact h.idle hlayout hfree ⟨m, rest, hpending, by dsimp only; omega⟩ nofun

theorem inv_alloc (h : Inv count s) (hs : step block count s .alloc = some u) : Inv count u := by
  simp only [step] at hs
  split at hs
  · rename_i m rest hwriter hpending
    have htail : s.tail = s.writeIdx := by
      unfold State.tail
      rw [hwriter]
    have hlayout := h.layout
    rw [htail] at hlayout
    cases hs
    split
    · exact h.idle hlayout h.free trivial nofun
    · rename_i hroom
      exact h.idle hlayout h.free ⟨m, rest, hpending, by dsimp only; omega⟩ nofun
  · cases hs

theorem inv_load (h : Inv count s) (hs : step block count s .load = some u) : Inv count u := by
  simp only [step] at hs
  split at hs
  · rename_i m rest hwriter hpending
    have htail : s.tail = s.writeIdx := by
      unfold State.tail
      rw [hwriter]
    have hlayout := h.layout
    have hfree := h.free
    rw [htail] at hlayout
    have hroom := hlayout.room
    unfold State.bound at hroom hlayout
    split at hs
    · rename_i hread
      have hflat : Flat s.blk count s.readIdx s.writeIdx (s.writeIdx + (count - s.writeIdx)) _ :=
        (hlayout.flat (by omega)).rebound (by omega) (by omega)
      split at hs
      · rename_i hwrap
        cases hs
        exact h.idle (.inl hflat) (by omega) ⟨by omega, le_rfl, hread⟩ nofun
      · cases hs
        exact inv_tested h hpending (.inl hflat) (by omega)
    · rename_i hread
      cases hs
      exact inv_tested h hpending (hlayout.rebound (by omega) (by omega) (by omega)) (by omega)
  · cases hs

theorem inv_clear (h : Inv count s) (hs : step block count s .clear = some u) : Inv count u := by
  simp only [step] at hs
  split at hs
  · rename_i cache hwriter
    have htail : s.tail = s.writeIdx := by
      unfold State.tail
      rw [hwriter]
    have hwriterInv := h.writer
    unfold WriterInv at hwriterInv
    rw [hwriter] at hwriterInv
    obtain ⟨hcache, hread, hwrite⟩ := hwriterInv
    have hfree := h.free
    have hflat := h.layout.flat (by unfold State.bound; omega)
    cases hs
    have hne : s.readIdx ≠ 0 := by omega
    have hwriteNe : s.writeIdx ≠ 0 := by omega
    refine ⟨?_, h.free, ?_, ?_, le_rfl, ⟨hcache, hread, hwrite, ?_⟩, ?_⟩
    · have hfilled := hflat.fill (.inl (Nat.pos_of_ne_zero hne)) { s.blk 0 with size := 0 }
      rw [htail] at hfilled
      exact .inl hfilled
    · have hnext := h.next
      dsimp only [State.tail, State.setSize]
      rwa [Function.update_of_ne hwriteNe]
    · have hnext := h.next
      dsimp only [State.setSize]
      rwa [Function.update_of_ne hwriteNe]
    · dsimp only [State.setSize]
      rw [Function.update_self]
    · have hreader := h.reader
      unfold ReaderInv at hreader ⊢
      simp only [State.setSize, Function.update_of_ne hne]
      exact hreader
  · cases hs

theorem inv_mark (h : Inv count s) (hs : step block count s .mark = some u) : Inv count u := by
  simp only [step] at hs
  split at hs
  · rename_i cache m rest hwriter hpending
    have htail : s.tail = s.writeIdx := by
      unfold State.tail
      rw [hwriter]
    have hwriterInv := h.writer
    unfold WriterInv at hwriterInv
    rw [hwriter] at hwriterInv
    obtain ⟨hcache, hread, hwrite, hbegin⟩ := hwriterInv
    have hfree := h.free
    have hinside : s.writeIdx < s.bound := by
      unfold State.bound
      omega
    have hroom := h.layout.room
    have hflat := h.layout.flat (by omega)
    have hne : 0 ≠ s.writeIdx := by omega
    cases hs
    have hwrapped : Wrapped (s.setSize s.writeIdx 1) count s.readIdx s.writeIdx 0 cache
        (s.stored.flatMap Message.cells) [] := by
      have hfilled := hflat.fill (.inr le_rfl) { s.blk s.tail with size := 1 }
      rw [htail] at hfilled
      exact hfilled.wrap hread
    have hcleared : (s.setSize s.writeIdx 1 0).size = 0 := by
      unfold State.setSize
      rwa [Function.update_of_ne hne]
    have hmarked : Inv count
        { s with blk := s.setSize s.writeIdx 1, writeIdx := 0, freeWriteCnt := cache, writer := .ready } := by
      refine ⟨.inr ⟨s.stored, [], s.writeIdx, (List.append_nil _).symm, by omega, ?_, ?_⟩, hcache, hcleared, hcleared,
        le_rfl, trivial, ?_⟩
      · dsimp only [State.setSize]
        rw [Function.update_self]
      · rwa [State.bound, Nat.zero_add]
      · exact h.reader_fill htail.le hinside rfl rfl rfl id
    refine inv_tested hmarked hpending ?_ hcache
    have hlayout := hmarked.layout
    exact hlayout
  · cases hs

theorem inv_reserve (h : Inv count s) (hs : step block count s .reserve = some u) : Inv count u := by
  simp only [step] at hs
  split at hs
  · rename_i m rest hwriter hpending
    have htail : s.tail = s.writeIdx := by
      unfold State.tail
      rw [hwriter]
    have hwriterInv := h.writer
    unfold WriterInv at hwriterInv
    rw [hwriter] at hwriterInv
    obtain ⟨m', rest', hpending', hfits⟩ := hwriterInv
    obtain ⟨rfl, rfl⟩ := List.cons.inj (hpending.symm.trans hpending')
    have hpos := m.blocks_pos
    have hx : s.tail ≤ s.writeIdx + blocks m.size := by omega
    have hlt : s.writeIdx + blocks m.size < s.bound := by
      unfold State.bound
      omega
    cases hs
    refine ⟨?_, by dsimp only; omega, ?_, ?_, by dsimp only [State.tail]; omega,
      ⟨m, rest, hpending, rfl, Nat.zero_le _, ?_⟩, ?_⟩
    · have hfilled := h.layout.fill hx hlt { s.blk (s.writeIdx + blocks m.size) with size := 0 }
      have hbound : s.bound = s.writeIdx + blocks m.size + (s.freeWriteCnt - blocks m.size) := by
        unfold State.bound
        omega
      rw [htail, hbound] at hfilled
      exact hfilled
    · have hended := h.next
      dsimp only [State.tail, State.setSize]
      rwa [Function.update_of_ne (by omega)]
    · dsimp only [State.setSize]
      rw [Function.update_self]
    · rw [Nat.add_zero, stretch_self]
      rfl
    · exact h.reader_fill hx hlt rfl rfl rfl id
  · cases hs

theorem inv_filled (h : Inv count s) {start next : ℕ} (hwriter : s.writer = .filling start next) {m : Message β}
    {rest : List (Message β)} (hpending : s.pending = m :: rest) {cell : Cell β} (hcell : m.hollow[next]? = some cell) :
    Inv count { s with blk := Function.update s.blk (start + next) cell, writer := .filling start (next + 1) } := by
  have htail : s.tail = start := by
    unfold State.tail
    rw [hwriter]
  have hwriterInv := h.writer
  unfold WriterInv at hwriterInv
  rw [hwriter] at hwriterInv
  obtain ⟨m', rest', hpending', hend, hnext, hfilled⟩ := hwriterInv
  obtain ⟨rfl, rfl⟩ := List.cons.inj (hpending.symm.trans hpending')
  obtain ⟨hlength, hget⟩ := List.getElem?_eq_some_iff.1 hcell
  rw [m.length_hollow] at hlength
  have hfree := h.free
  have hx : s.tail ≤ start + next := by omega
  have hlt : start + next < s.bound := by
    unfold State.bound
    omega
  refine ⟨?_, h.free, ?_, ?_, htail ▸ h.order, ⟨m, rest, hpending, hend, by omega, ?_⟩, ?_⟩
  · have hlayout := h.layout.fill hx hlt cell
    rwa [htail] at hlayout
  · have hended := h.ended
    rw [htail] at hended
    dsimp only [State.tail]
    rcases Nat.eq_zero_or_pos next with rfl | hpos
    · rw [Nat.add_zero, Function.update_self]
      have hcell0 := Option.some.inj hcell
      rw [← hcell0]
    · rwa [Function.update_of_ne (by omega)]
  · have hnext := h.next
    dsimp only
    rwa [Function.update_of_ne (by omega)]
  · dsimp only
    rw [← Nat.add_assoc, stretch_succ _ (Nat.le_add_right _ _), stretch_update _ (.inr le_rfl), hfilled,
      Function.update_self, List.take_add_one, hcell]
    rfl
  · exact h.reader_fill hx hlt rfl rfl rfl id

theorem inv_fill (h : Inv count s) (hs : step block count s .fill = some u) : Inv count u := by
  simp only [step] at hs
  split at hs
  · rename_i start m rest hwriter hpending
    have hended := h.ended
    unfold State.tail at hended
    rw [hwriter] at hended
    dsimp only at hended
    cases hs
    have hcell : m.hollow[0]? = some { s.blk start with rest := m.logId } := by
      change _ = some (Cell.mk (s.blk start).size m.logId)
      rw [hended]
      rfl
    exact inv_filled h hwriter hpending hcell
  · rename_i start next m rest hwriter hpending
    obtain ⟨cell, hcell, rfl⟩ := Option.map_eq_some_iff.1 hs
    exact inv_filled h hwriter hpending hcell
  · cases hs

theorem inv_push (h : Inv count s) (hs : step block count s .push = some u) : Inv count u := by
  simp only [step] at hs
  split at hs
  · rename_i start next m rest hwriter hpending
    split at hs
    · rename_i hall
      have htail : s.tail = start := by
        unfold State.tail
        rw [hwriter]
      have hwriterInv := h.writer
      unfold WriterInv at hwriterInv
      rw [hwriter] at hwriterInv
      obtain ⟨m', rest', hpending', hend, -, hfilled⟩ := hwriterInv
      obtain ⟨rfl, rfl⟩ := List.cons.inj (hpending.symm.trans hpending')
      have hpos := m.blocks_pos
      have hfree := h.free
      have hx : s.tail ≤ start := htail.le
      have hlt : start < s.bound := by
        unfold State.bound
        omega
      have hcells : stretch (s.setSize start m.size) start s.writeIdx = m.cells := by
        rw [hall, hend, List.take_of_length_le m.length_hollow.le, stretch_cons _ (by omega)] at hfilled
        obtain ⟨hhead, hbody⟩ := List.cons.inj hfilled
        rw [stretch_cons _ (by omega), State.setSize, Function.update_self, stretch_update _ (.inl (Nat.lt_succ_self _)),
          hbody, hhead]
        rfl
      have hended : (s.setSize start m.size s.writeIdx).size = 0 := by
        have hnext := h.next
        unfold State.setSize
        rwa [Function.update_of_ne (by omega)]
      cases hs
      refine ⟨?_, h.free, hended, hended, le_rfl, trivial, ?_⟩
      · have hlayout := h.layout.fill hx hlt { s.blk start with size := m.size }
        rw [htail] at hlayout
        refine hlayout.push (htail ▸ h.order) ?_ hcells
        exact Nat.le_add_right _ _
      · exact h.reader_fill hx hlt rfl rfl rfl fun _ => List.append_ne_nil_of_right_ne_nil _ (List.cons_ne_nil _ _)
    · cases hs
  · cases hs

theorem inv_front (h : Inv count s) (hs : step block count s .front = some u) : Inv count u := by
  simp only [step] at hs
  split at hs
  · rename_i hreader
    cases hs
    refine ⟨h.layout, h.free, h.ended, h.next, h.order, h.writer, ?_⟩
    unfold ReaderInv
    dsimp only
    split_ifs with hone hzero
    · exact hone
    · trivial
    · refine ⟨fun hnil => ?_, hone⟩
      rcases front_cases h.layout h.ended with ⟨-, hempty, -⟩ | ⟨m, rest, hstored, -⟩ | ⟨hmark, -⟩
      · exact hzero hempty
      · rw [hnil] at hstored
        cases hstored
      · exact hone hmark
  · cases hs

theorem inv_wrap (h : Inv count s) (hs : step block count s .wrap = some u) : Inv count u := by
  simp only [step] at hs
  split at hs
  · rename_i hreader
    have hfront := h.reader
    unfold ReaderInv at hfront
    rw [hreader] at hfront
    dsimp only at hfront
    cases hs
    have hfree := h.free
    rcases front_cases h.layout h.ended with ⟨-, hempty, -⟩ | ⟨m, rest, -, hsize, -⟩ | ⟨-, hbound, -, hflat⟩
    · rw [hfront] at hempty
      cases hempty
    · exact absurd (hsize.symm.trans hfront) m.size_ne.2
    · unfold State.bound at hbound
      refine ⟨.inl hflat, h.free, h.ended, h.next, h.order, ?_, rfl⟩
      have hwriter := h.writer
      unfold WriterInv at hwriter ⊢
      cases hw : s.writer with
      | clearing cache | marking cache =>
        -- the read index would have passed the write index
        rw [hw] at hwriter
        dsimp only at hwriter
        omega
      | _ =>
        rw [hw] at hwriter
        exact hwriter
  · cases hs

theorem inv_again (h : Inv count s) (hs : step block count s .again = some u) : Inv count u := by
  simp only [step] at hs
  split at hs
  · rename_i hreader
    have hread := h.reader
    unfold ReaderInv at hread
    rw [hreader] at hread
    dsimp only at hread
    have hfree := h.free
    have hcases := front_cases h.layout h.ended
    rw [hread] at hcases
    cases hs
    refine ⟨h.layout, h.free, h.ended, h.next, h.order, h.writer, ?_⟩
    unfold ReaderInv
    dsimp only
    rw [hread]
    split_ifs with hzero
    · trivial
    · rcases hcases with ⟨-, hempty, -⟩ | ⟨m, rest, hstored, hsize, -⟩ | ⟨-, hbound, -⟩
      · exact absurd hempty hzero
      · refine ⟨hstored ▸ List.cons_ne_nil m rest, ?_⟩
        rw [hsize]
        exact m.size_ne.2
      · unfold State.bound at hbound
        omega
  · cases hs

theorem inv_copy (h : Inv count s) (hs : step block count s .copy = some u) : Inv count u := by
  simp only [step] at hs
  split at hs
  · rename_i hreader
    have hfront := h.reader
    unfold ReaderInv at hfront
    rw [hreader] at hfront
    cases hs
    exact ⟨h.layout, h.free, h.ended, h.next, h.order, h.writer, hfront⟩
  · cases hs

theorem inv_pop (h : Inv count s) (hs : step block count s .pop = some u) : Inv count u := by
  simp only [step] at hs
  split at hs
  · rename_i hreader
    have hfront := h.reader
    unfold ReaderInv at hfront
    rw [hreader] at hfront
    cases hs
    obtain ⟨hne, hone⟩ := hfront
    rcases front_cases h.layout h.ended with ⟨hnil, -⟩ | ⟨m, rest, hstored, hsize, -, hlayout⟩ | ⟨hmark, -⟩
    · exact absurd hnil hne
    · rw [hsize]
      refine ⟨?_, h.free, h.ended, h.next, h.order, ?_, trivial⟩
      · rw [hstored]
        exact hlayout
      · have hwriter := h.writer
        have hfree := h.free
        unfold WriterInv at hwriter ⊢
        have hpassed : s.tail = s.writeIdx → s.readIdx ≤ s.writeIdx → s.readIdx + blocks m.size ≤ s.writeIdx := by
          intro htail hread
          have hflat := h.layout.flat (by unfold State.bound; omega)
          have hcontent := hflat.content
          rw [hstored, List.flatMap_cons] at hcontent
          rw [← htail]
          exact (stretch_message hcontent hflat.order).2.1
        unfold State.tail at hpassed
        cases hw : s.writer with
        | clearing cache =>
          rw [hw] at hwriter hpassed
          obtain ⟨hpos, hcache, hread⟩ := hwriter
          exact ⟨hpos, hcache.trans (Nat.le_add_right _ _), hpassed rfl hread⟩
        | marking cache =>
          rw [hw] at hwriter hpassed
          obtain ⟨hpos, hcache, hread, hbegin⟩ := hwriter
          exact ⟨hpos, hcache.trans (Nat.le_add_right _ _), hpassed rfl hread, hbegin⟩
        | _ =>
          rw [hw] at hwriter
          exact hwriter
    · exact absurd hmark hone
  · cases hs

theorem inv_step (a : Action) (h : Inv count s) (hs : step block count s a = some u) : Inv count u := by
  cases a with
  | alloc => exact inv_alloc h hs
  | load => exact inv_load h hs
  | clear => exact inv_clear h hs
  | mark => exact inv_mark h hs
  | reserve => exact inv_reserve h hs
  | fill => exact inv_fill h hs
  | push => exact inv_push h hs
  | front => exact inv_front h hs
  | wrap => exact inv_wrap h hs
  | again => exact inv_again h hs
  | copy => exact inv_copy h hs
  | pop => exact inv_pop h hs

end Step

def State.logged (s : State β) : List (Message β) := (s.attempts.filter Prod.snd).map Prod.fst

/-- A message has been attempted or is still to come; what has been pushed has been copied, in order and
as it was, or is unread. -/
structure Accounted (messages : List (Message β)) (s : State β) : Prop where
  attempted : s.attempts.map Prod.fst ++ s.pending = messages
  queued : s.processed ++ s.unread.map Message.cells = s.logged.map Message.cells

section Accounted

variable {block : Bool} {count : ℕ} {messages : List (Message β)} {s u : State β}

theorem held_cells (h : Inv count s) (hheld : s.reader = .holding ∨ s.reader = .copied) :
    ∃ m rest, s.stored = m :: rest ∧ (s.blk s.readIdx).size = m.size ∧
      stretch s.blk s.readIdx (s.readIdx + blocks m.size) = m.cells ∧
      Layout count s.blk (s.readIdx + blocks m.size) s.tail s.bound rest := by
  have hfront : s.stored ≠ [] ∧ (s.blk s.readIdx).size ≠ 1 := by
    have hreader := h.reader
    unfold ReaderInv at hreader
    rcases hheld with hheld | hheld
    all_goals
      rw [hheld] at hreader
      exact hreader
  rcases front_cases h.layout h.ended with ⟨hnil, -⟩ | hcells | ⟨hmark, -⟩
  · exact absurd hnil hfront.1
  · exact hcells
  · exact absurd hmark hfront.2

theorem Accounted.tested (h : Accounted messages s) {m : Message β} {rest : List (Message β)}
    (hpending : s.pending = m :: rest) : Accounted messages (s.tested block m rest) := by
  unfold State.tested
  split_ifs
  · exact ⟨h.attempted, h.queued⟩
  · refine ⟨?_, ?_⟩
    · rw [List.map_append, List.map_singleton, List.append_assoc, List.singleton_append, ← hpending]
      exact h.attempted
    · have hlogged : State.logged { s with attempts := s.attempts ++ [(m, false)] } = s.logged := by
        unfold State.logged
        rw [List.filter_append, List.filter_cons_of_neg Bool.false_ne_true, List.filter_nil, List.append_nil]
      have hqueued := h.queued
      rw [← hlogged] at hqueued
      exact hqueued
  · exact ⟨h.attempted, h.queued⟩

theorem accounted_push (hinv : Inv count s) (h : Accounted messages s) (hs : step block count s .push = some u) :
    Accounted messages u := by
  simp only [step] at hs
  split at hs
  · rename_i start next m rest hwriter hpending
    split at hs
    · cases hs
      refine ⟨?_, ?_⟩
      · dsimp only
        rw [List.map_append, List.map_singleton, List.append_assoc, List.singleton_append, ← hpending]
        exact h.attempted
      · have hlogged : State.logged { s with attempts := s.attempts ++ [(m, true)] } = s.logged ++ [m] := by
          unfold State.logged
          rw [List.filter_append, List.map_append, List.filter_cons_of_pos rfl]
          rfl
        have hunread : State.unread { s with stored := s.stored ++ [m] } = s.unread ++ [m] := by
          have hreader := hinv.reader
          unfold ReaderInv at hreader
          unfold State.unread
          cases hr : s.reader with
          | copied =>
            rw [hr] at hreader
            exact List.tail_append_of_ne_nil hreader.1
          | _ => rfl
        change s.processed ++ (State.unread { s with stored := s.stored ++ [m] }).map Message.cells =
          (State.logged { s with attempts := s.attempts ++ [(m, true)] }).map Message.cells
        rw [hlogged, hunread, List.map_append, List.map_append, ← h.queued, List.append_assoc]
    · cases hs
  · cases hs

theorem accounted_copy (hinv : Inv count s) (h : Accounted messages s) (hs : step block count s .copy = some u) :
    Accounted messages u := by
  simp only [step] at hs
  split at hs
  · rename_i hreader
    cases hs
    obtain ⟨m, rest, hstored, hsize, hcells, -⟩ := held_cells hinv (.inl hreader)
    refine ⟨h.attempted, ?_⟩
    have hqueued := h.queued
    unfold State.unread at hqueued ⊢
    rw [hreader] at hqueued
    dsimp only at hqueued ⊢
    rw [hsize, hcells, hstored, List.tail_cons, List.append_assoc, List.singleton_append]
    rw [hstored, List.map_cons] at hqueued
    exact hqueued
  · cases hs

theorem accounted_step (a : Action) (hinv : Inv count s) (h : Accounted messages s)
    (hs : step block count s a = some u) : Accounted messages u := by
  cases a with
  | push => exact accounted_push hinv h hs
  | copy => exact accounted_copy hinv h hs
  | alloc | clear | reserve =>
    simp only [step] at hs
    split at hs
    · cases hs
      exact ⟨h.attempted, h.queued⟩
    · cases hs
  | load =>
    simp only [step] at hs
    split at hs
    · rename_i m rest hwriter hpending
      split_ifs at hs
      · cases hs
        exact ⟨h.attempted, h.queued⟩
      · cases hs
        exact Accounted.tested (s := { s with freeWriteCnt := count - s.writeIdx }) ⟨h.attempted, h.queued⟩ hpending
      · cases hs
        exact Accounted.tested (s := { s with freeWriteCnt := s.readIdx - s.writeIdx }) ⟨h.attempted, h.queued⟩ hpending
    · cases hs
  | mark =>
    simp only [step] at hs
    split at hs
    · rename_i cache m rest hwriter hpending
      cases hs
      exact Accounted.tested (s := { s with blk := s.setSize s.writeIdx 1, writeIdx := 0, freeWriteCnt := cache })
        ⟨h.attempted, h.queued⟩ hpending
    · cases hs
  | fill =>
    simp only [step] at hs
    split at hs
    · cases hs
      exact ⟨h.attempted, h.queued⟩
    · obtain ⟨cell, -, rfl⟩ := Option.map_eq_some_iff.1 hs
      exact ⟨h.attempted, h.queued⟩
    · cases hs
  | front | again | wrap | pop =>
    have hqueued := h.queued
    simp only [step] at hs
    split at hs
    · rename_i hreader
      cases hs
      refine ⟨h.attempted, ?_⟩
      unfold State.unread at hqueued ⊢
      rw [hreader] at hqueued
      dsimp only at hqueued ⊢
      first | exact hqueued | (split_ifs <;> exact hqueued)
    · cases hs

/-- The poller finds nothing only when everything pushed has been copied. -/
theorem found_nothing {a : Action} (h : Inv count s) (hs : step block count s a = some u) (ha : a = .front ∨ a = .again)
    (hidle : u.reader = .idle) : u.unread = [] := by
  have hempty : u.stored = s.stored ∧ (s.blk s.readIdx).size = 0 := by
    rcases ha with rfl | rfl
    all_goals
      simp only [step] at hs
      split at hs
    · cases hs
      dsimp only at hidle
      split_ifs at hidle with hone hzero
      exact ⟨rfl, hzero⟩
    · cases hs
    · rename_i hreader
      have hread := h.reader
      unfold ReaderInv at hread
      rw [hreader] at hread
      cases hs
      dsimp only at hidle hread
      split_ifs at hidle with hzero
      exact ⟨rfl, hread ▸ hzero⟩
    · cases hs
  have hstored : s.stored = [] := by
    rcases front_cases h.layout h.ended with ⟨hnil, -⟩ | ⟨m, rest, -, hsize, -⟩ | ⟨hmark, -⟩
    · exact hnil
    · exact absurd (hsize.symm.trans hempty.2) m.size_ne.1
    · rw [hempty.2] at hmark
      cases hmark
  unfold State.unread
  rw [hidle]
  exact hempty.1.trans hstored

/-- A producer that has nothing to log changes nothing that counts. -/
theorem quiet_step {a : Action} (hs : step block count s a = some u) (hquiet : s.pending = []) :
    u.pending = [] ∧ u.logged = s.logged ∧ (polling a = false → u.unread = s.unread) := by
  cases a with
  | alloc | load | mark | reserve | push =>
    simp only [step] at hs
    split at hs
    · rename_i hpending
      rw [hquiet] at hpending
      cases hpending
    · cases hs
  | fill =>
    simp only [step] at hs
    split at hs
    · rename_i hpending
      rw [hquiet] at hpending
      cases hpending
    · rename_i hpending
      rw [hquiet] at hpending
      cases hpending
    · cases hs
  | clear =>
    simp only [step] at hs
    split at hs
    · cases hs
      exact ⟨hquiet, rfl, fun _ => rfl⟩
    · cases hs
  | front | wrap | again | copy | pop =>
    simp only [step] at hs
    split at hs
    · cases hs
      exact ⟨hquiet, rfl, nofun⟩
    · cases hs

end Accounted

section Reached

variable {block : Bool} {count : ℕ} {zero : β} {messages : List (Message β)} {s u : State β}

theorem reached_inv (hcount : 0 < count) (h : Reachable (step block count) (start count zero messages) s) : Inv count s :=
  h.invariant (Inv count) (inv_start hcount zero messages) fun _ a _ hs hstep => inv_step a hs hstep

theorem reached_accounted (hcount : 0 < count) (h : Reachable (step block count) (start count zero messages) s) :
    Accounted messages s := by
  have hboth := h.invariant (fun s => Inv count s ∧ Accounted messages s)
    ⟨inv_start hcount zero messages, rfl, rfl⟩
    fun _ a _ hs hstep => ⟨inv_step a hs.1 hstep, accounted_step a hs.1 hs.2 hstep⟩
  exact hboth.2

end Reached

theorem Layout.read_le {count read tail bound : ℕ} {blk : ℕ → Cell β} {stored : List (Message β)}
    (h : Layout count blk read tail bound stored) : read ≤ count := by
  rcases h with hflat | ⟨front, back, stop, -, -, -, hwrapped⟩
  · exact hflat.order.trans (hflat.room.trans hflat.bound)
  · exact hwrapped.order.trans hwrapped.inside

theorem Layout.read_lt {count read tail bound : ℕ} {blk : ℕ → Cell β} {stored : List (Message β)}
    (h : Layout count blk read tail bound stored) (hroom : tail < bound) : read < count := by
  rcases h with hflat | ⟨front, back, stop, -, hstop, -, hwrapped⟩
  · exact (hflat.order.trans_lt hroom).trans_le hflat.bound
  · exact hwrapped.order.trans_lt hstop

theorem touched_lt {block : Bool} {count : ℕ} {s u : State β} {a : Action} (h : Inv count s) (hs : step block count s a = some u) {i : ℕ}
    (hi : i ∈ touched s a) : i < count := by
  have hfree := h.free
  have horder := h.order
  have hroom := h.layout.room
  have hbound : s.bound = s.writeIdx + s.freeWriteCnt := rfl
  have hread := h.layout.read_lt (by omega)
  cases a with
  | alloc | load | wrap => cases hi
  | clear | again =>
    obtain rfl := List.mem_singleton.1 hi
    omega
  | mark =>
    obtain rfl := List.mem_singleton.1 hi
    omega
  | front | pop =>
    obtain rfl := List.mem_singleton.1 hi
    exact hread
  | reserve =>
    simp only [step] at hs
    split at hs
    · rename_i m rest hwriter hpending
      have hwriterInv := h.writer
      unfold WriterInv at hwriterInv
      rw [hwriter] at hwriterInv
      obtain ⟨m', rest', hpending', hfits⟩ := hwriterInv
      obtain ⟨rfl, rfl⟩ := List.cons.inj (hpending.symm.trans hpending')
      unfold touched at hi
      rw [hpending] at hi
      obtain rfl := List.mem_singleton.1 hi
      omega
    · cases hs
  | fill =>
    have hfilled : ∃ start next m rest, s.writer = .filling start next ∧ s.pending = m :: rest ∧ next < m.hollow.length := by
      simp only [step] at hs
      split at hs
      · rename_i start m rest hwriter hpending
        exact ⟨start, 0, m, rest, hwriter, hpending, Nat.succ_pos _⟩
      · rename_i start next m rest hwriter hpending
        obtain ⟨cell, hcell, -⟩ := Option.map_eq_some_iff.1 hs
        obtain ⟨hlength, -⟩ := List.getElem?_eq_some_iff.1 hcell
        exact ⟨start, next + 1, m, rest, hwriter, hpending, Nat.succ_lt_succ hlength⟩
      · cases hs
    obtain ⟨start, next, m, rest, hwriter, hpending, hnext⟩ := hfilled
    have hwriterInv := h.writer
    unfold WriterInv at hwriterInv
    rw [hwriter] at hwriterInv
    obtain ⟨m', rest', hpending', hend, -, -⟩ := hwriterInv
    obtain ⟨rfl, rfl⟩ := List.cons.inj (hpending.symm.trans hpending')
    rw [m.length_hollow] at hnext
    unfold touched at hi
    rw [hwriter] at hi
    obtain rfl := List.mem_singleton.1 hi
    omega
  | push =>
    unfold touched at hi
    unfold State.tail at horder
    cases hwriter : s.writer with
    | filling start next =>
      rw [hwriter] at hi horder
      obtain rfl := List.mem_singleton.1 hi
      dsimp only at horder
      omega
    | _ =>
      rw [hwriter] at hi
      cases hi
  | copy =>
    simp only [step] at hs
    split at hs
    · rename_i hreader
      obtain ⟨m, rest, -, hsize, -, hlayout⟩ := held_cells h (.inl hreader)
      have hinside := hlayout.read_le
      unfold touched at hi
      rw [hsize, List.mem_range'_1] at hi
      omega
    · cases hs

/-- No step of the producer or of the poller goes outside the ring. -/
theorem touched_inside (block : Bool) (count : ℕ) (hcount : 0 < count) (zero : β) (messages : List (Message β)) (s u : State β)
    (a : Action) (h : Reachable (step block count) (start count zero messages) s) (hs : step block count s a = some u) :
    ∀ i ∈ touched s a, i < count :=
  fun _ hi => touched_lt (reached_inv hcount h) hs hi

def stamp (logId : ℕ) : Message ℕ := ⟨8, logId, [⟨0, 0⟩], rfl, by decide⟩

def around : List Action :=
  [.alloc, .reserve, .fill, .fill, .push, .front, .copy, .pop, .alloc, .load, .clear, .mark, .front, .wrap, .again,
    .alloc, .load, .reserve, .fill, .fill, .push, .front, .copy]

def aroundEnd : State ℕ := (exec (step true 4) (start 4 0 [stamp 7, stamp 8]) around).get rfl

theorem touched_inside_around : aroundEnd.readIdx < 4 :=
  touched_inside true 4 (by decide) 0 [stamp 7, stamp 8] aroundEnd _ .pop
    ⟨_, run_of_exec (step true 4) _ around (Option.some_get rfl).symm⟩ rfl _ (List.mem_singleton_self _)

end LoggerBenchmarks.FmtlogRing
