import LoggerBenchmarks.BinlogQueue
import LoggerBenchmarks.BinlogSession
import LoggerBenchmarks.LabelledRuns

set_option autoImplicit false

/-!
# From `addEvent` to `consume`

`SessionWriter` and `Session` of binlog over the queues of their channels, byte by byte,
and the session they refine. A writer whose queue is full goes on in a new channel; the
mutex of the session keeps a channel from being created during a consume.
-/
namespace LoggerBenchmarks.BinlogTransport
open LabelledRuns ListUpdates BinlogQueue
open BinlogSession (Writer Consumer Phase)

variable {β : Type}

/-- A channel and who holds a pointer to it. `attached`: its writer, `removed`: no longer the session. -/
structure Slot (β : Type) where
  channel : BinlogQueue.Channel β
  owner : ℕ
  attached : Bool
  removed : Bool

structure Session (β : Type) where
  channels : List (Slot β)
  writers : List (Writer (Entry β))
  consumer : Consumer
  out : List (ℕ × List β)

inductive WriterAction where
  | beginWrite
  | load
  | maximize
  | writeBuffer
  | endWrite
  | createChannel
  | createFails
  | attach
  | giveUp
  | close
  deriving DecidableEq

inductive ConsumerAction where
  | lock
  | check
  | skip
  | beginRead
  | leave
  | copy
  | endRead
  | next
  | unlock
  deriving DecidableEq

inductive Action where
  | writer (p : ℕ) (a : WriterAction)
  | consumer (a : ConsumerAction)
  deriving DecidableEq

def Slot.start (capacity : ℕ) (zero : β) (p : ℕ) : Slot β := ⟨.start capacity zero, p, true, false⟩

/-- Each writer has chosen the capacity of its first channel. -/
def start (capacity : ℕ → ℕ) (zero : β) (messages : List (List (Entry β))) : Session β where
  channels := messages.mapIdx fun p _ => .start (capacity p) zero p
  writers := messages.mapIdx fun p ms => ⟨ms, p, .adding, []⟩
  consumer := .unlocked
  out := []

def Session.put (s : Session β) (i : ℕ) (slot : Slot β) (c : BinlogQueue.Channel β) : Session β :=
  { s with channels := s.channels.set i { slot with channel := c } }

def Session.putWriter (s : Session β) (p : ℕ) (w : Writer (Entry β)) : Session β := { s with writers := s.writers.set p w }

def newCapacity (slot : Slot β) (entry : Entry β) : ℕ := max slot.channel.queue.capacity (2 * entry.bytes.length)

def writerStep (zero : β) (s : Session β) (p : ℕ) (w : Writer (Entry β)) (slot : Slot β) :
    WriterAction → Option (Session β)
  | .beginWrite =>
    match w.pending with
    | entry :: _ => if w.adds then (slot.channel.step (.beginWrite entry)).map (s.put w.channel slot) else none
    | [] => none
  | .load => if w.adds then (slot.channel.step .load).map (s.put w.channel slot) else none
  | .maximize => if w.adds then (slot.channel.step .maximize).map (s.put w.channel slot) else none
  | .writeBuffer => if w.adds then (slot.channel.step .writeBuffer).map (s.put w.channel slot) else none
  | .endWrite =>
    match w.pending with
    | entry :: rest =>
      if w.adds then
        (slot.channel.step .endWrite).map fun c => (s.put w.channel slot c).putWriter p
          { w with pending := rest, phase := .adding, attempts := w.attempts ++ [(entry, true)] }
      else none
    | [] => none
  | .createChannel =>
    match w.phase, slot.channel.writing, s.consumer with
    | .adding, .full entry, .unlocked =>
      some (Session.putWriter { s with channels := s.channels ++ [.start (newCapacity slot entry) zero p] } p
        { w with phase := .attaching s.channels.length })
    | _, _, _ => none
  | .createFails =>
    -- the exception is caught, and the old queue is tried once more
    if w.phase = .adding then
      (slot.channel.step .again).map fun c => (s.put w.channel slot c).putWriter p { w with phase := .last }
    else none
  | .attach =>
    match w.phase with
    | .attaching new =>
      some (Session.putWriter { s with channels := s.channels.set w.channel { slot with attached := false } } p
        { w with channel := new, phase := .last })
    | _ => none
  | .giveUp =>
    match w.pending with
    | entry :: rest =>
      if w.phase = .last then
        (slot.channel.step .giveUp).map fun c => (s.put w.channel slot c).putWriter p
          { w with pending := rest, phase := .adding, attempts := w.attempts ++ [(entry, false)] }
      else none
    | [] => none
  | .close =>
    if w.phase = .adding ∧ w.pending.isEmpty then
      some (Session.putWriter { s with channels := s.channels.set w.channel { slot with attached := false } } p
        { w with phase := .closed })
    else none

/-- `consume`. What it writes to `out` of its own, clock syncs, event sources and writer properties, is left out. -/
def consumerStep (s : Session β) : ConsumerAction → Option (Session β)
  | .lock => if s.consumer = .unlocked then some { s with consumer := .polling 0 } else none
  | .check =>
    match s.consumer with
    | .polling i =>
      match s.channels[i]? with
      | some slot => if slot.removed then none else some { s with consumer := .checked i !slot.attached }
      | none => none
    | _ => none
  | .skip =>
    match s.consumer with
    | .polling i =>
      match s.channels[i]? with
      | some slot => if slot.removed then some { s with consumer := .polling (i + 1) } else none
      | none => none
    | _ => none
  | .beginRead =>
    match s.consumer with
    | .checked i isClosed =>
      match s.channels[i]? with
      | some slot =>
        (slot.channel.step .beginRead).map fun c => { s.put i slot c with consumer := .reading i isClosed }
      | none => none
    | _ => none
  | .leave =>
    match s.consumer with
    | .reading i _ =>
      match s.channels[i]? with
      | some slot => (slot.channel.step .leave).map (s.put i slot)
      | none => none
    | _ => none
  | .copy =>
    match s.consumer with
    | .reading i _ =>
      match s.channels[i]? with
      | some slot =>
        if slot.channel.found.isEmpty then none
        else (slot.channel.step .copy).map fun c =>
          { s.put i slot c with out := s.out ++ [(slot.owner, slot.channel.found)] }
      | none => none
    | _ => none
  | .endRead =>
    match s.consumer with
    | .reading i _ =>
      match s.channels[i]? with
      | some slot => (slot.channel.step .endRead).map (s.put i slot)
      | none => none
    | _ => none
  | .next =>
    match s.consumer with
    | .reading i isClosed =>
      match s.channels[i]? with
      | some slot =>
        if slot.channel.reading = .idle then
          some { s with channels := s.channels.set i { slot with removed := isClosed }, consumer := .polling (i + 1) }
        else none
      | none => none
    | _ => none
  | .unlock => if s.consumer = .polling s.channels.length then some { s with consumer := .unlocked } else none

def step (zero : β) (s : Session β) : Action → Option (Session β)
  | .writer p a =>
    match s.writers[p]? with
    | some w =>
      match s.channels[w.channel]? with
      | some slot => writerStep zero s p w slot a
      | none => none
    | none => none
  | .consumer a => consumerStep s a

/-- Everything a step of a writer can do, guards included. -/
inductive WriterEffect (zero : β) (s : Session β) (p : ℕ) (w : Writer (Entry β)) (slot : Slot β) :
    WriterAction → Session β → Prop where
  | beginWrite {entry : Entry β} {rest : List (Entry β)} {d : BinlogQueue.Channel β} (hpending : w.pending = entry :: rest)
      (hadds : w.adds) (hd : slot.channel.step (.beginWrite entry) = some d) :
      WriterEffect zero s p w slot .beginWrite (s.put w.channel slot d)
  | load {d : BinlogQueue.Channel β} (hadds : w.adds) (hd : slot.channel.step .load = some d) :
      WriterEffect zero s p w slot .load (s.put w.channel slot d)
  | maximize {d : BinlogQueue.Channel β} (hadds : w.adds) (hd : slot.channel.step .maximize = some d) :
      WriterEffect zero s p w slot .maximize (s.put w.channel slot d)
  | writeBuffer {d : BinlogQueue.Channel β} (hadds : w.adds) (hd : slot.channel.step .writeBuffer = some d) :
      WriterEffect zero s p w slot .writeBuffer (s.put w.channel slot d)
  | endWrite {entry : Entry β} {rest : List (Entry β)} {d : BinlogQueue.Channel β} (hpending : w.pending = entry :: rest)
      (hadds : w.adds) (hd : slot.channel.step .endWrite = some d) :
      WriterEffect zero s p w slot .endWrite ((s.put w.channel slot d).putWriter p
        { w with pending := rest, phase := .adding, attempts := w.attempts ++ [(entry, true)] })
  | createChannel {entry : Entry β} (hphase : w.phase = .adding) (hwriting : slot.channel.writing = .full entry)
      (hunlocked : s.consumer = .unlocked) :
      WriterEffect zero s p w slot .createChannel
        (Session.putWriter { s with channels := s.channels ++ [.start (newCapacity slot entry) zero p] } p
          { w with phase := .attaching s.channels.length })
  | createFails {d : BinlogQueue.Channel β} (hphase : w.phase = .adding) (hd : slot.channel.step .again = some d) :
      WriterEffect zero s p w slot .createFails ((s.put w.channel slot d).putWriter p { w with phase := .last })
  | attach {new : ℕ} (hphase : w.phase = .attaching new) :
      WriterEffect zero s p w slot .attach
        (Session.putWriter { s with channels := s.channels.set w.channel { slot with attached := false } } p
          { w with channel := new, phase := .last })
  | giveUp {entry : Entry β} {rest : List (Entry β)} {d : BinlogQueue.Channel β} (hpending : w.pending = entry :: rest)
      (hphase : w.phase = .last) (hd : slot.channel.step .giveUp = some d) :
      WriterEffect zero s p w slot .giveUp ((s.put w.channel slot d).putWriter p
        { w with pending := rest, phase := .adding, attempts := w.attempts ++ [(entry, false)] })
  | close (hphase : w.phase = .adding) (hpending : w.pending = []) :
      WriterEffect zero s p w slot .close
        (Session.putWriter { s with channels := s.channels.set w.channel { slot with attached := false } } p
          { w with phase := .closed })

/-- Everything a step of the consumer can do, guards included. -/
inductive ConsumerEffect (s : Session β) : ConsumerAction → Session β → Prop where
  | lock (hunlocked : s.consumer = .unlocked) : ConsumerEffect s .lock { s with consumer := .polling 0 }
  | check {i : ℕ} {slot : Slot β} (hpolling : s.consumer = .polling i) (hslot : s.channels[i]? = some slot)
      (hremoved : slot.removed = false) : ConsumerEffect s .check { s with consumer := .checked i !slot.attached }
  | skip {i : ℕ} {slot : Slot β} (hpolling : s.consumer = .polling i) (hslot : s.channels[i]? = some slot)
      (hremoved : slot.removed = true) : ConsumerEffect s .skip { s with consumer := .polling (i + 1) }
  | beginRead {i : ℕ} {isClosed : Bool} {slot : Slot β} {d : BinlogQueue.Channel β} (hchecked : s.consumer = .checked i isClosed)
      (hslot : s.channels[i]? = some slot) (hd : slot.channel.step .beginRead = some d) :
      ConsumerEffect s .beginRead { s.put i slot d with consumer := .reading i isClosed }
  | leave {i : ℕ} {isClosed : Bool} {slot : Slot β} {d : BinlogQueue.Channel β} (hreads : s.consumer = .reading i isClosed)
      (hslot : s.channels[i]? = some slot) (hd : slot.channel.step .leave = some d) :
      ConsumerEffect s .leave (s.put i slot d)
  | copy {i : ℕ} {isClosed : Bool} {slot : Slot β} {d : BinlogQueue.Channel β} (hreads : s.consumer = .reading i isClosed)
      (hslot : s.channels[i]? = some slot) (hfound : slot.channel.found ≠ []) (hd : slot.channel.step .copy = some d) :
      ConsumerEffect s .copy { s.put i slot d with out := s.out ++ [(slot.owner, slot.channel.found)] }
  | endRead {i : ℕ} {isClosed : Bool} {slot : Slot β} {d : BinlogQueue.Channel β} (hreads : s.consumer = .reading i isClosed)
      (hslot : s.channels[i]? = some slot) (hd : slot.channel.step .endRead = some d) :
      ConsumerEffect s .endRead (s.put i slot d)
  | next {i : ℕ} {isClosed : Bool} {slot : Slot β} (hreads : s.consumer = .reading i isClosed)
      (hslot : s.channels[i]? = some slot) (hidle : slot.channel.reading = .idle) :
      ConsumerEffect s .next
        { s with channels := s.channels.set i { slot with removed := isClosed }, consumer := .polling (i + 1) }
  | unlock (hpolling : s.consumer = .polling s.channels.length) : ConsumerEffect s .unlock { s with consumer := .unlocked }

theorem writerStep_cases {zero : β} {s u : Session β} {p : ℕ} {w : Writer (Entry β)} {slot : Slot β} {a : WriterAction}
    (hs : writerStep zero s p w slot a = some u) : WriterEffect zero s p w slot a u := by
  cases a with
  | beginWrite =>
    simp only [writerStep] at hs
    split at hs
    · rename_i entry rest hpending
      split_ifs at hs with hadds
      obtain ⟨d, hd, rfl⟩ := Option.map_eq_some_iff.1 hs
      exact .beginWrite hpending hadds hd
    · cases hs
  | load =>
    simp only [writerStep] at hs
    split_ifs at hs with hadds
    obtain ⟨d, hd, rfl⟩ := Option.map_eq_some_iff.1 hs
    exact .load hadds hd
  | maximize =>
    simp only [writerStep] at hs
    split_ifs at hs with hadds
    obtain ⟨d, hd, rfl⟩ := Option.map_eq_some_iff.1 hs
    exact .maximize hadds hd
  | writeBuffer =>
    simp only [writerStep] at hs
    split_ifs at hs with hadds
    obtain ⟨d, hd, rfl⟩ := Option.map_eq_some_iff.1 hs
    exact .writeBuffer hadds hd
  | endWrite =>
    simp only [writerStep] at hs
    split at hs
    · rename_i entry rest hpending
      split_ifs at hs with hadds
      obtain ⟨d, hd, rfl⟩ := Option.map_eq_some_iff.1 hs
      exact .endWrite hpending hadds hd
    · cases hs
  | createChannel =>
    simp only [writerStep] at hs
    split at hs
    · rename_i entry hphase hwriting hunlocked
      cases hs
      exact .createChannel hphase hwriting hunlocked
    · cases hs
  | createFails =>
    simp only [writerStep] at hs
    split_ifs at hs with hphase
    obtain ⟨d, hd, rfl⟩ := Option.map_eq_some_iff.1 hs
    exact .createFails hphase hd
  | attach =>
    simp only [writerStep] at hs
    split at hs
    · rename_i new hphase
      cases hs
      exact .attach hphase
    · cases hs
  | giveUp =>
    simp only [writerStep] at hs
    split at hs
    · rename_i entry rest hpending
      split_ifs at hs with hphase
      obtain ⟨d, hd, rfl⟩ := Option.map_eq_some_iff.1 hs
      exact .giveUp hpending hphase hd
    · cases hs
  | close =>
    simp only [writerStep] at hs
    split_ifs at hs with hdone
    cases hs
    exact .close hdone.1 (List.isEmpty_iff.1 hdone.2)

theorem consumerStep_cases {s u : Session β} {a : ConsumerAction} (hs : consumerStep s a = some u) : ConsumerEffect s a u := by
  cases a with
  | lock =>
    simp only [consumerStep] at hs
    split_ifs at hs with hunlocked
    cases hs
    exact .lock hunlocked
  | check =>
    simp only [consumerStep] at hs
    split at hs
    · rename_i i hpolling
      split at hs
      · rename_i slot hslot
        split_ifs at hs with hremoved
        cases hs
        exact .check hpolling hslot (Bool.eq_false_iff.2 hremoved)
      · cases hs
    · cases hs
  | skip =>
    simp only [consumerStep] at hs
    split at hs
    · rename_i i hpolling
      split at hs
      · rename_i slot hslot
        split_ifs at hs with hremoved
        cases hs
        exact .skip hpolling hslot hremoved
      · cases hs
    · cases hs
  | beginRead =>
    simp only [consumerStep] at hs
    split at hs
    · rename_i i isClosed hchecked
      split at hs
      · rename_i slot hslot
        obtain ⟨d, hd, rfl⟩ := Option.map_eq_some_iff.1 hs
        exact .beginRead hchecked hslot hd
      · cases hs
    · cases hs
  | leave =>
    simp only [consumerStep] at hs
    split at hs
    · rename_i i isClosed hreads
      split at hs
      · rename_i slot hslot
        obtain ⟨d, hd, rfl⟩ := Option.map_eq_some_iff.1 hs
        exact .leave hreads hslot hd
      · cases hs
    · cases hs
  | copy =>
    simp only [consumerStep] at hs
    split at hs
    · rename_i i isClosed hreads
      split at hs
      · rename_i slot hslot
        split_ifs at hs with hfound
        obtain ⟨d, hd, rfl⟩ := Option.map_eq_some_iff.1 hs
        exact .copy hreads hslot (fun hnil => hfound (List.isEmpty_iff.2 hnil)) hd
      · cases hs
    · cases hs
  | endRead =>
    simp only [consumerStep] at hs
    split at hs
    · rename_i i isClosed hreads
      split at hs
      · rename_i slot hslot
        obtain ⟨d, hd, rfl⟩ := Option.map_eq_some_iff.1 hs
        exact .endRead hreads hslot hd
      · cases hs
    · cases hs
  | next =>
    simp only [consumerStep] at hs
    split at hs
    · rename_i i isClosed hreads
      split at hs
      · rename_i slot hslot
        split_ifs at hs with hidle
        cases hs
        exact .next hreads hslot hidle
      · cases hs
    · cases hs
  | unlock =>
    simp only [consumerStep] at hs
    split_ifs at hs with hpolling
    cases hs
    exact .unlock hpolling

theorem step_writer {zero : β} {s u : Session β} {p : ℕ} {a : WriterAction} (hs : step zero s (.writer p a) = some u) :
    ∃ w slot, s.writers[p]? = some w ∧ s.channels[w.channel]? = some slot ∧ WriterEffect zero s p w slot a u := by
  simp only [step] at hs
  split at hs
  · rename_i w hw
    split at hs
    · rename_i slot hslot
      exact ⟨w, slot, hw, hslot, writerStep_cases hs⟩
    · cases hs
  · cases hs

def takingOf (reading : Reading) (due : ℕ) : BinlogSession.Taking :=
  match reading with
  | .idle => .idle
  | .loaded _ => .looked due
  | .copied _ => .copied due

def Slot.view (slot : Slot β) : BinlogSession.Channel (Entry β) where
  owner := slot.owner
  attached := slot.attached
  removed := slot.removed
  stored := slot.channel.stored
  taking := takingOf slot.channel.reading slot.channel.due

structure Refines (s : Session β) (t : BinlogSession.Session (Entry β)) : Prop where
  channels : t.channels = s.channels.map Slot.view
  writers : t.writers = s.writers
  consumer : t.consumer = s.consumer
  out : s.out = t.out.map fun batch => (batch.1, bytesOf batch.2)

def entryOf (writing : Writing β) : Option (Entry β) :=
  match writing with
  | .idle => none
  | .loading entry | .placing entry _ | .full entry | .copying entry _ _ => some entry

def Adds (channels : List (Slot β)) (writers : List (Writer (Entry β))) : Prop :=
  ∀ (p : ℕ) (w : Writer (Entry β)), writers[p]? = some w → ∀ (j : ℕ) (slot : Slot β) entry, channels[j]? = some slot → slot.owner = p → slot.attached = true →
    entryOf slot.channel.writing = some entry → j = w.channel ∧ w.pending.head? = some entry

/-- What goes on in the queues is right, and the two sessions are at the same point. -/
structure Sim (messages : List (List (Entry β))) (s : Session β) (t : BinlogSession.Session (Entry β)) : Prop where
  refines : Refines s t
  queues : ∀ slot ∈ s.channels, BinlogQueue.Inv slot.channel
  adds : Adds s.channels s.writers
  inv : BinlogSession.Inv messages t

section Simulation

variable {messages : List (List (Entry β))} {s u : Session β} {t : BinlogSession.Session (Entry β)} {i p : ℕ} {slot : Slot β}
  {w : Writer (Entry β)} {c d : BinlogQueue.Channel β}

theorem view_get (h : Refines s t) (hslot : s.channels[i]? = some slot) : t.channels[i]? = some slot.view := by
  rw [h.channels, List.getElem?_map, hslot]
  rfl

theorem view_set (slots : List (Slot β)) (i : ℕ) (slot : Slot β) :
    (slots.set i slot).map Slot.view = (slots.map Slot.view).set i slot.view := List.map_set

theorem view_same {a : BinlogQueue.Action β} (hs : slot.channel.step a = some d) (ha : a.inner = true) :
    Slot.view { slot with channel := d } = slot.view := by
  obtain ⟨hstored, hreading, hdue⟩ := inner_step hs ha
  unfold Slot.view
  dsimp only
  rw [hstored, hreading, hdue]

theorem entry_kept {a : BinlogQueue.Action β} (hs : c.step a = some d) (hbegin : ∀ entry, a ≠ .beginWrite entry)
    (hend : a ≠ .endWrite) (hgive : a ≠ .giveUp) : entryOf d.writing = entryOf c.writing := by
  cases a with
  | beginWrite entry => exact absurd rfl (hbegin entry)
  | endWrite => exact absurd rfl hend
  | giveUp => exact absurd rfl hgive
  | load =>
    simp only [BinlogQueue.Channel.step] at hs
    split at hs
    · rename_i entry hwriting
      cases hs
      rw [hwriting]
      rfl
    · cases hs
  | maximize =>
    simp only [BinlogQueue.Channel.step] at hs
    split at hs
    · rename_i entry r hwriting
      cases hs
      rw [hwriting]
      unfold Channel.tested
      dsimp only
      split_ifs <;> rfl
    · cases hs
  | writeBuffer =>
    simp only [BinlogQueue.Channel.step] at hs
    split at hs
    · rename_i entry start next hwriting
      obtain ⟨byte, -, rfl⟩ := Option.map_eq_some_iff.1 hs
      rw [hwriting]
      rfl
    · cases hs
  | again =>
    simp only [BinlogQueue.Channel.step] at hs
    split at hs
    · rename_i entry hwriting
      cases hs
      rw [hwriting]
      unfold Channel.begun
      dsimp only
      split_ifs <;> rfl
    · cases hs
  | leave =>
    simp only [BinlogQueue.Channel.step] at hs
    split at hs
    · split_ifs at hs
      cases hs
      rfl
    · cases hs
  | beginRead | copy | endRead =>
    simp only [BinlogQueue.Channel.step] at hs
    split at hs
    · cases hs
      rfl
    · cases hs

theorem entry_begun {entry : Entry β} (hs : c.step (.beginWrite entry) = some d) : entryOf d.writing = some entry := by
  simp only [BinlogQueue.Channel.step] at hs
  split at hs
  · cases hs
    unfold Channel.begun
    dsimp only
    split_ifs <;> rfl
  · cases hs

theorem entry_ended {a : BinlogQueue.Action β} (hs : c.step a = some d) (ha : a = .endWrite ∨ a = .giveUp) :
    entryOf d.writing = none := by
  rcases ha with rfl | rfl
  · simp only [BinlogQueue.Channel.step] at hs
    split at hs
    · split_ifs at hs
      cases hs
      rfl
    · cases hs
  · simp only [BinlogQueue.Channel.step] at hs
    split at hs
    · cases hs
      rfl
    · cases hs

theorem queues_set (h : ∀ slot ∈ s.channels, BinlogQueue.Inv slot.channel) (hd : BinlogQueue.Inv d) (slot : Slot β) :
    ∀ x ∈ s.channels.set i { slot with channel := d }, BinlogQueue.Inv x.channel := by
  intro x hx
  rcases List.mem_or_eq_of_mem_set hx with hx | rfl
  · exact h x hx
  · exact hd

theorem adds_set {r : Slot β} {v : Writer (Entry β)} (h : Adds s.channels s.writers) (hw : s.writers[p]? = some w)
    (howner : slot.owner = p) (howner' : r.owner = slot.owner)
    (hv : ∀ entry, r.attached = true → entryOf r.channel.writing = some entry →
      w.channel = v.channel ∧ v.pending.head? = some entry) :
    Adds (s.channels.set w.channel r) (s.writers.set p v) := by
  intro q x hx j y entry hy hyowner hattached hentry
  rcases get_set_cases hx with ⟨rfl, rfl⟩ | ⟨hne, hx⟩
  · rcases get_set_cases hy with ⟨rfl, rfl⟩ | ⟨hj, hy⟩
    · exact hv entry hattached hentry
    · exact absurd (h q w hw j y entry hy hyowner hattached hentry).1 hj
  · rcases get_set_cases hy with ⟨rfl, rfl⟩ | ⟨-, hy⟩
    · exact absurd (hyowner.symm.trans (howner'.trans howner)) hne
    · exact h q x hx j y entry hy hyowner hattached hentry

theorem adds_consumer {slot' : Slot β} (h : Adds s.channels s.writers) (hslot : s.channels[i]? = some slot)
    (howner : slot'.owner = slot.owner) (hattached : slot'.attached = slot.attached)
    (hentry : entryOf slot'.channel.writing = entryOf slot.channel.writing) :
    Adds (s.channels.set i slot') s.writers := by
  intro q x hx j y entry hy hyowner hyattached hyentry
  rcases get_set_cases hy with ⟨rfl, rfl⟩ | ⟨-, hy⟩
  · exact h q x hx j slot entry hslot (howner.symm.trans hyowner) (hattached.symm.trans hyattached) (hentry.symm.trans hyentry)
  · exact h q x hx j y entry hy hyowner hyattached hyentry

theorem set_self {γ : Type} {xs : List γ} {i : ℕ} {x : γ} (h : xs[i]? = some x) : xs.set i x = xs := by
  obtain ⟨hlength, rfl⟩ := List.getElem?_eq_some_iff.1 h
  exact List.set_getElem_self hlength

theorem owner_of_adds (h : Sim messages s t) (hw : s.writers[p]? = some w) (hadds : w.adds)
    (hslot : s.channels[w.channel]? = some slot) : slot.owner = p ∧ slot.attached = true := by
  have hw' : t.writers[p]? = some w := by rw [h.refines.writers, hw]
  obtain ⟨hheld, -⟩ := BinlogSession.held_of_adds h.inv.placed hw' hadds
  exact BinlogSession.owner_of_held hheld (view_get h.refines hslot)

/-- A step of a writer inside `addEvent` is none of the session it refines. -/
theorem sim_inner {a : BinlogQueue.Action β} (h : Sim messages s t) (hw : s.writers[p]? = some w) (hadds : w.adds)
    (hslot : s.channels[w.channel]? = some slot) (hs : slot.channel.step a = some d)
    (ha : a = .load ∨ a = .maximize ∨ a = .writeBuffer ∨ ∃ entry, a = .beginWrite entry ∧ w.pending.head? = some entry) :
    Sim messages (s.put w.channel slot d) t := by
  obtain ⟨howner, hattached⟩ := owner_of_adds h hw hadds hslot
  have hview : Slot.view { slot with channel := d } = slot.view := by
    rcases ha with rfl | rfl | rfl | ⟨entry, rfl, -⟩
    all_goals exact view_same hs rfl
  have hentry : ∀ entry, entryOf d.writing = some entry → w.channel = w.channel ∧ w.pending.head? = some entry := by
    intro entry hentry
    rcases ha with rfl | rfl | rfl | ⟨entry', rfl, hhead⟩
    · rw [entry_kept hs nofun nofun nofun] at hentry
      exact h.adds p w hw w.channel slot entry hslot howner hattached hentry
    · rw [entry_kept hs nofun nofun nofun] at hentry
      exact h.adds p w hw w.channel slot entry hslot howner hattached hentry
    · rw [entry_kept hs nofun nofun nofun] at hentry
      exact h.adds p w hw w.channel slot entry hslot howner hattached hentry
    · rw [entry_begun hs] at hentry
      exact ⟨rfl, hhead.trans hentry⟩
  refine ⟨⟨?_, h.refines.writers, h.refines.consumer, h.refines.out⟩, ?_, ?_, h.inv⟩
  · rw [h.refines.channels]
    exact (map_set_same hslot hview).symm
  · exact queues_set h.queues (inv_step (h.queues slot (List.mem_of_getElem? hslot)) hs) slot
  · have hset := adds_set (v := w) (r := { slot with channel := d }) h.adds hw howner rfl
      fun entry _ => hentry entry
    rw [set_self hw] at hset
    exact hset

/-- What the rest of a step has to show, when the writer's channel and the writer change. -/
theorem sim_writer {slot' : Slot β} {v : Writer (Entry β)} (h : Sim messages s t) (hw : s.writers[p]? = some w)
    (howner : slot.owner = p) (howner' : slot'.owner = slot.owner)
    (hqueue : BinlogQueue.Inv slot'.channel)
    (hv : ∀ entry, slot'.attached = true → entryOf slot'.channel.writing = some entry →
      w.channel = v.channel ∧ v.pending.head? = some entry)
    (hstep : BinlogSession.Step t { t with
      channels := t.channels.set w.channel slot'.view
      writers := t.writers.set p v }) :
    ∃ t', BinlogSession.Step t t' ∧
      Sim messages (Session.putWriter { s with channels := s.channels.set w.channel slot' } p v) t' := by
  refine ⟨_, hstep, ⟨?_, ?_, h.refines.consumer, h.refines.out⟩, ?_, ?_, BinlogSession.inv_step h.inv hstep⟩
  · change t.channels.set w.channel slot'.view = (s.channels.set w.channel slot').map Slot.view
    rw [view_set, h.refines.channels]
  · change t.writers.set p v = s.writers.set p v
    rw [h.refines.writers]
  · intro x hx
    rcases List.mem_or_eq_of_mem_set hx with hx | rfl
    · exact h.queues x hx
    · exact hqueue
  · exact adds_set h.adds hw howner howner' hv

theorem sim_endWrite {entry : Entry β} {rest : List (Entry β)} (h : Sim messages s t) (hw : s.writers[p]? = some w)
    (hadds : w.adds) (hpending : w.pending = entry :: rest) (hslot : s.channels[w.channel]? = some slot)
    (hs : slot.channel.step .endWrite = some d) :
    ∃ t', BinlogSession.Step t t' ∧ Sim messages ((s.put w.channel slot d).putWriter p
      { w with pending := rest, phase := .adding, attempts := w.attempts ++ [(entry, true)] }) t' := by
  obtain ⟨howner, hattached⟩ := owner_of_adds h hw hadds hslot
  obtain ⟨entry', start, hwriting, hstored, hreading, hdue⟩ := endWrite_cases hs
  have hsame : some entry = some entry' := by
    have hhead := (h.adds p w hw w.channel slot entry' hslot howner hattached (by rw [hwriting]; rfl)).2
    rwa [hpending] at hhead
  obtain rfl := Option.some.inj hsame
  have hview : Slot.view { slot with channel := d } = { slot.view with stored := slot.view.stored ++ [entry] } := by
    unfold Slot.view
    dsimp only
    rw [hstored, hreading, hdue]
  refine sim_writer h hw howner rfl (inv_step (h.queues slot (List.mem_of_getElem? hslot)) hs) ?_ ?_
  · intro e _ hentry
    rw [entry_ended hs (.inl rfl)] at hentry
    cases hentry
  · rw [hview]
    have hw' : t.writers[p]? = some w := by rw [h.refines.writers, hw]
    exact .add hw' hadds hpending (view_get h.refines hslot)

theorem sim_giveUp {entry : Entry β} {rest : List (Entry β)} (h : Sim messages s t) (hw : s.writers[p]? = some w)
    (hadds : w.adds) (hpending : w.pending = entry :: rest) (hslot : s.channels[w.channel]? = some slot)
    (hs : slot.channel.step .giveUp = some d) :
    ∃ t', BinlogSession.Step t t' ∧ Sim messages ((s.put w.channel slot d).putWriter p
      { w with pending := rest, phase := .adding, attempts := w.attempts ++ [(entry, false)] }) t' := by
  obtain ⟨howner, -⟩ := owner_of_adds h hw hadds hslot
  have hview : Slot.view { slot with channel := d } = slot.view := view_same hs rfl
  refine sim_writer h hw howner rfl (inv_step (h.queues slot (List.mem_of_getElem? hslot)) hs) ?_ ?_
  · intro e _ hentry
    rw [entry_ended hs (.inr rfl)] at hentry
    cases hentry
  · rw [hview, set_self (view_get h.refines hslot)]
    have hw' : t.writers[p]? = some w := by rw [h.refines.writers, hw]
    exact .refuse hw' hadds hpending

theorem sim_createFails (h : Sim messages s t) (hw : s.writers[p]? = some w) (hphase : w.phase = .adding)
    (hslot : s.channels[w.channel]? = some slot) (hs : slot.channel.step .again = some d) :
    ∃ t', BinlogSession.Step t t' ∧ Sim messages ((s.put w.channel slot d).putWriter p { w with phase := .last }) t' := by
  obtain ⟨howner, hattached⟩ := owner_of_adds h hw (.inl hphase) hslot
  have hview : Slot.view { slot with channel := d } = slot.view := view_same hs rfl
  refine sim_writer h hw howner rfl (inv_step (h.queues slot (List.mem_of_getElem? hslot)) hs) ?_ ?_
  · intro e _ hentry
    rw [entry_kept hs nofun nofun nofun] at hentry
    exact h.adds p w hw w.channel slot e hslot howner hattached hentry
  · rw [hview, set_self (view_get h.refines hslot)]
    have hw' : t.writers[p]? = some w := by rw [h.refines.writers, hw]
    exact .retry hw' hphase

theorem sim_detach {v : Writer (Entry β)} (h : Sim messages s t) (hw : s.writers[p]? = some w) (howner : slot.owner = p)
    (hslot : s.channels[w.channel]? = some slot)
    (hstep : BinlogSession.Step t { t with
      channels := t.channels.set w.channel { slot.view with attached := false }
      writers := t.writers.set p v }) :
    ∃ t', BinlogSession.Step t t' ∧ Sim messages
      (Session.putWriter { s with channels := s.channels.set w.channel { slot with attached := false } } p v) t' :=
  sim_writer h hw howner rfl (h.queues slot (List.mem_of_getElem? hslot)) (fun _ hattached => nomatch hattached) hstep

theorem sim_createChannel (zero : β) {capacity : ℕ} (h : Sim messages s t) (hw : s.writers[p]? = some w)
    (hphase : w.phase = .adding) (hunlocked : s.consumer = .unlocked) :
    ∃ t', BinlogSession.Step t t' ∧ Sim messages (Session.putWriter
      { s with channels := s.channels ++ [.start capacity zero p] } p { w with phase := .attaching s.channels.length }) t' := by
  have hw' : t.writers[p]? = some w := by rw [h.refines.writers, hw]
  have hlength : t.channels.length = s.channels.length := by rw [h.refines.channels, List.length_map]
  have hstep := BinlogSession.Step.create hw' hphase (h.refines.consumer.trans hunlocked)
  refine ⟨_, hstep, ⟨?_, ?_, h.refines.consumer, h.refines.out⟩, ?_, ?_, BinlogSession.inv_step h.inv hstep⟩
  · change t.channels ++ [_] = (s.channels ++ [_]).map Slot.view
    rw [List.map_append, h.refines.channels]
    rfl
  · change t.writers.set p _ = s.writers.set p _
    rw [h.refines.writers, hlength]
  · intro x hx
    rcases List.mem_append.1 hx with hx | hx
    · exact h.queues x hx
    · rw [List.mem_singleton.1 hx]
      exact inv_start capacity zero
  · intro q x hx j y entry hy hyowner hattached hentry
    have hold : ∀ v, s.writers[q]? = some v → j = v.channel ∧ v.pending.head? = some entry := by
      intro v hv
      rcases Nat.lt_or_ge j s.channels.length with hlt | hge
      · change (s.channels ++ [_])[j]? = some y at hy
        rw [List.getElem?_append_left hlt] at hy
        exact h.adds q v hv j y entry hy hyowner hattached hentry
      · change (s.channels ++ [_])[j]? = some y at hy
        rw [List.getElem?_append_right hge] at hy
        obtain ⟨hinside, rfl⟩ := List.getElem?_eq_some_iff.1 hy
        rw [List.getElem_singleton] at hentry
        cases hentry
    rcases get_set_cases hx with ⟨rfl, rfl⟩ | ⟨-, hx⟩
    · exact hold w hw
    · exact hold x hx

theorem sim_attach {new : ℕ} (h : Sim messages s t) (hw : s.writers[p]? = some w) (hphase : w.phase = .attaching new)
    (hslot : s.channels[w.channel]? = some slot) :
    ∃ t', BinlogSession.Step t t' ∧ Sim messages
      (Session.putWriter { s with channels := s.channels.set w.channel { slot with attached := false } } p
        { w with channel := new, phase := .last }) t' := by
  have hw' : t.writers[p]? = some w := by rw [h.refines.writers, hw]
  have hplaced := h.inv.placed p w hw'
  unfold BinlogSession.Placed at hplaced
  rw [hphase] at hplaced
  obtain ⟨howner, -⟩ := BinlogSession.owner_of_held hplaced.1 (view_get h.refines hslot)
  exact sim_detach h hw howner hslot (.attach hw' hphase (view_get h.refines hslot))

theorem writer_sim (zero : β) {a : WriterAction} (h : Sim messages s t) (hw : s.writers[p]? = some w)
    (hslot : s.channels[w.channel]? = some slot) (hs : WriterEffect zero s p w slot a u) :
    ∃ t', Relation.ReflTransGen BinlogSession.Step t t' ∧ Sim messages u t' := by
  have hsingle : (∃ t', BinlogSession.Step t t' ∧ Sim messages u t') →
      ∃ t', Relation.ReflTransGen BinlogSession.Step t t' ∧ Sim messages u t' :=
    fun ⟨t', hstep, hsim⟩ => ⟨t', .single hstep, hsim⟩
  cases hs with
  | beginWrite hpending hadds hd =>
    exact ⟨t, .refl, sim_inner h hw hadds hslot hd (.inr (.inr (.inr ⟨_, rfl, by rw [hpending]; rfl⟩)))⟩
  | load hadds hd => exact ⟨t, .refl, sim_inner h hw hadds hslot hd (.inl rfl)⟩
  | maximize hadds hd => exact ⟨t, .refl, sim_inner h hw hadds hslot hd (.inr (.inl rfl))⟩
  | writeBuffer hadds hd => exact ⟨t, .refl, sim_inner h hw hadds hslot hd (.inr (.inr (.inl rfl)))⟩
  | endWrite hpending hadds hd => exact hsingle (sim_endWrite h hw hadds hpending hslot hd)
  | createChannel hphase hwriting hunlocked => exact hsingle (sim_createChannel zero h hw hphase hunlocked)
  | createFails hphase hd => exact hsingle (sim_createFails h hw hphase hslot hd)
  | attach hphase => exact hsingle (sim_attach h hw hphase hslot)
  | giveUp hpending hphase hd => exact hsingle (sim_giveUp h hw (.inr hphase) hpending hslot hd)
  | close hphase hpending =>
    have hw' : t.writers[p]? = some w := by rw [h.refines.writers, hw]
    obtain ⟨howner, -⟩ := owner_of_adds h hw (.inl hphase) hslot
    exact hsingle (sim_detach h hw howner hslot (.close hw' hphase hpending (view_get h.refines hslot)))

theorem sim_channel {r : Slot β} {consumer : Consumer} {out : List (ℕ × List (Entry β))} (h : Sim messages s t)
    (hslot : s.channels[i]? = some slot) (howner : r.owner = slot.owner) (hattached : r.attached = slot.attached)
    (hentry : entryOf r.channel.writing = entryOf slot.channel.writing) (hqueue : BinlogQueue.Inv r.channel)
    (hstep : BinlogSession.Step t { t with channels := t.channels.set i r.view, consumer := consumer, out := out }) :
    ∃ t', BinlogSession.Step t t' ∧ Sim messages { s with
      channels := s.channels.set i r
      consumer := consumer
      out := out.map fun batch => (batch.1, bytesOf batch.2) } t' := by
  refine ⟨_, hstep, ⟨?_, h.refines.writers, rfl, rfl⟩, ?_, ?_, BinlogSession.inv_step h.inv hstep⟩
  · rw [view_set, h.refines.channels]
  · intro x hx
    rcases List.mem_or_eq_of_mem_set hx with hx | rfl
    · exact h.queues x hx
    · exact hqueue
  · exact adds_consumer h.adds hslot howner hattached hentry

theorem sim_move {consumer : Consumer} (h : Sim messages s t) (hstep : BinlogSession.Step t { t with consumer := consumer }) :
    ∃ t', BinlogSession.Step t t' ∧ Sim messages { s with consumer := consumer } t' :=
  ⟨_, hstep, ⟨h.refines.channels, h.refines.writers, rfl, h.refines.out⟩, h.queues, h.adds, BinlogSession.inv_step h.inv hstep⟩

theorem found_eq {readEnd : ℕ} (hinv : BinlogQueue.Inv c) (hreading : c.reading = .loaded readEnd) :
    c.queue.readable readEnd = bytesOf (c.stored.take c.due) ∧ c.due ≤ c.stored.length := by
  have hlooked := hinv.looked (.inl hreading)
  exact ⟨hlooked.readable, hlooked.due⟩

theorem sim_beginRead {isClosed : Bool} (h : Sim messages s t) (hchecked : s.consumer = .checked i isClosed)
    (hslot : s.channels[i]? = some slot) (hd : slot.channel.step .beginRead = some d) :
    ∃ t', BinlogSession.Step t t' ∧ Sim messages { s.put i slot d with consumer := .reading i isClosed } t' := by
  obtain ⟨hidle, hstored, hreading, hdue⟩ := beginRead_cases hd
  have hview : Slot.view { slot with channel := d } = { slot.view with taking := .looked slot.view.stored.length } := by
    unfold Slot.view
    dsimp only
    rw [hstored, hreading, hdue]
    rfl
  have hstep : BinlogSession.Step t { t with
      channels := t.channels.set i (Slot.view { slot with channel := d })
      consumer := .reading i isClosed } := by
    rw [hview]
    refine .look (h.refines.consumer.trans hchecked) (view_get h.refines hslot) ?_
    unfold Slot.view
    rw [hidle]
    rfl
  have hsim := sim_channel (r := { slot with channel := d }) h hslot rfl rfl (entry_kept hd nofun nofun nofun)
    (inv_step (h.queues slot (List.mem_of_getElem? hslot)) hd) hstep
  rwa [← h.refines.out] at hsim

theorem due_of_leave {readEnd : ℕ} (hinv : BinlogQueue.Inv c) (hloaded : c.reading = .loaded readEnd)
    (hnothing : c.queue.readable readEnd = []) : c.due = 0 := by
  obtain ⟨hfound, hle⟩ := found_eq hinv hloaded
  have hlength := congrArg List.length (bytesOf_eq_nil (hfound.symm.trans hnothing))
  rw [List.length_take, List.length_nil] at hlength
  omega

theorem sim_leave {isClosed : Bool} (h : Sim messages s t) (hreads : s.consumer = .reading i isClosed)
    (hslot : s.channels[i]? = some slot) (hd : slot.channel.step .leave = some d) :
    ∃ t', BinlogSession.Step t t' ∧ Sim messages (s.put i slot d) t' := by
  obtain ⟨readEnd, hloaded, hnothing, hstored, hreading, hdue⟩ := leave_cases hd
  have hqueue := h.queues slot (List.mem_of_getElem? hslot)
  have hview : Slot.view { slot with channel := d } = { slot.view with taking := .idle } := by
    unfold Slot.view
    dsimp only
    rw [hstored, hreading]
    rfl
  have hstep : BinlogSession.Step t { t with channels := t.channels.set i (Slot.view { slot with channel := d }) } := by
    rw [hview]
    refine .leave (h.refines.consumer.trans hreads) (view_get h.refines hslot) ?_
    unfold Slot.view
    rw [hloaded, due_of_leave hqueue hloaded hnothing]
    rfl
  have hsim := sim_channel (r := { slot with channel := d }) h hslot rfl rfl (entry_kept hd nofun nofun nofun)
    (inv_step hqueue hd) hstep
  rwa [← h.refines.out, h.refines.consumer] at hsim

theorem sim_copy {isClosed : Bool} (h : Sim messages s t) (hreads : s.consumer = .reading i isClosed)
    (hslot : s.channels[i]? = some slot) (hd : slot.channel.step .copy = some d) :
    ∃ t', BinlogSession.Step t t' ∧
      Sim messages { s.put i slot d with out := s.out ++ [(slot.owner, slot.channel.found)] } t' := by
  obtain ⟨readEnd, hloaded, hstored, hreading, hdue⟩ := copy_cases hd
  have hqueue := h.queues slot (List.mem_of_getElem? hslot)
  have hview : Slot.view { slot with channel := d } = { slot.view with taking := .copied slot.channel.due } := by
    unfold Slot.view
    dsimp only
    rw [hstored, hreading, hdue]
    rfl
  have hstep : BinlogSession.Step t { t with
      channels := t.channels.set i (Slot.view { slot with channel := d })
      out := t.out ++ [(slot.owner, slot.channel.stored.take slot.channel.due)] } := by
    rw [hview]
    refine .copy (h.refines.consumer.trans hreads) (view_get h.refines hslot) ?_
    unfold Slot.view
    rw [hloaded]
    rfl
  have hsim := sim_channel (r := { slot with channel := d }) h hslot rfl rfl (entry_kept hd nofun nofun nofun)
    (inv_step hqueue hd) hstep
  have hfound : slot.channel.found = bytesOf (slot.channel.stored.take slot.channel.due) := by
    unfold Channel.found
    rw [hloaded]
    exact (found_eq hqueue hloaded).1
  rw [List.map_append, List.map_singleton, ← h.refines.out, h.refines.consumer, ← hfound] at hsim
  exact hsim

theorem sim_endRead {isClosed : Bool} (h : Sim messages s t) (hreads : s.consumer = .reading i isClosed)
    (hslot : s.channels[i]? = some slot) (hd : slot.channel.step .endRead = some d) :
    ∃ t', BinlogSession.Step t t' ∧ Sim messages (s.put i slot d) t' := by
  obtain ⟨readEnd, hcopied, hstored, hreading, hdue⟩ := endRead_cases hd
  have hview : Slot.view { slot with channel := d } =
      { slot.view with stored := slot.view.stored.drop slot.channel.due, taking := .idle } := by
    unfold Slot.view
    dsimp only
    rw [hstored, hreading]
    rfl
  have hstep : BinlogSession.Step t { t with channels := t.channels.set i (Slot.view { slot with channel := d }) } := by
    rw [hview]
    refine .giveBack (h.refines.consumer.trans hreads) (view_get h.refines hslot) ?_
    unfold Slot.view
    rw [hcopied]
    rfl
  have hsim := sim_channel (r := { slot with channel := d }) h hslot rfl rfl (entry_kept hd nofun nofun nofun)
    (inv_step (h.queues slot (List.mem_of_getElem? hslot)) hd) hstep
  rwa [← h.refines.out, h.refines.consumer] at hsim

theorem sim_next {isClosed : Bool} (h : Sim messages s t) (hreads : s.consumer = .reading i isClosed)
    (hslot : s.channels[i]? = some slot) (hidle : slot.channel.reading = .idle) :
    ∃ t', BinlogSession.Step t t' ∧ Sim messages { s with
      channels := s.channels.set i { slot with removed := isClosed }
      consumer := .polling (i + 1) } t' := by
  have hstep : BinlogSession.Step t { t with
      channels := t.channels.set i (Slot.view { slot with removed := isClosed })
      consumer := .polling (i + 1) } := by
    refine .next (h.refines.consumer.trans hreads) (view_get h.refines hslot) ?_
    unfold Slot.view
    rw [hidle]
    rfl
  have hsim := sim_channel (r := { slot with removed := isClosed }) h hslot rfl rfl rfl
    (h.queues slot (List.mem_of_getElem? hslot)) hstep
  rwa [← h.refines.out] at hsim

theorem consumer_sim {a : ConsumerAction} (h : Sim messages s t) (hs : ConsumerEffect s a u) :
    ∃ t', BinlogSession.Step t t' ∧ Sim messages u t' := by
  cases hs with
  | lock hunlocked => exact sim_move h (.lock (h.refines.consumer.trans hunlocked))
  | check hpolling hslot hremoved =>
    exact sim_move h (.check (h.refines.consumer.trans hpolling) (view_get h.refines hslot) hremoved)
  | skip hpolling hslot hremoved =>
    exact sim_move h (.skip (h.refines.consumer.trans hpolling) (view_get h.refines hslot) hremoved)
  | beginRead hchecked hslot hd => exact sim_beginRead h hchecked hslot hd
  | leave hreads hslot hd => exact sim_leave h hreads hslot hd
  | copy hreads hslot _ hd => exact sim_copy h hreads hslot hd
  | endRead hreads hslot hd => exact sim_endRead h hreads hslot hd
  | next hreads hslot hidle => exact sim_next h hreads hslot hidle
  | unlock hpolling =>
    refine sim_move h (.unlock ?_)
    rw [h.refines.consumer, hpolling, h.refines.channels, List.length_map]

theorem sim_step (zero : β) {a : Action} (h : Sim messages s t) (hs : step zero s a = some u) :
    ∃ t', Relation.ReflTransGen BinlogSession.Step t t' ∧ Sim messages u t' := by
  cases a with
  | writer p a =>
    obtain ⟨w, slot, hw, hslot, heffect⟩ := step_writer hs
    exact writer_sim zero h hw hslot heffect
  | consumer a =>
    obtain ⟨t', hstep, hsim⟩ := consumer_sim h (consumerStep_cases hs)
    exact ⟨t', .single hstep, hsim⟩

theorem sim_run (zero : β) (h : Sim messages s t) (hs : Reachable (step zero) s u) :
    ∃ t', Relation.ReflTransGen BinlogSession.Step t t' ∧ Sim messages u t' := by
  obtain ⟨tr, hrun⟩ := hs
  induction hrun generalizing t with
  | refl _ => exact ⟨t, .refl, h⟩
  | next hs _ ih =>
    obtain ⟨t₁, hstep, hsim⟩ := sim_step zero h hs
    obtain ⟨t₂, hsteps, hsim⟩ := ih hsim
    exact ⟨t₂, hstep.trans hsteps, hsim⟩

theorem start_slot {capacity : ℕ → ℕ} {zero : β} (hslot : (start capacity zero messages).channels[i]? = some slot) :
    slot = .start (capacity i) zero i := by
  unfold start at hslot
  dsimp only at hslot
  rw [List.getElem?_mapIdx] at hslot
  obtain ⟨ms, -, rfl⟩ := Option.map_eq_some_iff.1 hslot
  rfl

theorem start_writer {capacity : ℕ → ℕ} {zero : β} (hw : (start capacity zero messages).writers[p]? = some w) :
    w.attempts = [] ∧ w.phase = .adding := by
  unfold start at hw
  dsimp only at hw
  rw [List.getElem?_mapIdx] at hw
  obtain ⟨ms, -, rfl⟩ := Option.map_eq_some_iff.1 hw
  exact ⟨rfl, rfl⟩

theorem sim_start (capacity : ℕ → ℕ) (zero : β) (messages : List (List (Entry β))) :
    Sim messages (start capacity zero messages) (BinlogSession.start messages) := by
  refine ⟨⟨?_, rfl, rfl, rfl⟩, ?_, ?_, BinlogSession.inv_start messages⟩
  · refine List.ext_getElem? fun j => ?_
    unfold BinlogSession.start start
    dsimp only
    rw [List.getElem?_map, List.getElem?_mapIdx, List.getElem?_mapIdx, Option.map_map]
    rfl
  · intro slot hslot
    obtain ⟨j, hj⟩ := List.mem_iff_getElem?.1 hslot
    rw [start_slot hj]
    exact inv_start (capacity j) zero
  · intro p w _ j slot entry hslot _ _ hentry
    rw [start_slot hslot] at hentry
    cases hentry

end Simulation

def entriesOf (c : BinlogQueue.Channel β) : List (Entry β) := c.stored ++ (entryOf c.writing).toList

section Effects

variable {s u : Session β} {c d : BinlogQueue.Channel β} {p : ℕ} {w : Writer (Entry β)} {slot : Slot β}

theorem entries_step {a : BinlogQueue.Action β} (hs : c.step a = some d) {e : Entry β} (he : e ∈ entriesOf d) :
    e ∈ entriesOf c ∨ a = .beginWrite e := by
  have hinner : d.stored = c.stored → entryOf d.writing = entryOf c.writing → e ∈ entriesOf c ∨ a = .beginWrite e := by
    intro hstored hentry
    unfold entriesOf at he
    rw [hstored, hentry] at he
    exact .inl he
  have hended : entryOf d.writing = none → (∀ x ∈ d.stored, x ∈ entriesOf c) → e ∈ entriesOf c ∨ a = .beginWrite e := by
    intro hnone hstored
    unfold entriesOf at he
    rw [hnone, Option.toList_none, List.append_nil] at he
    exact .inl (hstored e he)
  cases a with
  | beginWrite entry =>
    have hstored := (inner_step hs rfl).1
    unfold entriesOf at he
    rw [hstored, entry_begun hs, Option.toList_some] at he
    rcases List.mem_append.1 he with he | he
    · exact .inl (List.mem_append_left _ he)
    · rw [List.mem_singleton.1 he]
      exact .inr rfl
  | load | maximize | writeBuffer | again => exact hinner (inner_step hs rfl).1 (entry_kept hs nofun nofun nofun)
  | giveUp =>
    refine hended (entry_ended hs (.inr rfl)) fun x hx => ?_
    rw [(inner_step hs rfl).1] at hx
    exact List.mem_append_left _ hx
  | endWrite =>
    obtain ⟨entry, start, hwriting, hstored, -, -⟩ := endWrite_cases hs
    refine hended (entry_ended hs (.inl rfl)) fun x hx => ?_
    rw [hstored] at hx
    unfold entriesOf
    rw [hwriting]
    exact hx
  | beginRead => exact hinner (beginRead_cases hs).2.1 (entry_kept hs nofun nofun nofun)
  | leave =>
    obtain ⟨readEnd, -, -, hstored, -⟩ := leave_cases hs
    exact hinner hstored (entry_kept hs nofun nofun nofun)
  | copy =>
    obtain ⟨readEnd, -, hstored, -⟩ := copy_cases hs
    exact hinner hstored (entry_kept hs nofun nofun nofun)
  | endRead =>
    obtain ⟨readEnd, -, hstored, -⟩ := endRead_cases hs
    have hentry := entry_kept hs nofun nofun nofun
    unfold entriesOf at he ⊢
    rw [hstored, hentry] at he
    rcases List.mem_append.1 he with he | he
    · exact .inl (List.mem_append_left _ (List.mem_of_mem_drop he))
    · exact .inl (List.mem_append_right _ he)

/-- A step leaves the channels alone, changes one of them, or creates one. An entry comes into a channel when its writer
begins to write it. -/
inductive Changes (zero : β) (s : Session β) (a : Action) (channels : List (Slot β)) : Prop where
  | kept (hne : ∀ p, a ≠ .writer p .createChannel) (h : channels = s.channels)
  | changed (hne : ∀ p, a ≠ .writer p .createChannel) (j : ℕ) (slot slot' : Slot β) (hslot : s.channels[j]? = some slot) (h : channels = s.channels.set j slot')
      (howner : slot'.owner = slot.owner)
      (hentries : ∀ e ∈ entriesOf slot'.channel, e ∈ entriesOf slot.channel ∨ ∃ p w rest, a = .writer p .beginWrite ∧
        s.writers[p]? = some w ∧ w.pending = e :: rest)
  | created (p capacity : ℕ) (w : Writer (Entry β)) (slot : Slot β) (ha : a = .writer p .createChannel)
      (hw : s.writers[p]? = some w) (hphase : w.phase = .adding) (hslot : s.channels[w.channel]? = some slot)
      (h : channels = s.channels ++ [.start capacity zero p])

theorem changes_put (zero : β) {a : Action} {j : ℕ} {b : BinlogQueue.Action β} (hne : ∀ p, a ≠ .writer p .createChannel)
    (hslot : s.channels[j]? = some slot)
    (hd : slot.channel.step b = some d)
    (hb : ∀ e, b = .beginWrite e → ∃ p w rest, a = .writer p .beginWrite ∧ s.writers[p]? = some w ∧ w.pending = e :: rest) :
    Changes zero s a (s.channels.set j { slot with channel := d }) :=
  .changed hne j slot _ hslot rfl rfl fun e he => (entries_step hd he).imp_right (hb e)

theorem changes_writer (zero : β) {a : WriterAction} (hw : s.writers[p]? = some w) (hslot : s.channels[w.channel]? = some slot)
    (hs : WriterEffect zero s p w slot a u) : Changes zero s (.writer p a) u.channels := by
  cases hs with
  | beginWrite hpending _ hd =>
    refine changes_put zero nofun hslot hd fun e he => ?_
    cases he
    exact ⟨p, w, _, rfl, hw, hpending⟩
  | load _ hd | maximize _ hd | writeBuffer _ hd | endWrite _ _ hd | createFails _ hd | giveUp _ _ hd =>
    exact changes_put zero nofun hslot hd nofun
  | createChannel hphase => exact .created p _ w slot rfl hw hphase hslot rfl
  | attach | close => exact .changed nofun w.channel slot _ hslot rfl rfl fun e he => .inl he

structure Consumes (s : Session β) (a : ConsumerAction) (u : Session β) : Prop where
  writers : u.writers = s.writers
  locked : a = .lock ∨ s.consumer ≠ .unlocked
  out : a ≠ .copy → u.out = s.out
  copied : a = .copy → ∃ i isClosed slot readEnd, s.consumer = .reading i isClosed ∧ s.channels[i]? = some slot ∧
    slot.channel.reading = .loaded readEnd ∧ u.out = s.out ++ [(slot.owner, slot.channel.found)]

theorem changes_consumer (zero : β) {a : ConsumerAction} (hs : ConsumerEffect s a u) :
    Changes zero s (.consumer a) u.channels ∧ Consumes s a u := by
  cases hs with
  | lock => exact ⟨.kept nofun rfl, rfl, .inl rfl, fun _ => rfl, nofun⟩
  | check hpolling | skip hpolling | unlock hpolling =>
    exact ⟨.kept nofun rfl, rfl, .inr (by rw [hpolling]; nofun), fun _ => rfl, nofun⟩
  | beginRead hreads hslot hd | leave hreads hslot hd | endRead hreads hslot hd =>
    exact ⟨changes_put zero nofun hslot hd nofun, rfl, .inr (by rw [hreads]; nofun), fun _ => rfl, nofun⟩
  | copy hreads hslot _ hd =>
    obtain ⟨readEnd, hloaded, -⟩ := copy_cases hd
    exact ⟨changes_put zero nofun hslot hd nofun, rfl, .inr (by rw [hreads]; nofun), fun hne => absurd rfl hne,
      fun _ => ⟨_, _, _, readEnd, hreads, hslot, hloaded, rfl⟩⟩
  | next hreads hslot =>
    exact ⟨.changed nofun _ _ _ hslot rfl rfl fun e he => .inl he, rfl, .inr (by rw [hreads]; nofun), fun _ => rfl, nofun⟩

theorem writer_keeps {zero : β} {a : WriterAction} (hs : WriterEffect zero s p w slot a u) :
    u.consumer = s.consumer ∧ u.out = s.out := by
  cases hs
  all_goals exact ⟨rfl, rfl⟩

theorem changes_step {zero : β} {a : Action} (hs : step zero s a = some u) : Changes zero s a u.channels := by
  cases a with
  | writer p a =>
    obtain ⟨w, slot, hw, hslot, heffect⟩ := step_writer hs
    exact changes_writer zero hw hslot heffect
  | consumer a => exact (changes_consumer zero (consumerStep_cases hs)).1

end Effects

def Session.output (s : Session β) (p : ℕ) : List β := s.out.flatMap fun batch => if batch.1 = p then batch.2 else []

def Slot.live (slot : Slot β) : List (Entry β) :=
  match slot.channel.reading with
  | .copied _ => slot.channel.stored.drop slot.channel.due
  | _ => slot.channel.stored

def Session.unread (s : Session β) (p : ℕ) : List (Entry β) :=
  s.channels.flatMap fun slot => if slot.owner = p then slot.live else []

section Transport

variable {messages : List (List (Entry β))} {s u : Session β} {t : BinlogSession.Session (Entry β)} {p : ℕ}
  {w : Writer (Entry β)}

theorem output_eq (h : Refines s t) (p : ℕ) : s.output p = bytesOf (t.output p) := by
  unfold Session.output BinlogSession.Session.output bytesOf
  rw [h.out, List.flatMap_map, List.flatMap_assoc]
  refine List.flatMap_congr fun batch _ => ?_
  dsimp only
  split_ifs <;> rfl

theorem unread_eq (h : Refines s t) (p : ℕ) : s.unread p = t.unread p := by
  unfold Session.unread BinlogSession.Session.unread BinlogSession.unreadOf
  rw [h.channels, List.flatMap_map]
  refine List.flatMap_congr fun slot _ => ?_
  have hlive : slot.view.live = slot.live := by
    unfold BinlogSession.Channel.live Slot.live Slot.view
    cases slot.channel.reading <;> rfl
  rw [hlive]
  rfl

theorem accepted_eq (h : Sim messages s t) (hw : s.writers[p]? = some w) :
    w.accepted = t.output p ++ t.unread p := by
  have hw' : t.writers[p]? = some w := by rw [h.refines.writers, hw]
  exact h.inv.accounted p w hw'

section Reached

variable {capacity : ℕ → ℕ} {zero : β} (h : Reachable (step zero) (start capacity zero messages) s)
include h

theorem reached_attempted : s.writers.map (fun w => w.attempts.map Prod.fst ++ w.pending) = messages := by
  obtain ⟨t, -, hsim⟩ := sim_run zero (sim_start capacity zero messages) h
  rw [← hsim.refines.writers]
  exact hsim.inv.attempted

theorem reached_account (hw : s.writers[p]? = some w) :
    ∃ n, s.output p = bytesOf (w.accepted.take n) ∧ s.unread p = w.accepted.drop n := by
  obtain ⟨t, -, hsim⟩ := sim_run zero (sim_start capacity zero messages) h
  refine ⟨(t.output p).length, ?_, ?_⟩
  · rw [output_eq hsim.refines, accepted_eq hsim hw, List.take_left]
  · rw [unread_eq hsim.refines, accepted_eq hsim hw, List.drop_left]

theorem unread_consumed {s' : Session β} (hquiet : ∀ w ∈ s.writers, w.pending = [])
    (hlock : step zero s (.consumer .lock) = some s') (hrun : Reachable (step zero) s' u) (hend : u.consumer = .unlocked) :
    u.unread p = [] := by
  obtain ⟨t, -, hsim⟩ := sim_run zero (sim_start capacity zero messages) h
  simp only [step, consumerStep] at hlock
  split_ifs at hlock with hunlocked
  cases hlock
  have hbegin : Sim messages { s with consumer := .polling 0 } { t with consumer := .polling 0 } :=
    ⟨⟨hsim.refines.channels, hsim.refines.writers, rfl, hsim.refines.out⟩, hsim.queues, hsim.adds,
      BinlogSession.inv_step hsim.inv (.lock (hsim.refines.consumer.trans hunlocked))⟩
  obtain ⟨t', hsteps, hsim'⟩ := sim_run zero hbegin hrun
  have hempty := BinlogSession.emptied_after hsim.inv (hsim.refines.consumer.trans hunlocked)
    (by rw [hsim.refines.writers]; exact hquiet) hsteps (hsim'.refines.consumer.trans hend)
  rw [unread_eq hsim'.refines]
  refine BinlogSession.unread_nil fun c hc _ => ?_
  unfold BinlogSession.Channel.live
  rw [hempty c hc]
  cases c.taking with
  | copied due => exact List.drop_nil
  | _ => rfl

end Reached

end Transport

/-- In every state each writer has attempted a beginning of its entries, in order; those that were accepted are in the
output as whole entries and in order, up to one from which on they are in the channels, also across the channels that
replaced one another. A channel is not removed with an entry in it. -/
theorem transported (capacity : ℕ → ℕ) (zero : β) (messages : List (List (Entry β))) (s : Session β)
    (h : Reachable (step zero) (start capacity zero messages) s) :
    s.writers.map (fun w => w.attempts.map Prod.fst ++ w.pending) = messages ∧
      (∀ (p : ℕ) (w : Writer (Entry β)), s.writers[p]? = some w →
        ∃ n, s.output p = bytesOf (w.accepted.take n) ∧ s.unread p = w.accepted.drop n) ∧
      ∀ slot ∈ s.channels, slot.removed = true → slot.channel.stored = [] := by
  refine ⟨reached_attempted h, fun p w hw => reached_account h hw, fun slot hslot hremoved => ?_⟩
  obtain ⟨t, -, hsim⟩ := sim_run zero (sim_start capacity zero messages) h
  obtain ⟨j, hj⟩ := List.mem_iff_getElem?.1 hslot
  exact ((hsim.inv.fit j slot.view (view_get hsim.refines hj)).removed hremoved).2

def tick : Entry ℕ := ⟨[1, 2, 3], List.cons_ne_nil _ _⟩

def tock : Entry ℕ := ⟨[4, 5, 6, 7], List.cons_ne_nil _ _⟩

/-- The second entry finds no room, so that it goes to a new channel. -/
def replacing : List Action :=
  ([.beginWrite, .load, .maximize, .writeBuffer, .writeBuffer, .writeBuffer, .endWrite, .beginWrite, .load, .maximize,
    .createChannel, .attach, .beginWrite, .load, .maximize, .writeBuffer, .writeBuffer, .writeBuffer, .writeBuffer,
    .endWrite] : List WriterAction).map (.writer 0)

def replaced : Session ℕ := (exec (step 0) (start (fun _ => 4) 0 [[tick, tock]]) replacing).get (by decide +kernel)

def locked : Session ℕ := (step 0 replaced (.consumer .lock)).get (by decide +kernel)

def firstRead : List Action := [.consumer .check, .consumer .beginRead, .consumer .copy, .consumer .endRead]

def halfway : Session ℕ := (exec (step 0) locked firstRead).get (by decide +kernel)

theorem replaced_reachable : Reachable (step 0) (start (fun _ => 4) 0 [[tick, tock]]) replaced :=
  ⟨_, run_of_exec _ _ replacing (Option.some_get _).symm⟩

theorem halfway_reachable : Reachable (step 0) (start (fun _ => 4) 0 [[tick, tock]]) halfway :=
  (replaced_reachable.tail (Option.some_get _).symm).trans ⟨_, run_of_exec _ locked firstRead (Option.some_get _).symm⟩

theorem transported_halfway : halfway.writers.map (fun w => w.attempts.map Prod.fst ++ w.pending) = [[tick, tock]] ∧
    (∀ (p : ℕ) (w : Writer (Entry ℕ)), halfway.writers[p]? = some w →
      ∃ n, halfway.output p = bytesOf (w.accepted.take n) ∧ halfway.unread p = w.accepted.drop n) ∧
    ∀ slot ∈ halfway.channels, slot.removed = true → slot.channel.stored = [] :=
  transported (fun _ => 4) 0 [[tick, tock]] halfway halfway_reachable

/-- A consume that begins when no writer has an entry to add puts everything that was accepted into the output. -/
theorem consumed_all (capacity : ℕ → ℕ) (zero : β) (messages : List (List (Entry β))) (s s' u : Session β)
    (h : Reachable (step zero) (start capacity zero messages) s) (hquiet : ∀ w ∈ s.writers, w.pending = [])
    (hlock : step zero s (.consumer .lock) = some s') (hrun : Reachable (step zero) s' u) (hend : u.consumer = .unlocked) :
    ∀ (p : ℕ) (w : Writer (Entry β)), u.writers[p]? = some w → u.output p = bytesOf w.accepted := by
  intro p w hw
  obtain ⟨n, houtput, hunread⟩ := reached_account ((h.tail hlock).trans hrun) hw
  have hnothing : w.accepted.drop n = [] := hunread.symm.trans (unread_consumed h hquiet hlock hrun hend)
  rw [houtput, List.take_of_length_le (List.drop_eq_nil_iff.1 hnothing)]

def secondRead : List Action :=
  [.consumer .next, .consumer .check, .consumer .beginRead, .consumer .copy, .consumer .endRead, .consumer .next, .consumer .unlock]

def consumed : Session ℕ := (exec (step 0) halfway secondRead).get (by decide +kernel)

theorem replaced_quiet : ∀ w ∈ replaced.writers, w.pending = [] := by
  have hall : replaced.writers.all (fun w => w.pending.isEmpty) = true := by decide +kernel
  exact fun w hw => List.isEmpty_iff.1 (List.all_eq_true.1 hall w hw)

def consumedWriter : Writer (Entry ℕ) := consumed.writers.head?.get (by decide +kernel)

theorem consumed_all_replaced : consumed.output 0 = bytesOf consumedWriter.accepted :=
  consumed_all (fun _ => 4) 0 [[tick, tock]] replaced locked consumed replaced_reachable replaced_quiet (Option.some_get _).symm
    (Reachable.trans ⟨_, run_of_exec _ locked firstRead (Option.some_get _).symm⟩
      ⟨_, run_of_exec _ halfway secondRead (Option.some_get _).symm⟩) (by decide +kernel) 0 consumedWriter
    (List.head?_eq_getElem?.symm.trans (Option.some_get _).symm)

example : consumed.output 0 = [1, 2, 3, 4, 5, 6, 7] := by decide +kernel

/-- Each of the two buffers that are written to the output holds whole entries. -/
theorem whole_entries (capacity : ℕ → ℕ) (zero : β) (messages : List (List (Entry β))) (s : Session β)
    (h : Reachable (step zero) (start capacity zero messages) s) (slot : Slot β) (hslot : slot ∈ s.channels) (readEnd : ℕ)
    (hreading : slot.channel.reading = .loaded readEnd) :
    ∃ front back, slot.channel.stored.take slot.channel.due = front ++ back ∧
      slot.channel.queue.parts readEnd = (bytesOf front, bytesOf back) := by
  obtain ⟨t, -, hsim⟩ := sim_run zero (sim_start capacity zero messages) h
  have hqueue := hsim.queues slot hslot
  exact parts_whole hqueue (hqueue.looked (.inl hreading))

def tack : Entry ℕ := ⟨[8, 9], List.cons_ne_nil _ _⟩

def goingAround : List Action :=
  ([.beginWrite, .load, .maximize, .writeBuffer, .writeBuffer, .writeBuffer, .endWrite] : List WriterAction).map (.writer 0) ++
    ([.lock, .check, .beginRead, .copy, .endRead, .next, .unlock] : List ConsumerAction).map .consumer ++
    ([.beginWrite, .writeBuffer, .writeBuffer, .endWrite, .beginWrite, .load, .maximize, .writeBuffer, .writeBuffer,
      .endWrite] : List WriterAction).map (.writer 0) ++
    ([.lock, .check, .beginRead] : List ConsumerAction).map .consumer

def around : Session ℕ := (exec (step 0) (start (fun _ => 6) 0 [[tick, tack, tack]]) goingAround).get (by decide +kernel)

theorem around_reachable : Reachable (step 0) (start (fun _ => 6) 0 [[tick, tack, tack]]) around :=
  ⟨_, run_of_exec _ _ goingAround (Option.some_get _).symm⟩

def aroundSlot : Slot ℕ := around.channels.head?.get (by decide +kernel)

theorem whole_entries_around : ∃ front back, aroundSlot.channel.stored.take aroundSlot.channel.due = front ++ back ∧
    aroundSlot.channel.queue.parts 2 = (bytesOf front, bytesOf back) :=
  whole_entries (fun _ => 6) 0 [[tick, tack, tack]] around around_reachable aroundSlot (List.mem_of_mem_head? (Option.get_mem _)) 2
    (by decide +kernel)

example : aroundSlot.channel.queue.parts 2 = ([8, 9], [8, 9]) := by decide +kernel

/-- No step of a writer or of the consumer goes outside the buffer of a channel. -/
theorem inside_buffers (capacity : ℕ → ℕ) (zero : β) (messages : List (List (Entry β))) (s : Session β)
    (h : Reachable (step zero) (start capacity zero messages) s) (slot : Slot β) (hslot : slot ∈ s.channels)
    (a : BinlogQueue.Action β) (d : BinlogQueue.Channel β) (hs : slot.channel.step a = some d) :
    ∀ i ∈ slot.channel.touched a, i < slot.channel.queue.capacity := by
  obtain ⟨t, -, hsim⟩ := sim_run zero (sim_start capacity zero messages) h
  exact fun i hi => touched_lt (hsim.queues slot hslot) hs hi

theorem inside_buffers_around : 3 < aroundSlot.channel.queue.capacity :=
  inside_buffers (fun _ => 6) 0 [[tick, tack, tack]] around around_reachable aroundSlot (List.mem_of_mem_head? (Option.get_mem _)) .copy _
    (Option.some_get (x := aroundSlot.channel.step .copy) (by decide +kernel)).symm 3 (by decide +kernel)

structure Fresh (entry : Entry β) (c : BinlogQueue.Channel β) : Prop where
  unwritten : c.queue.writeIndex = 0
  unread : c.queue.readIndex = 0
  room : entry.bytes.length ≤ c.queue.capacity
  reading : c.reading = .idle ∨ c.reading = .loaded 0
  writing : c.writing = .idle ∨ c.writing = .loading entry ∨ c.writing = .placing entry 0 ∨
    ∃ start next, c.writing = .copying entry start next

def target (w : Writer (Entry β)) : Option ℕ :=
  match w.phase with
  | .last => some w.channel
  | .attaching new => some new
  | _ => none

def FreshAt (channels : List (Slot β)) (w : Writer (Entry β)) : Prop :=
  ∀ j, target w = some j → ∃ entry rest slot, w.pending = entry :: rest ∧ channels[j]? = some slot ∧ Fresh entry slot.channel

structure Unrefused (s : Session β) : Prop where
  accepted : ∀ w ∈ s.writers, ∀ e ∈ w.attempts, e.2 = true
  fresh : ∀ (p : ℕ) (w : Writer (Entry β)), s.writers[p]? = some w → FreshAt s.channels w

section Refusal

variable {messages : List (List (Entry β))} {s u : Session β} {t : BinlogSession.Session (Entry β)} {i p : ℕ} {slot : Slot β}
  {w : Writer (Entry β)} {c d : BinlogQueue.Channel β} {entry : Entry β}

theorem Fresh.maximize (h : Fresh entry c) (hs : c.step .maximize = some d) : Fresh entry d := by
  simp only [BinlogQueue.Channel.step] at hs
  split at hs
  · rename_i entry' r hwriting
    cases hs
    obtain ⟨rfl, rfl⟩ : entry' = entry ∧ r = 0 := by
      rcases h.writing with hw | hw | hw | ⟨start, next, hw⟩
      all_goals
        rw [hw] at hwriting
        cases hwriting
      exact ⟨rfl, rfl⟩
    have hroom := h.room
    have hunwritten := h.unwritten
    have hmaximized : c.maximizeWriteCapacity 0 = { c with writePos := 0, writeEnd := c.queue.capacity } := by
      unfold Channel.maximizeWriteCapacity
      dsimp only
      rw [if_neg (Nat.not_lt_zero _), if_pos (by omega), hunwritten, Nat.zero_add, Nat.sub_zero]
    rw [hmaximized]
    refine ⟨hunwritten, h.unread, hroom, h.reading, .inr (.inr (.inr ⟨0, 0, ?_⟩))⟩
    exact if_pos hroom
  · cases hs

theorem Fresh.inner (h : Fresh entry c) {a : BinlogQueue.Action β} (hs : c.step a = some d)
    (ha : a = .load ∨ a = .maximize ∨ a = .writeBuffer ∨ a = .beginWrite entry) : Fresh entry d := by
  rcases ha with rfl | rfl | rfl | rfl
  · simp only [BinlogQueue.Channel.step] at hs
    split at hs
    · rename_i entry' hwriting
      cases hs
      obtain rfl : entry' = entry := by
        rcases h.writing with hw | hw | hw | ⟨start, next, hw⟩
        all_goals
          rw [hw] at hwriting
          cases hwriting
        rfl
      refine ⟨h.unwritten, h.unread, h.room, h.reading, .inr (.inr (.inl ?_))⟩
      rw [h.unread]
    · cases hs
  · exact h.maximize hs
  · simp only [BinlogQueue.Channel.step] at hs
    split at hs
    · rename_i entry' start next hwriting
      obtain ⟨byte, -, rfl⟩ := Option.map_eq_some_iff.1 hs
      obtain rfl : entry' = entry := by
        rcases h.writing with hw | hw | hw | ⟨start', next', hw⟩
        all_goals
          rw [hw] at hwriting
          cases hwriting
        rfl
      exact ⟨h.unwritten, h.unread, h.room, h.reading, .inr (.inr (.inr ⟨start, next + 1, rfl⟩))⟩
    · cases hs
  · simp only [BinlogQueue.Channel.step] at hs
    split at hs
    · cases hs
      refine ⟨h.unwritten, h.unread, h.room, h.reading, ?_⟩
      unfold Channel.begun
      dsimp only
      split_ifs
      · exact .inr (.inr (.inr ⟨c.writePos, 0, rfl⟩))
      · exact .inr (.inl rfl)
    · cases hs

theorem Fresh.polled (h : Fresh entry c) {a : BinlogQueue.Action β} (hs : c.step a = some d)
    (ha : a = .beginRead ∨ a = .leave ∨ a = .endRead ∨ a = .copy ∧ c.found ≠ []) : Fresh entry d := by
  rcases ha with rfl | rfl | rfl | ⟨rfl, hfound⟩
  · simp only [BinlogQueue.Channel.step] at hs
    split at hs
    · cases hs
      refine ⟨h.unwritten, h.unread, h.room, .inr ?_, h.writing⟩
      rw [h.unwritten]
    · cases hs
  · simp only [BinlogQueue.Channel.step] at hs
    split at hs
    · split_ifs at hs
      cases hs
      exact ⟨h.unwritten, h.unread, h.room, .inl rfl, h.writing⟩
    · cases hs
  · obtain ⟨readEnd, hcopied, -⟩ := endRead_cases hs
    rcases h.reading with hreading | hreading
    all_goals
      rw [hreading] at hcopied
      cases hcopied
  · obtain ⟨readEnd, hloaded, -⟩ := copy_cases hs
    refine absurd ?_ hfound
    rcases h.reading with hreading | hreading
    · rw [hreading] at hloaded
      cases hloaded
    · unfold Channel.found Queue.readable
      rw [hreading]
      dsimp only
      rw [h.unread, if_pos le_rfl, BipBuffer.stretch_self]

theorem FreshAt.set {slot' : Slot β} (h : FreshAt s.channels w) (hslot : s.channels[i]? = some slot)
    (hkeep : ∀ entry rest, target w = some i → w.pending = entry :: rest → Fresh entry slot.channel → Fresh entry slot'.channel) :
    FreshAt (s.channels.set i slot') w := by
  intro j hj
  obtain ⟨entry, rest, x, hpending, hx, hfresh⟩ := h j hj
  by_cases hij : i = j
  · subst hij
    obtain rfl := Option.some.inj (hslot.symm.trans hx)
    exact ⟨entry, rest, slot', hpending, get_set_self hslot, hkeep entry rest hj hpending hfresh⟩
  · exact ⟨entry, rest, x, hpending, by rw [List.getElem?_set_ne hij, hx], hfresh⟩

theorem owner_of_target (h : Sim messages s t) (hw : s.writers[p]? = some w) (hi : target w = some i)
    (hslot : s.channels[i]? = some slot) : slot.owner = p := by
  have hplaced := h.inv.placed p w (by rw [h.refines.writers, hw])
  unfold target at hi
  unfold BinlogSession.Placed at hplaced
  cases hphase : w.phase with
  | adding | closed =>
    rw [hphase] at hi
    cases hi
  | last =>
    rw [hphase] at hi hplaced
    obtain rfl := Option.some.inj hi
    exact (BinlogSession.owner_of_held hplaced.1 (view_get h.refines hslot)).1
  | attaching new =>
    rw [hphase] at hi hplaced
    obtain rfl := Option.some.inj hi
    exact (BinlogSession.owner_of_held hplaced.2.2.1 (view_get h.refines hslot)).1

/-- A writer changes its channel and itself; what the others have created stays fresh. -/
theorem unrefused_writer {slot' : Slot β} {v : Writer (Entry β)} (hsim : Sim messages s t) (h : Unrefused s)
    (hw : s.writers[p]? = some w) (hslot : s.channels[i]? = some slot) (howner : slot.owner = p)
    (haccepted : ∀ e ∈ v.attempts, e.2 = true) (hv : FreshAt (s.channels.set i slot') v) :
    Unrefused (Session.putWriter { s with channels := s.channels.set i slot' } p v) := by
  refine ⟨fun x hx => ?_, fun q x hx => ?_⟩
  · rcases List.mem_or_eq_of_mem_set hx with hx | rfl
    · exact h.accepted x hx
    · exact haccepted
  · rcases get_set_cases hx with ⟨rfl, rfl⟩ | ⟨hne, hx⟩
    · exact hv
    · refine (h.fresh q x hx).set hslot fun entry rest htarget => ?_
      exact absurd ((owner_of_target hsim hx htarget hslot).symm.trans howner) hne

theorem freshAt_none (channels : List (Slot β)) (h : w.phase = .adding ∨ w.phase = .closed) : FreshAt channels w := by
  intro j hj
  unfold target at hj
  rcases h with hphase | hphase
  all_goals
    rw [hphase] at hj
    cases hj

theorem unrefused_inner {a : BinlogQueue.Action β} (hsim : Sim messages s t) (h : Unrefused s) (hw : s.writers[p]? = some w)
    (hadds : w.adds) (hslot : s.channels[w.channel]? = some slot) (hs : slot.channel.step a = some d)
    (ha : ∀ entry rest, w.pending = entry :: rest → a = .load ∨ a = .maximize ∨ a = .writeBuffer ∨ a = .beginWrite entry) :
    Unrefused (s.put w.channel slot d) := by
  have hfresh : FreshAt (s.channels.set w.channel { slot with channel := d }) w :=
    (h.fresh p w hw).set hslot fun entry rest _ hpending hfresh => hfresh.inner hs (ha entry rest hpending)
  have hset := unrefused_writer hsim h hw hslot (owner_of_adds hsim hw hadds hslot).1
    (h.accepted w (List.mem_of_getElem? hw)) hfresh
  unfold Session.putWriter at hset
  rw [set_self hw] at hset
  exact hset

theorem unrefused_polled {a : BinlogQueue.Action β} {consumer : Consumer} {out : List (ℕ × List β)} (h : Unrefused s)
    (hslot : s.channels[i]? = some slot) (hs : slot.channel.step a = some d)
    (ha : a = .beginRead ∨ a = .leave ∨ a = .endRead ∨ a = .copy ∧ slot.channel.found ≠ []) :
    Unrefused { s.put i slot d with consumer := consumer, out := out } :=
  ⟨h.accepted, fun p w hw => (h.fresh p w hw).set hslot fun _ _ _ _ hfresh => hfresh.polled hs ha⟩

theorem unrefused_consumer {a : ConsumerAction} (h : Unrefused s) (hs : ConsumerEffect s a u) : Unrefused u := by
  cases hs with
  | lock | check | skip | unlock => exact ⟨h.accepted, h.fresh⟩
  | beginRead _ hslot hd => exact unrefused_polled h hslot hd (.inl rfl)
  | leave _ hslot hd => exact unrefused_polled h hslot hd (.inr (.inl rfl))
  | copy _ hslot hfound hd => exact unrefused_polled h hslot hd (.inr (.inr (.inr ⟨rfl, hfound⟩)))
  | endRead _ hslot hd => exact unrefused_polled h hslot hd (.inr (.inr (.inl rfl)))
  | next _ hslot => exact ⟨h.accepted, fun p w hw => (h.fresh p w hw).set hslot fun _ _ _ _ hfresh => hfresh⟩

theorem unrefused_endWrite {rest : List (Entry β)} (hsim : Sim messages s t) (h : Unrefused s)
    (hw : s.writers[p]? = some w) (hadds : w.adds) (hslot : s.channels[w.channel]? = some slot) (d : BinlogQueue.Channel β) :
    Unrefused ((s.put w.channel slot d).putWriter p
      { w with pending := rest, phase := .adding, attempts := w.attempts ++ [(entry, true)] }) := by
  refine unrefused_writer hsim h hw hslot (owner_of_adds hsim hw hadds hslot).1 ?_ (freshAt_none _ (.inl rfl))
  dsimp only
  rw [List.forall_mem_append, List.forall_mem_singleton]
  exact ⟨h.accepted w (List.mem_of_getElem? hw), rfl⟩

/-- The new channel has room for the entry that has found none. -/
theorem fresh_created (zero : β) (p : ℕ) (slot : Slot β) (entry : Entry β) :
    Fresh entry (Slot.start (newCapacity slot entry) zero p).channel := by
  refine ⟨rfl, rfl, ?_, .inl rfl, .inl rfl⟩
  have hmax := Nat.le_max_right slot.channel.queue.capacity (2 * entry.bytes.length)
  change entry.bytes.length ≤ newCapacity slot entry
  unfold newCapacity
  omega

theorem FreshAt.append (h : FreshAt s.channels w) (slot' : Slot β) : FreshAt (s.channels ++ [slot']) w := by
  intro j hj
  obtain ⟨entry, rest, x, hpending, hx, hfresh⟩ := h j hj
  obtain ⟨hlength, -⟩ := List.getElem?_eq_some_iff.1 hx
  exact ⟨entry, rest, x, hpending, by rw [List.getElem?_append_left hlength, hx], hfresh⟩

theorem unrefused_createChannel (zero : β) (hsim : Sim messages s t) (h : Unrefused s) (hw : s.writers[p]? = some w)
    (hphase : w.phase = .adding) (hslot : s.channels[w.channel]? = some slot) (hwriting : slot.channel.writing = .full entry) :
    Unrefused (Session.putWriter { s with channels := s.channels ++ [.start (newCapacity slot entry) zero p] } p
      { w with phase := .attaching s.channels.length }) := by
  obtain ⟨howner, hattached⟩ := owner_of_adds hsim hw (.inl hphase) hslot
  have hhead := (hsim.adds p w hw w.channel slot entry hslot howner hattached (by rw [hwriting]; rfl)).2
  obtain ⟨rest, hpending⟩ := List.head?_eq_some_iff.1 hhead
  refine ⟨fun x hx => ?_, fun q x hx => ?_⟩
  · rcases List.mem_or_eq_of_mem_set hx with hx | rfl
    · exact h.accepted x hx
    · exact h.accepted w (List.mem_of_getElem? hw)
  · rcases get_set_cases hx with ⟨rfl, rfl⟩ | ⟨-, hx⟩
    · intro j hj
      obtain rfl : s.channels.length = j := Option.some.inj hj
      refine ⟨entry, rest, .start (newCapacity slot entry) zero q, hpending, ?_, fresh_created zero q slot entry⟩
      change (s.channels ++ [_])[s.channels.length]? = _
      rw [List.getElem?_append_right le_rfl, Nat.sub_self]
      rfl
    · exact (h.fresh q x hx).append _

theorem unrefused_attach {new : ℕ} (hsim : Sim messages s t) (h : Unrefused s) (hw : s.writers[p]? = some w)
    (hphase : w.phase = .attaching new) (hslot : s.channels[w.channel]? = some slot) :
    Unrefused (Session.putWriter { s with channels := s.channels.set w.channel { slot with attached := false } } p
      { w with channel := new, phase := .last }) := by
  have hplaced := hsim.inv.placed p w (by rw [hsim.refines.writers, hw])
  unfold BinlogSession.Placed at hplaced
  rw [hphase] at hplaced
  obtain ⟨howner, -⟩ := BinlogSession.owner_of_held hplaced.1 (view_get hsim.refines hslot)
  refine unrefused_writer hsim h hw hslot howner (h.accepted w (List.mem_of_getElem? hw)) fun j hj => ?_
  obtain rfl : new = j := Option.some.inj hj
  obtain ⟨entry, rest, y, hpending, hy, hfresh⟩ := h.fresh p w hw new (by unfold target; rw [hphase])
  refine ⟨entry, rest, y, hpending, ?_, hfresh⟩
  rw [List.getElem?_set_ne (Nat.ne_of_lt hplaced.2.1), hy]

theorem Fresh.not_givenUp (h : Fresh entry c) : c.step .giveUp = none := by
  simp only [BinlogQueue.Channel.step]
  split
  · rename_i entry' hfull
    rcases h.writing with hw | hw | hw | ⟨start, next, hw⟩
    all_goals
      rw [hw] at hfull
      cases hfull
  · rfl

theorem unrefused_writerStep (zero : β) {a : WriterAction} (hsim : Sim messages s t) (h : Unrefused s)
    (ha : a ≠ .createFails) (hw : s.writers[p]? = some w) (hslot : s.channels[w.channel]? = some slot)
    (hs : WriterEffect zero s p w slot a u) : Unrefused u := by
  cases hs with
  | beginWrite hpending hadds hd =>
    refine unrefused_inner hsim h hw hadds hslot hd fun entry' rest' hpending' => .inr (.inr (.inr ?_))
    rw [(List.cons.inj (hpending.symm.trans hpending')).1]
  | load hadds hd => exact unrefused_inner hsim h hw hadds hslot hd fun _ _ _ => .inl rfl
  | maximize hadds hd => exact unrefused_inner hsim h hw hadds hslot hd fun _ _ _ => .inr (.inl rfl)
  | writeBuffer hadds hd => exact unrefused_inner hsim h hw hadds hslot hd fun _ _ _ => .inr (.inr (.inl rfl))
  | endWrite _ hadds => exact unrefused_endWrite hsim h hw hadds hslot _
  | createChannel hphase hwriting => exact unrefused_createChannel zero hsim h hw hphase hslot hwriting
  | createFails => exact absurd rfl ha
  | attach hphase => exact unrefused_attach hsim h hw hphase hslot
  | giveUp _ hphase hd =>
    obtain ⟨entry, rest, y, -, hy, hfresh⟩ := h.fresh p w hw w.channel (by unfold target; rw [hphase])
    obtain rfl := Option.some.inj (hslot.symm.trans hy)
    rw [hfresh.not_givenUp] at hd
    cases hd
  | close hphase =>
    exact unrefused_writer hsim h hw hslot (owner_of_adds hsim hw (.inl hphase) hslot).1
      (h.accepted w (List.mem_of_getElem? hw)) (freshAt_none _ (.inr rfl))

theorem unrefused_step (zero : β) {a : Action} (hsim : Sim messages s t) (h : Unrefused s)
    (ha : ∀ p, a ≠ .writer p .createFails) (hs : step zero s a = some u) : Unrefused u := by
  cases a with
  | writer p a =>
    obtain ⟨w, slot, hw, hslot, heffect⟩ := step_writer hs
    exact unrefused_writerStep zero hsim h (fun hfails => ha p (hfails ▸ rfl)) hw hslot heffect
  | consumer a => exact unrefused_consumer h (consumerStep_cases hs)

end Refusal

/-- While the creation of a channel does not fail, no entry is refused: the new channel has room for it. -/
theorem never_refused (capacity : ℕ → ℕ) (zero : β) (messages : List (List (Entry β))) (v : Session β)
    (tr : List (Session β × Action)) (hrun : Run (step zero) (start capacity zero messages) tr v)
    (hcreates : ∀ e ∈ tr, ∀ p, e.2 ≠ .writer p .createFails) :
    v.writers.map (fun w => w.accepted ++ w.pending) = messages := by
  have hend : v ∈ states tr v := List.mem_append_right _ (List.mem_singleton_self v)
  have hstart : Unrefused (start capacity zero messages) := by
    refine ⟨fun w hw => ?_, fun p w hw => ?_⟩
    · obtain ⟨p, hp⟩ := List.mem_iff_getElem?.1 hw
      rw [(start_writer hp).1]
      nofun
    · obtain ⟨-, hphase⟩ := start_writer hw
      exact freshAt_none _ (.inl hphase)
  obtain ⟨t, hsim, hunrefused⟩ := hrun.invariant_along (fun _ a => ∀ p, a ≠ .writer p .createFails)
    (fun x => ∃ t, Sim messages x t ∧ Unrefused x) ⟨_, sim_start capacity zero messages, hstart⟩
    (fun x a u ⟨t, hsim, hx⟩ ha hs => by
      obtain ⟨t', -, hsim'⟩ := sim_step zero hsim hs
      exact ⟨t', hsim', unrefused_step zero hsim hx ha hs⟩)
    hcreates v hend
  rw [← hsim.inv.attempted, hsim.refines.writers]
  refine List.map_congr_left fun w hw => ?_
  unfold BinlogSession.Writer.accepted
  rw [List.filter_eq_self.2 (hunrefused.accepted w hw)]

def creates : Action → Bool
  | .writer _ .createFails => false
  | _ => true

theorem never_refused_replaced : replaced.writers.map (fun w => w.accepted ++ w.pending) = [[tick, tock]] :=
  never_refused (fun _ => 4) 0 [[tick, tock]] replaced _ (run_of_exec _ _ replacing (Option.some_get _).symm) (by
    have hall : (trace (step 0) (start (fun _ => 4) 0 [[tick, tock]]) replacing).all (fun e => creates e.2) = true := by decide +kernel
    rintro ⟨x, a⟩ he p rfl
    exact absurd (List.all_eq_true.1 hall _ he) Bool.false_ne_true)

end LoggerBenchmarks.BinlogTransport
