import LoggerBenchmarks.BinlogEntries
import LoggerBenchmarks.BinlogSegmentedMap

set_option autoImplicit false

/-!
# Reading a binlog stream

`IstreamEntryStream`, `EventStream` and the loop of `readEvents`. What is handed for an event
is made of the event, of the writer properties and of the clock sync that were read last; the
text that `PrettyPrinter` makes of these is left out.
-/
namespace LoggerBenchmarks.BinlogEventStream
open ByteReaders BinlogEntries
open BinlogSegmentedMap (SegmentedMap)

/-- The payload, or an error, and what is left of the input: on an error all of it. -/
def nextEntryPayload (input : Bytes) : Except ReadError Bytes × Bytes :=
  if input.isEmpty then (.ok [], input)
  else if input.length < 4 then (.error (.entrySize input.length), input)
  else
    let size := value (input.take 4)
    let payload := input.drop 4
    if payload.length < size then (.error (.entryPayload payload.length size), input)
    else (.ok (payload.take size), payload.drop size)

structure Event where
  source : EventSource
  clockValue : UInt64
  arguments : Bytes
  deriving DecidableEq

structure EventStream where
  eventSources : SegmentedMap EventSource
  writerProp : WriterProp
  clockSync : ClockSync

def EventStream.start : EventStream := ⟨.empty, ⟨0, [], 0⟩, ⟨0, 0, 0, 0, []⟩⟩

namespace EventStream

def readEventSource (es : EventStream) (range : Bytes) : Except ReadError EventStream := do
  let (eventSource, _) ← EventSource.deserialize.run range
  pure { es with eventSources := es.eventSources.emplace eventSource.id.toNat eventSource }

def readWriterProp (es : EventStream) (range : Bytes) : Except ReadError EventStream := do
  let (writerProp, _) ← WriterProp.deserialize.run range
  pure { es with writerProp := writerProp }

def readClockSync (es : EventStream) (range : Bytes) : Except ReadError EventStream := do
  let (clockSync, _) ← ClockSync.deserialize.run range
  pure { es with clockSync := clockSync }

def readEvent (es : EventStream) (eventSourceId : UInt64) (range : Bytes) : Except ReadError Event :=
  match es.eventSources.find eventSourceId.toNat with
  | none => .error (.invalidSourceId eventSourceId.toNat)
  | some source => do
    let (clockValue, arguments) ← readUInt64.run range
    pure ⟨source, clockValue, arguments⟩

/-- One turn of the loop in `nextEvent`, with the payload of an entry. Unknown special entries are ignored. -/
def readPayload (es : EventStream) (payload : Bytes) : Except ReadError (EventStream × Option Event) := do
  let (tag, range) ← readUInt64.run payload
  if tag.toNat.testBit 63 then
    if tag.toNat = EventSource.tag then return (← es.readEventSource range, none)
    else if tag.toNat = WriterProp.tag then return (← es.readWriterProp range, none)
    else if tag.toNat = ClockSync.tag then return (← es.readClockSync range, none)
    else return (es, none)
  else return (es, some (← es.readEvent tag range))

end EventStream

theorem length_rest_lt {input payload rest : Bytes} (h : nextEntryPayload input = (.ok payload, rest)) (hne : ¬ payload.isEmpty) :
    rest.length < input.length := by
  unfold nextEntryPayload at h
  dsimp only at h
  split_ifs at h with hempty hsize hpayload
  · obtain ⟨hok, -⟩ := Prod.mk.inj h
    cases hok
    exact absurd rfl hne
  · cases h
  · cases h
  · obtain ⟨-, rfl⟩ := Prod.mk.inj h
    rw [List.length_drop, List.length_drop]
    omega

def nextEvent (es : EventStream) (input : Bytes) : Except ReadError (Option Event) × EventStream × Bytes :=
  match _hnext : nextEntryPayload input with
  | (.error e, rest) => (.error e, es, rest)
  | (.ok payload, rest) =>
    if _hne : payload.isEmpty then (.ok none, es, rest)
    else
      match es.readPayload payload with
      | .error e => (.error e, es, rest)
      | .ok (es', some event) => (.ok (some event), es', rest)
      | .ok (es', none) => nextEvent es' rest
termination_by input.length
decreasing_by exact length_rest_lt _hnext _hne

structure Handed where
  event : Event
  writer : WriterProp
  clockSync : ClockSync
  deriving DecidableEq

section NextEvent

variable {es es' : EventStream} {input payload rest : Bytes} {e : ReadError} {event : Event}

theorem nextEvent_error (h : nextEntryPayload input = (.error e, rest)) : nextEvent es input = (.error e, es, rest) := by
  rw [nextEvent]
  split
  · rename_i hnext
    obtain ⟨he, rfl⟩ := Prod.mk.inj (hnext.symm.trans h)
    cases he
    rfl
  · rename_i hnext
    rw [h] at hnext
    cases hnext

theorem nextEvent_end (h : nextEntryPayload input = (.ok [], rest)) : nextEvent es input = (.ok none, es, rest) := by
  rw [nextEvent]
  split
  · rename_i hnext
    rw [h] at hnext
    cases hnext
  · rename_i hnext
    obtain ⟨hpayload, rfl⟩ := Prod.mk.inj (hnext.symm.trans h)
    cases hpayload
    rfl

theorem nextEvent_payload (h : nextEntryPayload input = (.ok payload, rest)) (hne : payload ≠ []) :
    nextEvent es input =
      match es.readPayload payload with
      | .error e => (.error e, es, rest)
      | .ok (es', some event) => (.ok (some event), es', rest)
      | .ok (es', none) => nextEvent es' rest := by
  rw [nextEvent]
  split
  · rename_i hnext
    rw [h] at hnext
    cases hnext
  · rename_i hnext
    obtain ⟨hpayload, rfl⟩ := Prod.mk.inj (hnext.symm.trans h)
    cases hpayload
    rw [dif_neg fun hempty => hne (List.isEmpty_iff.1 hempty)]

/-- An event takes at least its size from the input. -/
theorem length_nextEvent_lt (es : EventStream) (input : Bytes) (h : nextEvent es input = (.ok (some event), es', rest)) :
    rest.length < input.length := by
  induction hn : input.length using Nat.strongRecOn generalizing es input with
  | ind n ih =>
    subst hn
    cases hnext : nextEntryPayload input with
    | mk r left =>
      cases r with
      | error e =>
        rw [nextEvent_error hnext] at h
        cases h
      | ok payload =>
        by_cases hempty : payload = []
        · rw [nextEvent_end (hempty ▸ hnext)] at h
          cases h
        · have hlt := length_rest_lt hnext fun hnil => hempty (List.isEmpty_iff.1 hnil)
          rw [nextEvent_payload hnext hempty] at h
          split at h
          · cases h
          · cases h
            exact hlt
          · exact Nat.lt_trans (ih left.length hlt _ left h rfl) hlt

end NextEvent

/-- What `nextEvent` hands out, called until the end of the input or an error, and that error. -/
def readEvents (es : EventStream) (input : Bytes) : List Handed × Option ReadError :=
  match _hnext : nextEvent es input with
  | (.error e, _, _) => ([], some e)
  | (.ok none, _, _) => ([], none)
  | (.ok (some event), es', rest) =>
    let r := readEvents es' rest
    (⟨event, es'.writerProp, es'.clockSync⟩ :: r.1, r.2)
termination_by input.length
decreasing_by exact length_nextEvent_lt es input _hnext

section ReadEvents

variable {es es' : EventStream} {input rest : Bytes} {e : ReadError} {event : Event}

theorem readEvents_error (h : nextEvent es input = (.error e, es', rest)) : readEvents es input = ([], some e) := by
  rw [readEvents]
  split
  all_goals
    rename_i hnext
    rw [h] at hnext
    cases hnext
  rfl

theorem readEvents_end (h : nextEvent es input = (.ok none, es', rest)) : readEvents es input = ([], none) := by
  rw [readEvents]
  split
  · rename_i hnext
    rw [h] at hnext
    cases hnext
  · rfl
  · rename_i hnext
    rw [h] at hnext
    cases hnext

theorem readEvents_event (h : nextEvent es input = (.ok (some event), es', rest)) :
    readEvents es input =
      (⟨event, es'.writerProp, es'.clockSync⟩ :: (readEvents es' rest).1, (readEvents es' rest).2) := by
  rw [readEvents]
  split
  all_goals
    rename_i hnext
    rw [h] at hnext
    cases hnext
  rfl

/-- Two inputs from which the same comes next are read alike. -/
theorem readEvents_congr {es₁ es₂ : EventStream} {input₁ input₂ : Bytes} (h : nextEvent es₁ input₁ = nextEvent es₂ input₂) :
    readEvents es₁ input₁ = readEvents es₂ input₂ := by
  cases hnext : nextEvent es₂ input₂ with
  | mk r left =>
    obtain ⟨es', rest⟩ := left
    cases r with
    | error e => rw [readEvents_error (h.trans hnext), readEvents_error hnext]
    | ok next =>
      cases next with
      | none => rw [readEvents_end (h.trans hnext), readEvents_end hnext]
      | some event => rw [readEvents_event (h.trans hnext), readEvents_event hnext]

end ReadEvents

def EventStream.take (es : EventStream) : Item → EventStream
  | .eventSource s => { es with eventSources := es.eventSources.emplace s.id.toNat s }
  | .writerProp w => { es with writerProp := w }
  | .clockSync c => { es with clockSync := c }
  | .event _ => es

/-- The events among entries, up to one whose source is not among the sources before it. -/
def handedItems (es : EventStream) : List Item → List Handed × Option ReadError
  | [] => ([], none)
  | .event e :: items =>
    match es.eventSources.find e.eventSourceId.toNat with
    | none => ([], some (.invalidSourceId e.eventSourceId.toNat))
    | some source =>
      let r := handedItems es items
      (⟨⟨source, e.clock, e.args⟩, es.writerProp, es.clockSync⟩ :: r.1, r.2)
  | i :: items => handedItems (es.take i) items

section Items

variable {es : EventStream} {i : Item} {rest : Bytes}

theorem nextEntryPayload_item (h : i.Fits) (rest : Bytes) : nextEntryPayload (i.bytes ++ rest) = (.ok i.payload, rest) := by
  obtain ⟨hbytes, hlt⟩ := bytes_eq h
  have hlength : (littleEndian 4 i.payload.length).length = 4 := length_littleEndian 4 _
  rw [hbytes, List.append_assoc]
  unfold nextEntryPayload
  rw [List.take_left' hlength, List.drop_left' hlength, value_of_lt hlt]
  dsimp only
  have hsize : 4 ≤ (littleEndian 4 i.payload.length ++ (i.payload ++ rest)).length := by
    rw [List.length_append, hlength]
    omega
  have hpayload : ¬ (i.payload ++ rest).length < i.payload.length := by
    rw [List.length_append]
    omega
  rw [if_neg (by rw [List.isEmpty_iff]; intro hnil; rw [hnil] at hsize; exact absurd hsize (by decide)), if_neg (Nat.not_lt.2 hsize),
    if_neg hpayload, List.take_left, List.drop_left]

theorem readPayload_tag {tag : ℕ} {range : Bytes} {r : Except ReadError (EventStream × Option Event)} (htag : tag < 2 ^ 64)
    (h : (if tag.testBit 63 then
        if tag = EventSource.tag then (do return (← es.readEventSource range, none))
        else if tag = WriterProp.tag then (do return (← es.readWriterProp range, none))
        else if tag = ClockSync.tag then (do return (← es.readClockSync range, none))
        else return (es, none)
      else (do return (es, some (← es.readEvent (UInt64.ofNat tag) range)))) = r) :
    es.readPayload (littleEndian 8 tag ++ range) = r := by
  have htoNat : (UInt64.ofNat tag).toNat = tag := UInt64.toNat_ofNat_of_lt' htag
  have hread := reads_uint64 (UInt64.ofNat tag) range
  rw [htoNat] at hread
  unfold EventStream.readPayload
  rw [hread]
  change (if (UInt64.ofNat tag).toNat.testBit 63 then _ else _) = r
  rw [htoNat]
  exact h

theorem readPayload_special (h : i.Fits) (hspecial : ∀ e, i ≠ .event e) : es.readPayload i.payload = .ok (es.take i, none) := by
  cases i with
  | event e => exact absurd rfl (hspecial e)
  | eventSource s =>
    refine readPayload_tag (by decide) ?_
    rw [if_pos (by decide), if_pos rfl]
    unfold EventStream.readEventSource
    rw [(reads_eventSource (Nat.lt_of_le_of_lt (Nat.le_add_right _ 8) h)).run]
    rfl
  | writerProp w =>
    refine readPayload_tag (by decide) ?_
    rw [if_pos (by decide), if_neg (by decide), if_pos rfl]
    unfold EventStream.readWriterProp
    rw [(reads_writerProp (Nat.lt_of_le_of_lt (Nat.le_add_right _ 8) h)).run]
    rfl
  | clockSync c =>
    refine readPayload_tag (by decide) ?_
    rw [if_pos (by decide), if_neg (by decide), if_neg (by decide), if_pos rfl]
    unfold EventStream.readClockSync
    rw [(reads_clockSync (Nat.lt_of_le_of_lt (Nat.le_add_right _ 8) h)).run]
    rfl

theorem readPayload_event {e : EventEntry} (h : Item.Fits (.event e)) :
    es.readPayload (Item.payload (.event e)) =
      match es.eventSources.find e.eventSourceId.toNat with
      | none => .error (.invalidSourceId e.eventSourceId.toNat)
      | some source => .ok (es, some ⟨source, e.clock, e.args⟩) := by
  refine readPayload_tag e.eventSourceId.toNat_lt ?_
  rw [if_neg (by rw [Nat.testBit_lt_two_pow h.2]; exact Bool.false_ne_true), UInt64.ofNat_toNat]
  unfold EventStream.readEvent
  cases es.eventSources.find e.eventSourceId.toNat with
  | none => rfl
  | some source =>
    dsimp only
    rw [reads_uint64 e.clock e.args]
    rfl

theorem readEvents_nil (es : EventStream) : readEvents es [] = ([], none) :=
  readEvents_end (nextEvent_end rfl)

theorem readEvents_special (h : i.Fits) (hspecial : ∀ e, i ≠ .event e) (rest : Bytes) :
    readEvents es (i.bytes ++ rest) = readEvents (es.take i) rest := by
  refine readEvents_congr ?_
  rw [nextEvent_payload (nextEntryPayload_item h rest) (payload_ne_nil i), readPayload_special h hspecial]

theorem readEvents_entry {e : EventEntry} (h : Item.Fits (.event e)) (rest : Bytes) :
    readEvents es (Item.bytes (.event e) ++ rest) =
      match es.eventSources.find e.eventSourceId.toNat with
      | none => ([], some (.invalidSourceId e.eventSourceId.toNat))
      | some source =>
        (⟨⟨source, e.clock, e.args⟩, es.writerProp, es.clockSync⟩ :: (readEvents es rest).1, (readEvents es rest).2) := by
  have hnext : nextEvent es (Item.bytes (.event e) ++ rest) = _ :=
    nextEvent_payload (nextEntryPayload_item h rest) (payload_ne_nil _)
  rw [readPayload_event h] at hnext
  cases hfind : es.eventSources.find e.eventSourceId.toNat with
  | none =>
    rw [hfind] at hnext
    exact readEvents_error hnext
  | some source =>
    rw [hfind] at hnext
    exact readEvents_event hnext

end Items

/-- Where the entries are followed by something else, and the sources of the events are known, it is read after them. -/
theorem readEvents_append (items : List Item) (hfits : ∀ i ∈ items, i.Fits) (es : EventStream) (rest : Bytes) :
    readEvents es (items.flatMap Item.bytes ++ rest) =
      match (handedItems es items).2 with
      | some e => ((handedItems es items).1, some e)
      | none => ((handedItems es items).1 ++ (readEvents (items.foldl EventStream.take es) rest).1,
        (readEvents (items.foldl EventStream.take es) rest).2) := by
  induction items generalizing es with
  | nil => rfl
  | cons i items ih =>
    obtain ⟨hi, hitems⟩ := List.forall_mem_cons.1 hfits
    rw [List.flatMap_cons, List.append_assoc, List.foldl_cons]
    cases i with
    | event e =>
      rw [readEvents_entry hi, handedItems]
      cases es.eventSources.find e.eventSourceId.toNat with
      | none => rfl
      | some source =>
        dsimp only
        rw [ih hitems]
        cases (handedItems es items).2 <;> rfl
    | _ =>
      rw [readEvents_special hi (by nofun), ih hitems]
      rfl

theorem readEvents_items {items : List Item} (hfits : ∀ i ∈ items, i.Fits) (es : EventStream) :
    readEvents es (items.flatMap Item.bytes) = handedItems es items := by
  have happend := readEvents_append items hfits es []
  rw [List.append_nil, readEvents_nil] at happend
  rw [happend]
  cases hresult : handedItems es items with
  | mk handed error =>
    cases error with
    | none => exact congrArg (fun l => (l, none)) (List.append_nil handed)
    | some e => rfl

def cutError (i : Item) (m : ℕ) : Option ReadError :=
  if m = 0 then none else if m < 4 then some (.entrySize m) else some (.entryPayload (m - 4) i.payload.length)

theorem readEvents_cut {i : Item} (h : i.Fits) {m : ℕ} (hm : m < i.bytes.length) (es : EventStream) :
    readEvents es (i.bytes.take m) = ([], cutError i m) := by
  obtain ⟨hbytes, hlt⟩ := bytes_eq h
  have hlength : (littleEndian 4 i.payload.length).length = 4 := length_littleEndian 4 _
  have htake : (i.bytes.take m).length = m := by
    rw [List.length_take]
    omega
  have hempty : (i.bytes.take m).isEmpty = true ↔ m = 0 := by
    rw [List.isEmpty_iff, ← List.length_eq_zero_iff, htake]
  unfold cutError
  split_ifs with hzero hsize
  · rw [hzero, List.take_zero]
    exact readEvents_nil es
  · have hnext : nextEntryPayload (i.bytes.take m) = (.error (.entrySize m), i.bytes.take m) := by
      unfold nextEntryPayload
      rw [if_neg fun hnil => hzero (hempty.1 hnil), htake, if_pos hsize]
    exact readEvents_error (nextEvent_error hnext)
  · have hfront : (i.bytes.take m).take 4 = littleEndian 4 i.payload.length := by
      rw [List.take_take, Nat.min_eq_left (Nat.not_lt.1 hsize), hbytes, List.take_left' hlength]
    have hnext : nextEntryPayload (i.bytes.take m) = (.error (.entryPayload (m - 4) i.payload.length), i.bytes.take m) := by
      rw [hbytes, List.length_append, hlength] at hm
      unfold nextEntryPayload
      rw [if_neg fun hnil => hzero (hempty.1 hnil), htake, if_neg hsize]
      dsimp only
      rw [hfront, value_of_lt hlt, List.length_drop, htake, if_pos (by omega)]
    exact readEvents_error (nextEvent_error hnext)

theorem exists_cut (items : List Item) {n : ℕ} (hn : n < (items.flatMap Item.bytes).length) :
    ∃ whole i after m, items = whole ++ i :: after ∧ m < i.bytes.length ∧ (whole.flatMap Item.bytes).length + m = n ∧
      (items.flatMap Item.bytes).take n = whole.flatMap Item.bytes ++ i.bytes.take m := by
  induction items generalizing n with
  | nil => exact absurd hn (Nat.not_lt_zero n)
  | cons i items ih =>
    rw [List.flatMap_cons, List.length_append] at hn
    rcases Nat.lt_or_ge n i.bytes.length with hlt | hge
    · refine ⟨[], i, items, n, rfl, hlt, Nat.zero_add n, ?_⟩
      rw [List.flatMap_cons, List.take_append_of_le_length (Nat.le_of_lt hlt)]
      rfl
    · obtain ⟨whole, j, after, m, rfl, hm, hsum, htake⟩ := ih (n := n - i.bytes.length) (by omega)
      refine ⟨i :: whole, j, after, m, rfl, hm, ?_, ?_⟩
      · rw [List.flatMap_cons, List.length_append]
        omega
      · rw [List.flatMap_cons, List.take_append, List.take_of_length_le hge, htake, List.flatMap_cons, List.append_assoc]

/-- Of a stream that is cut anywhere the events of the whole entries are handed out. Where the sources of these are
known, the error says how much of the next entry is there; where no entry is cut, there is none. -/
theorem cut_anywhere (items : List Item) (hfits : ∀ i ∈ items, i.Fits) (es : EventStream) (n : ℕ)
    (hn : n < (items.flatMap Item.bytes).length) :
    ∃ whole i after m, items = whole ++ i :: after ∧ m < i.bytes.length ∧ (whole.flatMap Item.bytes).length + m = n ∧
      readEvents es ((items.flatMap Item.bytes).take n) =
        ((handedItems es whole).1, (handedItems es whole).2.or (cutError i m)) := by
  obtain ⟨whole, i, after, m, rfl, hm, hsum, htake⟩ := exists_cut items hn
  obtain ⟨hwhole, hrest⟩ := List.forall_mem_append.1 hfits
  refine ⟨whole, i, after, m, rfl, hm, hsum, ?_⟩
  rw [htake, readEvents_append whole hwhole, readEvents_cut (hrest i List.mem_cons_self) hm]
  cases (handedItems es whole).2 with
  | none => rw [List.append_nil, Option.none_or]
  | some e => rw [Option.some_or]

def oneSource : EventSource := ⟨1, 128, [], [], [], 3, [123, 125], [105]⟩

def twoEvents : List Item := [.eventSource oneSource, .event ⟨1, 5, [7]⟩, .event ⟨1, 6, [8]⟩]

/-- The cut is ten bytes into the second event. -/
theorem cut_anywhere_twoEvents : readEvents .start ((twoEvents.flatMap Item.bytes).take 84) =
    ([⟨⟨oneSource, 5, [7]⟩, ⟨0, [], 0⟩, ⟨0, 0, 0, 0, []⟩⟩], some (.entryPayload 6 17)) := by
  obtain ⟨whole, i, after, m, hsplit, hm, hsum, hread⟩ := cut_anywhere twoEvents (by decide) .start 84 (by decide)
  have hwhole : whole = twoEvents.take whole.length := by rw [hsplit, List.take_left]
  have hshort : whole.length < twoEvents.length := by
    rw [hsplit, List.length_append, List.length_cons]
    omega
  have hi : twoEvents[whole.length]? = some i := by
    rw [hsplit, List.getElem?_append_right (Nat.le_refl _), Nat.sub_self]
    rfl
  generalize whole.length = k at hwhole hshort hi
  subst hwhole
  obtain rfl | rfl | rfl : k = 0 ∨ k = 1 ∨ k = 2 := by
    rw [show twoEvents.length = 3 from rfl] at hshort
    omega
  · cases hi
    rw [show (Item.eventSource oneSource).bytes.length = 53 by decide] at hm
    rw [show ((twoEvents.take 0).flatMap Item.bytes).length = 0 by decide] at hsum
    omega
  · cases hi
    rw [show (Item.event ⟨1, 5, [7]⟩).bytes.length = 21 by decide] at hm
    rw [show ((twoEvents.take 1).flatMap Item.bytes).length = 53 by decide] at hsum
    omega
  · cases hi
    rw [show ((twoEvents.take 2).flatMap Item.bytes).length = 74 by decide] at hsum
    obtain rfl : m = 10 := by omega
    rw [hread]
    rfl

end LoggerBenchmarks.BinlogEventStream
