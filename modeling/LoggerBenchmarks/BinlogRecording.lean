import LoggerBenchmarks.BinlogTransport
import LoggerBenchmarks.BinlogEventStream

set_option autoImplicit false

/-!
# The log files of a binlog session

`Session` with its event sources, its clock sync and the properties of its writers, and the
streams to which `consume` and `reconsumeMetadata` write. A log file is begun with
`reconsumeMetadata`; each is read back on its own.
-/
namespace LoggerBenchmarks.BinlogRecording
open LabelledRuns ByteReaders BinlogEntries BinlogEventStream BinlogQueue
open BinlogSession (Writer Consumer)
open BinlogSegmentedMap (SegmentedMap)

theorem serialize_ne_nil (e : EventEntry) : e.serialize ≠ [] := by
  intro hnil
  have hlength := congrArg List.length hnil
  simp only [EventEntry.serialize, List.length_append, length_littleEndian, List.length_nil] at hlength
  omega

def queued (e : EventEntry) : Entry UInt8 := ⟨e.serialize, serialize_ne_nil e⟩

/-- The id of the source, which stands behind the size. -/
def sourceOf (entry : Entry UInt8) : ℕ := value ((entry.bytes.drop 4).take 8)

theorem sourceOf_queued (e : EventEntry) : sourceOf (queued e) = e.eventSourceId.toNat := by
  unfold sourceOf queued EventEntry.serialize
  dsimp only
  rw [List.drop_left' (length_littleEndian 4 _), List.take_left' (length_littleEndian 8 _), value_of_lt e.eventSourceId.toNat_lt]

structure Producer where
  id : UInt64
  name : Bytes
  events : List EventEntry

/-- `props` are the ids and the names of the channels' `writerProp`; `added` are the sources in `sources`. -/
structure Recording where
  session : BinlogTransport.Session UInt8
  props : List (UInt64 × Bytes)
  sources : Bytes
  sourcesConsumePos : ℕ
  nextSourceId : ℕ
  clockSync : Bytes
  consumeClockSync : Bool
  added : List EventSource
  files : List Bytes
  out : Bytes

inductive Action where
  | addEventSource (eventSource : EventSource)
  | setClockSync (clockSync : ClockSync)
  | reconsumeMetadata (rotate : Bool)
  | session (a : BinlogTransport.Action)
  deriving DecidableEq

def messagesOf (producers : List Producer) : List (List (Entry UInt8)) := producers.map fun p => p.events.map queued

def start (capacity : ℕ → ℕ) (systemClockSync : ClockSync) (producers : List Producer) : Recording where
  session := BinlogTransport.start capacity 0 (messagesOf producers)
  props := producers.map fun p => (p.id, p.name)
  sources := []
  sourcesConsumePos := 0
  nextSourceId := 1
  clockSync := (Item.clockSync systemClockSync).bytes
  consumeClockSync := true
  added := []
  files := []
  out := []

namespace Recording

def prop (r : Recording) (i : ℕ) : UInt64 × Bytes := r.props[i]?.getD (0, [])

def writerProp (r : Recording) (i size : ℕ) : Item := .writerProp ⟨(r.prop i).1, (r.prop i).2, UInt64.ofNat size⟩

/-- An event is added after its source. -/
def permits (r : Recording) : BinlogTransport.Action → Bool
  | .writer p .beginWrite =>
    match r.session.writers[p]? with
    | some w =>
      match w.pending with
      | entry :: _ => decide (1 ≤ sourceOf entry ∧ sourceOf entry < r.nextSourceId)
      | [] => true
    | none => true
  | _ => true

def after (r : Recording) (session : BinlogTransport.Session UInt8) : BinlogTransport.Action → Recording
  | .consumer .lock =>
    { r with
      session := session
      out := r.out ++ ((if r.consumeClockSync then r.clockSync else []) ++ r.sources.drop r.sourcesConsumePos)
      consumeClockSync := false
      sourcesConsumePos := r.sources.length }
  | .consumer .copy =>
    match r.session.consumer with
    | .reading i _ =>
      match r.session.channels[i]? with
      | some slot =>
        { r with
          session := session
          out := r.out ++ ((r.writerProp i slot.channel.found.length).bytes ++ slot.channel.found) }
      | none => { r with session := session }
    | _ => { r with session := session }
  | .writer p .createChannel =>
    match r.session.writers[p]? with
    | some w => { r with session := session, props := r.props ++ [r.prop w.channel] }
    | none => { r with session := session }
  | _ => { r with session := session }

def step (r : Recording) : Action → Option Recording
  | .addEventSource eventSource =>
    if r.session.consumer = .unlocked then
      let eventSource := { eventSource with id := UInt64.ofNat r.nextSourceId }
      some { r with
        sources := r.sources ++ (Item.eventSource eventSource).bytes
        nextSourceId := r.nextSourceId + 1
        added := r.added ++ [eventSource] }
    else none
  | .setClockSync clockSync =>
    if r.session.consumer = .unlocked then
      some { r with clockSync := r.clockSync ++ (Item.clockSync clockSync).bytes, consumeClockSync := true }
    else none
  | .reconsumeMetadata rotate =>
    if r.session.consumer = .unlocked then
      let metadata := r.clockSync ++ r.sources.take r.sourcesConsumePos
      if rotate then some { r with files := r.files ++ [r.out], out := metadata }
      else some { r with out := r.out ++ metadata }
    else none
  | .session a => if r.permits a then (BinlogTransport.step 0 r.session a).map fun session => r.after session a else none

end Recording

def record (q : Handed) : (UInt64 × Bytes) × EventEntry :=
  ((q.writer.id, q.writer.name), ⟨q.event.source.id, q.event.clockValue, q.event.arguments⟩)

def lookup (items : List Item) (id : ℕ) : Option EventSource := (items.foldl EventStream.take .start).eventSources.find id

def Special (i : Item) : Prop := ∀ e, i ≠ .event e

section Handed

variable {es : EventStream} {items more : List Item} {events : List EventEntry}

theorem handedItems_append (h : (handedItems es items).2 = none) :
    handedItems es (items ++ more) = ((handedItems es items).1 ++ (handedItems (items.foldl EventStream.take es) more).1,
      (handedItems (items.foldl EventStream.take es) more).2) := by
  induction items generalizing es with
  | nil => rfl
  | cons i items ih =>
    rw [List.cons_append, List.foldl_cons]
    cases i with
    | event e =>
      rw [handedItems] at h ⊢
      rw [handedItems]
      cases hfind : es.eventSources.find e.eventSourceId.toNat with
      | none =>
        rw [hfind] at h
        cases h
      | some source =>
        rw [hfind] at h
        dsimp only
        rw [ih h]
        rfl
    | _ => exact ih h

theorem handedItems_special (h : ∀ i ∈ items, Special i) : handedItems es items = ([], none) := by
  induction items generalizing es with
  | nil => rfl
  | cons i items ih =>
    obtain ⟨hi, hitems⟩ := List.forall_mem_cons.1 h
    cases i with
    | event e => exact absurd rfl (hi e)
    | _ => exact ih hitems

theorem foldl_events (es : EventStream) (events : List EventEntry) :
    (events.map Item.event).foldl EventStream.take es = es := by
  induction events with
  | nil => rfl
  | cons e events ih => exact ih

/-- Events whose sources are known are handed under the properties of their writer. -/
theorem handedItems_events (es : EventStream) (sources : List EventSource) (events : List EventEntry)
    (h : ∀ e ∈ events, ∃ s ∈ sources, es.eventSources.find e.eventSourceId.toNat = some s ∧ s.id = e.eventSourceId) :
    (handedItems es (events.map Item.event)).2 = none ∧
      (handedItems es (events.map Item.event)).1.map record = events.map (fun e => ((es.writerProp.id, es.writerProp.name), e)) ∧
      ∀ q ∈ (handedItems es (events.map Item.event)).1, q.event.source ∈ sources := by
  induction events with
  | nil => exact ⟨rfl, rfl, nofun⟩
  | cons e events ih =>
    obtain ⟨⟨s, hs, hfind, hid⟩, hevents⟩ := List.forall_mem_cons.1 h
    obtain ⟨hclean, hrecords, hsources⟩ := ih hevents
    rw [List.map_cons, handedItems, hfind]
    refine ⟨hclean, ?_, List.forall_mem_cons.2 ⟨hs, hsources⟩⟩
    rw [List.map_cons, List.map_cons, hrecords]
    unfold record
    dsimp only
    rw [hid]

end Handed

def Numbered (sources : List EventSource) : Prop := ∀ (k : ℕ) (s : EventSource), sources[k]? = some s → s.id.toNat = k + 1

def metadata (syncs : List ClockSync) (sources : List EventSource) (k n : ℕ) : List Item :=
  syncs.map Item.clockSync ++ ((sources.drop k).take n).map Item.eventSource

section Metadata

variable {es : EventStream} {syncs : List ClockSync} {sources block : List EventSource} {k n : ℕ}

theorem special_metadata : ∀ i ∈ metadata syncs sources k n, Special i := by
  intro i hi e heq
  subst heq
  rcases List.mem_append.1 hi with hi | hi
  all_goals
    obtain ⟨x, -, hx⟩ := List.mem_map.1 hi
    cases hx

theorem fits_metadata (hsyncs : ∀ c ∈ syncs, (Item.clockSync c).Fits) (hsources : ∀ s ∈ sources, (Item.eventSource s).Fits) :
    ∀ i ∈ metadata syncs sources k n, i.Fits := by
  intro i hi
  rcases List.mem_append.1 hi with hi | hi
  · obtain ⟨c, hc, rfl⟩ := List.mem_map.1 hi
    exact hsyncs c hc
  · obtain ⟨s, hs, rfl⟩ := List.mem_map.1 hi
    exact hsources s (List.mem_of_mem_drop (List.mem_of_mem_take hs))

theorem find_syncs (es : EventStream) (syncs : List ClockSync) :
    ((syncs.map Item.clockSync).foldl EventStream.take es).eventSources = es.eventSources := by
  induction syncs generalizing es with
  | nil => rfl
  | cons c syncs ih => exact ih (es.take (.clockSync c))

theorem find_sources (hblock : ∀ (j : ℕ) (s : EventSource), block[j]? = some s → s.id.toNat = k + j + 1) (es : EventStream) (id : ℕ) :
    ((block.map Item.eventSource).foldl EventStream.take es).eventSources.find id =
      if k < id ∧ id ≤ k + block.length then block[id - k - 1]? else es.eventSources.find id := by
  induction block generalizing es k with
  | nil =>
    rw [if_neg]
    · rfl
    · rw [List.length_nil]
      omega
  | cons s block ih =>
    have hid : s.id.toNat = k + 1 := hblock 0 s rfl
    have hrest : ∀ (j : ℕ) (x : EventSource), block[j]? = some x → x.id.toNat = k + 1 + j + 1 := by
      intro j x hx
      rw [hblock (j + 1) x hx]
      omega
    rw [List.map_cons, List.foldl_cons, ih hrest, List.length_cons]
    change (if _ then _ else (es.eventSources.emplace s.id.toNat s).find id) = _
    rw [SegmentedMap.find_emplace, hid]
    by_cases hfirst : id = k + 1
    · subst hfirst
      rw [if_neg (by omega), if_pos rfl, if_pos (by omega), show k + 1 - k - 1 = 0 by omega]
      rfl
    · rw [if_neg hfirst]
      by_cases hin : k < id ∧ id ≤ k + (block.length + 1)
      · rw [if_pos (by omega), if_pos hin]
        obtain ⟨j, rfl⟩ : ∃ j, id = k + 1 + j + 1 := ⟨id - k - 2, by omega⟩
        rw [show k + 1 + j + 1 - (k + 1) - 1 = j by omega, show k + 1 + j + 1 - k - 1 = j + 1 by omega]
        rfl
      · rw [if_neg (by omega), if_neg hin]

theorem find_metadata (hsources : Numbered sources) (hn : k + n ≤ sources.length) (es : EventStream) (id : ℕ) :
    ((metadata syncs sources k n).foldl EventStream.take es).eventSources.find id =
      if k < id ∧ id ≤ k + n then sources[id - 1]? else es.eventSources.find id := by
  have hget : ∀ j, j < n → ((sources.drop k).take n)[j]? = sources[k + j]? := by
    intro j hj
    rw [List.getElem?_take_of_lt hj, List.getElem?_drop]
  have hlength : ((sources.drop k).take n).length = n := by
    rw [List.length_take, List.length_drop]
    omega
  unfold metadata
  rw [List.foldl_append, find_sources (k := k) ?_, find_syncs, hlength]
  · by_cases hin : k < id ∧ id ≤ k + n
    · rw [if_pos hin, if_pos hin, hget _ (by omega), show k + (id - k - 1) = id - 1 by omega]
    · rw [if_neg hin, if_neg hin]
  · intro j s hs
    obtain ⟨hj, -⟩ := List.getElem?_eq_some_iff.1 hs
    rw [hlength] at hj
    rw [hget j hj] at hs
    exact hsources (k + j) s hs

end Metadata

/-- A file has whole entries, and the reader knows the source of each event. -/
structure Holds (added : List EventSource) (file : Bytes) (items : List Item) : Prop where
  bytes : file = items.flatMap Item.bytes
  fits : ∀ i ∈ items, i.Fits
  clean : (handedItems .start items).2 = none
  sources : ∀ q ∈ (handedItems .start items).1, q.event.source ∈ added
  known : ∀ id s, lookup items id = some s → added[id - 1]? = some s

section Holds

variable {added : List EventSource} {file : Bytes} {items more : List Item} {syncs : List ClockSync} {k n : ℕ}

theorem holds_nil (added : List EventSource) : Holds added [] [] := ⟨rfl, nofun, rfl, nofun, nofun⟩

theorem Holds.mono (h : Holds added file items) (s : EventSource) : Holds (added ++ [s]) file items := by
  refine ⟨h.bytes, h.fits, h.clean, fun q hq => List.mem_append_left _ (h.sources q hq), fun id source hfind => ?_⟩
  have hknown := h.known id source hfind
  obtain ⟨hlength, -⟩ := List.getElem?_eq_some_iff.1 hknown
  rw [List.getElem?_append_left hlength, hknown]

theorem Holds.append (h : Holds added file items) (hfits : ∀ i ∈ more, i.Fits)
    (hclean : (handedItems (items.foldl EventStream.take .start) more).2 = none)
    (hsources : ∀ q ∈ (handedItems (items.foldl EventStream.take .start) more).1, q.event.source ∈ added)
    (hknown : ∀ id s, lookup (items ++ more) id = some s → added[id - 1]? = some s) :
    Holds added (file ++ more.flatMap Item.bytes) (items ++ more) := by
  have hhanded : handedItems .start (items ++ more) = _ := handedItems_append h.clean
  refine ⟨?_, List.forall_mem_append.2 ⟨h.fits, hfits⟩, ?_, ?_, hknown⟩
  · rw [h.bytes, List.flatMap_append]
  · rw [hhanded]
    exact hclean
  · rw [hhanded]
    exact List.forall_mem_append.2 ⟨h.sources, hsources⟩

theorem lookup_append (items more : List Item) (id : ℕ) :
    lookup (items ++ more) id = (more.foldl EventStream.take (items.foldl EventStream.take .start)).eventSources.find id := by
  unfold lookup
  rw [List.foldl_append]

theorem lookup_metadata (hnumbered : Numbered added) (hn : k + n ≤ added.length) (items : List Item) (id : ℕ) :
    lookup (items ++ metadata syncs added k n) id = if k < id ∧ id ≤ k + n then added[id - 1]? else lookup items id := by
  rw [lookup_append, find_metadata hnumbered hn]
  rfl

theorem Holds.metadata (h : Holds added file items) (hnumbered : Numbered added) (hn : k + n ≤ added.length)
    (hsyncs : ∀ c ∈ syncs, (Item.clockSync c).Fits) (hfits : ∀ s ∈ added, (Item.eventSource s).Fits) :
    Holds added (file ++ (metadata syncs added k n).flatMap Item.bytes) (items ++ metadata syncs added k n) ∧
      (handedItems .start (items ++ metadata syncs added k n)).1 = (handedItems .start items).1 := by
  have hspecial : handedItems (items.foldl EventStream.take .start) (BinlogRecording.metadata syncs added k n) = ([], none) :=
    handedItems_special special_metadata
  refine ⟨h.append (fits_metadata hsyncs hfits) (by rw [hspecial]) (by rw [hspecial]; nofun) fun id s hfind => ?_, ?_⟩
  · rw [lookup_metadata hnumbered hn] at hfind
    split_ifs at hfind
    · exact hfind
    · exact h.known id s hfind
  · rw [handedItems_append h.clean, hspecial, List.append_nil]

theorem Holds.batch (h : Holds added file items) {w : WriterProp} {events : List EventEntry} (hnumbered : Numbered added)
    (hw : (Item.writerProp w).Fits) (hevents : ∀ e ∈ events, (Item.event e).Fits)
    (hids : ∀ e ∈ events, ∃ s, lookup items e.eventSourceId.toNat = some s ∧ 1 ≤ e.eventSourceId.toNat) :
    Holds added (file ++ (Item.writerProp w :: events.map .event).flatMap Item.bytes)
        (items ++ (Item.writerProp w :: events.map .event)) ∧
      (handedItems .start (items ++ (Item.writerProp w :: events.map .event))).1.map record =
        (handedItems .start items).1.map record ++ events.map (fun e => ((w.id, w.name), e)) ∧
      ∀ id, lookup (items ++ (Item.writerProp w :: events.map .event)) id = lookup items id := by
  have hsame : ∀ id, lookup (items ++ (Item.writerProp w :: events.map .event)) id = lookup items id := by
    intro id
    rw [lookup_append, List.foldl_cons, foldl_events]
    rfl
  obtain ⟨hclean, hrecords, hsources⟩ :=
    handedItems_events ((items.foldl EventStream.take .start).take (.writerProp w)) added events
      fun e he => by
        obtain ⟨s, hfind, hpos⟩ := hids e he
        have hknown := h.known _ s hfind
        refine ⟨s, List.mem_of_getElem? hknown, hfind, ?_⟩
        have hid := hnumbered _ s hknown
        exact UInt64.toNat_inj.1 (by omega)
  refine ⟨h.append ?_ hclean hsources fun id s hfind => h.known id s (by rwa [hsame] at hfind), ?_, hsame⟩
  · refine List.forall_mem_cons.2 ⟨hw, fun i hi => ?_⟩
    obtain ⟨e, he, rfl⟩ := List.mem_map.1 hi
    exact hevents e he
  · rw [handedItems_append h.clean, List.map_append]
    exact congrArg _ hrecords

end Holds

def nameOf (producers : List Producer) (p : ℕ) : UInt64 × Bytes := (producers[p]?.map fun x => (x.id, x.name)).getD (0, [])

def Known (count : ℕ) (entry : Entry UInt8) : Prop :=
  ∃ e, entry = queued e ∧ (Item.event e).Fits ∧ 1 ≤ e.eventSourceId.toNat ∧ e.eventSourceId.toNat ≤ count

/-- What has been written. The first `k` sources are in a file, and during a consume all of them are in the current one;
`batches` are the events in the output, with the writers they are from. -/
structure Written (producers : List Producer) (r : Recording) (k : ℕ) (closed : List (List Item)) (items : List Item)
    (batches : List (ℕ × List EventEntry)) : Prop where
  position : k ≤ r.added.length
  consumed : r.sourcesConsumePos = (((r.added.take k).map Item.eventSource).flatMap Item.bytes).length
  locked : r.session.consumer ≠ .unlocked → k = r.added.length
  files : List.Forall₂ (Holds r.added) r.files closed
  current : Holds r.added r.out items
  complete : ∀ id, 1 ≤ id → id ≤ k → lookup items id = r.added[id - 1]?
  output : r.session.out = batches.map fun b => (b.1, bytesOf (b.2.map queued))
  events : ∀ b ∈ batches, b.1 < producers.length ∧ ∀ e ∈ b.2, (Item.event e).Fits
  handed : ((closed ++ [items]).flatMap fun l => (handedItems .start l).1).map record =
    batches.flatMap fun b => b.2.map fun e => (nameOf producers b.1, e)

structure Inv (capacity : ℕ → ℕ) (producers : List Producer) (r : Recording) : Prop where
  session : Reachable (BinlogTransport.step 0) (BinlogTransport.start capacity 0 (messagesOf producers)) r.session
  props : r.props = r.session.channels.map fun slot => nameOf producers slot.owner
  owners : ∀ slot ∈ r.session.channels, slot.owner < producers.length
  entries : ∀ slot ∈ r.session.channels, ∀ e ∈ BinlogTransport.entriesOf slot.channel, Known r.added.length e
  sources : r.sources = (r.added.map Item.eventSource).flatMap Item.bytes
  next : r.nextSourceId = r.added.length + 1
  numbered : Numbered r.added
  sized : ∀ s ∈ r.added, (Item.eventSource s).Fits
  few : r.added.length < 2 ^ 63
  clockSync : ∃ syncs : List ClockSync, r.clockSync = (syncs.map Item.clockSync).flatMap Item.bytes ∧
    ∀ c ∈ syncs, (Item.clockSync c).Fits
  written : ∃ k closed items batches, Written producers r k closed items batches

def Producer.Fits (p : Producer) : Prop :=
  (Item.writerProp ⟨p.id, p.name, 0⟩).Fits ∧ ∀ e ∈ p.events, e.size < 2 ^ 32

/-- What is added is sized too, and there are fewer than 2^63 sources. -/
def Bounded (r : Recording) : Action → Prop
  | .addEventSource s => (Item.eventSource s).Fits ∧ r.nextSourceId < 2 ^ 63
  | .setClockSync c => (Item.clockSync c).Fits
  | _ => True

instance (r : Recording) : (a : Action) → Decidable (Bounded r a)
  | .addEventSource s => inferInstanceAs (Decidable ((Item.eventSource s).Fits ∧ r.nextSourceId < 2 ^ 63))
  | .setClockSync c => inferInstanceAs (Decidable (Item.clockSync c).Fits)
  | .reconsumeMetadata _ | .session _ => inferInstanceAs (Decidable True)

section Inv

variable {capacity : ℕ → ℕ} {producers : List Producer} {r u : Recording}

theorem known_mono {m n : ℕ} (h : m ≤ n) {entry : Entry UInt8} (he : Known m entry) : Known n entry := by
  obtain ⟨e, heq, hfits, hpos, hle⟩ := he
  exact ⟨e, heq, hfits, hpos, hle.trans h⟩

theorem inv_addEventSource (h : Inv capacity producers r) {s : EventSource} (hfits : (Item.eventSource s).Fits)
    (hfew : r.nextSourceId < 2 ^ 63) (hs : r.step (.addEventSource s) = some u) : Inv capacity producers u := by
  simp only [Recording.step] at hs
  split_ifs at hs with hunlocked
  cases hs
  have hnext := h.next
  have hlength : (r.added ++ [{ s with id := UInt64.ofNat r.nextSourceId }]).length = r.added.length + 1 := by
    rw [List.length_append, List.length_singleton]
  obtain ⟨k, closed, items, batches, hw⟩ := h.written
  refine ⟨h.session, h.props, h.owners, fun slot hslot e he => ?_, ?_, ?_, ?_, ?_, ?_, h.clockSync, k, closed, items, batches, ?_⟩
  · refine known_mono ?_ (h.entries slot hslot e he)
    dsimp only
    omega
  · dsimp only
    rw [h.sources, List.map_append, List.flatMap_append, List.map_singleton, List.flatMap_singleton]
  · dsimp only
    omega
  · intro j x hx
    dsimp only at hx
    rcases Nat.lt_or_ge j r.added.length with hlt | hge
    · rw [List.getElem?_append_left hlt] at hx
      exact h.numbered j x hx
    · rw [List.getElem?_append_right hge] at hx
      obtain ⟨hinside, rfl⟩ := List.getElem?_eq_some_iff.1 hx
      rw [List.length_singleton] at hinside
      rw [List.getElem_singleton]
      have hid : (UInt64.ofNat r.nextSourceId).toNat = r.nextSourceId := UInt64.toNat_ofNat_of_lt' (hfew.trans (by decide))
      dsimp only
      omega
  · exact List.forall_mem_append.2 ⟨h.sized, List.forall_mem_singleton.2 hfits⟩
  · dsimp only
    omega
  · have hposition := hw.position
    refine ⟨?_, ?_, fun hlocked => absurd hunlocked hlocked, hw.files.imp fun _ _ hholds => hholds.mono _, hw.current.mono _,
      fun id hpos hle => ?_, hw.output, hw.events, hw.handed⟩
    · dsimp only
      omega
    · dsimp only
      rw [List.take_append_of_le_length hposition]
      exact hw.consumed
    · dsimp only
      rw [hw.complete id hpos hle, List.getElem?_append_left (by omega)]

theorem inv_setClockSync (h : Inv capacity producers r) {c : ClockSync} (hfits : (Item.clockSync c).Fits)
    (hs : r.step (.setClockSync c) = some u) : Inv capacity producers u := by
  simp only [Recording.step] at hs
  split_ifs at hs with hunlocked
  cases hs
  obtain ⟨syncs, hsyncs, hall⟩ := h.clockSync
  obtain ⟨k, closed, items, batches, hw⟩ := h.written
  refine ⟨h.session, h.props, h.owners, h.entries, h.sources, h.next, h.numbered, h.sized, h.few, ⟨syncs ++ [c], ?_, ?_⟩, k, closed, items,
    batches, hw.position, hw.consumed, hw.locked, hw.files, hw.current, hw.complete, hw.output, hw.events, hw.handed⟩
  · dsimp only
    rw [hsyncs, List.map_append, List.flatMap_append, List.map_singleton, List.flatMap_singleton]
  · exact List.forall_mem_append.2 ⟨hall, List.forall_mem_singleton.2 hfits⟩

/-- The bytes of the metadata from one place on. -/
theorem metadata_bytes (syncs : List ClockSync) (sources : List EventSource) (k n : ℕ) :
    (metadata syncs sources k n).flatMap Item.bytes =
      (syncs.map Item.clockSync).flatMap Item.bytes ++ (((sources.drop k).take n).map Item.eventSource).flatMap Item.bytes := by
  unfold metadata
  rw [List.flatMap_append]

theorem sources_split (h : Inv capacity producers r) {k : ℕ} :
    r.sources = ((r.added.take k).map Item.eventSource).flatMap Item.bytes ++
      ((r.added.drop k).map Item.eventSource).flatMap Item.bytes := by
  rw [h.sources, ← List.flatMap_append, ← List.map_append, List.take_append_drop]

theorem written_metadata (h : Inv capacity producers r) {k n : ℕ} {closed : List (List Item)} {file : Bytes} {items : List Item}
    {batches : List (ℕ × List EventEntry)} {syncs : List ClockSync} (hsyncs : ∀ c ∈ syncs, (Item.clockSync c).Fits)
    (hn : k + n ≤ r.added.length) (hcurrent : Holds r.added file items)
    (hhanded : ((closed ++ [items]).flatMap fun l => (handedItems .start l).1).map record =
      batches.flatMap fun b => b.2.map fun e => (nameOf producers b.1, e)) :
    Holds r.added (file ++ (metadata syncs r.added k n).flatMap Item.bytes) (items ++ metadata syncs r.added k n) ∧
      ((closed ++ [items ++ metadata syncs r.added k n]).flatMap fun l => (handedItems .start l).1).map record =
        batches.flatMap fun b => b.2.map fun e => (nameOf producers b.1, e) := by
  obtain ⟨hholds, hsame⟩ := hcurrent.metadata h.numbered hn hsyncs h.sized
  refine ⟨hholds, ?_⟩
  rw [List.flatMap_append, List.flatMap_singleton, hsame]
  rw [List.flatMap_append, List.flatMap_singleton] at hhanded
  exact hhanded

theorem consumed_sources (h : Inv capacity producers r) {k : ℕ}
    (hconsumed : r.sourcesConsumePos = (((r.added.take k).map Item.eventSource).flatMap Item.bytes).length) :
    r.sources.take r.sourcesConsumePos = ((r.added.take k).map Item.eventSource).flatMap Item.bytes ∧
      r.sources.drop r.sourcesConsumePos = ((r.added.drop k).map Item.eventSource).flatMap Item.bytes := by
  rw [sources_split h (k := k), hconsumed]
  exact ⟨List.take_left, List.drop_left⟩

theorem inv_reconsumeMetadata (h : Inv capacity producers r) {rotate : Bool} (hs : r.step (.reconsumeMetadata rotate) = some u) :
    Inv capacity producers u := by
  obtain ⟨syncs, hsyncs, hall⟩ := h.clockSync
  obtain ⟨k, closed, items, batches, hw⟩ := h.written
  have hposition : 0 + k ≤ r.added.length := by
    have hle := hw.position
    omega
  have hmetadata : r.clockSync ++ r.sources.take r.sourcesConsumePos = (metadata syncs r.added 0 k).flatMap Item.bytes := by
    rw [metadata_bytes, hsyncs, (consumed_sources h hw.consumed).1, List.drop_zero]
  have hcomplete : ∀ (items : List Item) id, 1 ≤ id → id ≤ k → lookup (items ++ metadata syncs r.added 0 k) id = r.added[id - 1]? := by
    intro items id hpos hle
    rw [lookup_metadata h.numbered hposition, if_pos (by omega)]
  simp only [Recording.step] at hs
  split_ifs at hs with hunlocked hrotate
  · cases hs
    have hhanded : (((closed ++ [items]) ++ [[]]).flatMap fun l => (handedItems .start l).1).map record =
        batches.flatMap fun b => b.2.map fun e => (nameOf producers b.1, e) := by
      rw [List.flatMap_append, List.flatMap_singleton]
      exact (congrArg _ (List.append_nil _)).trans hw.handed
    obtain ⟨hholds, hsame⟩ := written_metadata h hall hposition (holds_nil r.added) hhanded
    rw [List.nil_append, List.nil_append, ← hmetadata] at hholds
    refine ⟨h.session, h.props, h.owners, h.entries, h.sources, h.next, h.numbered, h.sized, h.few, h.clockSync, k, closed ++ [items],
      metadata syncs r.added 0 k, batches, hw.position, hw.consumed, fun hlocked => absurd hunlocked hlocked, ?_, hholds,
      hcomplete [], hw.output, hw.events, hsame⟩
    exact List.rel_append hw.files (.cons hw.current .nil)
  · cases hs
    obtain ⟨hholds, hsame⟩ := written_metadata h hall hposition hw.current hw.handed
    rw [← hmetadata] at hholds
    exact ⟨h.session, h.props, h.owners, h.entries, h.sources, h.next, h.numbered, h.sized, h.few, h.clockSync, k, closed,
      items ++ metadata syncs r.added 0 k, batches, hw.position, hw.consumed, fun hlocked => absurd hunlocked hlocked, hw.files, hholds,
      hcomplete items, hw.output, hw.events, hsame⟩

/-- What a writer has still to add are events of its producer. -/
theorem pending_queued (h : Inv capacity producers r) (hproducers : ∀ x ∈ producers, x.Fits) {p : ℕ} {w : Writer (Entry UInt8)}
    (hw : r.session.writers[p]? = some w) {entry : Entry UInt8} (hentry : entry ∈ w.attempts.map Prod.fst ++ w.pending) :
    ∃ e, entry = queued e ∧ e.size < 2 ^ 32 := by
  have hattempted := congrArg (fun l => l[p]?) (BinlogTransport.reached_attempted h.session)
  rw [List.getElem?_map, hw, messagesOf, List.getElem?_map, Option.map_some] at hattempted
  obtain ⟨x, hx, hevents⟩ := Option.map_eq_some_iff.1 hattempted.symm
  rw [← hevents] at hentry
  obtain ⟨e, he, rfl⟩ := List.mem_map.1 hentry
  exact ⟨e, rfl, (hproducers x (List.mem_of_getElem? hx)).2 e he⟩

theorem entries_session (h : Inv capacity producers r) (hproducers : ∀ x ∈ producers, x.Fits) {a : BinlogTransport.Action}
    {channels : List (BinlogTransport.Slot UInt8)} (hpermits : r.permits a = true)
    (hchanges : BinlogTransport.Changes 0 r.session a channels) :
    ∀ slot ∈ channels, ∀ e ∈ BinlogTransport.entriesOf slot.channel, Known r.added.length e := by
  intro slot hslot e he
  cases hchanges with
  | kept hne heq =>
    rw [heq] at hslot
    exact h.entries slot hslot e he
  | changed hne j old new hold heq howner hentries =>
    rw [heq] at hslot
    rcases List.mem_or_eq_of_mem_set hslot with hslot | rfl
    · exact h.entries slot hslot e he
    · rcases hentries e he with he | ⟨p, w, rest, rfl, hw, hpending⟩
      · exact h.entries old (List.mem_of_getElem? hold) e he
      · obtain ⟨x, rfl, hsize⟩ := pending_queued h hproducers hw
          (List.mem_append_right _ (hpending ▸ List.mem_cons_self))
        simp only [Recording.permits, hw, hpending] at hpermits
        obtain ⟨hpos, hlt⟩ := of_decide_eq_true hpermits
        have hnext := h.next
        have hfew := h.few
        rw [sourceOf_queued] at hpos hlt
        exact ⟨x, rfl, ⟨hsize, by omega⟩, hpos, by omega⟩
  | created p capacity w old ha hw hphase hold heq =>
    rw [heq] at hslot
    rcases List.mem_append.1 hslot with hslot | hslot
    · exact h.entries slot hslot e he
    · rw [List.mem_singleton.1 hslot] at he
      cases he

theorem props_kept (h : Inv capacity producers r) {a : BinlogTransport.Action} {channels : List (BinlogTransport.Slot UInt8)}
    (hchanges : BinlogTransport.Changes 0 r.session a channels) (hne : ∀ p, a ≠ .writer p .createChannel) :
    r.props = channels.map fun slot => nameOf producers slot.owner := by
  cases hchanges with
  | kept hne heq => rw [heq, h.props]
  | changed hne j old new hold heq howner hentries =>
    rw [heq, h.props]
    exact (ListUpdates.map_set_same hold (by rw [howner])).symm
  | created p capacity w old ha => exact absurd ha (hne p)

theorem owners_session (h : Inv capacity producers r) {a : BinlogTransport.Action} {channels : List (BinlogTransport.Slot UInt8)}
    (hchanges : BinlogTransport.Changes 0 r.session a channels) : ∀ slot ∈ channels, slot.owner < producers.length := by
  intro slot hslot
  cases hchanges with
  | kept hne heq =>
    rw [heq] at hslot
    exact h.owners slot hslot
  | changed hne j old new hold heq howner hentries =>
    rw [heq] at hslot
    rcases List.mem_or_eq_of_mem_set hslot with hslot | rfl
    · exact h.owners slot hslot
    · rw [howner]
      exact h.owners old (List.mem_of_getElem? hold)
  | created p capacity w old ha hw hphase hold heq =>
    rw [heq] at hslot
    rcases List.mem_append.1 hslot with hslot | hslot
    · exact h.owners slot hslot
    · obtain ⟨hlength, -⟩ := List.getElem?_eq_some_iff.1 hw
      have hattempted := congrArg List.length (BinlogTransport.reached_attempted h.session)
      rw [List.length_map, messagesOf, List.length_map] at hattempted
      rw [List.mem_singleton.1 hslot, ← hattempted]
      exact hlength

theorem prop_eq (h : Inv capacity producers r) {i : ℕ} {slot : BinlogTransport.Slot UInt8} (hslot : r.session.channels[i]? = some slot) :
    r.prop i = nameOf producers slot.owner := by
  unfold Recording.prop
  rw [h.props, List.getElem?_map, hslot]
  rfl

/-- The session moves on, and nothing is written. -/
theorem inv_keeps (h : Inv capacity producers r) {session : BinlogTransport.Session UInt8} {props : List (UInt64 × Bytes)}
    (hreach : Reachable (BinlogTransport.step 0) (BinlogTransport.start capacity 0 (messagesOf producers)) session)
    (hprops : props = session.channels.map fun slot => nameOf producers slot.owner)
    (howners : ∀ slot ∈ session.channels, slot.owner < producers.length)
    (hentries : ∀ slot ∈ session.channels, ∀ e ∈ BinlogTransport.entriesOf slot.channel, Known r.added.length e)
    (hlocked : session.consumer ≠ .unlocked → r.session.consumer ≠ .unlocked) (hout : session.out = r.session.out) :
    Inv capacity producers { r with session := session, props := props } := by
  obtain ⟨k, closed, items, batches, hw⟩ := h.written
  exact ⟨hreach, hprops, howners, hentries, h.sources, h.next, h.numbered, h.sized, h.few, h.clockSync, k, closed, items, batches,
    hw.position, hw.consumed, fun hlock => hw.locked (hlocked hlock), hw.files, hw.current, hw.complete, hout.trans hw.output,
    hw.events, hw.handed⟩

theorem inv_writer (h : Inv capacity producers r) (hproducers : ∀ x ∈ producers, x.Fits) {p : ℕ} {a : BinlogTransport.WriterAction}
    {session : BinlogTransport.Session UInt8} (hpermits : r.permits (.writer p a) = true)
    (hs : BinlogTransport.step 0 r.session (.writer p a) = some session) : Inv capacity producers (r.after session (.writer p a)) := by
  have hchanges := BinlogTransport.changes_step hs
  have hentries := entries_session h hproducers hpermits hchanges
  have howners := owners_session h hchanges
  have hreach := h.session.tail hs
  have hkeeps : session.consumer = r.session.consumer ∧ session.out = r.session.out := by
    obtain ⟨w, slot, -, -, heffect⟩ := BinlogTransport.step_writer hs
    exact BinlogTransport.writer_keeps heffect
  have hlocked : session.consumer ≠ .unlocked → r.session.consumer ≠ .unlocked := by
    rw [hkeeps.1]
    exact id
  cases a with
  | createChannel =>
    cases hchanges with
    | kept hne heq | changed hne j old new hold heq howner hentries => exact absurd rfl (hne p)
    | created q capacity w old ha hw hphase hold heq =>
      obtain ⟨rfl, -⟩ := BinlogTransport.Action.writer.inj ha
      obtain ⟨t, -, hsim⟩ := BinlogTransport.sim_run 0 (BinlogTransport.sim_start _ 0 _) h.session
      obtain ⟨howner, -⟩ := BinlogTransport.owner_of_adds hsim hw (.inl hphase) hold
      have hprops : r.props ++ [r.prop w.channel] = session.channels.map fun slot => nameOf producers slot.owner := by
        rw [heq, List.map_append, ← h.props, prop_eq h hold, howner]
        rfl
      unfold Recording.after
      simp only [hw]
      exact inv_keeps h hreach hprops howners hentries hlocked hkeeps.2
  | _ =>
    refine inv_keeps h hreach (props_kept h hchanges ?_) howners hentries hlocked hkeeps.2
    intro q hq
    cases hq

theorem inv_lock (h : Inv capacity producers r) {session : BinlogTransport.Session UInt8}
    (hpermits : r.permits (.consumer .lock) = true) (hproducers : ∀ x ∈ producers, x.Fits)
    (hs : BinlogTransport.step 0 r.session (.consumer .lock) = some session) :
    Inv capacity producers (r.after session (.consumer .lock)) := by
  have hstep : BinlogTransport.consumerStep r.session .lock = some session := hs
  obtain ⟨hchanges, hconsumes⟩ := BinlogTransport.changes_consumer (0 : UInt8) (BinlogTransport.consumerStep_cases hstep)
  obtain ⟨syncs, hsyncs, hall⟩ := h.clockSync
  obtain ⟨k, closed, items, batches, hw⟩ := h.written
  have hposition := hw.position
  have hn : k + (r.added.length - k) ≤ r.added.length := by omega
  let written := if r.consumeClockSync then syncs else []
  have hwritten : ∀ c ∈ written, (Item.clockSync c).Fits := by
    intro c hc
    by_cases hconsume : r.consumeClockSync = true
    · exact hall c (by rwa [show written = syncs from if_pos hconsume] at hc)
    · rw [show written = [] from if_neg hconsume] at hc
      cases hc
  have hbytes : (if r.consumeClockSync then r.clockSync else []) ++ r.sources.drop r.sourcesConsumePos =
      (metadata written r.added k (r.added.length - k)).flatMap Item.bytes := by
    have hsync : (written.map Item.clockSync).flatMap Item.bytes = if r.consumeClockSync then r.clockSync else [] := by
      by_cases hconsume : r.consumeClockSync = true
      · rw [if_pos hconsume, hsyncs, show written = syncs from if_pos hconsume]
      · rw [if_neg hconsume, show written = [] from if_neg hconsume]
        rfl
    rw [metadata_bytes, hsync, (consumed_sources h hw.consumed).2, List.take_of_length_le (by rw [List.length_drop])]
  obtain ⟨hholds, hsame⟩ := written_metadata h hwritten hn hw.current hw.handed
  rw [← hbytes] at hholds
  refine ⟨h.session.tail hs, props_kept h hchanges nofun, owners_session h hchanges, entries_session h hproducers hpermits hchanges,
    h.sources, h.next, h.numbered, h.sized, h.few, ⟨syncs, hsyncs, hall⟩, r.added.length, closed, _, batches, le_rfl, ?_, fun _ => rfl, hw.files, hholds,
    fun id hpos hle => ?_, (hconsumes.out nofun).trans hw.output, hw.events, hsame⟩
  · dsimp only [Recording.after]
    rw [h.sources, List.take_length]
  · dsimp only [Recording.after]
    rw [lookup_metadata h.numbered hn]
    split_ifs with hin
    · rfl
    · exact hw.complete id hpos (by omega)

theorem known_list {n : ℕ} {entries : List (Entry UInt8)} (h : ∀ e ∈ entries, Known n e) :
    ∃ events : List EventEntry, entries = events.map queued ∧
    ∀ e ∈ events, (Item.event e).Fits ∧ 1 ≤ e.eventSourceId.toNat ∧ e.eventSourceId.toNat ≤ n := by
  induction entries with
  | nil => exact ⟨[], rfl, nofun⟩
  | cons entry entries ih =>
    obtain ⟨⟨e, rfl, he⟩, hentries⟩ := List.forall_mem_cons.1 h
    obtain ⟨events, rfl, hevents⟩ := ih hentries
    exact ⟨e :: events, rfl, List.forall_mem_cons.2 ⟨he, hevents⟩⟩

theorem bytes_events (events : List EventEntry) : (events.map Item.event).flatMap Item.bytes = bytesOf (events.map queued) := by
  rw [bytesOf, List.flatMap_map, List.flatMap_map]
  rfl

theorem fits_nameOf (hproducers : ∀ x ∈ producers, x.Fits) (p : ℕ) (size : UInt64) :
    (Item.writerProp ⟨(nameOf producers p).1, (nameOf producers p).2, size⟩).Fits := by
  unfold nameOf
  cases hx : producers[p]? with
  | none =>
    change 8 + (4 + 0) + 8 + 8 < 2 ^ 32
    decide
  | some x => exact (hproducers x (List.mem_of_getElem? hx)).1

theorem inv_copy (h : Inv capacity producers r) {session : BinlogTransport.Session UInt8}
    (hpermits : r.permits (.consumer .copy) = true) (hproducers : ∀ x ∈ producers, x.Fits)
    (hs : BinlogTransport.step 0 r.session (.consumer .copy) = some session) :
    Inv capacity producers (r.after session (.consumer .copy)) := by
  have hstep : BinlogTransport.consumerStep r.session .copy = some session := hs
  obtain ⟨hchanges, hconsumes⟩ := BinlogTransport.changes_consumer (0 : UInt8) (BinlogTransport.consumerStep_cases hstep)
  obtain ⟨i, isClosed, slot, readEnd, hconsumer, hslot, hloaded, hout⟩ := hconsumes.copied rfl
  obtain ⟨k, closed, items, batches, hw⟩ := h.written
  have hk : k = r.added.length := hw.locked (by rw [hconsumer]; nofun)
  obtain ⟨t, -, hsim⟩ := BinlogTransport.sim_run 0 (BinlogTransport.sim_start _ 0 _) h.session
  have hslotmem := List.mem_of_getElem? hslot
  have hfront : ∀ e ∈ slot.channel.stored.take slot.channel.due, Known r.added.length e := fun e he =>
    h.entries slot hslotmem e (List.mem_append_left _ (List.mem_of_mem_take he))
  obtain ⟨events, hevents, hknown⟩ := known_list hfront
  have hfound : slot.channel.found = bytesOf (events.map queued) := by
    unfold Channel.found
    rw [hloaded]
    dsimp only
    rw [(BinlogTransport.found_eq (hsim.queues slot hslotmem) hloaded).1, hevents]
  let size := UInt64.ofNat slot.channel.found.length
  have hname : r.writerProp i slot.channel.found.length =
      .writerProp ⟨(nameOf producers slot.owner).1, (nameOf producers slot.owner).2, size⟩ := by
    unfold Recording.writerProp
    rw [prop_eq h hslot]
  have hids : ∀ e ∈ events, ∃ s, lookup items e.eventSourceId.toNat = some s ∧ 1 ≤ e.eventSourceId.toNat := by
    intro e he
    obtain ⟨-, hpos, hle⟩ := hknown e he
    have hfind := hw.complete e.eventSourceId.toNat hpos (by omega)
    rw [List.getElem?_eq_getElem (by omega)] at hfind
    exact ⟨_, hfind, hpos⟩
  obtain ⟨hholds, hrecords, hsame⟩ := hw.current.batch h.numbered (fits_nameOf hproducers slot.owner size)
    (fun e he => (hknown e he).1) hids
  rw [← hname] at hholds hrecords hsame
  rw [List.flatMap_cons, bytes_events, ← hfound] at hholds
  have hafter : r.after session (.consumer .copy) = { r with
      session := session
      out := r.out ++ ((r.writerProp i slot.channel.found.length).bytes ++ slot.channel.found) } := by
    simp only [Recording.after, hconsumer, hslot]
  rw [hafter]
  refine ⟨h.session.tail hs, props_kept h hchanges nofun, owners_session h hchanges, entries_session h hproducers hpermits hchanges,
    h.sources, h.next, h.numbered, h.sized, h.few, h.clockSync, k, closed, _, batches ++ [(slot.owner, events)], hw.position, hw.consumed, fun _ => hk,
    hw.files, hholds, fun id hpos hle => ?_, ?_, ?_, ?_⟩
  · dsimp only
    rw [hsame]
    exact hw.complete id hpos hle
  · dsimp only
    rw [hout, hw.output, hfound, List.map_append, List.map_singleton]
  · exact List.forall_mem_append.2 ⟨hw.events, List.forall_mem_singleton.2 ⟨h.owners slot hslotmem, fun e he => (hknown e he).1⟩⟩
  · have hhanded := hw.handed
    rw [List.flatMap_append, List.flatMap_singleton, List.map_append] at hhanded ⊢
    rw [hrecords, ← List.append_assoc, hhanded, List.flatMap_append, List.flatMap_singleton]

theorem inv_consumer (h : Inv capacity producers r) (hproducers : ∀ x ∈ producers, x.Fits) {a : BinlogTransport.ConsumerAction}
    {session : BinlogTransport.Session UInt8} (hpermits : r.permits (.consumer a) = true)
    (hs : BinlogTransport.step 0 r.session (.consumer a) = some session) : Inv capacity producers (r.after session (.consumer a)) := by
  have hstep : BinlogTransport.consumerStep r.session a = some session := hs
  obtain ⟨hchanges, hconsumes⟩ := BinlogTransport.changes_consumer (0 : UInt8) (BinlogTransport.consumerStep_cases hstep)
  have hlocked : a ≠ .lock → session.consumer ≠ .unlocked → r.session.consumer ≠ .unlocked :=
    fun hne _ => hconsumes.locked.resolve_left hne
  cases a with
  | lock => exact inv_lock h hpermits hproducers hs
  | copy => exact inv_copy h hpermits hproducers hs
  | _ =>
    exact inv_keeps h (h.session.tail hs) (props_kept h hchanges nofun) (owners_session h hchanges) (entries_session h hproducers hpermits hchanges)
      (hlocked nofun) (hconsumes.out nofun)

theorem inv_step (hproducers : ∀ x ∈ producers, x.Fits) (h : Inv capacity producers r) {a : Action} (ha : Bounded r a)
    (hs : r.step a = some u) : Inv capacity producers u := by
  cases a with
  | addEventSource s => exact inv_addEventSource h ha.1 ha.2 hs
  | setClockSync c => exact inv_setClockSync h ha hs
  | reconsumeMetadata rotate => exact inv_reconsumeMetadata h hs
  | session a =>
    simp only [Recording.step] at hs
    split_ifs at hs with hpermits
    obtain ⟨session, hsession, rfl⟩ := Option.map_eq_some_iff.1 hs
    cases a with
    | writer p a => exact inv_writer h hproducers hpermits hsession
    | consumer a => exact inv_consumer h hproducers hpermits hsession

theorem inv_start (capacity : ℕ → ℕ) {systemClockSync : ClockSync} (hclock : (Item.clockSync systemClockSync).Fits)
    (producers : List Producer) : Inv capacity producers (start capacity systemClockSync producers) := by
  have hslot : ∀ (j : ℕ) (slot : BinlogTransport.Slot UInt8),
      (start capacity systemClockSync producers).session.channels[j]? = some slot → slot = .start (capacity j) 0 j ∧ j < producers.length := by
    intro j slot hslot
    obtain ⟨hlength, -⟩ := List.getElem?_eq_some_iff.1 hslot
    have hcount : (start capacity systemClockSync producers).session.channels.length = producers.length := by
      unfold start BinlogTransport.start messagesOf
      dsimp only
      rw [List.length_mapIdx, List.length_map]
    exact ⟨BinlogTransport.start_slot hslot, hcount ▸ hlength⟩
  refine ⟨.refl _, List.ext_getElem? fun j => ?_, fun slot hmem => ?_, fun slot hmem e he => ?_, rfl, rfl, nofun, nofun, Nat.two_pow_pos 63,
    ⟨[systemClockSync], ?_, List.forall_mem_singleton.2 hclock⟩, 0, [], [], [], le_rfl, rfl, fun hlocked => absurd rfl hlocked,
    .nil, holds_nil _, fun id hpos hle => by omega, rfl, nofun, rfl⟩
  · unfold start BinlogTransport.start messagesOf nameOf
    dsimp only
    rw [List.getElem?_map, List.getElem?_map, List.getElem?_mapIdx, List.getElem?_map]
    cases hx : producers[j]? with
    | none => rfl
    | some x =>
      change some (x.id, x.name) = some ((producers[j]?.map fun x => (x.id, x.name)).getD (0, []))
      rw [hx]
      rfl
  · obtain ⟨j, hj⟩ := List.mem_iff_getElem?.1 hmem
    obtain ⟨rfl, hlt⟩ := hslot j slot hj
    exact hlt
  · obtain ⟨j, hj⟩ := List.mem_iff_getElem?.1 hmem
    rw [(hslot j slot hj).1] at he
    cases he
  · rw [List.map_singleton, List.flatMap_singleton]
    rfl

theorem inv_run {systemClockSync : ClockSync} (hclock : (Item.clockSync systemClockSync).Fits)
    (hproducers : ∀ x ∈ producers, x.Fits) {v : Recording} {tr : List (Recording × Action)}
    (hrun : Run Recording.step (start capacity systemClockSync producers) tr v) (hbounded : ∀ e ∈ tr, Bounded e.1 e.2) :
    Inv capacity producers v :=
  hrun.invariant_along Bounded (Inv capacity producers) (inv_start capacity hclock producers)
    (fun _ _ _ h ha hs => inv_step hproducers h ha hs) hbounded v (List.mem_append_right _ (List.mem_singleton_self v))

end Inv

def Framed (entry : Entry UInt8) : Prop := value (entry.bytes.take 4) + 4 = entry.bytes.length

theorem framed_queued {e : EventEntry} (h : e.size < 2 ^ 32) : Framed (queued e) := by
  unfold Framed queued EventEntry.serialize
  dsimp only
  rw [List.take_left' (length_littleEndian 4 _), value_of_lt h]
  simp only [List.length_append, length_littleEndian]
  unfold EventEntry.size
  omega

theorem bytesOf_injective {xs ys : List (Entry UInt8)} (hxs : ∀ x ∈ xs, Framed x) (hys : ∀ y ∈ ys, Framed y)
    (h : bytesOf xs = bytesOf ys) : xs = ys := by
  induction xs generalizing ys with
  | nil => exact (bytesOf_eq_nil h.symm).symm
  | cons x xs ih =>
    obtain ⟨hx, hxs⟩ := List.forall_mem_cons.1 hxs
    cases ys with
    | nil => exact bytesOf_eq_nil h
    | cons y ys =>
      obtain ⟨hy, hys⟩ := List.forall_mem_cons.1 hys
      unfold Framed at hx hy
      change x.bytes ++ bytesOf xs = y.bytes ++ bytesOf ys at h
      have hfront := congrArg (List.take 4) h
      rw [List.take_append_of_le_length (by omega), List.take_append_of_le_length (by omega)] at hfront
      have hlength : x.bytes.length = y.bytes.length := by rw [← hx, ← hy, hfront]
      obtain ⟨hbytes, hrest⟩ := List.append_inj h hlength
      have hsame : x = y := by
        cases x
        cases y
        cases hbytes
        rfl
      rw [hsame, ih hxs hys hrest]

def Recording.logfiles (r : Recording) : List Bytes := r.files ++ [r.out]

def handedIn (logfiles : List Bytes) : List Handed := logfiles.flatMap fun file => (readEvents .start file).1

/-- The entries that are read back under an id and a name. -/
def readBack (logfiles : List Bytes) (producer : Producer) : List (Entry UInt8) :=
  (((handedIn logfiles).map record).filter fun q => q.1 = (producer.id, producer.name)).map fun q => queued q.2

section ReadBack

variable {capacity : ℕ → ℕ} {producers : List Producer} {r v : Recording}

theorem Holds.read {added : List EventSource} {file : Bytes} {items : List Item} (h : Holds added file items) :
    readEvents .start file = handedItems .start items := by
  rw [h.bytes, readEvents_items h.fits .start]

theorem exists_holds {added : List EventSource} {files : List Bytes} {contents : List (List Item)}
    (h : List.Forall₂ (Holds added) files contents) : ∀ file ∈ files, ∃ items, Holds added file items := by
  induction h with
  | nil => nofun
  | cons hfile _ ih => exact List.forall_mem_cons.2 ⟨⟨_, hfile⟩, ih⟩

theorem handedIn_eq {added : List EventSource} {files : List Bytes} {contents : List (List Item)}
    (h : List.Forall₂ (Holds added) files contents) :
    handedIn files = contents.flatMap fun items => (handedItems .start items).1 := by
  induction h with
  | nil => rfl
  | cons hfile _ ih =>
    rw [List.flatMap_cons, ← ih, ← hfile.read]
    rfl

theorem nameOf_iff (hnames : (producers.map fun x => (x.id, x.name)).Nodup) {p q : ℕ} {producer : Producer}
    (hp : producers[p]? = some producer) (hq : q < producers.length) :
    nameOf producers q = (producer.id, producer.name) ↔ q = p := by
  have hget : (producers.map fun x => (x.id, x.name))[q]? = some (nameOf producers q) := by
    unfold nameOf
    rw [List.getElem?_map, List.getElem?_eq_getElem hq]
    rfl
  have hself : (producers.map fun x => (x.id, x.name))[p]? = some (producer.id, producer.name) := by
    rw [List.getElem?_map, hp]
    rfl
  constructor
  · intro hsame
    refine (List.getElem?_inj (by rwa [List.length_map]) hnames).1 ?_
    rw [hget, hself, hsame]
  · rintro rfl
    exact Option.some.inj (hget.symm.trans hself)

/-- What is read back under the name of a writer are the events of its batches. -/
theorem readBack_eq (hnames : (producers.map fun x => (x.id, x.name)).Nodup) {k : ℕ} {closed : List (List Item)} {items : List Item}
    {batches : List (ℕ × List EventEntry)} (h : Written producers v k closed items batches) {p : ℕ} {producer : Producer}
    (hp : producers[p]? = some producer) :
    readBack v.logfiles producer = batches.flatMap fun b => if b.1 = p then b.2.map queued else [] := by
  have hcontents : List.Forall₂ (Holds v.added) v.logfiles (closed ++ [items]) := List.rel_append h.files (.cons h.current .nil)
  unfold readBack
  rw [handedIn_eq hcontents, h.handed, List.filter_flatMap, List.map_flatMap]
  refine List.flatMap_congr fun b hb => ?_
  have hiff := nameOf_iff hnames hp (h.events b hb).1
  rw [List.filter_map, List.map_map]
  by_cases hown : b.1 = p
  · rw [if_pos hown]
    exact congrArg _ (List.filter_eq_self.2 fun e _ => decide_eq_true (hiff.2 hown))
  · rw [if_neg hown]
    exact congrArg _ (List.filter_eq_nil_iff.2 fun e _ => fun htrue => hown (hiff.1 (of_decide_eq_true htrue)))

theorem bytes_readBack (hnames : (producers.map fun x => (x.id, x.name)).Nodup) (h : Inv capacity producers v) {p : ℕ}
    {producer : Producer} (hp : producers[p]? = some producer) :
    bytesOf (readBack v.logfiles producer) = v.session.output p ∧ ∀ e ∈ readBack v.logfiles producer, Framed e := by
  obtain ⟨k, closed, items, batches, hw⟩ := h.written
  rw [readBack_eq hnames hw hp]
  constructor
  · unfold bytesOf BinlogTransport.Session.output
    rw [hw.output, List.flatMap_map, List.flatMap_assoc]
    refine List.flatMap_congr fun b _ => ?_
    dsimp only
    split_ifs <;> rfl
  · intro e he
    obtain ⟨b, hb, he⟩ := List.mem_flatMap.1 he
    split_ifs at he
    · obtain ⟨x, hx, rfl⟩ := List.mem_map.1 he
      exact framed_queued ((hw.events b hb).2 x hx).1
    · cases he

/-- Under the name of each writer its accepted events are read back, up to one from which on they are in its channels. -/
theorem readBack_account (hproducers : ∀ x ∈ producers, x.Fits) (hnames : (producers.map fun x => (x.id, x.name)).Nodup)
    (h : Inv capacity producers v) {p : ℕ} {producer : Producer} (hp : producers[p]? = some producer) {w : Writer (Entry UInt8)}
    (hw : v.session.writers[p]? = some w) :
    ∃ n, readBack v.logfiles producer = w.accepted.take n ∧ v.session.unread p = w.accepted.drop n := by
  obtain ⟨n, houtput, hunread⟩ := BinlogTransport.reached_account h.session hw
  obtain ⟨hbytes, hframed⟩ := bytes_readBack hnames h hp
  refine ⟨n, bytesOf_injective hframed (fun e he => ?_) (hbytes.trans houtput), hunread⟩
  obtain ⟨x, hx, rfl⟩ := List.mem_map.1 (List.mem_of_mem_take he)
  obtain ⟨y, hy, hsize⟩ := pending_queued h hproducers hw
    (List.mem_append_left _ (List.mem_map.2 ⟨x, (List.mem_filter.1 hx).1, rfl⟩))
  rw [hy]
  exact framed_queued hsize

theorem session_run {tr : List (Recording × Action)} (hrun : Run Recording.step r tr v) :
    Reachable (BinlogTransport.step 0) r.session v.session := by
  induction hrun with
  | refl _ => exact .refl _
  | @next s u v a tr hs _ ih =>
    have hstep : u.session = s.session ∨ ∃ b, BinlogTransport.step 0 s.session b = some u.session := by
      cases a with
      | addEventSource | setClockSync =>
        simp only [Recording.step] at hs
        split_ifs at hs
        cases hs
        exact .inl rfl
      | reconsumeMetadata rotate =>
        simp only [Recording.step] at hs
        split_ifs at hs
        all_goals
          cases hs
          exact .inl rfl
      | session b =>
        simp only [Recording.step] at hs
        split_ifs at hs
        obtain ⟨session, hsession, rfl⟩ := Option.map_eq_some_iff.1 hs
        refine .inr ⟨b, ?_⟩
        rw [hsession]
        unfold Recording.after
        split
        · rfl
        · split
          · split <;> rfl
          · rfl
        · split <;> rfl
        · rfl
    rcases hstep with hsame | ⟨b, hb⟩
    · rw [← hsame]
      exact ih
    · exact Reachable.trans ⟨_, .single hb⟩ ih

end ReadBack

/-- In every run in which the sizes fit their fields, each log file is read back without an error: the source of an event
stands before it, in a file that a rotation began too. Under the id and the name of a writer exactly its accepted events are
read back, in order and over all files, up to one from which on they are in its channels. -/
theorem read_back (capacity : ℕ → ℕ) (systemClockSync : ClockSync) (hclock : (Item.clockSync systemClockSync).Fits)
    (producers : List Producer) (hproducers : ∀ x ∈ producers, x.Fits) (hnames : (producers.map fun x => (x.id, x.name)).Nodup)
    (v : Recording) (tr : List (Recording × Action)) (hrun : Run Recording.step (start capacity systemClockSync producers) tr v)
    (hbounded : ∀ e ∈ tr, Bounded e.1 e.2) :
    (∀ file ∈ v.logfiles, (readEvents .start file).2 = none) ∧ (∀ q ∈ handedIn v.logfiles, v.added[q.event.source.id.toNat - 1]? = some q.event.source) ∧
      ∀ (p : ℕ) (producer : Producer) (w : Writer (Entry UInt8)), producers[p]? = some producer → v.session.writers[p]? = some w →
        ∃ n, readBack v.logfiles producer = w.accepted.take n ∧ v.session.unread p = w.accepted.drop n := by
  have hinv := inv_run hclock hproducers hrun hbounded
  obtain ⟨k, closed, items, batches, hwritten⟩ := hinv.written
  have hcontents : List.Forall₂ (Holds v.added) v.logfiles (closed ++ [items]) :=
    List.rel_append hwritten.files (.cons hwritten.current .nil)
  refine ⟨fun file hfile => ?_, fun q hq => ?_, fun p producer w hp hw => readBack_account hproducers hnames hinv hp hw⟩
  · obtain ⟨contents, hholds⟩ := exists_holds hcontents file hfile
    rw [hholds.read]
    exact hholds.clean
  · obtain ⟨file, hfile, hq⟩ := List.mem_flatMap.1 hq
    obtain ⟨contents, hholds⟩ := exists_holds hcontents file hfile
    rw [hholds.read] at hq
    obtain ⟨j, hj⟩ := List.mem_iff_getElem?.1 (hholds.sources q hq)
    rw [hinv.numbered j _ hj]
    exact hj

def ticker : Producer := ⟨1, [116], [⟨1, 5, [7]⟩, ⟨1, 6, [8]⟩]⟩

def utc : ClockSync := ⟨0, 1, 0, 0, []⟩

def tickSource : EventSource := ⟨0, 128, [], [], [], 3, [123, 125], [105]⟩

def adding (placing : List BinlogTransport.WriterAction) : List Action :=
  (.beginWrite :: (placing ++ List.replicate 21 .writeBuffer ++ [.endWrite])).map fun a => .session (.writer 0 a)

def consuming : List Action :=
  ([.check, .beginRead, .copy, .endRead, .next, .unlock] : List BinlogTransport.ConsumerAction).map fun a => .session (.consumer a)

/-- Between the first consume and the second event a new log file is begun. -/
def rotating : List Action :=
  [.addEventSource tickSource] ++ adding [.load, .maximize] ++ [.session (.consumer .lock)] ++ consuming ++ [.reconsumeMetadata true] ++ adding []

def rotated : Recording := (exec Recording.step (start (fun _ => 64) utc [ticker]) rotating).get (by decide +kernel)

theorem rotated_run : Run Recording.step (start (fun _ => 64) utc [ticker]) (trace Recording.step (start (fun _ => 64) utc [ticker]) rotating) rotated :=
  run_of_exec _ _ rotating (Option.some_get _).symm

theorem rotated_bounded : ∀ e ∈ trace Recording.step (start (fun _ => 64) utc [ticker]) rotating, Bounded e.1 e.2 := by decide +kernel

theorem read_back_rotated :
    (∀ file ∈ rotated.logfiles, (readEvents .start file).2 = none) ∧
      (∀ q ∈ handedIn rotated.logfiles, rotated.added[q.event.source.id.toNat - 1]? = some q.event.source) ∧
      ∀ (p : ℕ) (producer : Producer) (w : Writer (Entry UInt8)), [ticker][p]? = some producer →
        rotated.session.writers[p]? = some w →
        ∃ n, readBack rotated.logfiles producer = w.accepted.take n ∧ rotated.session.unread p = w.accepted.drop n :=
  read_back (fun _ => 64) utc (by decide) [ticker] (List.forall_mem_singleton.2 ⟨by decide, by decide⟩) (by decide) rotated _
    rotated_run rotated_bounded

/-- After a consume that begins when no writer has an event to add, everything that was accepted is in the files. -/
theorem all_read_back (capacity : ℕ → ℕ) (systemClockSync : ClockSync) (hclock : (Item.clockSync systemClockSync).Fits)
    (producers : List Producer) (hproducers : ∀ x ∈ producers, x.Fits) (hnames : (producers.map fun x => (x.id, x.name)).Nodup)
    (r r' v : Recording) (tr tr' : List (Recording × Action))
    (hrun : Run Recording.step (start capacity systemClockSync producers) tr r) (hbounded : ∀ e ∈ tr, Bounded e.1 e.2)
    (hquiet : ∀ w ∈ r.session.writers, w.pending = []) (hlock : r.step (.session (.consumer .lock)) = some r')
    (hrest : Run Recording.step r' tr' v) (hbounded' : ∀ e ∈ tr', Bounded e.1 e.2) (hend : v.session.consumer = .unlocked) :
    ∀ (p : ℕ) (producer : Producer) (w : Writer (Entry UInt8)), producers[p]? = some producer → v.session.writers[p]? = some w →
      readBack v.logfiles producer = w.accepted := by
  have hinv := inv_run hclock hproducers hrun hbounded
  have hwhole := inv_run hclock hproducers (hrun.trans (.next hlock hrest))
    (List.forall_mem_append.2 ⟨hbounded, List.forall_mem_cons.2 ⟨trivial, hbounded'⟩⟩)
  intro p producer w hp hw
  obtain ⟨n, hread, hunread⟩ := readBack_account hproducers hnames hwhole hp hw
  simp only [Recording.step] at hlock
  split_ifs at hlock
  obtain ⟨session, hsession, rfl⟩ := Option.map_eq_some_iff.1 hlock
  have hnothing : w.accepted.drop n = [] :=
    hunread.symm.trans (BinlogTransport.unread_consumed hinv.session hquiet hsession (session_run hrest) hend)
  rw [hread, List.take_of_length_le (List.drop_eq_nil_iff.1 hnothing)]

def rotatedLocked : Recording := (rotated.step (.session (.consumer .lock))).get (by decide +kernel)

def finished : Recording := (exec Recording.step rotatedLocked consuming).get (by decide +kernel)

theorem rotated_quiet : ∀ w ∈ rotated.session.writers, w.pending = [] := by
  have hall : rotated.session.writers.all (fun w => w.pending.isEmpty) = true := by decide +kernel
  exact fun w hw => List.isEmpty_iff.1 (List.all_eq_true.1 hall w hw)

def finishedWriter : Writer (Entry UInt8) := finished.session.writers.head?.get (by decide +kernel)

theorem all_read_back_finished : readBack finished.logfiles ticker = finishedWriter.accepted :=
  all_read_back (fun _ => 64) utc (by decide) [ticker] (List.forall_mem_singleton.2 ⟨by decide, by decide⟩) (by decide) rotated rotatedLocked
    finished _ _ rotated_run rotated_bounded rotated_quiet (Option.some_get _).symm
    (run_of_exec _ rotatedLocked consuming (Option.some_get _).symm) (by decide +kernel) (by decide +kernel) 0 ticker finishedWriter
    rfl (List.head?_eq_getElem?.symm.trans (Option.some_get _).symm)

end LoggerBenchmarks.BinlogRecording
