import LoggerBenchmarks.ByteReaders

set_option autoImplicit false

/-!
# Entries of a binlog stream

The events and the special entries as they are serialized, each behind its size and its tag,
and `Range`, from which they are read back.
-/
namespace LoggerBenchmarks.BinlogEntries
open ByteReaders

abbrev Bytes := List UInt8

inductive ReadError where
  | rangeOverflow (s size : ℕ)
  | entrySize (got : ℕ)
  | entryPayload (got expected : ℕ)
  | invalidSourceId (id : ℕ)
  deriving DecidableEq

def ReadError.what : ReadError → String
  | .rangeOverflow s size => "Range overflow " ++ toString s ++ " > " ++ toString size
  | .entrySize got => "Failed to read entry size from istream, only got " ++ toString got ++ " bytes, expected 4"
  | .entryPayload got expected =>
    "Failed to read entry payload from istream, only got " ++ toString got ++ " bytes, expected " ++ toString expected
  | .invalidSourceId id => "Event has invalid source id: " ++ toString id

def view (size : ℕ) : Reader ReadError Bytes := fun range =>
  if range.length < size then .error (.rangeOverflow size range.length) else .ok (range.take size, range.drop size)

def readUInt64 : Reader ReadError UInt64 := (fun bytes => UInt64.ofNat (value bytes)) <$> view 8

def readUInt32 : Reader ReadError UInt32 := (fun bytes => UInt32.ofNat (value bytes)) <$> view 4

def readUInt16 : Reader ReadError UInt16 := (fun bytes => UInt16.ofNat (value bytes)) <$> view 2

def readString : Reader ReadError Bytes := do
  let size ← readUInt32
  view size.toNat

theorem reads_view {size : ℕ} {bytes : Bytes} (h : bytes.length = size) : Reads (view size) bytes bytes := by
  subst h
  intro rest
  have hlength : ¬ (bytes ++ rest).length < bytes.length := by
    rw [List.length_append]
    omega
  change (if (bytes ++ rest).length < bytes.length then _ else _) = _
  rw [if_neg hlength, List.take_left, List.drop_left]

theorem reads_uint64 (n : UInt64) : Reads readUInt64 (littleEndian 8 n.toNat) n := by
  have hread := (reads_view (length_littleEndian 8 n.toNat)).map fun bytes => UInt64.ofNat (value bytes)
  rwa [value_of_lt n.toNat_lt, UInt64.ofNat_toNat] at hread

theorem reads_uint32 (n : UInt32) : Reads readUInt32 (littleEndian 4 n.toNat) n := by
  have hread := (reads_view (length_littleEndian 4 n.toNat)).map fun bytes => UInt32.ofNat (value bytes)
  rwa [value_of_lt n.toNat_lt, UInt32.ofNat_toNat] at hread

theorem reads_uint16 (n : UInt16) : Reads readUInt16 (littleEndian 2 n.toNat) n := by
  have hread := (reads_view (length_littleEndian 2 n.toNat)).map fun bytes => UInt16.ofNat (value bytes)
  rwa [value_of_lt n.toNat_lt, UInt16.ofNat_toNat] at hread

/-- The size is cut to 32 bits, and so are the bytes that follow it. -/
def serializeString (s : Bytes) : Bytes := littleEndian 4 s.length ++ s.take (s.length % 2 ^ 32)

def stringSize (s : Bytes) : ℕ := 4 + s.length

theorem length_serializeString {s : Bytes} (h : stringSize s < 2 ^ 32) : (serializeString s).length = stringSize s := by
  unfold stringSize at h
  have hmod : s.length % 2 ^ 32 = s.length := Nat.mod_eq_of_lt (by omega)
  rw [serializeString, hmod, List.take_length, List.length_append, length_littleEndian, stringSize]

theorem reads_string {s : Bytes} (h : stringSize s < 2 ^ 32) : Reads readString (serializeString s) s := by
  unfold stringSize at h
  have hlt : s.length < 2 ^ 32 := by omega
  have hsize : (UInt32.ofNat s.length).toNat = s.length := UInt32.toNat_ofNat_of_lt' hlt
  rw [serializeString, Nat.mod_eq_of_lt hlt, List.take_length]
  have hread := reads_uint32 (UInt32.ofNat s.length)
  rw [hsize] at hread
  exact hread.bind (reads_view hsize.symm)

structure EventSource where
  id : UInt64
  severity : UInt16
  category : Bytes
  function : Bytes
  file : Bytes
  line : UInt64
  formatString : Bytes
  argumentTags : Bytes
  deriving DecidableEq

structure WriterProp where
  id : UInt64
  name : Bytes
  batchSize : UInt64
  deriving DecidableEq

/-- `tzOffset` is a signed number, of which the bits are kept. -/
structure ClockSync where
  clockValue : UInt64
  clockFrequency : UInt64
  nsSinceEpoch : UInt64
  tzOffset : UInt32
  tzName : Bytes
  deriving DecidableEq

structure EventEntry where
  eventSourceId : UInt64
  clock : UInt64
  args : Bytes
  deriving DecidableEq

namespace EventSource

def tag : ℕ := 2 ^ 64 - 1

def serialize (s : EventSource) : Bytes :=
  littleEndian 8 s.id.toNat ++ littleEndian 2 s.severity.toNat ++ serializeString s.category ++ serializeString s.function ++
    serializeString s.file ++ littleEndian 8 s.line.toNat ++ serializeString s.formatString ++ serializeString s.argumentTags

def serializedSize (s : EventSource) : ℕ :=
  8 + 2 + stringSize s.category + stringSize s.function + stringSize s.file + 8 + stringSize s.formatString +
    stringSize s.argumentTags

def deserialize : Reader ReadError EventSource := do
  let id ← readUInt64
  let severity ← readUInt16
  let category ← readString
  let function ← readString
  let file ← readString
  let line ← readUInt64
  let formatString ← readString
  let argumentTags ← readString
  pure ⟨id, severity, category, function, file, line, formatString, argumentTags⟩

end EventSource

namespace WriterProp

def tag : ℕ := 2 ^ 64 - 2

def serialize (w : WriterProp) : Bytes :=
  littleEndian 8 w.id.toNat ++ serializeString w.name ++ littleEndian 8 w.batchSize.toNat

def serializedSize (w : WriterProp) : ℕ := 8 + stringSize w.name + 8

def deserialize : Reader ReadError WriterProp := do
  let id ← readUInt64
  let name ← readString
  let batchSize ← readUInt64
  pure ⟨id, name, batchSize⟩

end WriterProp

namespace ClockSync

def tag : ℕ := 2 ^ 64 - 3

def serialize (c : ClockSync) : Bytes :=
  littleEndian 8 c.clockValue.toNat ++ littleEndian 8 c.clockFrequency.toNat ++ littleEndian 8 c.nsSinceEpoch.toNat ++
    littleEndian 4 c.tzOffset.toNat ++ serializeString c.tzName

def serializedSize (c : ClockSync) : ℕ := 8 + 8 + 8 + 4 + stringSize c.tzName

def deserialize : Reader ReadError ClockSync := do
  let clockValue ← readUInt64
  let clockFrequency ← readUInt64
  let nsSinceEpoch ← readUInt64
  let tzOffset ← readUInt32
  let tzName ← readString
  pure ⟨clockValue, clockFrequency, nsSinceEpoch, tzOffset, tzName⟩

end ClockSync

theorem reads_eventSource {s : EventSource} (h : s.serializedSize < 2 ^ 32) : Reads EventSource.deserialize s.serialize s := by
  unfold EventSource.serializedSize at h
  unfold EventSource.serialize EventSource.deserialize
  simp only [List.append_assoc]
  refine (reads_uint64 s.id).bind ((reads_uint16 s.severity).bind ?_)
  refine (reads_string (by omega)).bind ((reads_string (by omega)).bind ((reads_string (by omega)).bind ?_))
  refine (reads_uint64 s.line).bind ((reads_string (by omega)).bind ?_)
  exact (reads_string (by omega)).last (.pure s)

theorem reads_writerProp {w : WriterProp} (h : w.serializedSize < 2 ^ 32) : Reads WriterProp.deserialize w.serialize w := by
  unfold WriterProp.serializedSize at h
  unfold WriterProp.serialize WriterProp.deserialize
  simp only [List.append_assoc]
  exact (reads_uint64 w.id).bind ((reads_string (by omega)).bind ((reads_uint64 w.batchSize).last (.pure w)))

theorem reads_clockSync {c : ClockSync} (h : c.serializedSize < 2 ^ 32) : Reads ClockSync.deserialize c.serialize c := by
  unfold ClockSync.serializedSize at h
  unfold ClockSync.serialize ClockSync.deserialize
  simp only [List.append_assoc]
  refine (reads_uint64 c.clockValue).bind ((reads_uint64 c.clockFrequency).bind ((reads_uint64 c.nsSinceEpoch).bind ?_))
  exact (reads_uint32 c.tzOffset).bind ((reads_string (by omega)).last (.pure c))

def sizePrefixedTagged (tag size : ℕ) (fields : Bytes) : Bytes := littleEndian 4 (size + 8) ++ (littleEndian 8 tag ++ fields)

def EventEntry.size (e : EventEntry) : ℕ := 8 + 8 + e.args.length

def EventEntry.serialize (e : EventEntry) : Bytes :=
  littleEndian 4 e.size ++ (littleEndian 8 e.eventSourceId.toNat ++ (littleEndian 8 e.clock.toNat ++ e.args))

inductive Item where
  | eventSource (s : EventSource)
  | writerProp (w : WriterProp)
  | clockSync (c : ClockSync)
  | event (e : EventEntry)
  deriving DecidableEq

def Item.bytes : Item → Bytes
  | .eventSource s => sizePrefixedTagged EventSource.tag s.serializedSize s.serialize
  | .writerProp w => sizePrefixedTagged WriterProp.tag w.serializedSize w.serialize
  | .clockSync c => sizePrefixedTagged ClockSync.tag c.serializedSize c.serialize
  | .event e => e.serialize

def Item.payload : Item → Bytes
  | .eventSource s => littleEndian 8 EventSource.tag ++ s.serialize
  | .writerProp w => littleEndian 8 WriterProp.tag ++ w.serialize
  | .clockSync c => littleEndian 8 ClockSync.tag ++ c.serialize
  | .event e => littleEndian 8 e.eventSourceId.toNat ++ (littleEndian 8 e.clock.toNat ++ e.args)

/-- The size fits its field, and the tag of an event is not that of a special entry. -/
def Item.Fits : Item → Prop
  | .eventSource s => s.serializedSize + 8 < 2 ^ 32
  | .writerProp w => w.serializedSize + 8 < 2 ^ 32
  | .clockSync c => c.serializedSize + 8 < 2 ^ 32
  | .event e => e.size < 2 ^ 32 ∧ e.eventSourceId.toNat < 2 ^ 63

instance : (i : Item) → Decidable i.Fits
  | .eventSource s => inferInstanceAs (Decidable (s.serializedSize + 8 < 2 ^ 32))
  | .writerProp w => inferInstanceAs (Decidable (w.serializedSize + 8 < 2 ^ 32))
  | .clockSync c => inferInstanceAs (Decidable (c.serializedSize + 8 < 2 ^ 32))
  | .event e => inferInstanceAs (Decidable (e.size < 2 ^ 32 ∧ e.eventSourceId.toNat < 2 ^ 63))

theorem length_serialize_eventSource {s : EventSource} (h : s.serializedSize < 2 ^ 32) :
    s.serialize.length = s.serializedSize := by
  unfold EventSource.serializedSize at h ⊢
  unfold EventSource.serialize
  simp only [List.length_append, length_littleEndian]
  rw [length_serializeString (s := s.category) (by omega), length_serializeString (s := s.function) (by omega),
    length_serializeString (s := s.file) (by omega), length_serializeString (s := s.formatString) (by omega),
    length_serializeString (s := s.argumentTags) (by omega)]

theorem length_serialize_writerProp {w : WriterProp} (h : w.serializedSize < 2 ^ 32) :
    w.serialize.length = w.serializedSize := by
  unfold WriterProp.serializedSize at h ⊢
  unfold WriterProp.serialize
  simp only [List.length_append, length_littleEndian]
  rw [length_serializeString (by omega)]

theorem length_serialize_clockSync {c : ClockSync} (h : c.serializedSize < 2 ^ 32) :
    c.serialize.length = c.serializedSize := by
  unfold ClockSync.serializedSize at h ⊢
  unfold ClockSync.serialize
  simp only [List.length_append, length_littleEndian]
  rw [length_serializeString (by omega)]

theorem bytes_eq {i : Item} (h : i.Fits) : i.bytes = littleEndian 4 i.payload.length ++ i.payload ∧ i.payload.length < 2 ^ 32 := by
  unfold Item.Fits at h
  unfold Item.bytes Item.payload
  cases i with
  | eventSource s =>
    dsimp only at h ⊢
    rw [sizePrefixedTagged, List.length_append, length_littleEndian, length_serialize_eventSource (by omega), Nat.add_comm 8]
    exact ⟨rfl, h⟩
  | writerProp w =>
    dsimp only at h ⊢
    rw [sizePrefixedTagged, List.length_append, length_littleEndian, length_serialize_writerProp (by omega), Nat.add_comm 8]
    exact ⟨rfl, h⟩
  | clockSync c =>
    dsimp only at h ⊢
    rw [sizePrefixedTagged, List.length_append, length_littleEndian, length_serialize_clockSync (by omega), Nat.add_comm 8]
    exact ⟨rfl, h⟩
  | event e =>
    dsimp only at h ⊢
    rw [List.length_append, List.length_append, length_littleEndian, length_littleEndian, ← Nat.add_assoc]
    exact ⟨rfl, h.1⟩

theorem payload_ne_nil (i : Item) : i.payload ≠ [] := by
  intro hnil
  have hlength := congrArg List.length hnil
  cases i <;>
  · simp only [Item.payload, List.length_append, length_littleEndian, List.length_nil] at hlength
    omega

end LoggerBenchmarks.BinlogEntries
