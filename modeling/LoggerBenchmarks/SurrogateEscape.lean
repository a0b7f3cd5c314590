import LoggerBenchmarks.TextStreams

set_option autoImplicit false

/-!
# Decoding with `surrogateescape`

UTF-8 in which every byte that is not part of a character becomes a lone surrogate,
so that any bytes are read and come back when they are written.
-/
namespace LoggerBenchmarks.SurrogateEscape
open PythonText LineEndings TextStreams

/-- `escaped b` is the lone surrogate U+DC00 + `b`. -/
inductive CodePoint where
  | scalar (c : Char)
  | escaped (b : UInt8)
  deriving DecidableEq

def CodePoint.encode : CodePoint → Bytes
  | .scalar c => String.utf8EncodeChar c
  | .escaped b => [b]

def CodePoint.isSpace : CodePoint → Bool
  | .scalar c => PythonText.isSpace c
  | .escaped _ => false

def decodeFrom : ℕ → Bytes → List CodePoint
  | _, [] => []
  | k + 1, _ :: t => decodeFrom k t
  | 0, b :: t =>
    match (b :: t).toByteArray.utf8DecodeChar? 0 with
    | some c => .scalar c :: decodeFrom (c.utf8Size - 1) t
    | none => .escaped b :: decodeFrom 0 t

def decode (data : Bytes) : List CodePoint := decodeFrom 0 data

def encode (s : List CodePoint) : Bytes := s.flatMap CodePoint.encode

def ofText (t : Text) : List CodePoint := t.map .scalar

theorem decodeFrom_drop (k : ℕ) (data : Bytes) : decodeFrom k data = decode (data.drop k) := by
  induction k generalizing data with
  | zero => rfl
  | succ k ih =>
    cases data with
    | nil => rfl
    | cons b t => exact ih t

theorem decode_cons (b : UInt8) (t : Bytes) : decode (b :: t) =
    match (b :: t).toByteArray.utf8DecodeChar? 0 with
    | some c => .scalar c :: decode ((b :: t).drop c.utf8Size)
    | none => .escaped b :: decode t := by
  rw [decode, decodeFrom]
  cases (b :: t).toByteArray.utf8DecodeChar? 0 with
  | none => rfl
  | some c =>
    dsimp only
    rw [decodeFrom_drop]
    obtain ⟨n, hn⟩ := Nat.exists_eq_succ_of_ne_zero (Nat.ne_of_gt c.utf8Size_pos)
    rw [hn]
    rfl

theorem decode_append (c : Char) (data : Bytes) :
    decode (String.utf8EncodeChar c ++ data) = .scalar c :: decode data := by
  have hlength : (String.utf8EncodeChar c).length = c.utf8Size := String.length_utf8EncodeChar c
  have hne : String.utf8EncodeChar c ≠ [] := by
    rw [← List.length_pos_iff, hlength]
    exact c.utf8Size_pos
  have hread : (String.utf8EncodeChar c ++ data).toByteArray.utf8DecodeChar? 0 = some c := by
    rw [List.toByteArray_append]
    exact ByteArray.utf8DecodeChar?_utf8EncodeChar_append
  have hdrop : (String.utf8EncodeChar c ++ data).drop c.utf8Size = data := List.drop_left' hlength
  obtain ⟨b, t, hbytes⟩ := List.exists_cons_of_ne_nil hne
  rw [hbytes, List.cons_append] at hread hdrop ⊢
  rw [decode_cons, hread]
  dsimp only
  rw [hdrop]

theorem decode_encodeUtf8_append (t : Text) (data : Bytes) :
    decode (encodeUtf8 t ++ data) = ofText t ++ decode data := by
  induction t with
  | nil => rfl
  | cons c t ih =>
    rw [encodeUtf8_cons, List.append_assoc, decode_append, ih]
    rfl

theorem eq_append_of_read {data : Bytes} {c : Char} (h : data.toByteArray.utf8DecodeChar? 0 = some c) :
    data = String.utf8EncodeChar c ++ data.drop c.utf8Size := by
  obtain ⟨rest, hrest⟩ := ByteArray.exists_of_utf8DecodeChar?_eq_some h
  have hlist : data = String.utf8EncodeChar c ++ rest.data.toList := by
    have hdata := congrArg (fun b : ByteArray => b.data.toList) hrest
    simpa using hdata
  rw [hlist, List.drop_left' (String.length_utf8EncodeChar c)]

theorem encode_decode (data : Bytes) : encode (decode data) = data := by
  induction hn : data.length using Nat.strong_induction_on generalizing data with
  | _ n ih =>
    cases data with
    | nil => rfl
    | cons b t =>
      rw [decode_cons]
      rcases hread : (b :: t).toByteArray.utf8DecodeChar? 0 with _ | c
      · dsimp only
        rw [encode, List.flatMap_cons, ← encode, ih t.length (by rw [← hn, List.length_cons]; omega) t rfl]
        rfl
      · have hsplit := eq_append_of_read hread
        have hshort : ((b :: t).drop c.utf8Size).length < n := by
          have hpos := c.utf8Size_pos
          rw [List.length_drop, ← hn, List.length_cons]
          omega
        dsimp only
        rw [encode, List.flatMap_cons, ← encode, ih _ hshort _ rfl]
        exact hsplit.symm

theorem decode_injective : Function.Injective decode := Function.LeftInverse.injective encode_decode

theorem ofText_injective : Function.Injective ofText :=
  List.map_injective_iff.2 fun _ _ h => CodePoint.scalar.inj h

end LoggerBenchmarks.SurrogateEscape
