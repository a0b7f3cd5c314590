import LoggerBenchmarks.LineEndings

set_option autoImplicit false

/-!
# Text streams

What `text=True` reads from a program and what `write_text` writes: strict UTF-8,
every line terminator read as LF and LF written as it is.
-/
namespace LoggerBenchmarks.TextStreams
open PythonText LineEndings

def encodeUtf8 (t : Text) : Bytes := t.flatMap String.utf8EncodeChar

/-- `none` where Python raises `UnicodeDecodeError`. -/
def decodeUtf8 (data : Bytes) : Option Text := data.toByteArray.utf8Decode?.map Array.toList

def universalNewlines : Text → Text
  | c :: d :: t =>
    if c = '\r' ∧ d = '\n' then '\n' :: universalNewlines t
    else (if c = '\r' then '\n' else c) :: universalNewlines (d :: t)
  | [c] => [if c = '\r' then '\n' else c]
  | [] => []

def readText (data : Bytes) : Option Text := (decodeUtf8 data).map universalNewlines

theorem encodeUtf8_of_decode {data : Bytes} {t : Text} (h : decodeUtf8 data = some t) : encodeUtf8 t = data := by
  obtain ⟨chars, hchars, rfl⟩ := Option.map_eq_some_iff.1 h
  have hget := ByteArray.utf8Encode_get_utf8Decode? (b := data.toByteArray) (h := by rw [hchars]; rfl)
  simp only [hchars, Option.get_some] at hget
  have hlist := congrArg (fun b : ByteArray => b.data.toList) hget
  simpa [List.utf8Encode, encodeUtf8] using hlist

theorem or_high (x : UInt8) : x ||| 0x80 ≠ cr ∧ x ||| 0x80 ≠ lf ∧ x ||| 0xc0 ≠ cr ∧ x ||| 0xc0 ≠ lf ∧
    x ||| 0xe0 ≠ cr ∧ x ||| 0xe0 ≠ lf ∧ x ||| 0xf0 ≠ cr ∧ x ||| 0xf0 ≠ lf := by
  have hall : ∀ b : BitVec 8, b ||| 0x80#8 ≠ 13#8 ∧ b ||| 0x80#8 ≠ 10#8 ∧ b ||| 0xc0#8 ≠ 13#8 ∧ b ||| 0xc0#8 ≠ 10#8 ∧
      b ||| 0xe0#8 ≠ 13#8 ∧ b ||| 0xe0#8 ≠ 10#8 ∧ b ||| 0xf0#8 ≠ 13#8 ∧ b ||| 0xf0#8 ≠ 10#8 := by decide +kernel
  simp only [ne_eq, ← UInt8.toBitVec_inj, UInt8.toBitVec_or]
  exact hall x.toBitVec

/-- Only the two terminators are written with their bytes. -/
theorem utf8EncodeChar_terminator {c : Char} {b : UInt8} (hb : b ∈ String.utf8EncodeChar c) :
    (b = cr → c = '\r') ∧ (b = lf → c = '\n') := by
  rw [String.utf8EncodeChar_eq_utf8EncodeCharFast, String.utf8EncodeCharFast] at hb
  split at hb
  · rename_i hsmall
    obtain rfl := List.mem_singleton.1 hb
    have hlt : c.val.toNat ≤ 0x7f := hsmall
    have hbyte : ∀ k : UInt8, c.val.toUInt8 = k → c.val.toNat = k.toNat := by
      rintro k rfl
      rw [UInt32.toNat_toUInt8, Nat.mod_eq_of_lt (by omega)]
    exact ⟨fun h => Char.ext (UInt32.toNat_inj.1 (hbyte _ h)), fun h => Char.ext (UInt32.toNat_inj.1 (hbyte _ h))⟩
  · have hhigh : b ≠ cr ∧ b ≠ lf := by
      split at hb
      · simp only [List.mem_cons, List.not_mem_nil, or_false] at hb
        rcases hb with rfl | rfl <;> simp [or_high]
      · split at hb
        · simp only [List.mem_cons, List.not_mem_nil, or_false] at hb
          rcases hb with rfl | rfl | rfl <;> simp [or_high]
        · simp only [List.mem_cons, List.not_mem_nil, or_false] at hb
          rcases hb with rfl | rfl | rfl | rfl <;> simp [or_high]
    exact ⟨fun h => absurd h hhigh.1, fun h => absurd h hhigh.2⟩

theorem normalize_append {a : Bytes} (h : cr ∉ a) (b : Bytes) :
    normalizeLineEndings (a ++ b) = a ++ normalizeLineEndings b := by
  induction a with
  | nil => rfl
  | cons x a ih =>
    obtain ⟨hx, ha⟩ := List.ne_and_not_mem_of_not_mem_cons h
    rw [List.cons_append, normalize_cons fun hcr => hx hcr.1.symm, if_neg (Ne.symm hx), ih ha, List.cons_append]

theorem encodeUtf8_cons (c : Char) (t : Text) : encodeUtf8 (c :: t) = String.utf8EncodeChar c ++ encodeUtf8 t :=
  List.flatMap_cons

theorem encodeUtf8_cr (t : Text) : encodeUtf8 ('\r' :: t) = cr :: encodeUtf8 t := rfl

theorem encodeUtf8_lf (t : Text) : encodeUtf8 ('\n' :: t) = lf :: encodeUtf8 t := rfl

theorem head?_encodeUtf8 {c : Char} (t : Text) (h : c ≠ '\n') : (encodeUtf8 (c :: t)).head? ≠ some lf := by
  intro hhead
  have hne : String.utf8EncodeChar c ≠ [] := by
    rw [← List.length_pos_iff, String.length_utf8EncodeChar]
    exact Char.utf8Size_pos c
  obtain ⟨b, bs, hb⟩ := List.exists_cons_of_ne_nil hne
  rw [encodeUtf8_cons, hb, List.cons_append, List.head?_cons] at hhead
  refine h ((utf8EncodeChar_terminator (b := b) ?_).2 (Option.some.inj hhead))
  rw [hb]
  exact List.mem_cons_self

theorem encodeUtf8_one (c : Char) (t : Text) (h : ¬ (c = '\r' ∧ t.head? = some '\n')) :
    normalizeLineEndings (encodeUtf8 (c :: t)) =
      encodeUtf8 [if c = '\r' then '\n' else c] ++ normalizeLineEndings (encodeUtf8 t) := by
  by_cases hc : c = '\r'
  · have hnext : ¬ (cr = cr ∧ (encodeUtf8 t).head? = some lf) := by
      rintro ⟨-, hlf⟩
      cases t with
      | nil => cases hlf
      | cons d t => exact head?_encodeUtf8 t (fun hd => h ⟨hc, by rw [hd]; rfl⟩) hlf
    rw [if_pos hc, hc, encodeUtf8_cr, normalize_cons hnext, if_pos rfl]
    rfl
  · have hfree : cr ∉ String.utf8EncodeChar c := fun hm => hc ((utf8EncodeChar_terminator hm).1 rfl)
    rw [if_neg hc, encodeUtf8_cons, normalize_append hfree, encodeUtf8_cons c []]
    simp [encodeUtf8]

/-- Reading text rewrites the terminators of its bytes. -/
theorem encodeUtf8_universalNewlines (t : Text) :
    encodeUtf8 (universalNewlines t) = normalizeLineEndings (encodeUtf8 t) := by
  induction t using universalNewlines.induct with
  | case1 c d t hcrlf ih =>
    obtain ⟨rfl, rfl⟩ := hcrlf
    rw [universalNewlines, if_pos ⟨rfl, rfl⟩, encodeUtf8_lf, encodeUtf8_cr, encodeUtf8_lf, normalize_crlf, ih]
  | case2 c d t hcrlf ih =>
    rw [universalNewlines, if_neg hcrlf, encodeUtf8_one c (d :: t) (by simpa using hcrlf), ← ih, encodeUtf8_cons,
      encodeUtf8_cons _ []]
    simp [encodeUtf8]
  | case3 c =>
    rw [universalNewlines, encodeUtf8_one c [] (by simp)]
    exact (List.append_nil _).symm
  | case4 => rfl

/-- What is read and written again: the bytes with all terminators LF. -/
theorem encodeUtf8_readText {data : Bytes} {t : Text} (h : readText data = some t) :
    encodeUtf8 t = normalizeLineEndings data := by
  obtain ⟨t', ht', rfl⟩ := Option.map_eq_some_iff.1 h
  rw [encodeUtf8_universalNewlines, encodeUtf8_of_decode ht']

end LoggerBenchmarks.TextStreams
