import LoggerBenchmarks.LineEndings

set_option autoImplicit false

/-!
# The algebra of line endings

The two replacements of `normalize_line_endings` are one scan, and the last conversion
decides.
-/
namespace LoggerBenchmarks.LineEndingAlgebra
open PythonText LineEndings

inductive Style where
  | lf | crlf

def Style.name : Style → Text
  | .lf => "lf".toList
  | .crlf => "crlf".toList

/-- One pass from left to right: CRLF, any other CR and any other LF each become one LF. -/
def scan : Bytes → Bytes
  | b :: c :: t =>
    if b = cr ∧ c = lf then lf :: scan t
    else (if b = cr ∨ b = lf then lf else b) :: scan (c :: t)
  | [b] => [if b = cr ∨ b = lf then lf else b]
  | [] => []

/-- Every LF directly follows a CR, and every CR is directly followed by an LF. -/
def Paired (d : Bytes) : Prop :=
  (∀ i, d[i]? = some lf → ∃ j, i = j + 1 ∧ d[j]? = some cr) ∧ ∀ i, d[i]? = some cr → d[i + 1]? = some lf

theorem scan_crlf (t : Bytes) : scan (cr :: lf :: t) = lf :: scan t := by
  rw [scan, if_pos ⟨rfl, rfl⟩]

theorem scan_cons {b : UInt8} {t : Bytes} (h : ¬ (b = cr ∧ t.head? = some lf)) :
    scan (b :: t) = (if b = cr ∨ b = lf then lf else b) :: scan t := by
  cases t with
  | nil => rfl
  | cons c t =>
    have hbc : ¬ (b = cr ∧ c = lf) := by simpa using h
    rw [scan, if_neg hbc]

theorem normalize_eq_scan (d : Bytes) : normalizeLineEndings d = scan d := by
  induction d using scan_induction with
  | nil => rfl
  | crlf t ih => rw [normalize_crlf, scan_crlf, ih]
  | cons b t h ih =>
    rw [normalize_cons h, scan_cons h, ih]
    by_cases hcr : b = cr
    · rw [if_pos hcr, if_pos (.inl hcr)]
    · rw [if_neg hcr]
      by_cases hlf : b = lf
      · rw [if_pos (.inr hlf), hlf]
      · rw [if_neg (not_or.2 ⟨hcr, hlf⟩)]

/-- The LFs of the normal form are the terminators of the text. -/
theorem count_normalize (d : Bytes) : (normalizeLineEndings d).count lf = (terminators d).length := by
  induction d using scan_induction with
  | nil => rfl
  | crlf t ih => rw [normalize_crlf, terminators_crlf, List.count_cons_self, ih, List.length_cons]
  | cons b t h ih =>
    rw [normalize_cons h, terminators_cons h, List.length_append, ← ih, terminatorOf]
    by_cases hcr : b = cr
    · rw [if_pos hcr, if_pos hcr, List.count_cons_self, List.length_singleton, Nat.add_comm]
    · rw [if_neg hcr, if_neg hcr]
      by_cases hlf : b = lf
      · rw [if_pos hlf, hlf, List.count_cons_self, List.length_singleton, Nat.add_comm]
      · rw [if_neg hlf, List.count_cons_of_ne hlf, List.length_nil, Nat.zero_add]

theorem convert_lf (d : Bytes) : convertLineEndings d Style.lf.name = normalizeLineEndings d := by
  rw [convertLineEndings, Style.name, if_neg (by decide), if_pos rfl]

theorem convert_crlf (d : Bytes) : convertLineEndings d Style.crlf.name = replaceLf (normalizeLineEndings d) := by
  rw [convertLineEndings, Style.name, if_pos rfl]

/-- A conversion reads the normal form only. -/
theorem convert_congr {d e : Bytes} (h : normalizeLineEndings d = normalizeLineEndings e) (s : Style) :
    convertLineEndings d s.name = convertLineEndings e s.name := by
  cases s with
  | lf => rw [convert_lf, convert_lf, h]
  | crlf => rw [convert_crlf, convert_crlf, h]

theorem Paired.append {a b : Bytes} (ha : Paired a) (hb : Paired b) : Paired (a ++ b) := by
  constructor
  · intro i hi
    rcases Nat.lt_or_ge i a.length with hlt | hge
    · rw [List.getElem?_append_left hlt] at hi
      obtain ⟨j, rfl, hj⟩ := ha.1 i hi
      exact ⟨j, rfl, by rw [List.getElem?_append_left (by omega), hj]⟩
    · rw [List.getElem?_append_right hge] at hi
      obtain ⟨j, hj, hcr⟩ := hb.1 _ hi
      refine ⟨a.length + j, by omega, ?_⟩
      rw [List.getElem?_append_right (by omega), Nat.add_sub_cancel_left, hcr]
  · intro i hi
    rcases Nat.lt_or_ge i a.length with hlt | hge
    · rw [List.getElem?_append_left hlt] at hi
      have hnext := ha.2 i hi
      rw [List.getElem?_append_left (List.getElem?_eq_some_iff.1 hnext).1, hnext]
    · rw [List.getElem?_append_right hge] at hi
      have hnext := hb.2 _ hi
      rw [List.getElem?_append_right (by omega), Nat.sub_add_comm hge, hnext]

theorem paired_crlf : Paired [cr, lf] := by
  constructor
  · intro i hi
    match i with
    | 0 => exact absurd (Option.some.inj hi) (by decide)
    | 1 => exact ⟨0, rfl, rfl⟩
    | _ + 2 => cases hi
  · intro i hi
    match i with
    | 0 => rfl
    | 1 => exact absurd (Option.some.inj hi) (by decide)
    | _ + 2 => cases hi

theorem paired_of_not_mem {d : Bytes} (hcr : cr ∉ d) (hlf : lf ∉ d) : Paired d :=
  ⟨fun _ hi => absurd (List.mem_of_getElem? hi) hlf, fun _ hi => absurd (List.mem_of_getElem? hi) hcr⟩

theorem paired_replaceLf {d : Bytes} (h : cr ∉ d) : Paired (replaceLf d) := by
  induction d with
  | nil => exact paired_of_not_mem List.not_mem_nil List.not_mem_nil
  | cons b t ih =>
    obtain ⟨hb, ht⟩ := List.ne_and_not_mem_of_not_mem_cons h
    rw [replaceLf, List.flatMap_cons, ← replaceLf]
    by_cases hlf : b = lf
    · rw [if_pos hlf]
      exact paired_crlf.append (ih ht)
    · rw [if_neg hlf]
      refine (paired_of_not_mem ?_ ?_).append (ih ht)
      · exact fun hmem => hb (List.mem_singleton.1 hmem)
      · exact fun hmem => hlf (List.mem_singleton.1 hmem).symm

theorem line_ending_algebra (d : Bytes) (s t : Style) :
    normalizeLineEndings d = scan d ∧
      (terminators (normalizeLineEndings d)).length = (terminators d).length ∧
      (normalizeLineEndings d).count lf = (terminators d).length ∧
      normalizeLineEndings (normalizeLineEndings d) = normalizeLineEndings d ∧
      convertLineEndings (convertLineEndings d s.name) t.name = convertLineEndings d t.name ∧
      normalizeLineEndings (convertLineEndings d s.name) = normalizeLineEndings d ∧
      cr ∉ convertLineEndings d Style.lf.name ∧ Paired (convertLineEndings d Style.crlf.name) := by
  refine ⟨normalize_eq_scan d, ?_, count_normalize d, normalize_idem d,
    convert_congr (normalize_convert d s.name) t, normalize_convert d s.name, ?_, ?_⟩
  · rw [terminators_normalize, List.length_map]
  · rw [convert_lf]
    exact cr_not_mem_normalize d
  · rw [convert_crlf]
    exact paired_replaceLf (cr_not_mem_normalize d)

example : normalizeLineEndings [cr, cr, lf, lf, cr] = [lf, lf, lf, lf] := by decide

end LoggerBenchmarks.LineEndingAlgebra
