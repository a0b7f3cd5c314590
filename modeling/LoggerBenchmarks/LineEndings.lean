import LoggerBenchmarks.PythonText

set_option autoImplicit false

/-!
# Line endings

The byte replacements of `update_vendor.py`.
-/
namespace LoggerBenchmarks.LineEndings
open PythonText

abbrev Bytes := List UInt8

def cr : UInt8 := 13

def lf : UInt8 := 10

/-- `data.replace(b"\r\n", b"\n")` -/
def replaceCrLf : Bytes → Bytes
  | b :: c :: t => if b = cr ∧ c = lf then lf :: replaceCrLf t else b :: replaceCrLf (c :: t)
  | t => t

/-- `data.replace(b"\r", b"\n")` -/
def replaceCr (data : Bytes) : Bytes := data.map fun b => if b = cr then lf else b

/-- `data.replace(b"\n", b"\r\n")` -/
def replaceLf (data : Bytes) : Bytes := data.flatMap fun b => if b = lf then [cr, lf] else [b]

def normalizeLineEndings (data : Bytes) : Bytes := replaceCr (replaceCrLf data)

def convertLineEndings (data : Bytes) (style : Text) : Bytes :=
  let normalized := normalizeLineEndings data
  if style = "crlf".toList then replaceLf normalized
  else if style = "lf".toList then normalized
  else data

theorem normalize_crlf (t : Bytes) : normalizeLineEndings (cr :: lf :: t) = lf :: normalizeLineEndings t := by
  simp [normalizeLineEndings, replaceCrLf, replaceCr, cr, lf]

theorem normalize_cons {b : UInt8} {t : Bytes} (h : ¬ (b = cr ∧ t.head? = some lf)) :
    normalizeLineEndings (b :: t) = (if b = cr then lf else b) :: normalizeLineEndings t := by
  cases t with
  | nil => rfl
  | cons c t =>
    have hbc : ¬ (b = cr ∧ c = lf) := by simpa using h
    rw [normalizeLineEndings, replaceCrLf, if_neg hbc]
    rfl

/-- Induction along the left-to-right scan for line terminators. -/
theorem scan_induction {motive : Bytes → Prop} (nil : motive [])
    (crlf : ∀ t, motive t → motive (cr :: lf :: t))
    (cons : ∀ b t, ¬ (b = cr ∧ t.head? = some lf) → motive t → motive (b :: t)) : ∀ d, motive d := by
  intro d
  induction h : d.length using Nat.strong_induction_on generalizing d with
  | _ n ih =>
    cases d with
    | nil => exact nil
    | cons b t =>
      by_cases hb : b = cr ∧ t.head? = some lf
      · obtain ⟨rfl, hlf⟩ := hb
        obtain ⟨t', rfl⟩ := List.head?_eq_some_iff.1 hlf
        exact crlf t' (ih t'.length (by simp only [List.length_cons] at h; omega) t' rfl)
      · exact cons b t hb (ih t.length (by simp only [List.length_cons] at h; omega) t rfl)

theorem cr_not_mem_normalize (d : Bytes) : cr ∉ normalizeLineEndings d := by
  rw [normalizeLineEndings, replaceCr, List.mem_map]
  rintro ⟨b, -, hb⟩
  split at hb
  · exact absurd hb (by decide)
  · rename_i hne
    exact hne hb

theorem normalize_of_not_mem {d : Bytes} (h : cr ∉ d) : normalizeLineEndings d = d := by
  induction d with
  | nil => rfl
  | cons b t ih =>
    obtain ⟨hb, ht⟩ := List.ne_and_not_mem_of_not_mem_cons h
    rw [normalize_cons fun hcr => hb hcr.1.symm, if_neg (Ne.symm hb), ih ht]

theorem normalize_idem (d : Bytes) : normalizeLineEndings (normalizeLineEndings d) = normalizeLineEndings d :=
  normalize_of_not_mem (cr_not_mem_normalize d)

theorem normalize_replaceLf {d : Bytes} (h : cr ∉ d) : normalizeLineEndings (replaceLf d) = d := by
  induction d with
  | nil => rfl
  | cons b t ih =>
    obtain ⟨hb, ht⟩ := List.ne_and_not_mem_of_not_mem_cons h
    rw [replaceLf, List.flatMap_cons, ← replaceLf]
    by_cases hlf : b = lf
    · rw [if_pos hlf, hlf]
      exact (normalize_crlf _).trans (congrArg _ (ih ht))
    · rw [if_neg hlf, List.singleton_append, normalize_cons fun hcr => hb hcr.1.symm, if_neg (Ne.symm hb), ih ht]

theorem normalize_convert (d : Bytes) (style : Text) :
    normalizeLineEndings (convertLineEndings d style) = normalizeLineEndings d := by
  rw [convertLineEndings]
  split
  · exact normalize_replaceLf (cr_not_mem_normalize d)
  · split
    · exact normalize_idem d
    · rfl

/-- No byte but the terminators is touched. -/
theorem mem_normalize {b : UInt8} (hcr : b ≠ cr) (hlf : b ≠ lf) (d : Bytes) :
    b ∈ normalizeLineEndings d ↔ b ∈ d := by
  induction d using scan_induction with
  | nil => rfl
  | crlf t ih => rw [normalize_crlf, List.mem_cons, List.mem_cons, List.mem_cons, ih]; simp [hcr, hlf]
  | cons c t hc ih =>
    rw [normalize_cons hc, List.mem_cons, List.mem_cons, ih]
    by_cases h : c = cr
    · simp [h, hcr, hlf]
    · rw [if_neg h]

inductive Terminator where
  | crlf | cr | lf
  deriving DecidableEq

def terminatorOf (b : UInt8) : List Terminator :=
  if b = cr then [.cr] else if b = lf then [.lf] else []

def terminators : Bytes → List Terminator
  | b :: c :: t => if b = cr ∧ c = lf then .crlf :: terminators t else terminatorOf b ++ terminators (c :: t)
  | [b] => terminatorOf b
  | [] => []

theorem terminators_crlf (t : Bytes) : terminators (cr :: lf :: t) = .crlf :: terminators t := by
  simp [terminators]

theorem terminators_cons {b : UInt8} {t : Bytes} (h : ¬ (b = cr ∧ t.head? = some lf)) :
    terminators (b :: t) = terminatorOf b ++ terminators t := by
  cases t with
  | nil => exact (List.append_nil _).symm
  | cons c t =>
    have hbc : ¬ (b = cr ∧ c = lf) := by simpa using h
    rw [terminators, if_neg hbc]

theorem terminators_normalize (d : Bytes) :
    terminators (normalizeLineEndings d) = (terminators d).map fun _ => .lf := by
  induction d using scan_induction with
  | nil => rfl
  | crlf t ih =>
    rw [normalize_crlf, terminators_crlf, terminators_cons (fun h => absurd h.1 (by decide)), ih]
    rfl
  | cons b t h ih =>
    rw [normalize_cons h, terminators_cons h]
    by_cases hcr : b = cr
    · rw [if_pos hcr, terminators_cons (fun h => absurd h.1 (by decide)), ih, hcr]
      rfl
    · rw [if_neg hcr, terminators_cons (fun h => hcr h.1), ih, List.map_append, terminatorOf, if_neg hcr]
      split <;> rfl

theorem terminators_replaceLf {d : Bytes} (h : cr ∉ d) :
    terminators (replaceLf d) = (terminators d).map fun _ => .crlf := by
  induction d with
  | nil => rfl
  | cons b t ih =>
    obtain ⟨hb, ht⟩ := List.ne_and_not_mem_of_not_mem_cons h
    have hne : ¬ (b = cr ∧ t.head? = some lf) := fun hcr => hb hcr.1.symm
    rw [replaceLf, List.flatMap_cons, ← replaceLf, terminators_cons hne, terminatorOf, if_neg (Ne.symm hb)]
    by_cases hlf : b = lf
    · rw [if_pos hlf, if_pos hlf]
      exact (terminators_crlf _).trans (congrArg _ (ih ht))
    · rw [if_neg hlf, if_neg hlf, List.singleton_append, List.nil_append, terminators_cons fun hcr => hb hcr.1.symm,
        terminatorOf, if_neg (Ne.symm hb), if_neg hlf, List.nil_append, ih ht]

theorem normalize_of_all_lf {d : Bytes} (h : ∀ x ∈ terminators d, x = .lf) : normalizeLineEndings d = d := by
  induction d using scan_induction with
  | nil => rfl
  | crlf t ih => exact absurd (h .crlf (by rw [terminators_crlf]; exact List.mem_cons_self)) (by decide)
  | cons b t hb ih =>
    rw [terminators_cons hb] at h
    have hcr : b ≠ cr := by
      rintro rfl
      exact absurd (h .cr (by simp [terminatorOf])) (by decide)
    rw [normalize_cons hb, if_neg hcr, ih fun x hx => h x (List.mem_append_right _ hx)]

theorem replaceLf_of_all_crlf {d : Bytes} (h : ∀ x ∈ terminators d, x = .crlf) :
    replaceLf (normalizeLineEndings d) = d := by
  induction d using scan_induction with
  | nil => rfl
  | crlf t ih =>
    rw [terminators_crlf] at h
    rw [normalize_crlf, replaceLf, List.flatMap_cons, ← replaceLf, ih fun x hx => h x (List.mem_cons_of_mem _ hx)]
    rfl
  | cons b t hb ih =>
    rw [terminators_cons hb] at h
    have hcr : b ≠ cr := by
      rintro rfl
      exact absurd (h .cr (by simp [terminatorOf])) (by decide)
    have hlf : b ≠ lf := by
      rintro rfl
      exact absurd (h .lf (by simp [terminatorOf, cr, lf])) (by decide)
    rw [normalize_cons hb, if_neg hcr, replaceLf, List.flatMap_cons, ← replaceLf, if_neg hlf,
      ih fun x hx => h x (List.mem_append_right _ hx)]
    rfl

end LoggerBenchmarks.LineEndings
