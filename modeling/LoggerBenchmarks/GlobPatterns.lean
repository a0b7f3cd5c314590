import LoggerBenchmarks.PythonText

set_option autoImplicit false

/-!
# Shell patterns for one name

Python's `fnmatch`: `*`, `?`, `[seq]` and `[!seq]`. A bracket that is not closed is
an ordinary character, and so is a hyphen at either end of a class.
-/
namespace GlobPatterns
open PythonText

inductive Token where
  | lit (c : Char)
  | any
  | star
  | set (negated : Bool) (ranges : List (Char × Char))

def classRanges : Text → List (Char × Char)
  | lo :: '-' :: hi :: t => (lo, hi) :: classRanges t
  | c :: t => (c, c) :: classRanges t
  | [] => []

def splitClass (t : Text) : Option (Bool × Text × Text) :=
  let negated := t.head? == some '!'
  match if negated then t.tail else t with
  | [] => none
  | c :: t' =>
    match t'.dropWhile (· ≠ ']') with
    | [] => none
    | _ :: rest => some (negated, c :: t'.takeWhile (· ≠ ']'), rest)

def tokens : ℕ → Text → List Token
  | 0, _ => []
  | _, [] => []
  | fuel + 1, c :: t =>
    if c = '*' then .star :: tokens fuel t
    else if c = '?' then .any :: tokens fuel t
    else if c = '[' then
      match splitClass t with
      | some (negated, inside, rest) => .set negated (classRanges inside) :: tokens fuel rest
      | none => .lit c :: tokens fuel t
    else .lit c :: tokens fuel t

def accepts : List Token → Text → Bool
  | [], t => t.isEmpty
  | .star :: ts, t => t.tails.any fun rest => accepts ts rest
  | .lit c :: ts, d :: t => c == d && accepts ts t
  | .any :: ts, _ :: t => accepts ts t
  | .set negated ranges :: ts, d :: t =>
    (ranges.any fun r => r.1 ≤ d && d ≤ r.2) != negated && accepts ts t
  | _, [] => false

def fnmatch (name pattern : Text) : Bool := accepts (tokens pattern.length pattern) name

theorem head_of_fnmatch_dot {name rest : Text} (h : fnmatch name ('.' :: rest) = true) : name.head? = some '.' := by
  unfold fnmatch at h
  have htokens : tokens ('.' :: rest).length ('.' :: rest) = .lit '.' :: tokens rest.length rest := rfl
  rw [htokens] at h
  cases name with
  | nil => simp [accepts] at h
  | cons d t =>
    rw [accepts, Bool.and_eq_true, beq_iff_eq] at h
    rw [List.head?_cons, h.1]

theorem fnmatch_dot_cons (name rest : Text) : fnmatch name ('.' :: (name ++ rest)) = false := by
  unfold fnmatch
  induction name with
  | nil => simp [tokens, accepts]
  | cons c name ih =>
    by_cases hc : c = '.'
    · subst hc
      simpa [tokens, accepts] using ih
    · have hne : ('.' == c) = false := beq_false_of_ne (Ne.symm hc)
      simp [tokens, accepts, hne]

def IsLiteral (t : Text) : Prop := '*' ∉ t ∧ '?' ∉ t ∧ '[' ∉ t

theorem IsLiteral.of_cons {c : Char} {t : Text} (h : IsLiteral (c :: t)) : (c ≠ '*' ∧ c ≠ '?' ∧ c ≠ '[') ∧ IsLiteral t := by
  obtain ⟨hstar, hmark, hbracket⟩ := h
  obtain ⟨hstar₁, hstar₂⟩ := List.ne_and_not_mem_of_not_mem_cons hstar
  obtain ⟨hmark₁, hmark₂⟩ := List.ne_and_not_mem_of_not_mem_cons hmark
  obtain ⟨hbracket₁, hbracket₂⟩ := List.ne_and_not_mem_of_not_mem_cons hbracket
  exact ⟨⟨hstar₁.symm, hmark₁.symm, hbracket₁.symm⟩, hstar₂, hmark₂, hbracket₂⟩

theorem fnmatch_literal_cons {c : Char} (h : c ≠ '*' ∧ c ≠ '?' ∧ c ≠ '[') (d : Char) (name pattern : Text) :
    fnmatch (d :: name) (c :: pattern) = (c == d && fnmatch name pattern) := by
  rw [fnmatch, List.length_cons, tokens, if_neg h.1, if_neg h.2.1, if_neg h.2.2, accepts, fnmatch]

theorem fnmatch_star (name pattern : Text) :
    fnmatch name ('*' :: pattern) = name.tails.any fun rest => fnmatch rest pattern := by
  rw [fnmatch, List.length_cons, tokens, if_pos rfl, accepts]
  rfl

theorem fnmatch_literal_append {p : Text} (h : IsLiteral p) (name pattern : Text) :
    fnmatch (p ++ name) (p ++ pattern) = fnmatch name pattern := by
  induction p with
  | nil => rfl
  | cons c p ih =>
    obtain ⟨hc, hp⟩ := h.of_cons
    rw [List.cons_append, List.cons_append, fnmatch_literal_cons hc, beq_self_eq_true, Bool.true_and, ih hp]

theorem fnmatch_between {p s : Text} (hp : IsLiteral p) (hs : IsLiteral s) (mid : Text) :
    fnmatch (p ++ (mid ++ s)) (p ++ '*' :: s) = true := by
  rw [fnmatch_literal_append hp, fnmatch_star, List.any_eq_true]
  refine ⟨s, (List.mem_tails _ _).2 (List.suffix_append mid s), ?_⟩
  have hself := fnmatch_literal_append hs [] []
  rw [List.append_nil] at hself
  rw [hself]
  rfl

theorem fnmatch_literal_star {p : Text} (h : IsLiteral p) (name : Text) :
    fnmatch name (p ++ ['*']) = true ↔ p <+: name := by
  induction p generalizing name with
  | nil =>
    rw [List.nil_append, fnmatch_star, List.any_eq_true]
    refine iff_of_true ⟨[], (List.mem_tails _ _).2 List.nil_suffix, rfl⟩ List.nil_prefix
  | cons c p ih =>
    obtain ⟨hc, hp⟩ := h.of_cons
    cases name with
    | nil => simp [fnmatch, tokens, hc, accepts]
    | cons d name =>
      rw [List.cons_append, fnmatch_literal_cons hc, Bool.and_eq_true, beq_iff_eq, ih hp name, List.cons_prefix_cons]

end GlobPatterns
