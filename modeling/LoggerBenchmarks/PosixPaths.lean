import LoggerBenchmarks.PythonText

set_option autoImplicit false

/-!
# Lexical POSIX paths

A path is its list of components, without empty ones and without `.`. Where no
symbolic link is involved, resolving an absolute path only removes the `..`.
-/
namespace PosixPaths
open PythonText

abbrev Name := Text

def dot : Name := ['.']

def dotDot : Name := ['.', '.']

/-- `text.split("/")`. -/
def splitSlash : Text → List Text
  | [] => [[]]
  | c :: t => if c = '/' then [] :: splitSlash t else (splitSlash t).modifyHead (c :: ·)

structure PurePath where
  absolute : Bool
  parts : List Name
  deriving DecidableEq

def parse (t : Text) : PurePath :=
  ⟨t.head? == some '/', (splitSlash t).filter fun p => p ≠ [] ∧ p ≠ dot⟩

/-- `p / q`: an absolute right operand replaces the left one. -/
def PurePath.join (p q : PurePath) : PurePath :=
  if q.absolute then q else ⟨p.absolute, p.parts ++ q.parts⟩

def PurePath.name (p : PurePath) : Name := p.parts.getLast?.getD []

def resolveStep (acc : List Name) (part : Name) : List Name :=
  if part = dotDot then acc.dropLast else acc ++ [part]

/-- The components of the path an absolute path resolves to; `/..` is `/`. -/
def resolve (parts : List Name) : List Name := parts.foldl resolveStep []

/-- `/a/b` -/
def render (parts : List Name) : Text := parts.flatMap fun p => '/' :: p

theorem splitSlash_ne_nil (t : Text) : splitSlash t ≠ [] := by
  induction t with
  | nil => simp [splitSlash]
  | cons c t ih =>
    simp only [splitSlash]
    split
    · simp
    · cases h : splitSlash t with
      | nil => exact absurd h ih
      | cons p ps => simp

theorem splitSlash_of_not_mem {t : Text} (h : '/' ∉ t) : splitSlash t = [t] := by
  induction t with
  | nil => rfl
  | cons c t ih =>
    obtain ⟨hc, ht⟩ := List.ne_and_not_mem_of_not_mem_cons h
    simp [splitSlash, Ne.symm hc, ih ht]

theorem splitSlash_append_slash (s t : Text) :
    splitSlash (s ++ '/' :: t) = splitSlash s ++ splitSlash t := by
  induction s with
  | nil => simp [splitSlash]
  | cons c s ih =>
    rw [List.cons_append, splitSlash, splitSlash, ih]
    split
    · rfl
    · cases h : splitSlash s with
      | nil => exact absurd h (splitSlash_ne_nil s)
      | cons p ps => simp

theorem parse_name_append (s : Text) {n : Name} (hslash : '/' ∉ n) (hne : n ≠ []) (hdot : n ≠ dot) :
    (parse (s ++ '/' :: n)).name = n := by
  simp [parse, PurePath.name, splitSlash_append_slash, splitSlash_of_not_mem hslash, hne, hdot]

theorem resolve_append (p q : List Name) : resolve (p ++ q) = q.foldl resolveStep (resolve p) :=
  List.foldl_append

theorem dotDot_not_mem_resolve (p : List Name) : dotDot ∉ resolve p := by
  induction p using List.reverseRecOn with
  | nil => exact List.not_mem_nil
  | append_singleton p x ih =>
    rw [resolve_append, List.foldl_cons, List.foldl_nil, resolveStep]
    split
    · exact fun hm => ih (List.mem_of_mem_dropLast hm)
    · rename_i hx
      intro hm
      rcases List.mem_append.1 hm with hm | hm
      · exact ih hm
      · exact hx (List.mem_singleton.1 hm).symm

end PosixPaths
