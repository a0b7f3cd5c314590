import LoggerBenchmarks.PosixPaths
import Mathlib.Data.List.Dedup

set_option autoImplicit false

/-!
# Trees of files

A file, a symbolic link or a directory of named nodes. A path is walked from the
root; `replace` puts a node at a path or removes the one that is there, and leaves
everything else where it was.
-/
namespace FileTrees
open PosixPaths

abbrev Path := List Name

inductive Node (β : Type) where
  | file (data : β)
  | link (target : PurePath)
  | dir (children : List (Name × Node β))

namespace Node

variable {β : Type}

def isDirectory : Node β → Bool
  | .dir _ => true
  | _ => false

def child : Node β → Name → Option (Node β)
  | .dir cs, n => cs.lookup n
  | _, _ => none

def names : Node β → List Name
  | .dir cs => (cs.map Prod.fst).dedup
  | _ => []

def setChild : Node β → Name → Option (Node β) → Node β
  | .dir cs, n, some c => .dir ((n, c) :: cs.filter fun e => e.1 ≠ n)
  | .dir cs, n, none => .dir (cs.filter fun e => e.1 ≠ n)
  | t, _, _ => t

/-- The node at a path, no link being followed. -/
def get : Path → Node β → Option (Node β)
  | [], t => some t
  | n :: p, t => (t.child n).bind (get p)

def fileAt (p : Path) (t : Node β) : Option β :=
  match get p t with
  | some (.file data) => some data
  | _ => none

/-- Put a node at a path below an existing directory, or remove the one there. -/
def replace : Path → Option (Node β) → Node β → Node β
  | [], new, t => new.getD t
  | [n], new, t => t.setChild n new
  | n :: m :: p, new, t => (t.child n).elim t fun c => t.setChild n (some (replace (m :: p) new c))

theorem lookup_filter_ne {cs : List (Name × Node β)} {n m : Name} (h : m ≠ n) :
    (cs.filter fun e => e.1 ≠ n).lookup m = cs.lookup m := by
  induction cs with
  | nil => rfl
  | cons e cs ih =>
    obtain ⟨k, c⟩ := e
    by_cases hk : k = n
    · subst hk
      rw [List.filter_cons_of_neg (by simp), ih, List.lookup_cons, beq_false_of_ne h]
    · simp only [ne_eq, hk, not_false_eq_true, decide_true, List.filter_cons_of_pos, List.lookup_cons, ih]

theorem lookup_filter_self (cs : List (Name × Node β)) (n : Name) :
    (cs.filter fun e => e.1 ≠ n).lookup n = none := by
  rw [List.lookup_eq_none_iff]
  intro e he
  have hne : e.1 ≠ n := by simpa using (List.mem_filter.1 he).2
  simpa using Ne.symm hne

theorem child_setChild_ne {t : Node β} {n m : Name} (new : Option (Node β)) (h : m ≠ n) :
    (t.setChild n new).child m = t.child m := by
  cases t with
  | file data => rfl
  | link target => rfl
  | dir cs =>
    cases new with
    | none => exact lookup_filter_ne h
    | some c =>
      have hm : (m == n) = false := beq_false_of_ne h
      rw [setChild, child, List.lookup_cons, hm]
      exact lookup_filter_ne h

theorem child_setChild_self {t : Node β} (ht : t.isDirectory = true) (n : Name) (new : Option (Node β)) :
    (t.setChild n new).child n = new := by
  cases t with
  | file data => cases ht
  | link target => cases ht
  | dir cs =>
    cases new with
    | none => exact lookup_filter_self cs n
    | some c => rw [setChild, child, List.lookup_cons_self]

theorem isDirectory_setChild (t : Node β) (n : Name) (new : Option (Node β)) :
    (t.setChild n new).isDirectory = t.isDirectory := by
  cases t with
  | file data => rfl
  | link target => rfl
  | dir cs => cases new <;> rfl

theorem isDirectory_of_child {t c : Node β} {n : Name} (h : t.child n = some c) : t.isDirectory = true := by
  cases t with
  | file data => cases h
  | link target => cases h
  | dir cs => rfl

theorem mem_names {t : Node β} {n : Name} : n ∈ t.names ↔ (t.child n).isSome = true := by
  cases t with
  | file data => simp [names, child]
  | link target => simp [names, child]
  | dir cs =>
    rw [names, List.mem_dedup, child]
    induction cs with
    | nil => simp
    | cons e cs ih =>
      obtain ⟨k, c⟩ := e
      by_cases hk : n = k
      · subst hk
        simp
      · simp [List.lookup_cons, beq_false_of_ne hk, hk, ← ih]

theorem fileAt_eq_some {p : Path} {t : Node β} {data : β} :
    fileAt p t = some data ↔ get p t = some (.file data) := by
  unfold fileAt
  rcases get p t with _ | c
  · simp
  · cases c <;> simp

@[simp] theorem get_nil (t : Node β) : get [] t = some t := rfl

theorem get_cons (n : Name) (p : Path) (t : Node β) : get (n :: p) t = (t.child n).bind (get p) := rfl

theorem get_append (p q : Path) (t : Node β) : get (p ++ q) t = (get p t).bind (get q) := by
  induction p generalizing t with
  | nil => rfl
  | cons n p ih =>
    rw [List.cons_append, get_cons, get_cons, Option.bind_assoc]
    congr 1
    funext c
    exact ih c

def Apart (p q : Path) : Prop := ¬ p <+: q ∧ ¬ q <+: p

instance (p q : Path) : Decidable (Apart p q) := inferInstanceAs (Decidable (_ ∧ _))

theorem Apart.symm {p q : Path} (h : Apart p q) : Apart q p := ⟨h.2, h.1⟩

theorem Apart.left_of_below {p q r : Path} (h : Apart p q) (hr : p <+: r) : Apart r q := by
  refine ⟨fun hq => h.1 (hr.trans hq), fun hq => ?_⟩
  rcases List.prefix_or_prefix_of_prefix hr hq with hpq | hqp
  · exact h.1 hpq
  · exact h.2 hqp

theorem apart_siblings {p : Path} {n m : Name} (h : n ≠ m) : Apart (p ++ [n]) (p ++ [m]) := by
  have hne : ∀ {k l : Name}, k ≠ l → ¬ p ++ [k] <+: p ++ [l] := by
    intro k l hkl hle
    have heq := hle.eq_of_length (by simp)
    exact hkl (List.singleton_injective (List.append_cancel_left heq))
  exact ⟨hne h, hne (Ne.symm h)⟩

theorem apart_cons {n : Name} {p q : Path} (h : Apart (n :: p) (n :: q)) : Apart p q := by
  simpa [Apart, List.cons_prefix_cons] using h

theorem get_replace_apart {p q : Path} (h : Apart p q) (new : Option (Node β)) (t : Node β) :
    get q (replace p new t) = get q t := by
  induction p generalizing q t with
  | nil => exact absurd List.nil_prefix h.1
  | cons n p ih =>
    cases q with
    | nil => exact absurd List.nil_prefix h.2
    | cons m q =>
      by_cases hm : m = n
      · subst hm
        have hpq := apart_cons h
        cases p with
        | nil => exact absurd List.nil_prefix hpq.1
        | cons k p =>
          cases hc : t.child m with
          | none => rw [replace, hc, Option.elim_none]
          | some c =>
            rw [replace, hc, Option.elim_some, get_cons, get_cons,
              child_setChild_self (isDirectory_of_child hc), hc]
            exact ih hpq c
      · cases p with
        | nil => rw [replace, get_cons, get_cons, child_setChild_ne new hm]
        | cons k p =>
          rw [replace]
          cases hc : t.child n with
          | none => rfl
          | some c => rw [Option.elim_some, get_cons, get_cons, child_setChild_ne _ hm]

theorem get_replace_self {p : Path} {n : Name} {t d : Node β} (hd : get p t = some d)
    (hdir : d.isDirectory = true) (new : Option (Node β)) :
    get (p ++ [n]) (replace (p ++ [n]) new t) = new := by
  induction p generalizing t with
  | nil =>
    obtain rfl : t = d := Option.some.inj hd
    rw [List.nil_append, replace, get_cons, child_setChild_self hdir]
    cases new <;> rfl
  | cons m p ih =>
    obtain ⟨c, hc, hget⟩ := Option.bind_eq_some_iff.1 hd
    obtain ⟨k, q, hq⟩ := List.exists_cons_of_ne_nil (List.append_ne_nil_of_right_ne_nil p (List.cons_ne_nil n []))
    have hnext := ih hget
    rw [hq] at hnext
    rw [List.cons_append, hq, replace, hc, Option.elim_some, get_cons,
      child_setChild_self (isDirectory_of_child hc)]
    exact hnext

theorem isDirectory_replace {p q : Path} {t d : Node β} (hd : get p t = some d)
    (hdir : d.isDirectory = true) (hq : q ≠ []) (new : Option (Node β)) :
    ∃ d', get p (replace (p ++ q) new t) = some d' ∧ d'.isDirectory = true := by
  induction p generalizing t with
  | nil =>
    obtain rfl : t = d := Option.some.inj hd
    refine ⟨_, rfl, ?_⟩
    match q, hq with
    | [n], _ => rw [List.nil_append, replace, isDirectory_setChild, hdir]
    | n :: m :: q, _ =>
      rw [List.nil_append, replace]
      cases t.child n with
      | none => exact hdir
      | some c => rw [Option.elim_some, isDirectory_setChild, hdir]
  | cons m p ih =>
    obtain ⟨c, hc, hget⟩ := Option.bind_eq_some_iff.1 hd
    obtain ⟨k, r, hr⟩ := List.exists_cons_of_ne_nil (List.append_ne_nil_of_right_ne_nil p hq)
    obtain ⟨d', hd', hdir'⟩ := ih hget
    rw [hr] at hd'
    refine ⟨d', ?_, hdir'⟩
    rw [List.cons_append, hr, replace, hc, Option.elim_some, get_cons,
      child_setChild_self (isDirectory_of_child hc)]
    exact hd'

inductive Advance where
  | arrived (path : Path)
  | atLink (base : Path) (target : PurePath) (rest : List Name)
  | stuck

def advance (root : Node β) (here : Path) : List Name → Advance
  | [] => .arrived here
  | n :: rest =>
    if n = dotDot then advance root here.dropLast rest
    else match get (here ++ [n]) root with
      | some (.link target) => .atLink here target rest
      | some (.dir _) => advance root (here ++ [n]) rest
      | _ => if rest = [] then .arrived (here ++ [n]) else .stuck

/-- Where a path leads that is walked from a directory, with at most `fuel` links on the way. -/
def follow (root : Node β) : ℕ → Path → List Name → Option Path
  | fuel, base, rest =>
    match advance root base rest with
    | .arrived path => some path
    | .stuck => none
    | .atLink base' target rest' =>
      match fuel with
      | 0 => none
      | fuel + 1 => follow root fuel (if target.absolute then [] else base') (target.parts ++ rest')

/-- The number of links the kernel follows before it gives up. -/
def maxLinks : ℕ := 40

def stat (root : Node β) (base : Path) (rest : List Name) : Option (Path × Node β) :=
  (follow root maxLinks base rest).bind fun path => (get path root).map fun t => (path, t)

theorem stat_eq_some {root : Node β} {base : Path} {rest : List Name} {path : Path} {t : Node β} :
    stat root base rest = some (path, t) ↔ follow root maxLinks base rest = some path ∧ get path root = some t := by
  rw [stat, Option.bind_eq_some_iff]
  constructor
  · rintro ⟨path', hfollow, hmap⟩
    obtain ⟨t', hget, heq⟩ := Option.map_eq_some_iff.1 hmap
    cases heq
    exact ⟨hfollow, hget⟩
  · rintro ⟨hfollow, hget⟩
    exact ⟨path, hfollow, by rw [hget]; rfl⟩

def LinkFree (root : Node β) (base : Path) (rest : List Name) : Prop :=
  ∀ q target, q <+: rest → get (base ++ q) root ≠ some (.link target)

theorem advance_linkFree {root : Node β} {base : Path} {rest : List Name} (h : LinkFree root base rest)
    (hdot : dotDot ∉ rest) :
    advance root base rest = .arrived (base ++ rest) ∨ advance root base rest = .stuck := by
  induction rest generalizing base with
  | nil => exact .inl (by rw [advance, List.append_nil])
  | cons n rest ih =>
    obtain ⟨hn, hrest⟩ := List.ne_and_not_mem_of_not_mem_cons hdot
    have hfirst := h [n]
    have htail : LinkFree root (base ++ [n]) rest := by
      intro q target hq
      rw [List.append_assoc]
      exact h (n :: q) target (by simpa [List.cons_prefix_cons] using hq)
    rw [advance, if_neg (Ne.symm hn)]
    rw [show base ++ n :: rest = base ++ [n] ++ rest by simp]
    cases hg : get (base ++ [n]) root with
    | none =>
      by_cases hr : rest = []
      · simp [hr]
      · simp [hr]
    | some t =>
      cases t with
      | file data =>
        by_cases hr : rest = []
        · simp [hr]
        · simp [hr]
      | link target => exact absurd hg (hfirst target (by simp))
      | dir cs => exact ih htail hrest

/-- Without links a path leads to itself, if anywhere. -/
theorem follow_linkFree {root : Node β} {base : Path} {rest : List Name} (h : LinkFree root base rest)
    (hdot : dotDot ∉ rest) {fuel : ℕ} {path : Path} (hf : follow root fuel base rest = some path) :
    path = base ++ rest := by
  rcases advance_linkFree h hdot with ha | ha
  · rw [follow, ha] at hf
    exact (Option.some.inj hf).symm
  · rw [follow, ha] at hf
    cases hf

theorem get_replace_of_get {p : Path} {t old : Node β} (h : get p t = some old) (new : Node β) :
    get p (replace p (some new) t) = some new := by
  induction p generalizing t with
  | nil => rfl
  | cons n p ih =>
    obtain ⟨c, hc, hget⟩ := Option.bind_eq_some_iff.1 h
    cases p with
    | nil => rw [replace, get_cons, child_setChild_self (isDirectory_of_child hc)]; rfl
    | cons m p =>
      rw [replace, hc, Option.elim_some, get_cons, child_setChild_self (isDirectory_of_child hc)]
      exact ih hget

/-- A replacement below a node is a replacement in the node. -/
theorem get_replace_append {p q : Path} {t d : Node β} (hd : get p t = some d) (hq : q ≠ [])
    (new : Option (Node β)) : get p (replace (p ++ q) new t) = some (replace q new d) := by
  induction p generalizing t with
  | nil =>
    obtain rfl : t = d := Option.some.inj hd
    rfl
  | cons n p ih =>
    obtain ⟨c, hc, hget⟩ := Option.bind_eq_some_iff.1 hd
    obtain ⟨k, r, hr⟩ := List.exists_cons_of_ne_nil (List.append_ne_nil_of_right_ne_nil p hq)
    have hnext := ih hget
    rw [hr] at hnext
    rw [List.cons_append, hr, replace, hc, Option.elim_some, get_cons, child_setChild_self (isDirectory_of_child hc)]
    exact hnext

theorem get_removed {p : Path} (hp : p ≠ []) (t : Node β) : get p (replace p none t) = none := by
  induction p generalizing t with
  | nil => exact absurd rfl hp
  | cons n p ih =>
    cases p with
    | nil =>
      cases t with
      | file data => rfl
      | link target => rfl
      | dir cs => rw [replace, get_cons, child_setChild_self rfl, Option.bind_none]
    | cons m p =>
      rw [replace]
      cases hc : t.child n with
      | none => rw [Option.elim_none, get_cons, hc, Option.bind_none]
      | some c =>
        rw [Option.elim_some, get_cons, child_setChild_self (isDirectory_of_child hc)]
        exact ih (List.cons_ne_nil m p) c

theorem get_replace_below_file {p q : Path} {t : Node β} {d : β} (h : get p t = some (.file d)) (hq : q ≠ [])
    (new : Option (Node β)) : get p (replace (p ++ q) new t) = some (.file d) := by
  induction p generalizing t with
  | nil =>
    obtain rfl : t = .file d := Option.some.inj h
    match q, hq with
    | [n], _ => rfl
    | n :: m :: q, _ => rfl
  | cons n p ih =>
    obtain ⟨c, hc, hget⟩ := Option.bind_eq_some_iff.1 h
    obtain ⟨k, r, hr⟩ := List.exists_cons_of_ne_nil (List.append_ne_nil_of_right_ne_nil p hq)
    have hnext := ih hget
    rw [hr] at hnext
    rw [List.cons_append, hr, replace, hc, Option.elim_some, get_cons, child_setChild_self (isDirectory_of_child hc)]
    exact hnext

inductive Kind where
  | file
  | link (target : PurePath)
  | dir
  deriving DecidableEq

def kind : Node β → Kind
  | .file _ => .file
  | .link target => .link target
  | .dir _ => .dir

def kindAt (p : Path) (t : Node β) : Option Kind := (get p t).map kind

theorem kind_of_isDirectory {t : Node β} (h : t.isDirectory = true) : t.kind = .dir := by
  cases t with
  | file data => cases h
  | link target => cases h
  | dir cs => rfl

theorem isDirectory_of_get_append {p q : Path} {t d c : Node β} (hd : get p t = some d)
    (hc : get (p ++ q) t = some c) (hq : q ≠ []) : d.isDirectory = true := by
  rw [get_append, hd, Option.bind_some] at hc
  cases q with
  | nil => exact absurd rfl hq
  | cons n q =>
    obtain ⟨c', hc', -⟩ := Option.bind_eq_some_iff.1 hc
    exact isDirectory_of_child hc'

theorem exists_get_of_append {p q : Path} {t c : Node β} (hc : get (p ++ q) t = some c) :
    ∃ d, get p t = some d := by
  rw [get_append] at hc
  obtain ⟨d, hd, -⟩ := Option.bind_eq_some_iff.1 hc
  exact ⟨d, hd⟩

theorem not_file_of_get_append {p q : Path} {t c : Node β} {d : β} (hd : get p t = some (.file d))
    (hq : q ≠ []) : get (p ++ q) t ≠ some c := by
  intro hc
  exact absurd (isDirectory_of_get_append hd hc hq) Bool.false_ne_true

theorem apart_of_files {p q : Path} {t : Node β} {d e : β} (hp : get p t = some (.file d))
    (hq : get q t = some (.file e)) (hne : p ≠ q) : Apart p q := by
  constructor
  · rintro ⟨r, rfl⟩
    refine not_file_of_get_append hp ?_ hq
    rintro rfl
    exact hne (List.append_nil p).symm
  · rintro ⟨r, rfl⟩
    refine not_file_of_get_append hq ?_ hp
    rintro rfl
    exact hne (List.append_nil q)

theorem get_rewrite {p place : Path} {t : Node β} {d before : β} (hp : get p t = some (.file d))
    (hplace : get place t = some (.file before)) (hne : p ≠ place) (after : β) :
    get p (replace place (some (.file after)) t) = some (.file d) := by
  rw [get_replace_apart (apart_of_files hp hplace hne).symm]
  exact hp

theorem fileAt_rewrite {place : Path} {t : Node β} {before : β} (h : get place t = some (.file before)) (after : β)
    (p : Path) : fileAt p (replace place (some (.file after)) t) = if p = place then some after else fileAt p t := by
  by_cases hp : p = place
  · rw [if_pos hp, hp, fileAt_eq_some]
    exact get_replace_of_get h _
  · rw [if_neg hp]
    have hother : ∀ d, get p (replace place (some (.file after)) t) = some (.file d) ↔ get p t = some (.file d) := by
      intro d
      constructor
      · intro hd
        have hapart := apart_of_files hd (get_replace_of_get h (.file after)) hp
        rwa [get_replace_apart hapart.symm] at hd
      · exact fun hd => get_rewrite hd h hp after
    ext d
    rw [fileAt_eq_some, fileAt_eq_some, hother]

theorem kindAt_rewrite {place : Path} {t : Node β} {before : β} (h : get place t = some (.file before))
    (after : β) (p : Path) : kindAt p (replace place (some (.file after)) t) = kindAt p t := by
  unfold kindAt
  by_cases hbelow : place <+: p
  · obtain ⟨r, rfl⟩ := hbelow
    rw [get_append, get_append, get_replace_of_get h, h]
    cases r <;> rfl
  · by_cases habove : p <+: place
    · obtain ⟨q, rfl⟩ := habove
      have hq : q ≠ [] := by
        rintro rfl
        exact hbelow (by simp)
      obtain ⟨d, hd⟩ := exists_get_of_append h
      have hdir := isDirectory_of_get_append hd h hq
      obtain ⟨d', hd', hdir'⟩ := isDirectory_replace hd hdir hq (some (.file after))
      rw [hd', hd, Option.map_some, Option.map_some, kind_of_isDirectory hdir, kind_of_isDirectory hdir']
    · rw [get_replace_apart ⟨hbelow, habove⟩]

theorem kind_setChild (t : Node β) (n : Name) (new : Option (Node β)) : (t.setChild n new).kind = t.kind := by
  cases t with
  | file data => rfl
  | link target => rfl
  | dir cs => cases new <;> rfl

/-- A replacement below a node leaves its kind, or leaves it missing. -/
theorem kindAt_replace_above (p : Path) {q : Path} (hq : q ≠ []) (new : Option (Node β)) (t : Node β) :
    kindAt p (replace (p ++ q) new t) = kindAt p t := by
  induction p generalizing t with
  | nil =>
    match q, hq with
    | [n], _ => exact congrArg some (kind_setChild t n new)
    | n :: m :: q, _ =>
      change some (replace (n :: m :: q) new t).kind = some t.kind
      rw [replace]
      cases t.child n with
      | none => rfl
      | some c => exact congrArg some (kind_setChild t n _)
  | cons n p ih =>
    obtain ⟨k, r, hr⟩ := List.exists_cons_of_ne_nil (List.append_ne_nil_of_right_ne_nil p hq)
    rw [List.cons_append, hr, replace]
    cases hc : t.child n with
    | none => rfl
    | some c =>
      have hnext := ih c
      rw [hr] at hnext
      unfold kindAt at hnext ⊢
      rw [Option.elim_some, get_cons, get_cons, child_setChild_self (isDirectory_of_child hc), hc]
      exact hnext

theorem kindAt_eq_none {p : Path} {t : Node β} : kindAt p t = none ↔ get p t = none := Option.map_eq_none_iff

theorem kindAt_eq_dir {p : Path} {t : Node β} : kindAt p t = some .dir ↔ ∃ cs, get p t = some (.dir cs) := by
  unfold kindAt
  constructor
  · intro h
    obtain ⟨c, hc, hkind⟩ := Option.map_eq_some_iff.1 h
    cases c with
    | file data => cases hkind
    | link target => cases hkind
    | dir cs => exact ⟨cs, hc⟩
  · rintro ⟨cs, hcs⟩
    rw [hcs]
    rfl

theorem directory_above {p q : Path} {t : Node β} {cs : List (Name × Node β)} (hq : q <+: p) (h : get p t = some (.dir cs)) :
    ∃ ds, get q t = some (.dir ds) := by
  obtain ⟨r, rfl⟩ := hq
  obtain ⟨d, hd⟩ := exists_get_of_append h
  by_cases hr : r = []
  · subst hr
    rw [List.append_nil] at h
    exact ⟨cs, h⟩
  · have hdir := isDirectory_of_get_append hd h hr
    cases d with
    | file data => cases hdir
    | link target => cases hdir
    | dir ds => exact ⟨ds, hd⟩

theorem get_append_of_none {p : Path} {t : Node β} (h : get p t = none) (q : Path) : get (p ++ q) t = none := by
  rw [get_append, h, Option.bind_none]

theorem file_of_kindAt {p : Path} {t t' : Node β} {d : β} (h : kindAt p t' = kindAt p t)
    (hd : get p t' = some (.file d)) : ∃ d₀, get p t = some (.file d₀) := by
  unfold kindAt at h
  rw [hd, Option.map_some] at h
  obtain ⟨c, hc, hkind⟩ := Option.map_eq_some_iff.1 h.symm
  cases c with
  | file d₀ => exact ⟨d₀, hc⟩
  | link target => cases hkind
  | dir cs => cases hkind

/-- Only nodes at the path or below it can change their kind. -/
theorem kindAt_replace {p q : Path} (h : ¬ p <+: q) (new : Option (Node β)) (t : Node β) :
    kindAt q (replace p new t) = kindAt q t := by
  by_cases habove : q <+: p
  · obtain ⟨r, rfl⟩ := habove
    refine kindAt_replace_above q ?_ new t
    rintro rfl
    exact h (by simp)
  · unfold kindAt
    rw [get_replace_apart ⟨h, habove⟩]

/-- Of two trees that agree on the kind of a node that is no file, neither has a file there. -/
theorem fileAt_eq_none_of_kindAt {p : Path} {t t' : Node β} (h : kindAt p t' = kindAt p t)
    (hfile : ∀ d, get p t ≠ some (.file d)) : fileAt p t' = fileAt p t := by
  have hnone : ∀ u : Node β, (∀ d, get p u ≠ some (.file d)) → fileAt p u = none := by
    intro u hu
    rw [Option.eq_none_iff_forall_ne_some]
    exact fun d hd => hu d (fileAt_eq_some.1 hd)
  rw [hnone t hfile, hnone t' fun d hd => ?_]
  obtain ⟨d₀, hd₀⟩ := file_of_kindAt h hd
  exact hfile d₀ hd₀

/-- Only files at the path or below it can be touched. -/
theorem fileAt_replace {p q : Path} (h : ¬ p <+: q) (new : Option (Node β)) (t : Node β) :
    fileAt q (replace p new t) = fileAt q t := by
  by_cases habove : q <+: p
  · obtain ⟨r, rfl⟩ := habove
    have hr : r ≠ [] := by
      rintro rfl
      exact h (by simp)
    by_cases hfile : ∃ d, get q t = some (.file d)
    · obtain ⟨d, hd⟩ := hfile
      rw [fileAt_eq_some.2 hd, fileAt_eq_some.2 (get_replace_below_file hd hr new)]
    · exact fileAt_eq_none_of_kindAt (kindAt_replace_above q hr new t) fun d hd => hfile ⟨d, hd⟩
  · unfold fileAt
    rw [get_replace_apart ⟨h, habove⟩]

theorem get_replace_some_or {p : Path} (d t : Node β) :
    get p (replace p (some d) t) = some d ∨ get p (replace p (some d) t) = get p t := by
  induction p generalizing t with
  | nil => exact .inl rfl
  | cons n p ih =>
    cases p with
    | nil =>
      cases t with
      | file data => exact .inr rfl
      | link target => exact .inr rfl
      | dir cs =>
        left
        rw [replace, get_cons, child_setChild_self rfl]
        rfl
    | cons m p =>
      rw [replace]
      cases hc : t.child n with
      | none => exact .inr rfl
      | some c =>
        rw [Option.elim_some, get_cons, get_cons, child_setChild_self (isDirectory_of_child hc), hc]
        exact ih c

theorem get_below_new {p q : Path} {t : Node β} (hnone : get p t = none) (hq : q ≠ []) :
    get (p ++ q) (replace p (some (.dir [])) t) = none := by
  obtain ⟨n, r, rfl⟩ := List.exists_cons_of_ne_nil hq
  rw [get_append]
  rcases get_replace_some_or (p := p) (.dir []) t with hd | hd
  · rw [hd]
    rfl
  · rw [hd, hnone]
    rfl

theorem fileAt_replace_dir_nil {p : Path} {t : Node β} (hnone : get p t = none) (q : Path) :
    fileAt q (replace p (some (.dir [])) t) = fileAt q t := by
  by_cases h : p <+: q
  · obtain ⟨r, rfl⟩ := h
    unfold fileAt
    rw [get_append_of_none hnone, get_append]
    rcases get_replace_some_or (p := p) (.dir []) t with hd | hd
    · rw [hd]
      cases r <;> rfl
    · rw [hd, hnone]
      rfl
  · exact fileAt_replace h _ t

theorem advance_congr {t t' : Node β} (h : ∀ p, kindAt p t' = kindAt p t) (here : Path) (rest : List Name) :
    advance t' here rest = advance t here rest := by
  induction rest generalizing here with
  | nil => rfl
  | cons n rest ih =>
    rw [advance, advance, ih, ih]
    have hk := h (here ++ [n])
    unfold kindAt at hk
    rcases ht : get (here ++ [n]) t with _ | c <;> rcases ht' : get (here ++ [n]) t' with _ | c'
    · rfl
    · simp [ht, ht'] at hk
    · simp [ht, ht'] at hk
    · rw [ht, ht', Option.map_some, Option.map_some, Option.some.injEq] at hk
      cases c <;> cases c' <;> simp_all [kind]

/-- Where a path leads is decided by the kinds of the nodes. -/
theorem follow_congr {t t' : Node β} (h : ∀ p, kindAt p t' = kindAt p t) (fuel : ℕ) (base : Path)
    (rest : List Name) : follow t' fuel base rest = follow t fuel base rest := by
  induction fuel generalizing base rest with
  | zero => rw [follow, follow, advance_congr h]
  | succ fuel ih =>
    rw [follow, follow, advance_congr h]
    cases advance t base rest with
    | arrived path => rfl
    | stuck => rfl
    | atLink base' target rest' => exact ih _ _

theorem linkFree_congr {t t' : Node β} {base : Path} {rest : List Name} (h : ∀ p, kindAt p t' = kindAt p t)
    (hfree : LinkFree t base rest) : LinkFree t' base rest := by
  intro q target hq hlink
  have hkind := h (base ++ q)
  unfold kindAt at hkind
  rw [hlink, Option.map_some] at hkind
  obtain ⟨c, hc, hck⟩ := Option.map_eq_some_iff.1 hkind.symm
  cases c with
  | file data => cases hck
  | dir cs => cases hck
  | link target' => exact hfree q target' hq hc

/-- A subtree without links on a path, seen from the root. -/
theorem LinkFree.append {base : Path} {rest : List Name} {root d : Node β} (hd : get base root = some d)
    (h : LinkFree d [] rest) : LinkFree root [] (base ++ rest) := by
  intro q target hq hlink
  rw [List.nil_append] at hlink
  rcases List.prefix_or_prefix_of_prefix hq (List.prefix_append base rest) with hle | ⟨r, rfl⟩
  · obtain ⟨r, rfl⟩ := hle
    by_cases hr : r = []
    · subst hr
      rw [List.append_nil, hlink] at hd
      exact h [] target List.nil_prefix (by rw [List.append_nil, get_nil]; exact hd.symm)
    · exact absurd (isDirectory_of_get_append hlink hd hr) Bool.false_ne_true
  · rw [get_append, hd, Option.bind_some] at hlink
    exact h r target ((List.prefix_append_right_inj base).1 hq) hlink

theorem advance_of_get {base : Path} {rest : List Name} {root x : Node β} (h : get (base ++ rest) root = some x)
    (hx : ∀ target, x ≠ .link target) (hdot : dotDot ∉ rest) : advance root base rest = .arrived (base ++ rest) := by
  induction rest generalizing base with
  | nil => rw [advance, List.append_nil]
  | cons n rest ih =>
    obtain ⟨hn, hrest⟩ := List.ne_and_not_mem_of_not_mem_cons hdot
    rw [show base ++ n :: rest = base ++ [n] ++ rest by simp] at h ⊢
    obtain ⟨c, hc⟩ := exists_get_of_append h
    rw [advance, if_neg (Ne.symm hn), hc]
    cases c with
    | dir cs => exact ih h hrest
    | file data =>
      have hnil : rest = [] := by
        by_contra hne
        exact absurd (isDirectory_of_get_append hc h hne) Bool.false_ne_true
      subst hnil
      rw [List.append_nil]
      rfl
    | link target =>
      have hnil : rest = [] := by
        by_contra hne
        exact absurd (isDirectory_of_get_append hc h hne) Bool.false_ne_true
      subst hnil
      rw [List.append_nil, hc] at h
      exact absurd (Option.some.inj h).symm (hx target)

theorem follow_of_get {base : Path} {rest : List Name} {root x : Node β} (h : get (base ++ rest) root = some x)
    (hx : ∀ target, x ≠ .link target) (hdot : dotDot ∉ rest) (fuel : ℕ) :
    follow root fuel base rest = some (base ++ rest) := by
  rw [follow, advance_of_get h hx hdot]

theorem stat_of_get {base : Path} {rest : List Name} {root x : Node β} (h : get (base ++ rest) root = some x)
    (hx : ∀ target, x ≠ .link target) (hdot : dotDot ∉ rest) : stat root base rest = some (base ++ rest, x) :=
  stat_eq_some.2 ⟨follow_of_get h hx hdot _, h⟩

def NoLinks (t : Node β) : Prop := ∀ p target, get p t ≠ some (.link target)

theorem NoLinks.child {t c : Node β} {n : Name} (ht : NoLinks t) (hc : t.child n = some c) : NoLinks c := by
  intro p target hp
  refine ht (n :: p) target ?_
  rw [get_cons, hc, Option.bind_some, hp]

theorem NoLinks.setChild {t : Node β} {n : Name} {new : Option (Node β)} (ht : NoLinks t)
    (hnew : ∀ c, new = some c → NoLinks c) : NoLinks (t.setChild n new) := by
  cases t with
  | file data => exact ht
  | link target => exact ht
  | dir cs =>
    intro p target hp
    cases p with
    | nil =>
      obtain hdir := isDirectory_setChild (.dir cs) n new
      rw [Option.some.inj hp] at hdir
      cases hdir
    | cons m p =>
      rw [get_cons] at hp
      by_cases hm : m = n
      · rw [hm, child_setChild_self rfl] at hp
        obtain ⟨c, hc, hget⟩ := Option.bind_eq_some_iff.1 hp
        exact hnew c hc p target hget
      · rw [child_setChild_ne new hm] at hp
        exact ht (m :: p) target hp

theorem NoLinks.replace {p : Path} {t : Node β} {new : Option (Node β)} (ht : NoLinks t)
    (hnew : ∀ c, new = some c → NoLinks c) : NoLinks (replace p new t) := by
  induction p generalizing t with
  | nil =>
    cases new with
    | none => exact ht
    | some c => exact hnew c rfl
  | cons n p ih =>
    cases p with
    | nil => exact ht.setChild hnew
    | cons m p =>
      rw [Node.replace]
      cases hc : t.child n with
      | none => exact ht
      | some c =>
        refine ht.setChild fun c' hc' => ?_
        rw [← Option.some.inj hc']
        exact ih (ht.child hc)

theorem NoLinks.below {p : Path} {t d : Node β} (ht : NoLinks t) (hd : get p t = some d) : NoLinks d := by
  intro q target hq
  refine ht (p ++ q) target ?_
  rw [get_append, hd, Option.bind_some, hq]

theorem NoLinks.linkFree {t : Node β} (ht : NoLinks t) (base : Path) (rest : List Name) : LinkFree t base rest :=
  fun q target _ => ht (base ++ q) target

theorem NoLinks.congr {t t' : Node β} (ht : NoLinks t) (h : ∀ p, kindAt p t' = kindAt p t) : NoLinks t' := by
  intro p target hlink
  have hkind := h p
  unfold kindAt at hkind
  rw [hlink, Option.map_some] at hkind
  obtain ⟨x, hx, hlinked⟩ := Option.map_eq_some_iff.1 hkind.symm
  cases x with
  | file data => cases hlinked
  | dir cs => cases hlinked
  | link target' => exact ht p target' hx

/-- The file or the link at a path. -/
def leafAt (p : Path) (t : Node β) : Option (Node β) := (get p t).filter fun x => !x.isDirectory

theorem leafAt_eq_some {p : Path} {t x : Node β} : leafAt p t = some x ↔ get p t = some x ∧ x.isDirectory = false := by
  rw [leafAt, Option.filter_eq_some_iff, Bool.not_eq_true']

theorem leafAt_file {p : Path} {t : Node β} {data : β} : leafAt p t = some (.file data) ↔ fileAt p t = some data := by
  rw [leafAt_eq_some, fileAt_eq_some]
  exact and_iff_left rfl

theorem leafAt_above {p q : Path} {t c : Node β} (hc : get (p ++ q) t = some c) (hq : q ≠ []) : leafAt p t = none := by
  rcases hp : get p t with _ | d
  · rw [leafAt, hp]
    rfl
  · rw [leafAt, hp, Option.filter_some, isDirectory_of_get_append hp hc hq]
    rfl

theorem leafAt_append {p q : Path} {t x y : Node β} (hp : leafAt p t = some x) (hq : leafAt (p ++ q) t = some y) :
    q = [] := by
  by_contra hne
  rw [leafAt_above (leafAt_eq_some.1 hq).1 hne] at hp
  cases hp

theorem leafAt_rewrite {place : Path} {t : Node β} {before : β} (h : get place t = some (.file before)) (after : β)
    (p : Path) :
    leafAt p (replace place (some (.file after)) t) = if p = place then some (.file after) else leafAt p t := by
  have hnew := get_replace_of_get h (.file after)
  by_cases hp : p = place
  · rw [if_pos hp, hp, leafAt_file, fileAt_eq_some, hnew]
  · rw [if_neg hp]
    by_cases habove : p <+: place
    · obtain ⟨q, rfl⟩ := habove
      have hq : q ≠ [] := by
        rintro rfl
        exact hp (List.append_nil p).symm
      rw [leafAt_above hnew hq, leafAt_above h hq]
    · by_cases hbelow : place <+: p
      · obtain ⟨q, rfl⟩ := hbelow
        have hq : q ≠ [] := by
          rintro rfl
          exact hp (List.append_nil place)
        have hgone : ∀ {t' : Node β} {data : β}, get place t' = some (.file data) → leafAt (place ++ q) t' = none := by
          intro t' data hfile
          rw [Option.eq_none_iff_forall_ne_some]
          exact fun y hy => hq (leafAt_append (leafAt_eq_some.2 ⟨hfile, rfl⟩) hy)
        rw [hgone hnew, hgone h]
      · rw [leafAt, leafAt, get_replace_apart ⟨hbelow, habove⟩]

theorem noLinks_iff {t : Node β} : NoLinks t ↔ ∀ p target, leafAt p t ≠ some (.link target) := by
  refine forall₂_congr fun p target => not_congr ?_
  rw [leafAt_eq_some]
  exact (and_iff_left rfl).symm

theorem NoLinks.leafAt {t : Node β} (ht : NoLinks t) (p : Path) : leafAt p t = (fileAt p t).map .file := by
  rcases hleaf : Node.leafAt p t with _ | x
  · rcases hfile : fileAt p t with _ | data
    · rfl
    · rw [leafAt_file.2 hfile] at hleaf
      cases hleaf
  · cases x with
    | file data => rw [leafAt_file.1 hleaf, Option.map_some]
    | link target => exact absurd hleaf (noLinks_iff.1 ht p target)
    | dir cs => cases (leafAt_eq_some.1 hleaf).2

end Node

end FileTrees
