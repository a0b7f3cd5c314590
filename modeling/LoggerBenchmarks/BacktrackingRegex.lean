import Mathlib.Data.List.Basic

set_option autoImplicit false

/-!
# Backtracking regular expressions with captures

A pattern is run at a position of a text and lists its matches in the order a
backtracking matcher tries them, greedy repetitions longest first. The first one
is the match that is reported. Repetition is over single characters, which keeps
the listing structural; `scan` and `split` are for patterns that consume at least
one character.
-/
namespace BacktrackingRegex

variable {α β : Type*}

/-- A position in a text: what lies before it, nearest first, and what lies after. -/
structure Cursor (α : Type*) where
  before : List α
  after : List α
  deriving DecidableEq

def Cursor.pos (c : Cursor α) : ℕ := c.before.length

structure Capture (α : Type*) where
  start : ℕ
  text : List α
  deriving DecidableEq

inductive Pattern (α : Type*) where
  | empty
  | one (p : α → Bool)
  | many (p : α → Bool)
  | seq (r s : Pattern α)
  | opt (r : Pattern α)
  | group (r : Pattern α)
  | lineStart (newline : α → Bool)
  | lineEnd (newline : α → Bool)

def Pattern.plus (p : α → Bool) : Pattern α := .seq (.one p) (.many p)

def Pattern.literal [DecidableEq α] : List α → Pattern α
  | [] => .empty
  | a :: as => .seq (.one (· == a)) (.literal as)

/-- Where a greedy `p*` can stop, longest first. -/
def stops (p : α → Bool) (before : List α) : List α → List (Cursor α)
  | [] => [⟨before, []⟩]
  | x :: xs => if p x then stops p (x :: before) xs ++ [⟨before, x :: xs⟩] else [⟨before, x :: xs⟩]

def Pattern.run : Pattern α → Cursor α → List (Cursor α × List (Capture α))
  | .empty, c => [(c, [])]
  | .one p, c =>
    match c.after with
    | x :: xs => if p x then [(⟨x :: c.before, xs⟩, [])] else []
    | [] => []
  | .many p, c => (stops p c.before c.after).map fun d => (d, [])
  | .seq r s, c => (r.run c).flatMap fun m => (s.run m.1).map fun n => (n.1, m.2 ++ n.2)
  | .opt r, c => r.run c ++ [(c, [])]
  | .group r, c => (r.run c).map fun m =>
      (m.1, ⟨c.pos, c.after.take (m.1.pos - c.pos)⟩ :: m.2)
  | .lineStart newline, c => if c.before.head?.all newline then [(c, [])] else []
  | .lineEnd newline, c => if c.after.head?.all newline then [(c, [])] else []

structure Found (α : Type*) where
  start : Cursor α
  stop : Cursor α
  groups : List (Capture α)
  deriving DecidableEq

def Found.text (m : Found α) (i : ℕ) : List α := (m.groups[i]?.map Capture.text).getD []

def Pattern.matchAt (r : Pattern α) (c : Cursor α) : Option (Found α) :=
  (r.run c).head?.map fun m => ⟨c, m.1, m.2⟩

def Pattern.searchFrom (r : Pattern α) (before : List α) : List α → Option (Found α)
  | [] => r.matchAt ⟨before, []⟩
  | x :: xs => (r.matchAt ⟨before, x :: xs⟩).or (r.searchFrom (x :: before) xs)

def Pattern.search (r : Pattern α) (text : List α) : Option (Found α) := r.searchFrom [] text

/-- All matches from left to right; `skip` characters still belong to the last one. -/
def Pattern.scan (r : Pattern α) : ℕ → List α → List α → List (Found α)
  | _, _, [] => []
  | skip + 1, before, x :: xs => r.scan skip (x :: before) xs
  | 0, before, x :: xs =>
    match r.matchAt ⟨before, x :: xs⟩ with
    | some m => m :: r.scan (m.stop.pos - m.start.pos - 1) (x :: before) xs
    | none => r.scan 0 (x :: before) xs

def Pattern.findAll (r : Pattern α) (text : List α) : List (Found α) := r.scan 0 [] text

def pieces (c : Cursor α) : List (Found α) → List (List α)
  | [] => [c.after]
  | m :: ms => c.after.take (m.start.pos - c.pos) :: pieces m.stop ms

def Pattern.split (r : Pattern α) (text : List α) : List (List α) :=
  pieces ⟨[], text⟩ (r.findAll text)

/-- The first match from which `f` yields a value. -/
def Pattern.find (r : Pattern α) (c : Cursor α) (f : Cursor α × List (Capture α) → Option β) :
    Option β :=
  (r.run c).findSome? f

section Find

attribute [local simp] Pattern.find Pattern.run stops

variable (f : Cursor α × List (Capture α) → Option β)

@[simp] theorem find_one_cons (p : α → Bool) (b : List α) (x : α) (xs : List α) :
    (Pattern.one p).find ⟨b, x :: xs⟩ f = if p x then f (⟨x :: b, xs⟩, []) else none := by
  by_cases h : p x <;> simp [h]

@[simp] theorem find_one_nil (p : α → Bool) (b : List α) :
    (Pattern.one p).find ⟨b, []⟩ f = none := rfl

theorem find_many_nil (p : α → Bool) (b : List α) :
    (Pattern.many p).find ⟨b, []⟩ f = f (⟨b, []⟩, []) := by
  simp

theorem find_many_cons (p : α → Bool) (b : List α) (x : α) (xs : List α) :
    (Pattern.many p).find ⟨b, x :: xs⟩ f =
      if p x then ((Pattern.many p).find ⟨x :: b, xs⟩ f).or (f (⟨b, x :: xs⟩, []))
      else f (⟨b, x :: xs⟩, []) := by
  by_cases h : p x <;> simp [h, List.findSome?_append]

theorem find_seq (r s : Pattern α) (c : Cursor α) : (Pattern.seq r s).find c f =
    r.find c fun m => s.find m.1 fun n => f (n.1, m.2 ++ n.2) := by
  simp only [Pattern.find, Pattern.run]
  induction r.run c with
  | nil => rfl
  | cons m ms ih =>
    rw [List.flatMap_cons, List.findSome?_append, ih, List.findSome?_map, List.findSome?_cons]
    cases h : (s.run m.1).findSome? fun n => f (n.1, m.2 ++ n.2) <;>
      simp only [Function.comp_def, h, Option.none_or, Option.some_or]

theorem find_group (r : Pattern α) (c : Cursor α) : (Pattern.group r).find c f =
    r.find c fun m => f (m.1, ⟨c.pos, c.after.take (m.1.pos - c.pos)⟩ :: m.2) := by
  simp only [Pattern.find, Pattern.run, List.findSome?_map, Function.comp_def]

theorem find_opt (r : Pattern α) (c : Cursor α) :
    (Pattern.opt r).find c f = (r.find c f).or (f (c, [])) := by
  simp [List.findSome?_append]

@[simp] theorem find_lineStart (newline : α → Bool) (c : Cursor α) :
    (Pattern.lineStart newline).find c f = if c.before.head?.all newline then f (c, []) else none := by
  by_cases h : c.before.head?.all newline = true <;> simp [h]

theorem find_lineStart_nil (newline : α → Bool) (xs : List α) :
    (Pattern.lineStart newline).find ⟨[], xs⟩ f = f (⟨[], xs⟩, []) := by simp

theorem find_lineEnd_cons {newline : α → Bool} {x : α} (hx : newline x = true) (b xs : List α) :
    (Pattern.lineEnd newline).find ⟨b, x :: xs⟩ f = f (⟨b, x :: xs⟩, []) := by simp [hx]

end Find

theorem matchAt_eq_find (r : Pattern α) (c : Cursor α) :
    r.matchAt c = r.find c fun m => some ⟨c, m.1, m.2⟩ := by
  unfold Pattern.matchAt Pattern.find
  cases r.run c <;> rfl

theorem matchAt_start {r : Pattern α} {c : Cursor α} {m : Found α} (h : r.matchAt c = some m) :
    m.start = c := by
  obtain ⟨n, -, rfl⟩ := Option.map_eq_some_iff.1 h
  rfl

theorem matchAt_mem {r : Pattern α} {c : Cursor α} {m : Found α} (h : r.matchAt c = some m) :
    (m.stop, m.groups) ∈ r.run c := by
  obtain ⟨n, hn, rfl⟩ := Option.map_eq_some_iff.1 h
  exact List.mem_of_head? hn

theorem matchAt_eq_none {r : Pattern α} {c : Cursor α} : r.matchAt c = none ↔ r.run c = [] := by
  simp [Pattern.matchAt]

section Literal

variable [DecidableEq α]

theorem run_literal_append (s : List α) (b t : List α) :
    (Pattern.literal s).run ⟨b, s ++ t⟩ = [(⟨s.reverse ++ b, t⟩, [])] := by
  induction s generalizing b with
  | nil => rfl
  | cons a s ih => simp [Pattern.literal, Pattern.run, ih]

theorem run_literal_of_mismatch {s xs : List α} (b : List α) (h : ¬ s <+: xs) :
    (Pattern.literal s).run ⟨b, xs⟩ = [] := by
  induction s generalizing b xs with
  | nil => exact absurd List.nil_prefix h
  | cons a s ih =>
    cases xs with
    | nil => rfl
    | cons x xs =>
      by_cases hx : x = a
      · subst x
        have ht : ¬ s <+: xs := by simpa using h
        simp [Pattern.literal, Pattern.run, ih _ ht]
      · simp [Pattern.literal, Pattern.run, hx]

theorem run_literal_cases (s : List α) (c : Cursor α) :
    (∃ t, c.after = s ++ t ∧ (Pattern.literal s).run c = [(⟨s.reverse ++ c.before, t⟩, [])]) ∨
      (¬ s <+: c.after ∧ (Pattern.literal s).run c = []) := by
  by_cases h : s <+: c.after
  · obtain ⟨t, ht⟩ := h
    refine .inl ⟨t, ht.symm, ?_⟩
    have := run_literal_append s c.before t
    rwa [ht] at this
  · exact .inr ⟨h, run_literal_of_mismatch c.before h⟩

theorem find_literal_append (s b t : List α) (f : Cursor α × List (Capture α) → Option β) :
    (Pattern.literal s).find ⟨b, s ++ t⟩ f = f (⟨s.reverse ++ b, t⟩, []) := by
  simp [Pattern.find, run_literal_append]

theorem find_literal_of_mismatch {s xs : List α} (b : List α) (h : ¬ s <+: xs)
    (f : Cursor α × List (Capture α) → Option β) : (Pattern.literal s).find ⟨b, xs⟩ f = none := by
  simp [Pattern.find, run_literal_of_mismatch b h]

end Literal

/-- A greedy repetition first tries to stop at the end of the run it is in. -/
theorem find_many_append (p : α → Bool) (b xs t : List α) (hxs : ∀ x ∈ xs, p x = true)
    (f : Cursor α × List (Capture α) → Option β) {v : β}
    (h : (Pattern.many p).find ⟨xs.reverse ++ b, t⟩ f = some v) :
    (Pattern.many p).find ⟨b, xs ++ t⟩ f = some v := by
  induction xs generalizing b with
  | nil => exact h
  | cons x xs ih =>
    have hx : p x = true := hxs x List.mem_cons_self
    have htail := ih (x :: b) (fun y hy => hxs y (List.mem_cons_of_mem x hy)) (by simpa using h)
    simp [find_many_cons, hx, htail]

theorem find_many_stop (p : α → Bool) (b t : List α) (ht : ∀ x ∈ t.head?, p x = false)
    (f : Cursor α × List (Capture α) → Option β) :
    (Pattern.many p).find ⟨b, t⟩ f = f (⟨b, t⟩, []) := by
  cases t with
  | nil => exact find_many_nil f p b
  | cons x t => simp [find_many_cons, ht x rfl]

theorem find_many_span (p : α → Bool) (b xs t : List α) (hxs : ∀ x ∈ xs, p x = true)
    (ht : ∀ x ∈ t.head?, p x = false) (f : Cursor α × List (Capture α) → Option β) {v : β}
    (h : f (⟨xs.reverse ++ b, t⟩, []) = some v) : (Pattern.many p).find ⟨b, xs ++ t⟩ f = some v :=
  find_many_append p b xs t hxs f (by rw [find_many_stop p _ t ht]; exact h)

/-- The continuation fails at the end of the run and succeeds one character before it. -/
theorem find_many_span_back (p : α → Bool) (b xs t : List α) (x : α) (hxs : ∀ x ∈ xs, p x = true)
    (hx : p x = true) (ht : ∀ x ∈ t.head?, p x = false) (f : Cursor α × List (Capture α) → Option β)
    {v : β} (hfail : f (⟨x :: (xs.reverse ++ b), t⟩, []) = none)
    (h : f (⟨xs.reverse ++ b, x :: t⟩, []) = some v) :
    (Pattern.many p).find ⟨b, xs ++ x :: t⟩ f = some v := by
  apply find_many_append p b xs (x :: t) hxs f
  rw [find_many_cons, find_many_stop p _ t ht, hfail]
  simpa [hx] using h

/-- If the continuation fails wherever the run can stop, so does the repetition. -/
theorem find_many_none (p : α → Bool) (b xs t : List α) (ht : ∀ x ∈ t.head?, p x = false)
    (f : Cursor α × List (Capture α) → Option β)
    (hf : ∀ ys zs, xs = ys ++ zs → f (⟨ys.reverse ++ b, zs ++ t⟩, []) = none) :
    (Pattern.many p).find ⟨b, xs ++ t⟩ f = none := by
  induction xs generalizing b with
  | nil =>
    rw [List.nil_append, find_many_stop p b t ht]
    exact hf [] [] rfl
  | cons x xs ih =>
    have hhere : f (⟨b, x :: (xs ++ t)⟩, []) = none := hf [] (x :: xs) rfl
    have htail := ih (x :: b) fun ys zs h => by
      simpa using hf (x :: ys) zs (by rw [h, List.cons_append])
    rw [List.cons_append, find_many_cons, htail, hhere]
    simp

theorem find_plus_cons (p : α → Bool) (b : List α) (x : α) (xs : List α)
    (f : Cursor α × List (Capture α) → Option β) : (Pattern.plus p).find ⟨b, x :: xs⟩ f =
      if p x then (Pattern.many p).find ⟨x :: b, xs⟩ f else none := by
  simp [Pattern.plus, find_seq]

theorem find_plus_nil (p : α → Bool) (b : List α) (f : Cursor α × List (Capture α) → Option β) :
    (Pattern.plus p).find ⟨b, []⟩ f = none := by
  simp [Pattern.plus, find_seq]

theorem find_plus_stop (p : α → Bool) (b t : List α) (ht : ∀ x ∈ t.head?, p x = false)
    (f : Cursor α × List (Capture α) → Option β) : (Pattern.plus p).find ⟨b, t⟩ f = none := by
  cases t with
  | nil => exact find_plus_nil p b f
  | cons x t => simp [find_plus_cons, ht x rfl]

theorem find_plus_span (p : α → Bool) (b xs t : List α) (hne : xs ≠ []) (hxs : ∀ x ∈ xs, p x = true)
    (ht : ∀ x ∈ t.head?, p x = false) (f : Cursor α × List (Capture α) → Option β) {v : β}
    (h : f (⟨xs.reverse ++ b, t⟩, []) = some v) : (Pattern.plus p).find ⟨b, xs ++ t⟩ f = some v := by
  cases xs with
  | nil => exact absurd rfl hne
  | cons x xs =>
    rw [List.cons_append, find_plus_cons, if_pos (hxs x List.mem_cons_self)]
    exact find_many_span p (x :: b) xs t (fun y hy => hxs y (List.mem_cons_of_mem x hy)) ht f
      (by simpa using h)

theorem find_plus_span_back (p : α → Bool) (b xs t : List α) (x : α) (hne : xs ≠ [])
    (hxs : ∀ x ∈ xs, p x = true) (hx : p x = true) (ht : ∀ x ∈ t.head?, p x = false)
    (f : Cursor α × List (Capture α) → Option β) {v : β}
    (hfail : f (⟨x :: (xs.reverse ++ b), t⟩, []) = none)
    (h : f (⟨xs.reverse ++ b, x :: t⟩, []) = some v) :
    (Pattern.plus p).find ⟨b, xs ++ x :: t⟩ f = some v := by
  cases xs with
  | nil => exact absurd rfl hne
  | cons y xs =>
    rw [List.cons_append, find_plus_cons, if_pos (hxs y List.mem_cons_self)]
    exact find_many_span_back p (y :: b) xs t x (fun z hz => hxs z (List.mem_cons_of_mem y hz)) hx ht f
      (by simpa using hfail) (by simpa using h)

theorem find_plus_none (p : α → Bool) (b xs t : List α) (ht : ∀ x ∈ t.head?, p x = false)
    (f : Cursor α × List (Capture α) → Option β)
    (hf : ∀ ys zs, xs = ys ++ zs → ys ≠ [] → f (⟨ys.reverse ++ b, zs ++ t⟩, []) = none) :
    (Pattern.plus p).find ⟨b, xs ++ t⟩ f = none := by
  cases xs with
  | nil => exact find_plus_stop p b t ht f
  | cons x xs =>
    rw [List.cons_append, find_plus_cons]
    split
    · apply find_many_none p (x :: b) xs t ht f
      intro ys zs h
      simpa using hf (x :: ys) zs (by rw [h, List.cons_append]) (List.cons_ne_nil x ys)
    · rfl

theorem capture_take (b xs t : List α) : (xs ++ t).take ((xs.reverse ++ b).length - b.length) = xs := by
  simp

theorem find_group_plus_span (p : α → Bool) (b xs t : List α) (hne : xs ≠ [])
    (hxs : ∀ x ∈ xs, p x = true) (ht : ∀ x ∈ t.head?, p x = false)
    (f : Cursor α × List (Capture α) → Option β) {v : β}
    (h : f (⟨xs.reverse ++ b, t⟩, [⟨b.length, xs⟩]) = some v) :
    (Pattern.group (Pattern.plus p)).find ⟨b, xs ++ t⟩ f = some v := by
  rw [find_group]
  apply find_plus_span p b xs t hne hxs ht
  simpa only [Cursor.pos, capture_take] using h

theorem find_group_plus_span_back (p : α → Bool) (b xs t : List α) (x : α) (hne : xs ≠ [])
    (hxs : ∀ x ∈ xs, p x = true) (hx : p x = true) (ht : ∀ x ∈ t.head?, p x = false)
    (f : Cursor α × List (Capture α) → Option β) {v : β}
    (hfail : ∀ g, f (⟨x :: (xs.reverse ++ b), t⟩, g) = none)
    (h : f (⟨xs.reverse ++ b, x :: t⟩, [⟨b.length, xs⟩]) = some v) :
    (Pattern.group (Pattern.plus p)).find ⟨b, xs ++ x :: t⟩ f = some v := by
  rw [find_group]
  apply find_plus_span_back p b xs t x hne hxs hx ht
  · exact hfail _
  · simpa only [Cursor.pos, capture_take] using h

def Cursor.Spans (c : Cursor α) (w : List α) (d : Cursor α) : Prop :=
  c.after = w ++ d.after ∧ d.before = w.reverse ++ c.before

theorem Cursor.Spans.refl (c : Cursor α) : c.Spans [] c := ⟨rfl, rfl⟩

theorem Cursor.Spans.trans {c d e : Cursor α} {w v : List α} (h : c.Spans w d) (h' : d.Spans v e) :
    c.Spans (w ++ v) e := by
  obtain ⟨ha, hb⟩ := h
  obtain ⟨ha', hb'⟩ := h'
  exact ⟨by rw [ha, ha', List.append_assoc], by rw [hb', hb, List.reverse_append, List.append_assoc]⟩

theorem Cursor.Spans.pos {c d : Cursor α} {w : List α} (h : c.Spans w d) : d.pos = c.pos + w.length := by
  simp only [Cursor.pos, h.2, List.length_append, List.length_reverse]
  omega

theorem Cursor.Spans.between {a c d : Cursor α} {v w : List α} (hc : a.Spans v c) (hd : a.Spans w d)
    (h : c.pos ≤ d.pos) : ∃ u, c.Spans u d := by
  have hlen : v.length ≤ w.length := by
    have hcp := hc.pos
    have hdp := hd.pos
    omega
  have hvw : v ++ c.after = w ++ d.after := hc.1.symm.trans hd.1
  obtain ⟨u, rfl⟩ : v <+: w :=
    List.prefix_of_prefix_length_le (List.prefix_append v c.after) (hvw ▸ List.prefix_append w d.after)
      hlen
  refine ⟨u, ?_, ?_⟩
  · exact List.append_cancel_left (by rw [hvw, List.append_assoc])
  · rw [hd.2, hc.2, List.reverse_append, List.append_assoc]

theorem Cursor.Spans.unique {a c d : Cursor α} {v w : List α} (hc : a.Spans v c) (hd : a.Spans w d)
    (h : c.pos = d.pos) : c = d := by
  obtain ⟨u, hu⟩ := hc.between hd (Nat.le_of_eq h)
  have hnil : u = [] := List.length_eq_zero_iff.1 (by have := hu.pos; omega)
  subst hnil
  obtain ⟨b, xs⟩ := c
  obtain ⟨b', xs'⟩ := d
  obtain ⟨rfl, rfl⟩ : xs = xs' ∧ b' = b := hu
  rfl

theorem stops_spans {p : α → Bool} {b xs : List α} {d : Cursor α} (h : d ∈ stops p b xs) :
    ∃ w, (Cursor.mk b xs).Spans w d ∧ ∀ x ∈ w, p x = true := by
  induction xs generalizing b with
  | nil =>
    obtain rfl := List.mem_singleton.1 h
    exact ⟨[], .refl _, by simp⟩
  | cons x xs ih =>
    simp only [stops] at h
    split at h
    · rename_i hx
      rcases List.mem_append.1 h with h | h
      · obtain ⟨w, hw, hp⟩ := ih h
        have hone : (Cursor.mk b (x :: xs)).Spans [x] ⟨x :: b, xs⟩ := ⟨rfl, rfl⟩
        exact ⟨[x] ++ w, hone.trans hw, by simpa [hx] using hp⟩
      · obtain rfl := List.mem_singleton.1 h
        exact ⟨[], .refl _, by simp⟩
    · obtain rfl := List.mem_singleton.1 h
      exact ⟨[], .refl _, by simp⟩

theorem run_spans {r : Pattern α} {c : Cursor α} {m : Cursor α × List (Capture α)} (h : m ∈ r.run c) :
    ∃ w, c.Spans w m.1 := by
  induction r generalizing c m with
  | empty =>
    obtain rfl := List.mem_singleton.1 h
    exact ⟨[], .refl c⟩
  | one p =>
    obtain ⟨b, xs⟩ := c
    cases xs with
    | nil => cases h
    | cons x xs =>
      simp only [Pattern.run] at h
      split at h
      · obtain rfl := List.mem_singleton.1 h
        exact ⟨[x], rfl, rfl⟩
      · cases h
  | many p =>
    obtain ⟨d, hd, rfl⟩ := List.mem_map.1 h
    obtain ⟨w, hw, -⟩ := stops_spans hd
    exact ⟨w, hw⟩
  | seq r s ihr ihs =>
    obtain ⟨m', hr, h'⟩ := List.mem_flatMap.1 h
    obtain ⟨n, hs, rfl⟩ := List.mem_map.1 h'
    obtain ⟨w, hw⟩ := ihr hr
    obtain ⟨v, hv⟩ := ihs hs
    exact ⟨w ++ v, hw.trans hv⟩
  | opt r ih =>
    rcases List.mem_append.1 h with h | h
    · exact ih h
    · obtain rfl := List.mem_singleton.1 h
      exact ⟨[], .refl c⟩
  | group r ih =>
    obtain ⟨n, hr, rfl⟩ := List.mem_map.1 h
    obtain ⟨w, hw⟩ := ih hr
    exact ⟨w, hw⟩
  | lineStart newline =>
    simp only [Pattern.run] at h
    split at h
    · obtain rfl := List.mem_singleton.1 h
      exact ⟨[], .refl c⟩
    · cases h
  | lineEnd newline =>
    simp only [Pattern.run] at h
    split at h
    · obtain rfl := List.mem_singleton.1 h
      exact ⟨[], .refl c⟩
    · cases h

theorem run_seq_mem {r s : Pattern α} {c : Cursor α} {m : Cursor α × List (Capture α)}
    (h : m ∈ (r.seq s).run c) :
    ∃ n ∈ r.run c, ∃ k ∈ s.run n.1, m = (k.1, n.2 ++ k.2) := by
  obtain ⟨n, hn, h'⟩ := List.mem_flatMap.1 h
  obtain ⟨k, hk, rfl⟩ := List.mem_map.1 h'
  exact ⟨n, hn, k, hk, rfl⟩

theorem run_one_mem {p : α → Bool} {c : Cursor α} {m : Cursor α × List (Capture α)}
    (h : m ∈ (Pattern.one p).run c) : ∃ x, p x = true ∧ c.Spans [x] m.1 ∧ m.2 = [] := by
  obtain ⟨b, xs⟩ := c
  cases xs with
  | nil => cases h
  | cons x xs =>
    simp only [Pattern.run] at h
    split at h
    · rename_i hx
      obtain rfl := List.mem_singleton.1 h
      exact ⟨x, hx, ⟨rfl, rfl⟩, rfl⟩
    · cases h

theorem run_many_mem {p : α → Bool} {c : Cursor α} {m : Cursor α × List (Capture α)}
    (h : m ∈ (Pattern.many p).run c) :
    ∃ w, (∀ x ∈ w, p x = true) ∧ c.Spans w m.1 ∧ m.2 = [] := by
  obtain ⟨d, hd, rfl⟩ := List.mem_map.1 h
  obtain ⟨w, hw, hp⟩ := stops_spans hd
  exact ⟨w, hp, hw, rfl⟩

theorem run_plus_mem {p : α → Bool} {c : Cursor α} {m : Cursor α × List (Capture α)}
    (h : m ∈ (Pattern.plus p).run c) :
    ∃ w, w ≠ [] ∧ (∀ x ∈ w, p x = true) ∧ c.Spans w m.1 ∧ m.2 = [] := by
  obtain ⟨n, hn, k, hk, rfl⟩ := run_seq_mem h
  obtain ⟨x, hx, hone, hn2⟩ := run_one_mem hn
  obtain ⟨w, hw, hmany, hk2⟩ := run_many_mem hk
  refine ⟨[x] ++ w, List.cons_ne_nil x w, ?_, hone.trans hmany, by simp [hn2, hk2]⟩
  simpa [hx] using hw

theorem run_literal_mem [DecidableEq α] {s : List α} {c : Cursor α} {m : Cursor α × List (Capture α)}
    (h : m ∈ (Pattern.literal s).run c) : c.Spans s m.1 ∧ m.2 = [] := by
  rcases run_literal_cases s c with ⟨t, ht, hrun⟩ | ⟨-, hrun⟩
  · rw [hrun] at h
    obtain rfl := List.mem_singleton.1 h
    exact ⟨⟨ht, rfl⟩, rfl⟩
  · rw [hrun] at h
    cases h

theorem matchAt_spans {r : Pattern α} {c : Cursor α} {m : Found α} (h : r.matchAt c = some m) :
    ∃ w, c.Spans w m.stop :=
  run_spans (matchAt_mem h)

/-- Where a match ends is determined by what is left of the text. -/
theorem spans_of_after {r : Pattern α} {c : Cursor α} {m : Found α} {w : List α}
    (h : r.matchAt c = some m) (hw : c.after = w ++ m.stop.after) : c.Spans w m.stop := by
  obtain ⟨v, hv⟩ := matchAt_spans h
  have heq : v = w := List.append_cancel_right (hv.1.symm.trans hw)
  exact heq ▸ hv

theorem run_seq_of_nil {r s : Pattern α} {c : Cursor α} (h : r.run c = []) : (r.seq s).run c = [] := by
  simp [Pattern.run, h]

/-- No match starts inside `w` when `xs` follows it. -/
def Quiet (r : Pattern α) (b w xs : List α) : Prop :=
  ∀ u v, w = u ++ v → v ≠ [] → r.matchAt ⟨u.reverse ++ b, v ++ xs⟩ = none

theorem quiet_nil (r : Pattern α) (b xs : List α) : Quiet r b [] xs := by
  intro u v h hv
  exact absurd (List.append_eq_nil_iff.1 h.symm).2 hv

theorem quiet_cons_iff {r : Pattern α} {b w xs : List α} {x : α} :
    Quiet r b (x :: w) xs ↔ r.matchAt ⟨b, x :: (w ++ xs)⟩ = none ∧ Quiet r (x :: b) w xs := by
  constructor
  · intro h
    refine ⟨h [] (x :: w) rfl (List.cons_ne_nil x w), ?_⟩
    intro u v huv hv
    simpa using h (x :: u) v (by rw [huv, List.cons_append]) hv
  · rintro ⟨hx, hw⟩ u v huv hv
    cases u with
    | nil =>
      obtain rfl : x :: w = v := by simpa using huv
      exact hx
    | cons y u =>
      obtain ⟨rfl, rfl⟩ : x = y ∧ w = u ++ v := by simpa using huv
      simpa using hw u v rfl hv

theorem quiet_append_iff {r : Pattern α} {b w v xs : List α} :
    Quiet r b (w ++ v) xs ↔ Quiet r b w (v ++ xs) ∧ Quiet r (w.reverse ++ b) v xs := by
  induction w generalizing b with
  | nil => simp [quiet_nil]
  | cons x w ih =>
    rw [List.cons_append, quiet_cons_iff, ih, quiet_cons_iff]
    simp [and_assoc]

theorem scan_skip (r : Pattern α) (b w xs : List α) :
    r.scan w.length b (w ++ xs) = r.scan 0 (w.reverse ++ b) xs := by
  induction w generalizing b with
  | nil => rfl
  | cons x w ih => simp [Pattern.scan, ih]

theorem scan_quiet {r : Pattern α} {b w xs : List α} (h : Quiet r b w xs) :
    r.scan 0 b (w ++ xs) = r.scan 0 (w.reverse ++ b) xs := by
  induction w generalizing b with
  | nil => rfl
  | cons x w ih =>
    obtain ⟨hx, hw⟩ := quiet_cons_iff.1 h
    simp [Pattern.scan, hx, ih hw]

theorem scan_match {r : Pattern α} {b w xs : List α} {m : Found α} (hw : w ≠ [])
    (hm : r.matchAt ⟨b, w ++ xs⟩ = some m) (hs : (Cursor.mk b (w ++ xs)).Spans w m.stop) :
    r.scan 0 b (w ++ xs) = m :: r.scan 0 (w.reverse ++ b) xs := by
  have hstart := matchAt_start hm
  have hskip : m.stop.pos - m.start.pos - 1 = w.length - 1 := by
    rw [hs.pos, hstart]
    omega
  cases w with
  | nil => exact absurd rfl hw
  | cons x w =>
    simp only [List.cons_append, Pattern.scan] at hm ⊢
    simp only [hm, hskip, List.length_cons, Nat.add_sub_cancel, scan_skip, List.reverse_cons,
      List.append_assoc, List.singleton_append]

theorem searchFrom_quiet {r : Pattern α} {b w xs : List α} (h : Quiet r b w xs) :
    r.searchFrom b (w ++ xs) = r.searchFrom (w.reverse ++ b) xs := by
  induction w generalizing b with
  | nil => rfl
  | cons x w ih =>
    obtain ⟨hx, hw⟩ := quiet_cons_iff.1 h
    simp [Pattern.searchFrom, hx, ih hw]

theorem searchFrom_match {r : Pattern α} {b xs : List α} {m : Found α}
    (h : r.matchAt ⟨b, xs⟩ = some m) : r.searchFrom b xs = some m := by
  cases xs <;> simp [Pattern.searchFrom, h]

theorem searchFrom_some {r : Pattern α} {b xs : List α} {m : Found α}
    (h : r.searchFrom b xs = some m) :
    ∃ w, (Cursor.mk b xs).Spans w m.start ∧ r.matchAt m.start = some m := by
  induction xs generalizing b with
  | nil =>
    have hs := matchAt_start h
    rw [hs]
    exact ⟨[], .refl _, h⟩
  | cons x xs ih =>
    rcases Option.or_eq_some_iff.1 h with h | ⟨-, h⟩
    · have hs := matchAt_start h
      rw [hs]
      exact ⟨[], .refl _, h⟩
    · obtain ⟨w, hw, hm⟩ := ih h
      have hone : (Cursor.mk b (x :: xs)).Spans [x] ⟨x :: b, xs⟩ := ⟨rfl, rfl⟩
      exact ⟨[x] ++ w, hone.trans hw, hm⟩

theorem run_captures {r : Pattern α} {c : Cursor α} {m : Cursor α × List (Capture α)}
    (h : m ∈ r.run c) : ∀ g ∈ m.2, c.pos ≤ g.start ∧ g.start + g.text.length ≤ m.1.pos := by
  induction r generalizing c m with
  | empty =>
    obtain rfl := List.mem_singleton.1 h
    simp
  | one p =>
    obtain ⟨b, xs⟩ := c
    cases xs with
    | nil => cases h
    | cons x xs =>
      simp only [Pattern.run] at h
      split at h
      · obtain rfl := List.mem_singleton.1 h
        simp
      · cases h
  | many p =>
    obtain ⟨d, -, rfl⟩ := List.mem_map.1 h
    simp
  | seq r s ihr ihs =>
    obtain ⟨m', hr, h'⟩ := List.mem_flatMap.1 h
    obtain ⟨n, hs, rfl⟩ := List.mem_map.1 h'
    obtain ⟨w, hw⟩ := run_spans hr
    obtain ⟨v, hv⟩ := run_spans hs
    have hcw := hw.pos
    have hwv := hv.pos
    intro g hg
    change c.pos ≤ g.start ∧ g.start + g.text.length ≤ n.1.pos
    rcases List.mem_append.1 hg with hg | hg
    · have := ihr hr g hg
      omega
    · have := ihs hs g hg
      omega
  | opt r ih =>
    rcases List.mem_append.1 h with h | h
    · exact ih h
    · obtain rfl := List.mem_singleton.1 h
      simp
  | group r ih =>
    obtain ⟨n, hr, rfl⟩ := List.mem_map.1 h
    obtain ⟨w, hw⟩ := run_spans hr
    have hpos := hw.pos
    intro g hg
    rcases List.mem_cons.1 hg with rfl | hg
    · simp only [List.length_take]
      omega
    · exact ih hr g hg
  | lineStart newline =>
    simp only [Pattern.run] at h
    split at h
    · obtain rfl := List.mem_singleton.1 h
      simp
    · cases h
  | lineEnd newline =>
    simp only [Pattern.run] at h
    split at h
    · obtain rfl := List.mem_singleton.1 h
      simp
    · cases h

/-- A search finds something where there is a match, and nothing to the left of what it finds. -/
theorem searchFrom_first {r : Pattern α} {b xs w : List α} {n : Found α}
    (hw : (Cursor.mk b xs).Spans w n.start) (hn : r.matchAt n.start = some n) :
    ∃ m, r.searchFrom b xs = some m ∧ m.start.pos ≤ n.start.pos := by
  cases hm : r.matchAt ⟨b, xs⟩ with
  | some m =>
    refine ⟨m, searchFrom_match hm, ?_⟩
    rw [hw.pos, matchAt_start hm]
    exact Nat.le_add_right _ _
  | none =>
    induction xs generalizing b w with
    | nil =>
      obtain ⟨hnil, ha⟩ := List.append_eq_nil_iff.1 hw.1.symm
      have hc : n.start = ⟨b, []⟩ := by
        cases hs : n.start
        simp_all [Cursor.Spans]
      rw [hc, hm] at hn
      cases hn
    | cons x xs ih =>
      cases w with
      | nil =>
        have hc : n.start = ⟨b, x :: xs⟩ := by
          cases hs : n.start
          simp_all [Cursor.Spans]
        rw [hc, hm] at hn
        cases hn
      | cons y w =>
        have hy : x = y ∧ xs = w ++ n.start.after := by simpa using hw.1
        obtain ⟨rfl, ha⟩ := hy
        have hw' : (Cursor.mk (x :: b) xs).Spans w n.start := ⟨ha, by simpa using hw.2⟩
        rw [Pattern.searchFrom, hm, Option.none_or]
        cases hm' : r.matchAt ⟨x :: b, xs⟩ with
        | some m =>
          refine ⟨m, searchFrom_match hm', ?_⟩
          rw [hw'.pos, matchAt_start hm']
          exact Nat.le_add_right _ _
        | none => exact ih hw' hm'

theorem scan_mem {r : Pattern α} {skip : ℕ} {b xs : List α} {m : Found α}
    (h : m ∈ r.scan skip b xs) :
    ∃ w, (Cursor.mk b xs).Spans w m.start ∧ skip ≤ w.length ∧ r.matchAt m.start = some m := by
  induction xs generalizing skip b with
  | nil =>
    cases skip <;> cases h
  | cons x xs ih =>
    have hone : (Cursor.mk b (x :: xs)).Spans [x] ⟨x :: b, xs⟩ := ⟨rfl, rfl⟩
    have hlater : ∀ {k}, m ∈ r.scan k (x :: b) xs → ∃ w, (Cursor.mk b (x :: xs)).Spans w m.start ∧
        k + 1 ≤ w.length ∧ r.matchAt m.start = some m := by
      intro k hk
      obtain ⟨w, hw, hlen, hm⟩ := ih hk
      exact ⟨[x] ++ w, hone.trans hw, Nat.succ_le_succ hlen, hm⟩
    cases skip with
    | succ skip => exact hlater h
    | zero =>
      simp only [Pattern.scan] at h
      split at h
      · rename_i n hn
        rcases List.mem_cons.1 h with rfl | h
        · have hs := matchAt_start hn
          rw [hs]
          exact ⟨[], .refl _, Nat.zero_le _, hn⟩
        · obtain ⟨w, hw, -, hm⟩ := hlater h
          exact ⟨w, hw, Nat.zero_le _, hm⟩
      · obtain ⟨w, hw, -, hm⟩ := hlater h
        exact ⟨w, hw, Nat.zero_le _, hm⟩

/-- Matches that consume something do not overlap. -/
theorem scan_sorted {r : Pattern α} (hr : ∀ c m, r.matchAt c = some m → m.start.pos < m.stop.pos)
    (skip : ℕ) (b xs : List α) :
    (r.scan skip b xs).Pairwise fun m n => m.stop.pos ≤ n.start.pos := by
  induction xs generalizing skip b with
  | nil => cases skip <;> exact List.Pairwise.nil
  | cons x xs ih =>
    cases skip with
    | succ skip => exact ih skip (x :: b)
    | zero =>
      simp only [Pattern.scan]
      split
      · rename_i m hm
        refine List.Pairwise.cons ?_ (ih _ _)
        intro n hn
        obtain ⟨w, hw, hlen, -⟩ := scan_mem hn
        have hpos := hw.pos
        have hs : m.start.pos = b.length := by rw [matchAt_start hm, Cursor.pos]
        have hlt := hr _ _ hm
        simp only [Cursor.pos, List.length_cons] at hpos hs hlt hlen ⊢
        omega
      · exact ih 0 (x :: b)

/-- A position with a match is the start of a listed match or lies inside one. -/
theorem scan_complete {r : Pattern α} {c : Cursor α} {m : Found α} (hm : r.matchAt c = some m)
    (hc : c.after ≠ []) {skip : ℕ} {b xs w : List α} (hw : (Cursor.mk b xs).Spans w c)
    (hskip : skip ≤ w.length) :
    ∃ n ∈ r.scan skip b xs, n.start = c ∨ n.start.pos < c.pos ∧ c.pos < n.stop.pos := by
  induction xs generalizing skip b w with
  | nil => exact absurd (List.append_eq_nil_iff.1 hw.1.symm).2 hc
  | cons x xs ih =>
    cases w with
    | nil =>
      obtain ⟨b', xs'⟩ := c
      obtain ⟨rfl, rfl⟩ : x :: xs = xs' ∧ b' = b := by simpa [Cursor.Spans] using hw
      obtain rfl : skip = 0 := Nat.le_zero.1 hskip
      simp only [Pattern.scan, hm]
      exact ⟨m, List.mem_cons_self, .inl (matchAt_start hm)⟩
    | cons y w =>
      have hy : x = y ∧ xs = w ++ c.after := by simpa using hw.1
      obtain ⟨rfl, ha⟩ := hy
      have hw' : (Cursor.mk (x :: b) xs).Spans w c := ⟨ha, by simpa using hw.2⟩
      have hpos := hw.pos
      cases skip with
      | succ skip => exact ih hw' (Nat.le_of_succ_le_succ hskip)
      | zero =>
        simp only [Pattern.scan]
        split
        · rename_i n hn
          by_cases hin : n.stop.pos - n.start.pos - 1 ≤ w.length
          · obtain ⟨k, hk, hor⟩ := ih hw' hin
            exact ⟨k, List.mem_cons_of_mem n hk, hor⟩
          · -- the match found here reaches over the position
            have hs : n.start.pos = b.length := by rw [matchAt_start hn, Cursor.pos]
            refine ⟨n, List.mem_cons_self, .inr ?_⟩
            simp only [Cursor.pos, List.length_cons] at hpos hs hin ⊢
            omega
        · exact ih hw' (Nat.zero_le _)

def upTo (m : Found α) : Option (Found α) → List α
  | some n => m.stop.after.take (n.start.pos - m.stop.pos)
  | none => m.stop.after

theorem pieces_succ (c : Cursor α) (ms : List (Found α)) (j : ℕ) :
    (pieces c ms)[j + 1]? = ms[j]?.map fun m => upTo m ms[j + 1]? := by
  induction ms generalizing c j with
  | nil => rfl
  | cons m ms ih =>
    cases j with
    | zero => cases ms <;> rfl
    | succ j =>
      rw [pieces, List.getElem?_cons_succ, ih]
      rfl

end BacktrackingRegex

