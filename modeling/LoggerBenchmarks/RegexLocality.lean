import LoggerBenchmarks.BacktrackingRegex

set_option autoImplicit false

/-!
# Patterns in a larger text

How the matches of a pattern change when text is put in front of a text or behind
it: a pattern without anchors does not see what lies before it, and one that no
match of which can run into a given text does not see that text either.
-/
namespace RegexLocality
open BacktrackingRegex

variable {α : Type*}

def NoLineStart : Pattern α → Prop
  | .seq r s => NoLineStart r ∧ NoLineStart s
  | .opt r => NoLineStart r
  | .group r => NoLineStart r
  | .lineStart _ => False
  | _ => True

theorem noLineStart_literal [DecidableEq α] (s : List α) : NoLineStart (Pattern.literal s) := by
  induction s with
  | nil => trivial
  | cons a s ih => exact ⟨trivial, ih⟩

def under (b : List α) (c : Cursor α) : Cursor α := ⟨c.before ++ b, c.after⟩

def shift (n : ℕ) (g : Capture α) : Capture α := ⟨g.start + n, g.text⟩

def underRun (b : List α) (m : Cursor α × List (Capture α)) : Cursor α × List (Capture α) :=
  (under b m.1, m.2.map (shift b.length))

def underFound (b : List α) (m : Found α) : Found α :=
  ⟨under b m.start, under b m.stop, m.groups.map (shift b.length)⟩

theorem under_pos (b : List α) (c : Cursor α) : (under b c).pos = c.pos + b.length :=
  List.length_append

theorem stops_under (p : α → Bool) (b before xs : List α) :
    stops p (before ++ b) xs = (stops p before xs).map (under b) := by
  induction xs generalizing before with
  | nil => rfl
  | cons x xs ih =>
    have hx := ih (x :: before)
    rw [List.cons_append] at hx
    by_cases h : p x
    · simp [stops, h, hx, under]
    · simp [stops, h, under]

theorem run_under {r : Pattern α} (h : NoLineStart r) (b : List α) (c : Cursor α) :
    r.run (under b c) = (r.run c).map (underRun b) := by
  induction r generalizing c with
  | empty => rfl
  | one p =>
    obtain ⟨before, xs⟩ := c
    cases xs with
    | nil => rfl
    | cons x xs => by_cases hx : p x <;> simp [Pattern.run, under, underRun, hx]
  | many p =>
    simp only [Pattern.run, under, stops_under, List.map_map]
    rfl
  | seq r s ihr ihs =>
    simp only [Pattern.run, ihr h.1, List.flatMap_map, List.map_flatMap, List.map_map]
    apply List.flatMap_congr
    intro m _
    rw [underRun, ihs h.2, List.map_map]
    apply List.map_congr_left
    intro n _
    simp [underRun]
  | opt r ih => simp [Pattern.run, ih h, underRun]
  | group r ih =>
    simp only [Pattern.run, ih h, List.map_map]
    apply List.map_congr_left
    intro m _
    have hlen : (under b m.1).pos - (under b c).pos = m.1.pos - c.pos := by
      simp only [under_pos]
      omega
    simp only [Function.comp_apply, underRun, hlen, List.map_cons, shift, ← under_pos]
    rfl
  | lineStart newline => exact h.elim
  | lineEnd newline =>
    by_cases hc : c.after.head?.all newline = true <;> simp [Pattern.run, under, underRun, hc]

theorem matchAt_under {r : Pattern α} (h : NoLineStart r) (b : List α) (c : Cursor α) :
    r.matchAt (under b c) = (r.matchAt c).map (underFound b) := by
  unfold Pattern.matchAt
  rw [run_under h, List.head?_map, Option.map_map, Option.map_map]
  rfl

theorem text_under (b : List α) (m : Found α) (i : ℕ) : (underFound b m).text i = m.text i := by
  unfold Found.text underFound
  rw [List.getElem?_map, Option.map_map]
  rfl

theorem scan_under {r : Pattern α} (h : NoLineStart r) (b : List α) (skip : ℕ) (before xs : List α) :
    r.scan skip (before ++ b) xs = (r.scan skip before xs).map (underFound b) := by
  induction xs generalizing skip before with
  | nil => cases skip <;> rfl
  | cons x xs ih =>
    cases skip with
    | succ skip => exact ih skip (x :: before)
    | zero =>
      have hm := matchAt_under h b ⟨before, x :: xs⟩
      simp only [under] at hm
      simp only [Pattern.scan, hm]
      cases hc : r.matchAt ⟨before, x :: xs⟩ with
      | none => exact ih 0 (x :: before)
      | some m =>
        have hskip : (underFound b m).stop.pos - (underFound b m).start.pos - 1 =
            m.stop.pos - m.start.pos - 1 := by
          simp only [underFound, under_pos]
          omega
        simp only [Option.map_some, List.map_cons, hskip]
        rw [← List.cons_append, ih]

theorem searchFrom_under {r : Pattern α} (h : NoLineStart r) (b before xs : List α) :
    r.searchFrom (before ++ b) xs = (r.searchFrom before xs).map (underFound b) := by
  induction xs generalizing before with
  | nil => exact matchAt_under h b ⟨before, []⟩
  | cons x xs ih =>
    have hm := matchAt_under h b ⟨before, x :: xs⟩
    simp only [under] at hm
    have ih' := ih (x :: before)
    rw [List.cons_append] at ih'
    simp only [Pattern.searchFrom, hm, ih']
    cases r.matchAt ⟨before, x :: xs⟩ <;> rfl

theorem pieces_under (b : List α) (c : Cursor α) (ms : List (Found α)) :
    pieces (under b c) (ms.map (underFound b)) = pieces c ms := by
  induction ms generalizing c with
  | nil => rfl
  | cons m ms ih =>
    have hpos : (underFound b m).start.pos - (under b c).pos = m.start.pos - c.pos := by
      simp only [underFound, under_pos]
      omega
    simp only [List.map_cons, pieces, hpos]
    congr 1
    exact ih m.stop

def extend (z : List α) (c : Cursor α) : Cursor α := ⟨c.before, c.after ++ z⟩

def extendRun (z : List α) (m : Cursor α × List (Capture α)) : Cursor α × List (Capture α) :=
  (extend z m.1, m.2)

def extendFound (z : List α) (m : Found α) : Found α := ⟨extend z m.start, extend z m.stop, m.groups⟩

def StopsAt (r : Pattern α) (z : List α) : Prop :=
  ∀ c : Cursor α, r.run (extend z c) = (r.run c).map (extendRun z)

def Avoids (x : α) : Pattern α → Prop
  | .empty => True
  | .one p => p x = false
  | .many p => p x = false
  | .seq r s => Avoids x r ∧ Avoids x s
  | .opt r => Avoids x r
  | .group r => Avoids x r
  | .lineStart _ => True
  | .lineEnd _ => False

theorem stopsAt_seq {r s : Pattern α} {z : List α} (hr : StopsAt r z) (hs : StopsAt s z) :
    StopsAt (.seq r s) z := by
  intro c
  simp only [Pattern.run, hr c, List.flatMap_map, List.map_flatMap, List.map_map]
  apply List.flatMap_congr
  intro m _
  rw [extendRun, hs, List.map_map]
  rfl

theorem stopsAt_group {r : Pattern α} {z : List α} (h : StopsAt r z) : StopsAt (.group r) z := by
  intro c
  simp only [Pattern.run, h c, List.map_map]
  apply List.map_congr_left
  intro m hm
  obtain ⟨w, hw⟩ := run_spans hm
  have hpos := hw.pos
  have hlen : m.1.pos - c.pos ≤ c.after.length := by
    rw [hw.1, List.length_append]
    omega
  change (_ : Cursor α × List (Capture α)) = _
  simp only [Function.comp_apply, extendRun, extend, Cursor.pos] at hlen ⊢
  rw [List.take_append_of_le_length hlen]

theorem stops_extend {p : α → Bool} {x : α} (hx : p x = false) (b xs t : List α) :
    stops p b (xs ++ x :: t) = (stops p b xs).map (extend (x :: t)) := by
  induction xs generalizing b with
  | nil => simp [stops, hx, extend]
  | cons y xs ih =>
    by_cases hy : p y
    · simp [stops, hy, ih, extend]
    · simp [stops, hy, extend]

theorem stopsAt_of_avoids {r : Pattern α} {x : α} (h : Avoids x r) (t : List α) : StopsAt r (x :: t) := by
  induction r with
  | empty => exact fun _ => rfl
  | one p =>
    rintro ⟨b, xs⟩
    cases xs with
    | nil => simp [extend, Pattern.run, show p x = false from h]
    | cons y xs => by_cases hy : p y <;> simp [extend, extendRun, Pattern.run, hy]
  | many p =>
    rintro ⟨b, xs⟩
    simp only [extend, Pattern.run, stops_extend (show p x = false from h), List.map_map]
    rfl
  | seq r s ihr ihs => exact stopsAt_seq (ihr h.1) (ihs h.2)
  | opt r ih =>
    intro c
    simp [Pattern.run, ih h c, extendRun]
  | group r ih => exact stopsAt_group (ih h)
  | lineStart newline =>
    intro c
    by_cases hc : c.before.head?.all newline = true <;> simp [Pattern.run, extend, extendRun, hc]
  | lineEnd newline => exact h.elim

theorem avoids_plus {x : α} {p : α → Bool} (h : p x = false) : Avoids x (Pattern.plus p) := ⟨h, h⟩

theorem avoids_literal [DecidableEq α] {x : α} {s : List α} (h : x ∉ s) : Avoids x (Pattern.literal s) := by
  induction s with
  | nil => trivial
  | cons a s ih =>
    obtain ⟨hx, hs⟩ := List.ne_and_not_mem_of_not_mem_cons h
    exact ⟨beq_false_of_ne hx, ih hs⟩

/-- A literal stops at `z` if no end of it could be read from `z`. -/
theorem stopsAt_literal [DecidableEq α] {s z : List α} (h : ∀ u v, s = u ++ v → v ≠ [] → ¬ v <+: z) :
    StopsAt (Pattern.literal s) z := by
  rintro ⟨b, xs⟩
  by_cases hpre : s <+: xs
  · obtain ⟨t, rfl⟩ := hpre
    simp only [extend, List.append_assoc, run_literal_append, List.map_singleton, extendRun]
  · have hlong : ¬ s <+: xs ++ z := by
      rintro ⟨t, ht⟩
      rcases List.append_eq_append_iff.1 ht with ⟨y, hy, -⟩ | ⟨y, hy, hz⟩
      · exact hpre ⟨y, hy.symm⟩
      · by_cases hnil : y = []
        · exact hpre ⟨[], by rw [hy, hnil]; simp⟩
        · exact h xs y hy hnil ⟨t, hz.symm⟩
    simp only [extend, run_literal_of_mismatch b hpre, run_literal_of_mismatch b hlong, List.map_nil]

theorem stops_extend_blocked {p : α → Bool} {x : α} (hx : p x = false) (y : α) (b xs t : List α) :
    ∃ E, stops p b (xs ++ y :: x :: t) = E ++ (stops p b xs).map (extend (y :: x :: t)) ∧
      ∀ d ∈ E, d.after = x :: t := by
  induction xs generalizing b with
  | nil =>
    by_cases hy : p y
    · exact ⟨[⟨y :: b, x :: t⟩], by simp [stops, hx, hy, extend], by simp⟩
    · exact ⟨[], by simp [stops, hy, extend], by simp⟩
  | cons z xs ih =>
    by_cases hz : p z
    · obtain ⟨E, hE, hd⟩ := ih (z :: b)
      exact ⟨E, by simp [stops, hz, hE, extend], hd⟩
    · exact ⟨[], by simp [stops, hz, extend], by simp⟩

theorem run_plus_blocked {p : α → Bool} {x : α} (hx : p x = false) (y : α) (t : List α) (c : Cursor α) :
    ∃ E, (Pattern.plus p).run (extend (y :: x :: t) c) =
        E ++ ((Pattern.plus p).run c).map (extendRun (y :: x :: t)) ∧
      ∀ m ∈ E, m.1.after = x :: t := by
  obtain ⟨b, xs⟩ := c
  cases xs with
  | nil =>
    by_cases hy : p y
    · exact ⟨[(⟨y :: b, x :: t⟩, [])], by simp [extend, Pattern.plus, Pattern.run, stops, hx, hy], by simp⟩
    · exact ⟨[], by simp [extend, Pattern.plus, Pattern.run, hy], by simp⟩
  | cons z xs =>
    by_cases hz : p z
    · obtain ⟨E, hE, hd⟩ := stops_extend_blocked hx y (z :: b) xs t
      refine ⟨E.map fun d => (d, []), ?_, ?_⟩
      · simp [extend, Pattern.plus, Pattern.run, hz, hE]
        rfl
      · intro m hm
        obtain ⟨d, hdE, rfl⟩ := List.mem_map.1 hm
        exact hd d hdE
    · exact ⟨[], by simp [extend, Pattern.plus, Pattern.run, hz], by simp⟩

/-- A repetition may take in `y` if what follows it in the pattern cannot go on at `x`. -/
theorem stopsAt_plus_blocked {p : α → Bool} {s : Pattern α} {x y : α} {t : List α} (hx : p x = false)
    (hs : StopsAt s (y :: x :: t)) (hnone : ∀ b, s.run ⟨b, x :: t⟩ = []) :
    StopsAt (.seq (.group (.plus p)) s) (y :: x :: t) := by
  intro c
  obtain ⟨E, hE, hd⟩ := run_plus_blocked hx y t c
  have hgroup : (Pattern.group (Pattern.plus p)).run (extend (y :: x :: t) c) =
      (E.map fun m => (m.1, ⟨c.pos, (c.after ++ y :: x :: t).take (m.1.pos - c.pos)⟩ :: m.2)) ++
        ((Pattern.group (Pattern.plus p)).run c).map (extendRun (y :: x :: t)) := by
    simp only [Pattern.run] at hE ⊢
    rw [hE, List.map_append]
    congr 1
    rw [List.map_map, List.map_map]
    apply List.map_congr_left
    intro m hm
    obtain ⟨w, hw⟩ := run_spans hm
    have hpos := hw.pos
    have hlen : m.1.pos - c.pos ≤ c.after.length := by
      rw [hw.1, List.length_append]
      omega
    simp only [Cursor.pos] at hlen
    simp [extendRun, extend, Cursor.pos, List.take_append_of_le_length hlen]
  have hblocked : ((E.map fun m => (m.1, (⟨c.pos, (c.after ++ y :: x :: t).take (m.1.pos - c.pos)⟩ :
      Capture α) :: m.2)).flatMap fun m => (s.run m.1).map fun n => (n.1, m.2 ++ n.2)) = [] := by
    rw [List.flatMap_eq_nil_iff]
    intro m hm
    obtain ⟨m', hm', rfl⟩ := List.mem_map.1 hm
    have hafter := hd m' hm'
    obtain ⟨⟨b, xs⟩, gs⟩ := m'
    obtain rfl : xs = x :: t := hafter
    rw [hnone]
    rfl
  rw [Pattern.run, hgroup, List.flatMap_append, hblocked, List.nil_append, Pattern.run, List.flatMap_map,
    List.map_flatMap]
  apply List.flatMap_congr
  intro m _
  rw [extendRun, hs, List.map_map, List.map_map]
  rfl

theorem matchAt_extend {r : Pattern α} {z : List α} (h : StopsAt r z) (c : Cursor α) :
    r.matchAt (extend z c) = (r.matchAt c).map (extendFound z) := by
  unfold Pattern.matchAt
  rw [h c, List.head?_map, Option.map_map, Option.map_map]
  rfl

/-- A match in front of a border is found first whatever lies behind it. -/
theorem searchFrom_extend {r : Pattern α} {z : List α} (h : StopsAt r z) {b v : List α} {m : Found α}
    (hm : r.searchFrom b v = some m) : r.searchFrom b (v ++ z) = some (extendFound z m) := by
  induction v generalizing b with
  | nil =>
    have hfirst : r.matchAt ⟨b, []⟩ = some m := hm
    have hextend := matchAt_extend h ⟨b, []⟩
    rw [hfirst] at hextend
    exact searchFrom_match hextend
  | cons x v ih =>
    have hextend := matchAt_extend h ⟨b, x :: v⟩
    rw [Pattern.searchFrom] at hm
    rcases Option.or_eq_some_iff.1 hm with hfirst | ⟨hnone, hlater⟩
    · rw [hfirst] at hextend
      exact searchFrom_match hextend
    · rw [hnone] at hextend
      rw [List.cons_append, Pattern.searchFrom, show r.matchAt ⟨b, x :: (v ++ z)⟩ = none from hextend, Option.none_or]
      exact ih hlater

theorem scan_append {r : Pattern α} {z : List α} (h : StopsAt r z) {skip : ℕ} {b v : List α}
    (hskip : skip ≤ v.length) : r.scan skip b (v ++ z) =
      (r.scan skip b v).map (extendFound z) ++ r.scan 0 (v.reverse ++ b) z := by
  induction v generalizing skip b with
  | nil =>
    obtain rfl : skip = 0 := Nat.le_zero.1 hskip
    rfl
  | cons x v ih =>
    have hback : ∀ {k}, k ≤ v.length → r.scan k (x :: b) (v ++ z) =
        (r.scan k (x :: b) v).map (extendFound z) ++ r.scan 0 ((x :: v).reverse ++ b) z := by
      intro k hk
      rw [ih hk]
      simp
    cases skip with
    | succ skip => exact hback (Nat.le_of_succ_le_succ hskip)
    | zero =>
      have hm := matchAt_extend h ⟨b, x :: v⟩
      simp only [extend, List.cons_append] at hm
      simp only [List.cons_append, Pattern.scan, hm]
      cases hc : r.matchAt ⟨b, x :: v⟩ with
      | none => exact hback (Nat.zero_le _)
      | some m =>
        have hinside : m.stop.pos - m.start.pos - 1 ≤ v.length := by
          obtain ⟨w, hw⟩ := matchAt_spans hc
          have hpos := hw.pos
          have hlen := congrArg List.length hw.1
          have hs := matchAt_start hc
          simp only [List.length_append, List.length_cons] at hlen
          rw [hs]
          omega
        simp only [Option.map_some, List.map_cons, List.cons_append]
        congr 1
        exact hback hinside

def glue : List (List α) → List (List α) → List (List α)
  | [], qs => qs
  | [p], qs => qs.modifyHead (p ++ ·)
  | p :: p' :: ps, qs => p :: glue (p' :: ps) qs

theorem glue_cons {p : List α} {ps qs : List (List α)} (h : ps ≠ []) :
    glue (p :: ps) qs = p :: glue ps qs := by
  cases ps with
  | nil => exact absurd rfl h
  | cons p' ps => rfl

theorem pieces_ne_nil (c : Cursor α) (ms : List (Found α)) : pieces c ms ≠ [] := by
  cases ms <;> simp [pieces]

def Within : Cursor α → List (Found α) → Prop
  | _, [] => True
  | c, m :: ms => (∃ w, c.Spans w m.start) ∧ (∃ w, m.start.Spans w m.stop) ∧ Within m.stop ms

theorem spans_take (b xs : List α) (k : ℕ) :
    (Cursor.mk b xs).Spans (xs.take k) ⟨(xs.take k).reverse ++ b, xs.drop k⟩ :=
  ⟨(List.take_append_drop k xs).symm, rfl⟩

theorem scan_within (r : Pattern α) (c : Cursor α) (skip : ℕ) (b xs : List α)
    (hc : ∃ w, c.Spans w ⟨(xs.take skip).reverse ++ b, xs.drop skip⟩) : Within c (r.scan skip b xs) := by
  induction xs generalizing c skip b with
  | nil => cases skip <;> trivial
  | cons x xs ih =>
    cases skip with
    | succ skip => exact ih c skip (x :: b) (by simpa using hc)
    | zero =>
      have hone : (Cursor.mk b (x :: xs)).Spans [x] ⟨x :: b, xs⟩ := ⟨rfl, rfl⟩
      obtain ⟨w, hw⟩ := hc
      simp only [Pattern.scan]
      cases hm : r.matchAt ⟨b, x :: xs⟩ with
      | none => exact ih c 0 (x :: b) ⟨w ++ [x], hw.trans hone⟩
      | some m =>
        have hs := matchAt_start hm
        obtain ⟨v, hv⟩ := matchAt_spans hm
        have hnext := hone.trans (spans_take (x :: b) xs (m.stop.pos - m.start.pos - 1))
        refine ⟨⟨w, hs ▸ hw⟩, ⟨v, hs ▸ hv⟩, ih m.stop _ _ ?_⟩
        have hle : m.stop.pos ≤ Cursor.pos ⟨(xs.take (m.stop.pos - m.start.pos - 1)).reverse ++ x :: b,
            xs.drop (m.stop.pos - m.start.pos - 1)⟩ := by
          have hpos := hv.pos
          have hlen := congrArg List.length hv.1
          have hstart : m.start.pos = b.length := by rw [hs, Cursor.pos]
          simp only [Cursor.pos, List.length_append, List.length_reverse, List.length_take,
            List.length_cons] at hpos hlen hstart ⊢
          omega
        exact hv.between hnext hle

theorem pieces_behind {z : List α} (c : Cursor α) {ns : List (Found α)}
    (hns : ∀ n ∈ ns, c.pos + c.after.length ≤ n.start.pos) : pieces (extend z c) ns =
      (pieces ⟨c.after.reverse ++ c.before, z⟩ ns).modifyHead (c.after ++ ·) := by
  cases ns with
  | nil => rfl
  | cons n ns =>
    have hle := hns n List.mem_cons_self
    have hsub : n.start.pos - c.pos - c.after.length =
        n.start.pos - Cursor.pos ⟨c.after.reverse ++ c.before, z⟩ := by
      simp only [Cursor.pos, List.length_append, List.length_reverse] at hle ⊢
      omega
    simp only [pieces, List.modifyHead_cons, List.cons.injEq, and_true]
    change (c.after ++ z).take (n.start.pos - c.pos) = _
    rw [List.take_append, List.take_of_length_le (by omega), hsub]

theorem pieces_append {z : List α} {c : Cursor α} {ms ns : List (Found α)} (hms : Within c ms)
    (hns : ∀ n ∈ ns, c.pos + c.after.length ≤ n.start.pos) :
    pieces (extend z c) (ms.map (extendFound z) ++ ns) =
      glue (pieces c ms) (pieces ⟨c.after.reverse ++ c.before, z⟩ ns) := by
  induction ms generalizing c with
  | nil => exact pieces_behind c hns
  | cons m ms ih =>
    obtain ⟨⟨w, hw⟩, ⟨v, hv⟩, htail⟩ := hms
    have hall := hw.trans hv
    have hpos := hall.pos
    have hlen := congrArg List.length hall.1
    have hend : m.stop.after.reverse ++ m.stop.before = c.after.reverse ++ c.before := by
      rw [hall.1, hall.2]
      simp only [List.reverse_append, List.append_assoc]
    have hns' : ∀ n ∈ ns, m.stop.pos + m.stop.after.length ≤ n.start.pos := by
      intro n hn
      have hle := hns n hn
      simp only [List.length_append] at hlen hpos
      omega
    have hinside : m.start.pos - c.pos ≤ c.after.length := by
      have hp := hw.pos
      have hl := congrArg List.length hw.1
      simp only [List.length_append] at hl
      omega
    rw [List.map_cons, List.cons_append, pieces, pieces, glue_cons (pieces_ne_nil _ _)]
    have hrest := ih htail hns'
    rw [hend] at hrest
    rw [← hrest]
    change (c.after ++ z).take (m.start.pos - c.pos) :: _ = _
    rw [List.take_append_of_le_length hinside]
    rfl

theorem findAll_append {r : Pattern α} {z : List α} (h : StopsAt r z) (hr : NoLineStart r) (v : List α) :
    r.findAll (v ++ z) = (r.findAll v).map (extendFound z) ++
      (r.findAll z).map (underFound v.reverse) := by
  rw [Pattern.findAll, scan_append h (Nat.zero_le _), List.append_nil]
  congr 1
  exact scan_under hr v.reverse 0 [] z

theorem split_append {r : Pattern α} {z : List α} (h : StopsAt r z) (hr : NoLineStart r) (v : List α) :
    r.split (v ++ z) = glue (r.split v) (r.split z) := by
  have hwithin : Within ⟨[], v⟩ (r.findAll v) := scan_within r ⟨[], v⟩ 0 [] v ⟨[], .refl _⟩
  have hbehind : ∀ n ∈ (r.findAll z).map (underFound v.reverse),
      Cursor.pos ⟨[], v⟩ + v.length ≤ n.start.pos := by
    intro n hn
    obtain ⟨m, -, rfl⟩ := List.mem_map.1 hn
    change 0 + v.length ≤ (under v.reverse m.start).pos
    rw [under_pos, List.length_reverse]
    omega
  have hp := pieces_append (z := z) hwithin hbehind
  rw [Pattern.split, findAll_append h hr]
  refine hp.trans ?_
  congr 1
  have hu := pieces_under v.reverse ⟨[], z⟩ (r.findAll z)
  rw [under, List.nil_append] at hu
  rw [List.append_nil]
  exact hu

theorem findAll_quiet {r : Pattern α} {v z : List α} (hr : NoLineStart r) (hq : Quiet r [] v z) :
    r.findAll (v ++ z) = (r.findAll z).map (underFound v.reverse) := by
  rw [Pattern.findAll, scan_quiet hq, List.append_nil]
  exact scan_under hr v.reverse 0 [] z

theorem search_quiet {r : Pattern α} {v z : List α} (hr : NoLineStart r) (hq : Quiet r [] v z) :
    r.search (v ++ z) = (r.search z).map (underFound v.reverse) := by
  rw [Pattern.search, searchFrom_quiet hq, List.append_nil]
  exact searchFrom_under hr v.reverse [] z

theorem split_quiet {r : Pattern α} {v z : List α} (hr : NoLineStart r) (hq : Quiet r [] v z) :
    r.split (v ++ z) = glue [v] (r.split z) := by
  have hbehind : ∀ n ∈ (r.findAll z).map (underFound v.reverse),
      Cursor.pos ⟨[], v⟩ + v.length ≤ n.start.pos := by
    intro n hn
    obtain ⟨m, -, rfl⟩ := List.mem_map.1 hn
    change 0 + v.length ≤ (under v.reverse m.start).pos
    rw [under_pos, List.length_reverse]
    omega
  have hu := pieces_under v.reverse ⟨[], z⟩ (r.findAll z)
  rw [under, List.nil_append] at hu
  rw [Pattern.split, findAll_quiet hr hq]
  refine (pieces_behind ⟨[], v⟩ hbehind).trans ?_
  rw [List.append_nil, hu]
  rfl

theorem quiet_extend {r : Pattern α} {v z : List α} (hz : StopsAt r z) (hr : NoLineStart r)
    (h : Quiet r [] v []) (b : List α) : Quiet r b v z := by
  intro u t hut ht
  have hnone := h u t hut ht
  rw [List.append_nil, List.append_nil] at hnone
  have hunder := matchAt_under hr b ⟨u.reverse, t⟩
  rw [hnone] at hunder
  have hext := matchAt_extend hz (under b ⟨u.reverse, t⟩)
  rw [hunder] at hext
  exact hext

theorem quiet_of_search_none {r : Pattern α} {v : List α} (h : r.search v = none) : Quiet r [] v [] := by
  intro u t hut ht
  by_contra hne
  obtain ⟨m, hm⟩ := Option.ne_none_iff_exists'.1 hne
  have hs := matchAt_start hm
  have hspan : (Cursor.mk [] v).Spans u m.start := by
    rw [hs]
    exact ⟨by simpa using hut, rfl⟩
  obtain ⟨n, hn, -⟩ := searchFrom_first hspan (hs.symm ▸ hm)
  rw [Pattern.search, hn] at h
  cases h

/-- A match in the end of a text is a match in the text. -/
theorem search_isSome_append {r : Pattern α} (hr : NoLineStart r) {t : List α} {m : Found α}
    (hm : r.matchAt ⟨[], t⟩ = some m) (x : List α) : (r.search (x ++ t)).isSome = true := by
  have hunder := matchAt_under hr x.reverse ⟨[], t⟩
  rw [hm, Option.map_some] at hunder
  have hs := matchAt_start hunder
  have hspan : (Cursor.mk [] (x ++ t)).Spans x (underFound x.reverse m).start := by
    rw [hs]
    exact ⟨rfl, by simp [under]⟩
  obtain ⟨n, hn, -⟩ := searchFrom_first hspan (hs.symm ▸ hunder)
  rw [Pattern.search, hn]
  rfl

theorem glue_singleton {ps : List (List α)} (h : ps ≠ []) (q : List α) (qs : List (List α)) :
    glue ps (q :: qs) = ps.dropLast ++ (ps.getLast h ++ q) :: qs := by
  induction ps with
  | nil => exact absurd rfl h
  | cons p ps ih =>
    cases ps with
    | nil => rfl
    | cons p' ps =>
      rw [glue_cons (List.cons_ne_nil p' ps), ih (List.cons_ne_nil p' ps)]
      rfl

end RegexLocality
