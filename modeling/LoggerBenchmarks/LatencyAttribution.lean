import Mathlib.Data.List.Nodup
import Mathlib.Data.List.Perm.Subperm
import LoggerBenchmarks.LatencyPatterns

set_option autoImplicit false

/-!
# Which block a latency result comes from

The parser finds the headers with one pattern and cuts the text with a weaker one,
and it joins the two lists by position. A result is followed back to the header and
the number row it was made of.
-/
namespace LoggerBenchmarks.LatencyAttribution
open BacktrackingRegex PythonText ResultFileParser LatencyPatterns

def occurrences (content : Text) : List (Found Char) := threadCountPattern.findAll content

def headers (content : Text) : List (Found Char) := headerPattern.findAll content

structure PlacedRow where
  base : ℕ
  row : Found Char
  deriving DecidableEq

def PlacedRow.numbers (r : PlacedRow) : List (ℕ × ℕ) :=
  r.row.groups.map fun g => (r.base + g.start, r.base + g.start + g.text.length)

def rowAt (content : Text) (index : ℕ) : Option PlacedRow :=
  (occurrences content)[index]?.bind fun o =>
    ((threadCountPattern.split content)[index + 1]?.bind rowPattern.search).map fun row =>
      ⟨o.stop.pos, row⟩

def assignments (content : Text) : List (Found Char × PlacedRow) :=
  (headers content).zipIdx.filterMap fun (header, index) =>
    (rowAt content index).map fun r => (header, r)

/-- No result has numbers of another block. -/
structure Attributed (content : Text) : Prop where
  between : ∀ a ∈ assignments content, ∀ s ∈ a.2.numbers,
    a.1.stop.pos ≤ s.1 ∧
      ∀ o ∈ occurrences content, a.1.stop.pos ≤ o.start.pos → s.2 ≤ o.start.pos
  /-- A matched header gets the row of the section behind itself, whatever the blocks before it are. -/
  undisturbed : ∀ (i k : ℕ) (h o : Found Char), (headers content)[i]? = some h →
    (occurrences content)[k]? = some o → o.start = h.start → rowAt content i = rowAt content k

/-- Every occurrence before the header is the start of a matched header. -/
def NoneDroppedBefore (content : Text) (h : Found Char) : Prop :=
  ∀ o ∈ occurrences content, o.start.pos < h.start.pos → ∃ h' ∈ headers content, h'.start = o.start

def NoRow (content : Text) (index : ℕ) : Prop :=
  ∀ sec, (threadCountPattern.split content)[index + 1]? = some sec → rowPattern.search sec = none

/-- What a file has to be like for its numbers to stay with their headers. -/
structure Regular (content : Text) : Prop where
  matched : ∀ (i k : ℕ) (h o : Found Char), (headers content)[i]? = some h →
    (occurrences content)[k]? = some o → o.start = h.start →
      NoneDroppedBefore content h ∨ NoRow content i ∧ NoRow content k
  /-- No number row of the section reaches back into the header. -/
  clear : ∀ (i : ℕ) (h o : Found Char) (sec w : Text) (row : Found Char),
    (headers content)[i]? = some h → (occurrences content)[i]? = some o →
      (threadCountPattern.split content)[i + 1]? = some sec →
      (Cursor.mk [] sec).Spans w row.start → rowPattern.matchAt row.start = some row →
      ∀ g ∈ row.groups, h.stop.pos ≤ o.stop.pos + g.start

section Rank

variable {α : Type} [Preorder α] {xs ys : List α} {x : α} {i k : ℕ}

theorem mem_take_iff (hxs : xs.Pairwise (· < ·)) (hi : xs[i]? = some x) (a : α) :
    a ∈ xs.take i ↔ a ∈ xs ∧ a < x := by
  obtain ⟨hlt, rfl⟩ := List.getElem?_eq_some_iff.1 hi
  have hsplit : xs.take i ++ xs[i] :: xs.drop (i + 1) = xs := by
    rw [← List.drop_eq_getElem_cons hlt, List.take_append_drop]
  have hpair := hxs
  rw [← hsplit, List.pairwise_append] at hpair
  obtain ⟨-, hright, hcross⟩ := hpair
  constructor
  · intro ha
    exact ⟨List.mem_of_mem_take ha, hcross a ha _ List.mem_cons_self⟩
  · rintro ⟨ha, hax⟩
    rw [← hsplit] at ha
    rcases List.mem_append.1 ha with ha | ha
    · exact ha
    · rcases List.mem_cons.1 ha with rfl | ha
      · exact absurd hax (lt_irrefl _)
      · exact absurd hax (lt_asymm (List.rel_of_pairwise_cons hright ha))

theorem take_subset (hxs : xs.Pairwise (· < ·)) (hys : ys.Pairwise (· < ·)) (hi : xs[i]? = some x)
    (hk : ys[k]? = some x) (h : ∀ a ∈ xs, a < x → a ∈ ys) : xs.take i ⊆ ys.take k := by
  intro a ha
  obtain ⟨hmem, hlt⟩ := (mem_take_iff hxs hi a).1 ha
  exact (mem_take_iff hys hk a).2 ⟨h a hmem hlt, hlt⟩

omit [Preorder α] in
theorem take_length (hi : xs[i]? = some x) : (xs.take i).length = i := by
  obtain ⟨hlt, -⟩ := List.getElem?_eq_some_iff.1 hi
  exact List.length_take_of_le hlt.le

theorem rank_le (hxs : xs.Pairwise (· < ·)) (hys : ys.Pairwise (· < ·)) (hi : xs[i]? = some x)
    (hk : ys[k]? = some x) (h : ∀ a ∈ xs, a < x → a ∈ ys) : i ≤ k := by
  have hnodup : (xs.take i).Nodup := (hxs.imp (fun hab => ne_of_lt hab)).sublist (List.take_sublist i xs)
  have hlen := (List.subperm_of_subset hnodup (take_subset hxs hys hi hk h)).length_le
  rwa [take_length hi, take_length hk] at hlen

/-- An element has one rank in two lists just when they agree below it. -/
theorem rank_eq_iff (hxs : xs.Pairwise (· < ·)) (hys : ys.Pairwise (· < ·)) (hi : xs[i]? = some x)
    (hk : ys[k]? = some x) (hsub : ∀ a ∈ xs, a < x → a ∈ ys) :
    k = i ↔ ∀ a ∈ ys, a < x → a ∈ xs := by
  constructor
  · rintro rfl a ha hax
    have hnodup : (xs.take k).Nodup :=
      (hxs.imp (fun hab => ne_of_lt hab)).sublist (List.take_sublist k xs)
    have hsubperm := List.subperm_of_subset hnodup (take_subset hxs hys hi hk hsub)
    have hperm := hsubperm.perm_of_length_le (by rw [take_length hi, take_length hk])
    have hmem : a ∈ ys.take k := (mem_take_iff hys hk a).2 ⟨ha, hax⟩
    exact List.mem_of_mem_take (hperm.symm.subset hmem)
  · intro h
    exact Nat.le_antisymm (rank_le hys hxs hk hi h) (rank_le hxs hys hi hk hsub)

end Rank

theorem threadCount_spans {c : Cursor Char} {m : Found Char} (h : threadCountPattern.matchAt c = some m) :
    ∃ ds, (∀ d ∈ ds, isDecimal d = true) ∧ c.Spans (threadCountWords ++ ds) m.stop := by
  obtain ⟨n, hn, k, hk, heq⟩ := run_seq_mem (matchAt_mem h)
  obtain ⟨hlit, -⟩ := run_literal_mem hn
  obtain ⟨ds, -, hds, hplus, -⟩ := run_plus_mem hk
  have hstop : m.stop = k.1 := congrArg Prod.fst heq
  exact ⟨ds, hds, hstop ▸ hlit.trans hplus⟩

theorem words_length : threadCountWords.length = 13 := rfl

theorem threadCount_consumes {c : Cursor Char} {m : Found Char}
    (h : threadCountPattern.matchAt c = some m) : m.start.pos < m.stop.pos := by
  obtain ⟨ds, -, hs⟩ := threadCount_spans h
  rw [matchAt_start h, hs.pos, List.length_append, words_length]
  omega

theorem header_consumes {c : Cursor Char} {m : Found Char} (h : headerPattern.matchAt c = some m) :
    m.start.pos < m.stop.pos := by
  obtain ⟨n, hn, k, hk, heq⟩ := run_seq_mem (matchAt_mem h)
  obtain ⟨hlit, -⟩ := run_literal_mem hn
  obtain ⟨w, hw⟩ := run_spans hk
  have hstop : m.stop = k.1 := congrArg Prod.fst heq
  rw [matchAt_start h, hstop, (hlit.trans hw).pos, List.length_append, words_length]
  omega

theorem occurrences_sorted (content : Text) :
    (occurrences content).Pairwise fun m n => m.stop.pos ≤ n.start.pos :=
  scan_sorted (fun _ _ => threadCount_consumes) 0 [] content

theorem occurrence_at {content : Text} {o : Found Char} (h : o ∈ occurrences content) :
    ∃ w, (Cursor.mk [] content).Spans w o.start ∧ threadCountPattern.matchAt o.start = some o := by
  obtain ⟨w, hw, -, hm⟩ := scan_mem h
  exact ⟨w, hw, hm⟩

theorem header_at {content : Text} {h : Found Char} (hh : h ∈ headers content) :
    ∃ w, (Cursor.mk [] content).Spans w h.start ∧ headerPattern.matchAt h.start = some h := by
  obtain ⟨w, hw, -, hm⟩ := scan_mem hh
  exact ⟨w, hw, hm⟩

theorem occurrence_starts (content : Text) :
    ((occurrences content).map fun o => o.start.pos).Pairwise (· < ·) := by
  rw [List.pairwise_map]
  refine (occurrences_sorted content).imp_of_mem ?_
  intro m n hm _ hle
  obtain ⟨_, _, hat⟩ := occurrence_at hm
  have := threadCount_consumes hat
  omega

theorem header_starts (content : Text) :
    ((headers content).map fun h => h.start.pos).Pairwise (· < ·) := by
  have hsorted := scan_sorted (fun _ _ => header_consumes) 0 [] content
  rw [List.pairwise_map]
  refine List.Pairwise.imp_of_mem ?_ hsorted
  intro m n hm _ hle
  obtain ⟨_, _, hat⟩ := header_at hm
  have := header_consumes hat
  omega

/-- The words contain the letter they begin with only once, and so does an occurrence. -/
theorem no_T_inside {ds u v : Text} (hds : ∀ d ∈ ds, isDecimal d = true)
    (h : threadCountWords ++ ds = u ++ 'T' :: v) : u = [] := by
  cases u with
  | nil => rfl
  | cons x u =>
    have htail : threadCountWords.tail ++ ds = u ++ 'T' :: v := congrArg List.tail h
    have hmem : 'T' ∈ threadCountWords.tail ++ ds := by simp [htail]
    rcases List.mem_append.1 hmem with hT | hT
    · exact absurd hT (by decide)
    · exact absurd (hds 'T' hT) (by decide)

theorem header_is_occurrence {content : Text} {h : Found Char} (hh : h ∈ headers content) :
    ∃ o ∈ occurrences content, o.start = h.start := by
  obtain ⟨w, hw, hm⟩ := header_at hh
  have hocc : Occurs h.start.after := by
    by_contra hno
    rw [header_matchAt_none hno] at hm
    cases hm
  obtain ⟨v, hv⟩ : ∃ v, h.start.after = 'T' :: v := by
    obtain ⟨d, t, -, ht⟩ := hocc
    exact ⟨threadCountWords.tail ++ d :: t, ht⟩
  obtain ⟨m, hmatch⟩ := Option.isSome_iff_exists.1 (threadCount_matchAt_isSome.2 hocc)
  have hne : h.start.after ≠ [] := by simp [hv]
  obtain ⟨o, ho, hor⟩ := scan_complete hmatch hne hw (Nat.zero_le _)
  refine ⟨o, ho, ?_⟩
  rcases hor with heq | ⟨hlt, hlt'⟩
  · exact heq
  · -- the header would start at a `T` inside the occurrence
    obtain ⟨w', hw', hat⟩ := occurrence_at ho
    obtain ⟨ds, hds, hspan⟩ := threadCount_spans hat
    obtain ⟨u, hu⟩ := hw'.between hw hlt.le
    obtain ⟨t, ht⟩ := hw.between (hw'.trans hspan) hlt'.le
    have htext : threadCountWords ++ ds = u ++ t := by
      have hall := (hu.trans ht).1
      rw [hspan.1] at hall
      exact List.append_cancel_right hall
    have hpos := hu.pos
    have hpos' := ht.pos
    cases t with
    | nil =>
      simp only [List.length_nil] at hpos'
      omega
    | cons x t =>
      obtain rfl : x = 'T' := by
        have hx := ht.1
        rw [hv] at hx
        exact (List.cons.inj hx).1.symm
      have hnil := no_T_inside hds htext
      simp only [hnil, List.length_nil] at hpos
      omega

theorem index_eq_iff {content : Text} {i k : ℕ} {h o : Found Char}
    (hi : (headers content)[i]? = some h) (hk : (occurrences content)[k]? = some o)
    (hs : o.start = h.start) : k = i ↔ NoneDroppedBefore content h := by
  have hi' : ((headers content).map fun h => h.start.pos)[i]? = some h.start.pos := by simp [hi]
  have hk' : ((occurrences content).map fun o => o.start.pos)[k]? = some h.start.pos := by
    simp [hk, hs]
  have hsub : ∀ a ∈ (headers content).map (fun h => h.start.pos), a < h.start.pos →
      a ∈ (occurrences content).map fun o => o.start.pos := by
    intro a ha _
    obtain ⟨h', hh', rfl⟩ := List.mem_map.1 ha
    obtain ⟨o', ho', hs'⟩ := header_is_occurrence hh'
    exact List.mem_map.2 ⟨o', ho', by rw [hs']⟩
  rw [rank_eq_iff (header_starts content) (occurrence_starts content) hi' hk' hsub]
  constructor
  · intro hall o' ho' hlt
    obtain ⟨h', hh', hpos⟩ := List.mem_map.1 (hall _ (List.mem_map_of_mem ho') hlt)
    obtain ⟨w, hw, -⟩ := occurrence_at ho'
    obtain ⟨w', hw', -⟩ := header_at hh'
    exact ⟨h', hh', hw'.unique hw hpos⟩
  · intro hall a ha hlt
    obtain ⟨o', ho', rfl⟩ := List.mem_map.1 ha
    obtain ⟨h', hh', hs'⟩ := hall o' ho' hlt
    exact List.mem_map.2 ⟨h', hh', by rw [hs']⟩

/-- Blanks stand between the bar of a row and its first number, and the others come later. -/
theorem row_first {c : Cursor Char} {m : Found Char} (h : rowPattern.matchAt c = some m) :
    ∃ ws rest g, c.after = '|' :: ws ++ rest ∧ (∀ x ∈ ws, isSpace x = true) ∧ g ∈ m.groups ∧
      g.start = c.pos + 1 + ws.length ∧ ∀ g' ∈ m.groups, g.start ≤ g'.start := by
  obtain ⟨n, hn, k, hk, heq⟩ := run_seq_mem (matchAt_mem h)
  obtain ⟨x, hx, hbar, hn2⟩ := run_one_mem hn
  obtain ⟨cell, hcell, cells, hcells, rfl⟩ := run_seq_mem hk
  obtain ⟨sp, hsp, body, hbody, rfl⟩ := run_seq_mem hcell
  obtain ⟨ws, hws, hspan, hsp2⟩ := run_many_mem hsp
  obtain ⟨num, hnum, close, hclose, rfl⟩ := run_seq_mem hbody
  obtain ⟨digits, hdigits, rfl⟩ := List.mem_map.1 hnum
  have hpos : sp.1.pos = c.pos + 1 + ws.length := by
    rw [hspan.pos, hbar.pos]
    rfl
  have hx' : x = '|' := by simpa [isBar] using hx
  have hgroups : m.groups = ⟨sp.1.pos, sp.1.after.take (digits.1.pos - sp.1.pos)⟩ ::
      (digits.2 ++ close.2 ++ cells.2) := by
    have hsnd : m.groups = n.2 ++ _ := congrArg Prod.snd heq
    rw [hsnd, hn2, hsp2]
    simp
  refine ⟨ws, sp.1.after, ⟨sp.1.pos, sp.1.after.take (digits.1.pos - sp.1.pos)⟩, ?_, hws, ?_, hpos, ?_⟩
  · rw [hbar.1, hspan.1, hx']
    rfl
  · rw [hgroups]
    exact List.mem_cons_self
  · obtain ⟨_, hd⟩ := run_spans hdigits
    obtain ⟨_, hcl⟩ := run_spans hclose
    have hdpos := hd.pos
    have hclpos : close.1.pos = digits.1.pos + _ := hcl.pos
    intro g' hg'
    change sp.1.pos ≤ g'.start
    rw [hgroups] at hg'
    rcases List.mem_cons.1 hg' with rfl | hg'
    · exact le_refl _
    · rcases List.mem_append.1 hg' with hg' | hg'
      · rcases List.mem_append.1 hg' with hg' | hg'
        · exact (run_captures hdigits g' hg').1
        · have hle := (run_captures hclose g' hg').1
          change digits.1.pos ≤ g'.start at hle
          omega
      · have hle := (run_captures hcells g' hg').1
        change close.1.pos ≤ g'.start at hle
        omega

theorem bar_after_blanks {ws rest u v : Text} (hws : ∀ x ∈ ws, isSpace x = true)
    (h : '|' :: ws ++ rest = u ++ '|' :: v) (hu : u ≠ []) : ws.length + 1 ≤ u.length := by
  rcases List.append_eq_append_iff.1 h with ⟨z, hz, -⟩ | ⟨z, hz, hrest⟩
  · rw [hz]
    simp
  · cases z with
    | nil =>
      rw [List.append_nil] at hz
      rw [← hz]
      simp
    | cons y z =>
      obtain rfl : '|' = y := (List.cons.inj hrest).1
      obtain ⟨x, u, rfl⟩ := List.exists_cons_of_ne_nil hu
      have hmem : '|' ∈ ws := by simp [(List.cons.inj hz).2]
      exact absurd (hws _ hmem) (by decide)

/-- The row the search finds has its numbers in front of those of any other row. -/
theorem search_first {sec w : Text} {row : Found Char} (hw : (Cursor.mk [] sec).Spans w row.start)
    (hrow : rowPattern.matchAt row.start = some row) :
    ∃ m, rowPattern.search sec = some m ∧
      ∃ g ∈ m.groups, ∀ g' ∈ row.groups, g.start ≤ g'.start := by
  obtain ⟨m, hm, hle⟩ := searchFrom_first hw hrow
  obtain ⟨v, hv, hmatch⟩ := searchFrom_some hm
  obtain ⟨ws, rest, g, hafter, hws, hg, hstart, hall⟩ := row_first hmatch
  obtain ⟨ws', rest', -, hafter', -, -, -, -⟩ := row_first hrow
  refine ⟨m, hm, g, hg, ?_⟩
  obtain ⟨u, hu⟩ := hv.between hw hle
  by_cases hnil : u = []
  · subst hnil
    have hsame : m.start = row.start := hv.unique hw (by rw [hu.pos]; rfl)
    rw [← hsame, hmatch] at hrow
    obtain rfl := Option.some.inj hrow
    exact hall
  · intro g' hg'
    have hfar := bar_after_blanks hws (by rw [← hafter, hu.1, hafter']; rfl) hnil
    have hpos := hu.pos
    have hcap := (run_captures (matchAt_mem hrow) g' hg').1
    omega

theorem section_eq (content : Text) (i : ℕ) : (threadCountPattern.split content)[i + 1]? =
    (occurrences content)[i]?.map fun o => upTo o (occurrences content)[i + 1]? :=
  pieces_succ _ _ i

theorem rowAt_eq_some {content : Text} {i : ℕ} {r : PlacedRow} (h : rowAt content i = some r) :
    ∃ o, (occurrences content)[i]? = some o ∧ r.base = o.stop.pos ∧
      rowPattern.search (upTo o (occurrences content)[i + 1]?) = some r.row := by
  obtain ⟨o, ho, hrest⟩ := Option.bind_eq_some_iff.1 h
  obtain ⟨row, hrow, rfl⟩ := Option.map_eq_some_iff.1 hrest
  rw [section_eq, ho] at hrow
  exact ⟨o, ho, rfl, hrow⟩

theorem rowAt_eq_none {content : Text} {i : ℕ} : rowAt content i = none ↔ NoRow content i := by
  unfold rowAt NoRow
  rw [section_eq]
  cases (occurrences content)[i]? with
  | none => simp
  | some o => simp

theorem occurrence_le {content : Text} {i k : ℕ} {o o' : Found Char}
    (ho : (occurrences content)[i]? = some o) (ho' : (occurrences content)[k]? = some o') (h : i < k) :
    o.stop.pos ≤ o'.start.pos := by
  obtain ⟨hi, rfl⟩ := List.getElem?_eq_some_iff.1 ho
  obtain ⟨hk, rfl⟩ := List.getElem?_eq_some_iff.1 ho'
  exact List.pairwise_iff_getElem.1 (occurrences_sorted content) i k hi hk h

/-- A row ends before every later occurrence. -/
theorem row_before_next {content : Text} {i k : ℕ} {r : PlacedRow} {o : Found Char}
    (h : rowAt content i = some r) (ho : (occurrences content)[k]? = some o) (hik : i < k) :
    ∀ s ∈ r.numbers, s.2 ≤ o.start.pos := by
  obtain ⟨o', ho', hbase, hsearch⟩ := rowAt_eq_some h
  obtain ⟨n, hn⟩ : ∃ n, (occurrences content)[i + 1]? = some n := by
    obtain ⟨hk, -⟩ := List.getElem?_eq_some_iff.1 ho
    exact ⟨_, List.getElem?_eq_getElem (by omega)⟩
  have hgap := occurrence_le ho' hn (Nat.lt_succ_self i)
  have hnext : n.start.pos ≤ o.start.pos := by
    by_cases hk : k = i + 1
    · rw [hk, hn] at ho
      rw [Option.some.inj ho]
    · have hle := occurrence_le hn ho (by omega)
      obtain ⟨w, -, hat⟩ := occurrence_at (List.mem_of_getElem? hn)
      have := threadCount_consumes hat
      omega
  rw [hn] at hsearch
  obtain ⟨w, hw, hmatch⟩ := searchFrom_some hsearch
  obtain ⟨v, hv⟩ := matchAt_spans hmatch
  have hend : r.row.stop.pos ≤ n.start.pos - o'.stop.pos := by
    have hall := hw.trans hv
    have hlen := congrArg List.length hall.1
    have hpos := hall.pos
    simp only [upTo, List.length_take, List.length_append] at hlen
    simp only [Cursor.pos, List.length_nil, List.length_append] at hpos hlen ⊢
    omega
  intro s hs
  obtain ⟨g, hg, rfl⟩ := List.mem_map.1 hs
  have hcap := (run_captures (matchAt_mem hmatch) g hg).2
  change r.base + g.start + g.text.length ≤ o.start.pos
  rw [hbase]
  change g.start + g.text.length ≤ r.row.stop.pos at hcap
  omega

theorem mem_assignments {content : Text} {a : Found Char × PlacedRow} :
    a ∈ assignments content ↔
      ∃ i, (headers content)[i]? = some a.1 ∧ rowAt content i = some a.2 := by
  unfold assignments
  rw [List.mem_filterMap]
  constructor
  · rintro ⟨⟨h, i⟩, hmem, hmap⟩
    obtain ⟨r, hr, rfl⟩ := Option.map_eq_some_iff.1 hmap
    exact ⟨i, List.mk_mem_zipIdx_iff_getElem?.1 hmem, hr⟩
  · rintro ⟨i, hi, hr⟩
    exact ⟨(a.1, i), List.mk_mem_zipIdx_iff_getElem?.2 hi, by simp [hr]⟩

theorem parseLatencyBench_eq (benchPath content : Text) : parseLatencyBench benchPath content =
    (assignments content).map fun a => latencyResult benchPath a.1 a.2.row := by
  unfold assignments parseLatencyBench
  rw [List.map_filterMap]
  apply List.filterMap_congr
  rintro ⟨h, i⟩ -
  simp only [rowAt, section_eq]
  cases (occurrences content)[i]? with
  | none => rfl
  | some o => simp [Function.comp_def]

theorem regular_of_attributed {content : Text} (h : Attributed content) : Regular content where
  matched := by
    intro i k hd o hi hk hs
    by_cases hki : k = i
    · exact .inl ((index_eq_iff hi hk hs).1 hki)
    · -- two sections start at different places, so the rows agree only by being absent
      have hrows := h.undisturbed i k hd o hi hk hs
      refine .inr ?_
      rw [← rowAt_eq_none, ← rowAt_eq_none, ← hrows, and_self]
      by_contra hne
      obtain ⟨r, hr⟩ := Option.ne_none_iff_exists'.1 hne
      obtain ⟨o₁, ho₁, hb₁, -⟩ := rowAt_eq_some hr
      obtain ⟨o₂, ho₂, hb₂, -⟩ := rowAt_eq_some (hrows ▸ hr)
      obtain ⟨_, _, hat₁⟩ := occurrence_at (List.mem_of_getElem? ho₁)
      obtain ⟨_, _, hat₂⟩ := occurrence_at (List.mem_of_getElem? ho₂)
      have hc₁ := threadCount_consumes hat₁
      have hc₂ := threadCount_consumes hat₂
      rcases Nat.lt_or_gt_of_ne hki with hlt | hlt
      · have := occurrence_le ho₂ ho₁ hlt
        omega
      · have := occurrence_le ho₁ ho₂ hlt
        omega
  clear := by
    intro i hd o sec w row hi ho hsec hw hrow g' hg'
    obtain ⟨m, hm, g, hg, hle⟩ := search_first hw hrow
    have hat : rowAt content i = some ⟨o.stop.pos, m⟩ := by simp [rowAt, ho, hsec, hm]
    have hmem : (hd, PlacedRow.mk o.stop.pos m) ∈ assignments content := mem_assignments.2 ⟨i, hi, hat⟩
    have hstart := (h.between _ hmem _ (List.mem_map_of_mem hg)).1
    have hfirst := hle g' hg'
    change hd.stop.pos ≤ o.stop.pos + g.start at hstart
    omega

theorem attributed_of_regular {content : Text} (h : Regular content) : Attributed content where
  between := by
    intro a ha s hs
    obtain ⟨i, hi, hr⟩ := mem_assignments.1 ha
    obtain ⟨o, ho, hstart⟩ := header_is_occurrence (List.mem_of_getElem? hi)
    obtain ⟨k, hk⟩ := List.getElem?_of_mem ho
    have hnone : NoneDroppedBefore content a.1 := by
      rcases h.matched i k a.1 o hi hk hstart with hnone | ⟨hrow, -⟩
      · exact hnone
      · rw [rowAt_eq_none.2 hrow] at hr
        cases hr
    obtain rfl := (index_eq_iff hi hk hstart).2 hnone
    obtain ⟨o', ho', hbase, hsearch⟩ := rowAt_eq_some hr
    obtain rfl : o = o' := Option.some.inj (hk.symm.trans ho')
    obtain ⟨g, hg, rfl⟩ := List.mem_map.1 hs
    obtain ⟨w, hw, hmatch⟩ := searchFrom_some hsearch
    have hsec := section_eq content k
    rw [hk, Option.map_some] at hsec
    refine ⟨?_, ?_⟩
    · have hclear := h.clear k a.1 o _ w a.2.row hi hk hsec hw hmatch g hg
      rw [← hbase] at hclear
      exact hclear
    · intro o₂ ho₂ hpast
      obtain ⟨j, hj⟩ := List.getElem?_of_mem ho₂
      obtain ⟨_, _, hat⟩ := header_at (List.mem_of_getElem? hi)
      obtain ⟨_, _, hat₂⟩ := occurrence_at ho₂
      have hlen := header_consumes hat
      have hlen₂ := threadCount_consumes hat₂
      have hkj : k < j := by
        rcases Nat.lt_trichotomy k j with hlt | rfl | hgt
        · exact hlt
        · obtain rfl : o = o₂ := Option.some.inj (hk.symm.trans hj)
          rw [hstart] at hpast
          omega
        · have := occurrence_le hj hk hgt
          rw [hstart] at this
          omega
      exact row_before_next hr hj hkj _ (List.mem_map_of_mem hg)
  undisturbed := by
    intro i k hd o hi hk hs
    rcases h.matched i k hd o hi hk hs with hnone | ⟨hri, hrk⟩
    · rw [(index_eq_iff hi hk hs).2 hnone]
    · rw [rowAt_eq_none.2 hri, rowAt_eq_none.2 hrk]

/-- The results are those of the assignments, and nothing is attributed to another block just
when no header is preceded by a dropped one and no row reaches into a header. -/
theorem results_attributed_iff (benchPath content : Text) :
    (parseLatencyBench benchPath content =
        (assignments content).map fun a => latencyResult benchPath a.1 a.2.row) ∧
      (Attributed content ↔ Regular content) :=
  ⟨parseLatencyBench_eq benchPath content, regular_of_attributed, attributed_of_regular⟩

/-- The first header has a dash in its logger, so the second one gets the first row. -/
def dashedContent : Text :=
  "Thread Count 1 - Total messages 1 - Logger: A-B - Benchmark: X\n".toList ++
    "  |  1  |  2  |  3  |  4  |  5  |  6  |  7  |\n\n".toList ++
      "Thread Count 2 - Total messages 1 - Logger: C - Benchmark: X\n".toList ++
        "  |  11  |  12  |  13  |  14  |  15  |  16  |  17  |\n\n".toList

theorem dashed_misattributed :
    parseLatencyBench [] dashedContent = [⟨"C".toList, 2, .intIntDouble, 1, 2, 3, 4, 5, 6⟩] ∧
      ¬ Attributed dashedContent := by
  refine ⟨by decide +kernel, ?_⟩
  intro h
  have hearly : ∃ a ∈ assignments dashedContent, ∃ s ∈ a.2.numbers, s.1 < a.1.stop.pos := by
    decide +kernel
  obtain ⟨a, ha, s, hs, hlt⟩ := hearly
  have hle := (h.between a ha s hs).1
  omega

end LoggerBenchmarks.LatencyAttribution
