import LoggerBenchmarks.BenchmarkRunner
import LoggerBenchmarks.ResultFileParser

set_option autoImplicit false

/-!
# The patterns of the latency parser on given texts

Where `Thread Count \d+` occurs, what the header pattern takes from a printed
heading, which cells the row pattern accepts, and what is read from a `bench:` line.
-/
namespace LoggerBenchmarks.LatencyPatterns
open BacktrackingRegex PythonText BenchmarkRunner ResultFileParser

/-- `Thread Count <digits>` stands at the front of the text. -/
def Occurs (t : Text) : Prop := ∃ d w, isDecimal d = true ∧ t = threadCountWords ++ d :: w

/-- `Thread Count <digits>` stands nowhere in the text. -/
def NoThreadCount (t : Text) : Prop := ∀ u v, t = u ++ v → ¬ Occurs v

theorem threadCountWords_ne_nil : threadCountWords ≠ [] := by decide

theorem threadCount_matchAt_isSome {c : Cursor Char} :
    (threadCountPattern.matchAt c).isSome = true ↔ Occurs c.after := by
  obtain ⟨b, xs⟩ := c
  constructor
  · intro h
    rcases run_literal_cases threadCountWords ⟨b, xs⟩ with ⟨t, ht, -⟩ | ⟨-, hnil⟩
    · dsimp only at ht
      subst ht
      rw [matchAt_eq_find, threadCountPattern, find_seq, find_literal_append] at h
      cases t with
      | nil => simp [find_plus_nil] at h
      | cons d w =>
        refine ⟨d, w, ?_, rfl⟩
        by_contra hd
        simp [find_plus_cons, hd] at h
    · rw [Pattern.matchAt, threadCountPattern, run_seq_of_nil hnil] at h
      cases h
  · rintro ⟨d, w, hd, hxs⟩
    dsimp only at hxs
    subst hxs
    have hrun : (Pattern.many isDecimal).run ⟨d :: (threadCountWords.reverse ++ b), w⟩ ≠ [] := by
      cases w with
      | nil => simp [Pattern.run, stops]
      | cons x w =>
        simp only [Pattern.run, stops]
        split <;> simp
    have hne : threadCountPattern.run ⟨b, threadCountWords ++ d :: w⟩ ≠ [] := by
      rw [threadCountPattern, Pattern.run, run_literal_append, List.flatMap_singleton]
      simpa [Pattern.plus, Pattern.run, hd] using hrun
    rw [Option.isSome_iff_ne_none]
    exact fun h => hne (matchAt_eq_none.1 h)

theorem threadCount_matchAt_none {c : Cursor Char} :
    threadCountPattern.matchAt c = none ↔ ¬ Occurs c.after := by
  rw [← threadCount_matchAt_isSome, Option.not_isSome_iff_eq_none]

/-- The pattern matches the words and the whole run of digits after them. -/
theorem threadCount_match (b ds t : Text) (hne : ds ≠ []) (hds : ∀ d ∈ ds, isDecimal d = true)
    (ht : ∀ x ∈ t.head?, isDecimal x = false) :
    threadCountPattern.matchAt ⟨b, threadCountWords ++ (ds ++ t)⟩ =
      some ⟨⟨b, threadCountWords ++ (ds ++ t)⟩, ⟨ds.reverse ++ (threadCountWords.reverse ++ b), t⟩, []⟩ := by
  rw [matchAt_eq_find, threadCountPattern, find_seq, find_literal_append]
  exact find_plus_span isDecimal _ ds t hne hds ht _ rfl

theorem header_matchAt_none {c : Cursor Char} (h : ¬ Occurs c.after) :
    headerPattern.matchAt c = none := by
  obtain ⟨b, xs⟩ := c
  rcases run_literal_cases threadCountWords ⟨b, xs⟩ with ⟨t, ht, -⟩ | ⟨-, hnil⟩
  · dsimp only at ht
    subst ht
    rw [matchAt_eq_find, headerPattern, find_seq, find_literal_append, find_seq, find_group]
    apply find_plus_stop
    intro d hd
    by_contra hdec
    obtain ⟨w, rfl⟩ : ∃ w, t = d :: w := by
      cases t with
      | nil => cases hd
      | cons x w => exact ⟨w, by rw [Option.mem_some.1 hd]⟩
    exact h ⟨d, w, by simpa using hdec, rfl⟩
  · rw [matchAt_eq_none, headerPattern, run_seq_of_nil hnil]

theorem quiet_header {b w xs : Text} (h : Quiet threadCountPattern b w xs) :
    Quiet headerPattern b w xs := by
  intro u v huv hv
  exact header_matchAt_none (threadCount_matchAt_none.1 (h u v huv hv))

theorem occurs_head {t : Text} (h : Occurs t) : t.head? = some 'T' := by
  obtain ⟨d, w, -, rfl⟩ := h
  rfl

theorem noThreadCount_of_no_T {t : Text} (h : 'T' ∉ t) : NoThreadCount t := by
  rintro u v rfl hocc
  exact h (List.mem_append_right u (List.mem_of_mem_head? (occurs_head hocc)))

theorem quiet_of_no_T (b w xs : Text) (h : 'T' ∉ w) : Quiet threadCountPattern b w xs := by
  intro u v huv hv
  rw [threadCount_matchAt_none]
  intro hocc
  have hhead := occurs_head hocc
  cases v with
  | nil => exact hv rfl
  | cons x v =>
    simp only [List.cons_append, List.head?_cons, Option.some.injEq] at hhead
    exact h (by simp [huv, hhead])

def NoRest (xs : Text) : Prop :=
  ∀ k, 0 < k → k < 14 → ∀ d, isDecimal d = true → ¬ (threadCountWords ++ [d]).drop k <+: xs

theorem quiet_of_noThreadCount (b t xs : Text) (ht : NoThreadCount t) (hxs : NoRest xs) :
    Quiet threadCountPattern b t xs := by
  intro u v huv hv
  rw [threadCount_matchAt_none]
  rintro ⟨d, w, hd, hocc⟩
  have hocc' : v ++ xs = (threadCountWords ++ [d]) ++ w := by simpa using hocc
  rcases List.append_eq_append_iff.1 hocc' with ⟨z, hz, hxz⟩ | ⟨z, hz, -⟩
  · -- the occurrence reaches beyond `t`
    have hlen : (threadCountWords ++ [d]).length = 14 := rfl
    have hvpos := List.length_pos_of_ne_nil hv
    by_cases hzn : z = []
    · subst z
      exact ht u v huv ⟨d, [], hd, by simpa using hz.symm⟩
    · have hzpos := List.length_pos_of_ne_nil hzn
      have hsum : v.length + z.length = 14 := by rw [← hlen, hz, List.length_append]
      refine hxs v.length hvpos (by omega) d hd ⟨w, ?_⟩
      rw [hz, List.drop_left, hxz]
  · exact ht u v huv ⟨d, z, hd, by simpa using hz⟩

theorem drop_mem {k : ℕ} {d x : Char} (h : x ∈ (threadCountWords ++ [d]).drop k) :
    x ∈ threadCountWords ∨ x = d := by
  simpa using List.mem_of_mem_drop h

theorem noRest_of_head {c : Char} (xs : Text) (hc : c ∉ threadCountWords) (hdec : isDecimal c = false) :
    NoRest (c :: xs) := by
  intro k hk hk' d hd hpre
  have hlen : ((threadCountWords ++ [d]).drop k).length = 14 - k := by
    rw [List.length_drop]
    rfl
  cases hq : (threadCountWords ++ [d]).drop k with
  | nil =>
    rw [hq] at hlen
    simp only [List.length_nil] at hlen
    omega
  | cons x q =>
    rw [hq] at hpre
    obtain rfl := (List.cons_prefix_cons.1 hpre).1
    rcases drop_mem (hq ▸ List.mem_cons_self) with hx | rfl
    · exact hc hx
    · rw [hd] at hdec
      cases hdec

theorem noRest_of_second {b c : Char} (xs : Text) (hb : isDecimal b = false)
    (hc : c ∉ threadCountWords) (hdec : isDecimal c = false) : NoRest (b :: c :: xs) := by
  intro k hk hk' d hd hpre
  by_cases hlast : k = 13
  · subst k
    have hq : (threadCountWords ++ [d]).drop 13 = [d] := rfl
    rw [hq] at hpre
    obtain rfl := (List.cons_prefix_cons.1 hpre).1
    rw [hd] at hb
    cases hb
  · -- the second letter of the rest is the first of a shorter rest
    obtain ⟨x, q, hq⟩ : ∃ x q, (threadCountWords ++ [d]).drop k = x :: q := by
      have hlt : k < (threadCountWords ++ [d]).length := hk'
      exact ⟨_, _, List.drop_eq_getElem_cons hlt⟩
    rw [hq] at hpre
    have hq' : (threadCountWords ++ [d]).drop (k + 1) = q := by
      rw [← List.drop_drop, hq]
      rfl
    refine noRest_of_head xs hc hdec (k + 1) (by omega) (by omega) d hd ?_
    rw [hq']
    exact (List.cons_prefix_cons.1 hpre).2

theorem noRest_newline (xs : Text) : NoRest ('\n' :: xs) :=
  noRest_of_head xs (by decide) (by decide)

theorem noRest_slash (xs : Text) : NoRest ('/' :: xs) :=
  noRest_of_head xs (by decide) (by decide)

theorem noRest_dash (xs : Text) : NoRest (' ' :: '-' :: xs) :=
  noRest_of_second xs (by decide) (by decide) (by decide)

theorem str_all_decimal (n : ℕ) : ∀ d ∈ str n, isDecimal d = true :=
  fun _ hd => isDecimal_of_isDigit (str_isDigit hd)

theorem head_space {t : Text} (h : t.head? = some ' ') : ∀ x ∈ t.head?, isDecimal x = false := by
  rw [h]
  rintro x ⟨⟩
  decide

theorem totalMessagesWords_head (t : Text) : (totalMessagesWords ++ t).head? = some ' ' := rfl

theorem loggerWords_head (t : Text) : (loggerWords ++ t).head? = some ' ' := rfl

theorem dash_head (t : Text) : ("- Benchmark: ".toList ++ t).head? = some '-' := rfl

theorem benchmarkWords_eq (t : Text) :
    benchmarkWords ++ t = ' ' :: ("- Benchmark: ".toList ++ t) := rfl

theorem not_prefix_dash (t : Text) : ¬ benchmarkWords <+: "- Benchmark: ".toList ++ t := by
  rintro ⟨w, hw⟩
  have := congrArg List.head? hw
  rw [dash_head, benchmarkWords_eq] at this
  cases this

section Heading

attribute [local irreducible] threadCountWords totalMessagesWords loggerWords benchmarkWords str

def headingRest (tc total : ℕ) (logger benchmark t : Text) : Text :=
  str tc ++ (totalMessagesWords ++ (str total ++ (loggerWords ++ (logger ++
    (benchmarkWords ++ (benchmark ++ '\n' :: t))))))

/-- A heading whose logger has no dash is matched up to the end of its line. -/
theorem header_match (b : Text) (tc total : ℕ) (logger benchmark t : Text) (hl : logger ≠ [])
    (hdash : '-' ∉ logger) (hb : benchmark ≠ []) (hnl : '\n' ∉ benchmark) :
    ∃ m, headerPattern.matchAt
        ⟨b, threadCountWords ++ headingRest tc total logger benchmark t⟩ = some m ∧
      m.stop.after = '\n' :: t ∧ m.text 0 = str tc ∧ m.text 1 = logger ∧ m.text 2 = benchmark := by
  have hlogger : ∀ x ∈ logger, notDash x = true := by
    intro x hx
    simpa [bne_iff_ne] using ne_of_mem_of_not_mem hx hdash
  have hbench : ∀ x ∈ benchmark, notNewline x = true := by
    intro x hx
    simpa [bne_iff_ne] using ne_of_mem_of_not_mem hx hnl
  apply Exists.intro
  apply And.intro
  · rw [matchAt_eq_find, headerPattern, find_seq, find_literal_append, find_seq, headingRest]
    apply find_group_plus_span isDecimal _ (str tc) _ (str_ne_nil tc) (str_all_decimal tc)
      (head_space (totalMessagesWords_head _))
    rw [find_seq, find_literal_append, find_seq]
    apply find_plus_span isDecimal _ (str total) _ (str_ne_nil total) (str_all_decimal total)
      (head_space (loggerWords_head _))
    rw [find_seq, find_literal_append, find_seq, benchmarkWords_eq]
    -- the class `[^-]` also takes the blank in front of the dash and has to give it back
    apply find_group_plus_span_back notDash _ logger _ ' ' hl hlogger rfl
    · rw [dash_head]
      rintro x ⟨⟩
      rfl
    · intro g
      rw [find_seq, find_literal_of_mismatch _ (not_prefix_dash _)]
    · rw [← benchmarkWords_eq, find_seq, find_literal_append]
      apply find_group_plus_span notNewline _ benchmark _ hb hbench
      · rintro x ⟨⟩
        rfl
      · rfl
  · exact ⟨rfl, rfl, rfl, rfl⟩

end Heading

/-- A number between two blanks on either side, closed by a bar, is one cell. -/
theorem find_cell (b ds t : Text) (hne : ds ≠ []) (hds : ∀ d ∈ ds, d.isDigit = true) {β : Type}
    (f : Cursor Char × List (Capture Char) → Option β) {v : β}
    (h : f (⟨'|' :: ' ' :: ' ' :: (ds.reverse ++ ' ' :: ' ' :: b), t⟩, [⟨b.length + 2, ds⟩]) = some v) :
    cellPattern.find ⟨b, ' ' :: ' ' :: (ds ++ ' ' :: ' ' :: '|' :: t)⟩ f = some v := by
  obtain ⟨d, w, rfl⟩ := List.exists_cons_of_ne_nil hne
  have hsp : ∀ x ∈ ([' ', ' '] : Text), isSpace x = true := List.all_eq_true.1 (by decide)
  have hd : isSpace d = false := isSpace_of_isDigit (hds d List.mem_cons_self)
  rw [cellPattern, find_seq]
  apply find_many_span isSpace b [' ', ' '] (d :: w ++ ' ' :: ' ' :: '|' :: t) hsp
  · rintro x ⟨⟩
    exact hd
  · rw [find_seq]
    apply find_group_plus_span isDecimal _ (d :: w) _ hne
      (fun x hx => isDecimal_of_isDigit (hds x hx))
    · rintro x ⟨⟩
      decide
    · rw [find_seq]
      apply find_many_span isSpace _ [' ', ' '] ('|' :: t) hsp
      · rintro x ⟨⟩
        decide
      · rw [find_one_cons]
        exact h

def isBlank (c : Char) : Bool := isSpace c && !isDecimal c

theorem isDecimal_of_blanks {sp us vs : Text} {x : Char} (hsp : sp.all isBlank = true)
    (h : sp = us ++ x :: vs) : isDecimal x = false := by
  have hx := List.all_eq_true.1 hsp x (by simp [h])
  simp only [isBlank, Bool.and_eq_true, Bool.not_eq_true'] at hx
  exact hx.2

/-- Blanks and digits that are not closed by a bar are no cell. -/
theorem cell_none (b sp ds : Text) (y : Char) (t : Text)
    (hsp : sp.all isBlank = true) (hds : ds.all Char.isDigit = true)
    (hy : isSpace y = false ∧ isDecimal y = false) (hbar : ds ≠ [] → y ≠ '|') {β : Type}
    (f : Cursor Char × List (Capture Char) → Option β) :
    cellPattern.find ⟨b, sp ++ (ds ++ y :: t)⟩ f = none := by
  have hhead : ∀ zs : Text, (∀ d ∈ zs, d.isDigit = true) → ∀ x ∈ (zs ++ y :: t).head?, isSpace x = false := by
    intro zs hzs x hx
    cases zs with
    | nil =>
      cases hx
      exact hy.1
    | cons z zs =>
      cases hx
      exact isSpace_of_isDigit (hzs _ List.mem_cons_self)
  have hdigits := List.all_eq_true.1 hds
  rw [cellPattern, find_seq]
  apply find_many_none isSpace b sp (ds ++ y :: t) (hhead ds hdigits)
  intro us vs huv
  rw [find_seq, find_group]
  cases vs with
  | cons x vs =>
    apply find_plus_stop
    rintro z ⟨⟩
    exact isDecimal_of_blanks hsp huv
  | nil =>
    change (Pattern.plus isDecimal).find ⟨us.reverse ++ b, ds ++ y :: t⟩ _ = none
    apply find_plus_none isDecimal _ ds (y :: t)
    · rintro z ⟨⟩
      exact hy.2
    · intro ys zs hyz hne
      have hzs : ∀ d ∈ zs, d.isDigit = true := fun d hd => hdigits d (by simp [hyz, hd])
      rw [find_seq, find_many_stop isSpace _ _ (hhead zs hzs)]
      cases zs with
      | nil =>
        have hdsne : ds ≠ [] := by simp [hyz, hne]
        simp [hbar hdsne]
      | cons z zs =>
        have hz : z ≠ '|' := by
          rintro rfl
          exact absurd (hzs '|' List.mem_cons_self) (by decide)
        simp [hz]

theorem cell_none_end (b sp : Text) (hsp : sp.all isBlank = true) {β : Type} (f : Cursor Char × List (Capture Char) → Option β) :
    cellPattern.find ⟨b, sp⟩ f = none := by
  rw [cellPattern, find_seq]
  have h := find_many_none isSpace b sp [] (by simp) (fun m =>
    (Pattern.seq (.group (.plus isDecimal)) (.seq (.many isSpace) (.one isBar))).find m.1 fun n =>
      f (n.1, m.2 ++ n.2)) ?_
  · simpa using h
  · intro us vs huv
    rw [find_seq, find_group]
    apply find_plus_stop
    intro x hx
    cases vs with
    | nil => cases hx
    | cons z vs =>
      cases hx
      exact isDecimal_of_blanks hsp huv

theorem row_matchAt_none_of_ne {x : Char} (b xs : Text) (h : x ≠ '|') :
    rowPattern.matchAt ⟨b, x :: xs⟩ = none := by
  simp [matchAt_eq_find, rowPattern, find_seq, h]

theorem row_matchAt_none_of_cell {b xs : Text}
    (h : ∀ f : Cursor Char × List (Capture Char) → Option (Found Char),
      cellPattern.find ⟨'|' :: b, xs⟩ f = none) : rowPattern.matchAt ⟨b, '|' :: xs⟩ = none := by
  rw [matchAt_eq_find, rowPattern, find_seq, find_one_cons, if_pos (show isBar '|' = true from rfl),
    find_seq, h]

theorem row_quiet_of_no_bar (b w xs : Text) (h : '|' ∉ w) : Quiet rowPattern b w xs := by
  intro u v huv hv
  cases v with
  | nil => exact absurd rfl hv
  | cons x v =>
    apply row_matchAt_none_of_ne
    rintro rfl
    exact h (by simp [huv])

theorem row_quiet_cell (b sp ds : Text) (y : Char) (t xs : Text)
    (hsp : sp.all isBlank = true) (hds : ds.all Char.isDigit = true)
    (hy : isSpace y = false ∧ isDecimal y = false) (hbar : ds ≠ [] → y ≠ '|')
    (hno : '|' ∉ sp ++ (ds ++ y :: t)) : Quiet rowPattern b ('|' :: (sp ++ (ds ++ y :: t))) xs := by
  refine quiet_cons_iff.2 ⟨?_, row_quiet_of_no_bar _ _ _ hno⟩
  apply row_matchAt_none_of_cell
  intro f
  simpa using cell_none ('|' :: b) sp ds y (t ++ xs) hsp hds hy hbar f

def cellText (n : ℕ) (t : Text) : Text := ' ' :: ' ' :: (str n ++ ' ' :: ' ' :: '|' :: t)

theorem find_cellText (b t : Text) (n : ℕ) {β : Type}
    (f : Cursor Char × List (Capture Char) → Option β) {v : β}
    (h : f (⟨'|' :: ' ' :: ' ' :: ((str n).reverse ++ ' ' :: ' ' :: b), t⟩,
      [⟨b.length + 2, str n⟩]) = some v) : cellPattern.find ⟨b, cellText n t⟩ f = some v :=
  find_cell b (str n) t (str_ne_nil n) (fun _ => str_isDigit) f h

/-- A bar followed by six printed cells is a row with their numbers. -/
theorem row_match (b t : Text) (n₁ n₂ n₃ n₄ n₅ n₆ : ℕ) :
    ∃ m, rowPattern.matchAt ⟨b, '|' :: cellText n₁ (cellText n₂ (cellText n₃ (cellText n₄
        (cellText n₅ (cellText n₆ t)))))⟩ = some m ∧
      m.text 0 = str n₁ ∧ m.text 1 = str n₂ ∧ m.text 2 = str n₃ ∧ m.text 3 = str n₄ ∧
      m.text 4 = str n₅ ∧ m.text 5 = str n₆ := by
  apply Exists.intro
  apply And.intro
  · rw [matchAt_eq_find, rowPattern, find_seq, find_one_cons, if_pos (show isBar '|' = true from rfl)]
    rw [find_seq]
    apply find_cellText
    rw [find_seq]
    apply find_cellText
    rw [find_seq]
    apply find_cellText
    rw [find_seq]
    apply find_cellText
    rw [find_seq]
    apply find_cellText
    apply find_cellText
    rfl
  · exact ⟨rfl, rfl, rfl, rfl, rfl, rfl⟩

theorem row_matchAt_nil (b : Text) : rowPattern.matchAt ⟨b, []⟩ = none := by
  simp [matchAt_eq_find, rowPattern, find_seq]

theorem row_search_none {w : Text} (h : Quiet rowPattern [] w []) : rowPattern.search w = none := by
  have hs := searchFrom_quiet h
  rw [List.append_nil] at hs
  rw [Pattern.search, hs, Pattern.searchFrom, row_matchAt_nil]

theorem row_search_append {w xs : Text} {m : Found Char} (h : Quiet rowPattern [] w xs)
    (hm : rowPattern.matchAt ⟨w.reverse, xs⟩ = some m) : rowPattern.search (w ++ xs) = some m := by
  rw [Pattern.search, searchFrom_quiet h, List.append_nil]
  exact searchFrom_match hm

theorem benchPattern_eq : benchPattern = .seq (.lineStart isNewline) (.seq (.literal benchWords)
    (.seq (.group (.plus notNewline)) (.lineEnd isNewline))) := rfl

theorem bench_search_path (p t : Text) (hne : p ≠ []) (hp : '\n' ∉ p) :
    ∃ m, benchPattern.search (resultFile p t) = some m ∧ m.text 0 = p := by
  have hclass : ∀ x ∈ p, notNewline x = true := by
    intro x hx
    simpa [bne_iff_ne] using ne_of_mem_of_not_mem hx hp
  apply Exists.intro
  apply And.intro
  · apply searchFrom_match
    rw [matchAt_eq_find, resultFile, benchPattern_eq, List.append_assoc, find_seq, find_lineStart_nil, find_seq,
      find_literal_append, find_seq]
    apply find_group_plus_span notNewline _ p ('\n' :: t) hne hclass
    · rintro x ⟨⟩
      rfl
    · rw [find_lineEnd_cons _ rfl]
  · rfl

end LoggerBenchmarks.LatencyPatterns
