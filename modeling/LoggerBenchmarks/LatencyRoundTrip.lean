import LoggerBenchmarks.BenchmarkRunner
import LoggerBenchmarks.LatencyHarness
import LoggerBenchmarks.LatencyPatterns

set_option autoImplicit false

/-!
# What the latency printer writes, the parser reads

A result file is the `bench:` line followed by the blocks of the `run_benchmark`
calls. Reading it gives back the path and one result for each block with samples.
-/
namespace LoggerBenchmarks.LatencyRoundTrip
open BacktrackingRegex PythonText LatencyHarness BenchmarkRunner ResultFileParser LatencyPatterns

/-- Text that neither breaks a line nor looks like a cell or a heading. -/
structure Plain (t : Text) : Prop where
  newline : '\n' ∉ t
  carriageReturn : '\r' ∉ t
  bar : '|' ∉ t
  threadCount : NoThreadCount t

/-- The parts of `Logger: L - Benchmark: B`. -/
structure BenchLabel where
  logger : Text
  benchmark : Text
  logger_ne : logger ≠ []
  logger_trimmed : strip logger = logger
  logger_dash : '-' ∉ logger
  logger_plain : Plain logger
  benchmark_ne : benchmark ≠ []
  benchmark_plain : Plain benchmark

def BenchLabel.name (l : BenchLabel) : Text :=
  "Logger: ".toList ++ l.logger ++ " - Benchmark: ".toList ++ l.benchmark

structure BenchPath where
  text : Text
  trimmed : strip text = text
  plain : Plain text

structure Run where
  label : BenchLabel
  threadCount : ℤ
  numIterations : ℕ
  messagesPerIteration : ℕ
  latencies : List (List ℕ)

def Run.call (r : Run) : Call :=
  ⟨r.label.name, r.threadCount, r.numIterations, r.messagesPerIteration, r.latencies⟩

section

variable (nearestRank : ℕ → ℚ → ℕ)

def printed (runs : List Run) : Text := runs.flatMap fun r => runBenchmark nearestRank r.call

def blockResult (path : Text) (r : Run) : LatencyResult :=
  let combined := latenciesCombined r.latencies
  { logger := loggerKey path r.label.logger
    threadCount := r.threadCount.toNat
    benchmarkType := benchmarkTypeOf path
    p50 := selected nearestRank combined 0.5
    p75 := selected nearestRank combined 0.75
    p90 := selected nearestRank combined 0.9
    p95 := selected nearestRank combined 0.95
    p99 := selected nearestRank combined 0.99
    p999 := selected nearestRank combined 0.999 }

def body (r : Run) : Text :=
  if r.call.HasSamples then (columnTitles ++ sampleRow nearestRank (latenciesCombined r.latencies)).tail
  else noSamples.tail

def blockTail (r : Run) : Text :=
  totalMessagesWords ++ (str r.call.headingNumbers.2 ++ (loggerWords ++ (r.label.logger ++
    (benchmarkWords ++ (r.label.benchmark ++ '\n' :: body nearestRank r)))))

theorem columnTitles_cons (t : Text) : columnTitles ++ t = '\n' :: (columnTitles ++ t).tail := by
  unfold columnTitles
  rw [String.toList_ofList]
  rfl

theorem noSamples_cons : noSamples = '\n' :: noSamples.tail := by
  unfold noSamples
  rw [String.toList_ofList]
  rfl

theorem heading_body (tc total : ℕ) (l : BenchLabel) (t : Text) :
    heading tc total l.name ++ '\n' :: t =
      threadCountWords ++ headingRest tc total l.logger l.benchmark t := by
  have hwords : loggerWords = " - ".toList ++ "Logger: ".toList := rfl
  rw [headingRest, hwords]
  unfold heading BenchLabel.name threadCountWords totalMessagesWords benchmarkWords
  simp only [List.append_assoc]

theorem runBenchmark_block (r : Run) : runBenchmark nearestRank r.call =
    threadCountWords ++ headingRest r.call.headingNumbers.1 r.call.headingNumbers.2
      r.label.logger r.label.benchmark (body nearestRank r) := by
  rw [runBenchmark_eq, ← heading_body, body]
  by_cases h : r.call.HasSamples
  · rw [if_pos h, if_pos h, columnTitles_cons]
    rfl
  · rw [if_neg h, if_neg h]
    rfl

theorem runBenchmark_split (r : Run) : runBenchmark nearestRank r.call =
    threadCountWords ++ (str r.call.headingNumbers.1 ++ blockTail nearestRank r) :=
  runBenchmark_block nearestRank r

end

section Characters

variable (nearestRank : ℕ → ℚ → ℕ)

theorem sampleRow_eq (combined : List ℕ) : sampleRow nearestRank combined = ' ' :: '|' ::
    cellText (selected nearestRank combined 0.5) (cellText (selected nearestRank combined 0.75)
      (cellText (selected nearestRank combined 0.9) (cellText (selected nearestRank combined 0.95)
        (cellText (selected nearestRank combined 0.99) (cellText (selected nearestRank combined 0.999)
          (cellText (combined.getD (combined.length - 1) 0) ['\n', '\n'])))))) := by
  unfold sampleRow cellText
  repeat rw [String.toList_ofList]
  simp only [List.append_assoc, List.cons_append, List.nil_append]

theorem mem_cellText {c : Char} {n : ℕ} {t : Text} (h : c ∈ cellText n t) :
    c = ' ' ∨ c = '|' ∨ c.isDigit = true ∨ c ∈ t := by
  simp only [cellText, List.mem_cons, List.mem_append] at h
  rcases h with h | h | h | h | h | h | h
  · exact .inl h
  · exact .inl h
  · exact .inr (.inr (.inl (str_isDigit h)))
  · exact .inl h
  · exact .inl h
  · exact .inr (.inl h)
  · exact .inr (.inr (.inr h))

theorem mem_sampleRow {c : Char} {combined : List ℕ} (h : c ∈ sampleRow nearestRank combined) :
    c = ' ' ∨ c = '|' ∨ c = '\n' ∨ c.isDigit = true := by
  rw [sampleRow_eq] at h
  simp only [List.mem_cons] at h
  rcases h with h | h | h
  · exact .inl h
  · exact .inr (.inl h)
  · iterate 7
      rcases mem_cellText h with h | h | h | h
      · exact .inl h
      · exact .inr (.inl h)
      · exact .inr (.inr (.inr h))
    simp only [List.mem_cons, List.not_mem_nil, or_false, or_self] at h
    exact .inr (.inr (.inl h))

/-- Letters that could start something a pattern looks for are not in the body of a block. -/
theorem not_mem_body (r : Run) {c : Char} (hc : c = 'T' ∨ c = 'b' ∨ c = '\r') :
    c ∉ body nearestRank r := by
  intro h
  unfold body at h
  split at h
  · have h' : c ∈ columnTitles ++ sampleRow nearestRank (latenciesCombined r.latencies) :=
      List.mem_of_mem_tail h
    rcases List.mem_append.1 h' with h' | h'
    · revert h'
      unfold columnTitles
      rw [String.toList_ofList]
      rcases hc with rfl | rfl | rfl <;> decide
    · have h'' := mem_sampleRow nearestRank h'
      revert h''
      rcases hc with rfl | rfl | rfl <;> decide
  · have h' : c ∈ noSamples := List.mem_of_mem_tail h
    revert h'
    unfold noSamples
    rw [String.toList_ofList]
    rcases hc with rfl | rfl | rfl <;> decide

end Characters

section Scan

variable (nearestRank : ℕ → ℚ → ℕ)

theorem T_not_mem_str (n : ℕ) : 'T' ∉ str n := by
  intro h
  exact absurd (str_isDigit h) (by decide)

theorem quiet_totalMessages (b xs : Text) : Quiet threadCountPattern b totalMessagesWords xs := by
  have hsplit : totalMessagesWords = " - ".toList ++ 'T' :: "otal messages ".toList := rfl
  rw [hsplit, quiet_append_iff, quiet_cons_iff]
  refine ⟨quiet_of_no_T _ _ _ (by decide), ?_, quiet_of_no_T _ _ _ (by decide)⟩
  rw [threadCount_matchAt_none]
  rintro ⟨d, w, -, h⟩
  have := congrArg (fun t => t[1]?) h
  cases this

theorem blockTail_quiet (r : Run) (b xs : Text) :
    Quiet threadCountPattern b (blockTail nearestRank r) xs := by
  unfold blockTail
  simp only [quiet_append_iff]
  refine ⟨quiet_totalMessages _ _, quiet_of_no_T _ _ _ (T_not_mem_str _),
    quiet_of_no_T _ _ _ (by decide), ?_, quiet_of_no_T _ _ _ (by decide), ?_, ?_⟩
  · exact quiet_of_noThreadCount _ _ _ r.label.logger_plain.threadCount (noRest_dash _)
  · exact quiet_of_noThreadCount _ _ _ r.label.benchmark_plain.threadCount (noRest_newline _)
  · apply quiet_of_no_T
    simpa using not_mem_body nearestRank r (.inl rfl)

theorem printed_cons (r : Run) (rs : List Run) : printed nearestRank (r :: rs) =
    threadCountWords ++ (str r.call.headingNumbers.1 ++ (blockTail nearestRank r ++ printed nearestRank rs)) := by
  simp only [printed, List.flatMap_cons, runBenchmark_split, List.append_assoc]

theorem blockTail_head (r : Run) (xs : Text) : ∀ x ∈ (blockTail nearestRank r ++ xs).head?, isDecimal x = false :=
  head_space rfl

/-- Splitting at the thread counts cuts out the block tails. -/
theorem printed_pieces (runs : List Run) (b w : Text) :
    pieces ⟨b, w ++ printed nearestRank runs⟩
        (threadCountPattern.scan 0 (w.reverse ++ b) (printed nearestRank runs)) =
      w :: runs.map (blockTail nearestRank) := by
  induction runs generalizing b w with
  | nil => simp [printed, Pattern.scan, pieces]
  | cons r rs ih =>
    let ds := str r.call.headingNumbers.1
    let after := blockTail nearestRank r ++ printed nearestRank rs
    have hm := threadCount_match (w.reverse ++ b) ds after (str_ne_nil _) (str_all_decimal _)
      (blockTail_head nearestRank r _)
    have hassoc : threadCountWords ++ (ds ++ after) = (threadCountWords ++ ds) ++ after :=
      (List.append_assoc _ _ _).symm
    have hscan : threadCountPattern.scan 0 (w.reverse ++ b) (threadCountWords ++ (ds ++ after)) =
        ⟨⟨w.reverse ++ b, threadCountWords ++ (ds ++ after)⟩,
          ⟨ds.reverse ++ (threadCountWords.reverse ++ (w.reverse ++ b)), after⟩, []⟩ ::
        threadCountPattern.scan 0 ((blockTail nearestRank r).reverse ++
          (ds.reverse ++ (threadCountWords.reverse ++ (w.reverse ++ b)))) (printed nearestRank rs) := by
      rw [hassoc] at hm ⊢
      rw [scan_match (List.append_ne_nil_of_left_ne_nil threadCountWords_ne_nil _) hm
        (spans_of_after hm rfl)]
      have hrev : (threadCountWords ++ ds).reverse ++ (w.reverse ++ b) =
          ds.reverse ++ (threadCountWords.reverse ++ (w.reverse ++ b)) := by simp
      rw [hrev, scan_quiet (blockTail_quiet nearestRank r _ _)]
    rw [printed_cons, hscan, pieces, ih]
    simp only [Cursor.pos, capture_take, List.map_cons]

end Scan

section Row

variable (nearestRank : ℕ → ℚ → ℕ)

theorem titles_quiet (b xs : Text) : Quiet rowPattern b (columnTitles ++ [' ']) ('|' :: xs) := by
  have hsplit : columnTitles ++ [' '] = "\n ".toList ++
      (('|' :: ("  ".toList ++ ("50".toList ++ 't' :: "h ".toList))) ++
      (('|' :: (" ".toList ++ ("75".toList ++ 't' :: "h ".toList))) ++
      (('|' :: (" ".toList ++ ("90".toList ++ 't' :: "h ".toList))) ++
      (('|' :: (" ".toList ++ ("95".toList ++ 't' :: "h ".toList))) ++
      (('|' :: (" ".toList ++ ("99".toList ++ 't' :: "h ".toList))) ++
      (('|' :: (" ".toList ++ ("99".toList ++ '.' :: "9th ".toList))) ++
      (('|' :: (" ".toList ++ ([] ++ 'W' :: "orst ".toList))) ++ ('|' :: "\n ".toList)))))))) := by
    unfold columnTitles
    repeat rw [String.toList_ofList]
    rfl
  rw [hsplit]
  simp only [quiet_append_iff]
  refine ⟨row_quiet_of_no_bar _ _ _ (by decide),
    row_quiet_cell _ _ _ _ _ _ (by decide) (by decide) (by decide) (by decide) (by decide),
    row_quiet_cell _ _ _ _ _ _ (by decide) (by decide) (by decide) (by decide) (by decide),
    row_quiet_cell _ _ _ _ _ _ (by decide) (by decide) (by decide) (by decide) (by decide),
    row_quiet_cell _ _ _ _ _ _ (by decide) (by decide) (by decide) (by decide) (by decide),
    row_quiet_cell _ _ _ _ _ _ (by decide) (by decide) (by decide) (by decide) (by decide),
    row_quiet_cell _ _ _ _ _ _ (by decide) (by decide) (by decide) (by decide) (by decide),
    row_quiet_cell _ _ _ _ _ _ (by decide) (by decide) (by decide) (by decide) (by decide), ?_⟩
  -- the last bar of the titles is followed by the first bar of the numbers
  refine quiet_cons_iff.2 ⟨row_matchAt_none_of_cell fun f => ?_, row_quiet_of_no_bar _ _ _ (by decide)⟩
  exact cell_none _ "\n ".toList [] '|' xs (by decide) (by decide) (by decide) (by decide) f

theorem noSamples_quiet (b : Text) : Quiet rowPattern b noSamples [] := by
  have hsplit : noSamples = "\n ".toList ++
      (('|' :: (" ".toList ++ ([] ++ 'n' :: "o latency samples ".toList))) ++ ('|' :: "\n\n".toList)) := by
    unfold noSamples
    repeat rw [String.toList_ofList]
    rfl
  rw [hsplit]
  simp only [quiet_append_iff]
  refine ⟨row_quiet_of_no_bar _ _ _ (by decide),
    row_quiet_cell _ _ _ _ _ _ (by decide) (by decide) (by decide) (by decide) (by decide), ?_⟩
  refine quiet_cons_iff.2 ⟨row_matchAt_none_of_cell fun f => ?_, row_quiet_of_no_bar _ _ _ (by decide)⟩
  exact cell_none_end _ ("\n\n".toList) (by decide) f

def headingPart (r : Run) : Text :=
  totalMessagesWords ++ (str r.call.headingNumbers.2 ++ (loggerWords ++ (r.label.logger ++
    (benchmarkWords ++ r.label.benchmark))))

theorem bar_not_mem_headingPart (r : Run) : '|' ∉ headingPart r := by
  have hstr : '|' ∉ str r.call.headingNumbers.2 := fun h => absurd (str_isDigit h) (by decide)
  have h₁ : '|' ∉ totalMessagesWords := by decide
  have h₂ : '|' ∉ loggerWords := by decide
  have h₃ : '|' ∉ benchmarkWords := by decide
  simp only [headingPart, List.mem_append, not_or]
  exact ⟨h₁, hstr, h₂, r.label.logger_plain.bar, h₃, r.label.benchmark_plain.bar⟩

theorem blockTail_eq (r : Run) :
    blockTail nearestRank r = headingPart r ++ '\n' :: body nearestRank r := by
  simp only [blockTail, headingPart, List.append_assoc]

/-- A section with samples yields its six percentiles. -/
theorem row_search_samples (path : Text) (r : Run) (h : r.call.HasSamples) (header : Found Char)
    (h0 : header.text 0 = str r.threadCount.toNat) (h1 : header.text 1 = r.label.logger) :
    ((rowPattern.search (blockTail nearestRank r)).map fun row => latencyResult path header row) =
      some (blockResult nearestRank path r) := by
  have hbody : blockTail nearestRank r = headingPart r ++
      (columnTitles ++ sampleRow nearestRank (latenciesCombined r.latencies)) := by
    rw [blockTail_eq, body, if_pos h, ← columnTitles_cons]
  have hquiet : ∀ xs, Quiet rowPattern [] (headingPart r ++ (columnTitles ++ [' '])) ('|' :: xs) := by
    intro xs
    exact quiet_append_iff.2 ⟨row_quiet_of_no_bar _ _ _ (bar_not_mem_headingPart r), titles_quiet _ _⟩
  rw [hbody, sampleRow_eq]
  obtain ⟨m, hm, t0, t1, t2, t3, t4, t5⟩ := row_match (headingPart r ++ (columnTitles ++ [' '])).reverse
    (cellText ((latenciesCombined r.latencies).getD ((latenciesCombined r.latencies).length - 1) 0)
      ['\n', '\n'])
    (selected nearestRank (latenciesCombined r.latencies) 0.5)
    (selected nearestRank (latenciesCombined r.latencies) 0.75)
    (selected nearestRank (latenciesCombined r.latencies) 0.9)
    (selected nearestRank (latenciesCombined r.latencies) 0.95)
    (selected nearestRank (latenciesCombined r.latencies) 0.99)
    (selected nearestRank (latenciesCombined r.latencies) 0.999)
  have hs := row_search_append (hquiet _) hm
  simp only [List.append_assoc, List.cons_append, List.nil_append] at hs
  rw [hs, Option.map_some, latencyResult, h0, h1, t0, t1, t2, t3, t4, t5]
  simp only [int_str, r.label.logger_trimmed]
  rfl

theorem row_search_noSamples (r : Run) (h : ¬ r.call.HasSamples) :
    rowPattern.search (blockTail nearestRank r) = none := by
  rw [blockTail_eq, body, if_neg h, ← noSamples_cons]
  exact row_search_none (quiet_append_iff.2
    ⟨row_quiet_of_no_bar _ _ _ (bar_not_mem_headingPart r), noSamples_quiet _⟩)

/-- What the loop of the parser yields for the printed blocks. -/
theorem printed_results (path : Text) (runs : List Run) (b : Text) :
    ((headerPattern.scan 0 b (printed nearestRank runs)).zip (runs.map (blockTail nearestRank))).filterMap
        (fun p => (rowPattern.search p.2).map fun row => latencyResult path p.1 row) =
      runs.filterMap fun r => if r.call.HasSamples then some (blockResult nearestRank path r) else none := by
  induction runs generalizing b with
  | nil => rfl
  | cons r rs ih =>
    let line := threadCountWords ++ (str r.call.headingNumbers.1 ++ headingPart r)
    let rest := '\n' :: (body nearestRank r ++ printed nearestRank rs)
    have htext : printed nearestRank (r :: rs) = line ++ rest := by
      simp only [printed_cons, blockTail_eq, line, rest, List.append_assoc, List.cons_append]
    have hheading : line ++ rest = threadCountWords ++ headingRest r.call.headingNumbers.1
        r.call.headingNumbers.2 r.label.logger r.label.benchmark
        (body nearestRank r ++ printed nearestRank rs) := by
      simp only [line, rest, headingRest, headingPart, List.append_assoc]
    obtain ⟨m, hm, hstop, h0, h1, -⟩ := header_match b r.call.headingNumbers.1 r.call.headingNumbers.2
      r.label.logger r.label.benchmark (body nearestRank r ++ printed nearestRank rs)
      r.label.logger_ne r.label.logger_dash r.label.benchmark_ne r.label.benchmark_plain.newline
    rw [← hheading] at hm
    have hspan : (Cursor.mk b (line ++ rest)).Spans line m.stop := spans_of_after hm (by rw [hstop])
    have hquiet : Quiet headerPattern (line.reverse ++ b) ('\n' :: body nearestRank r)
        (printed nearestRank rs) := by
      apply quiet_header
      apply quiet_of_no_T
      simpa using not_mem_body nearestRank r (.inl rfl)
    have hscan : headerPattern.scan 0 b (line ++ rest) =
        m :: headerPattern.scan 0 (('\n' :: body nearestRank r).reverse ++ (line.reverse ++ b))
          (printed nearestRank rs) := by
      rw [scan_match (List.append_ne_nil_of_left_ne_nil threadCountWords_ne_nil _) hm hspan,
        ← scan_quiet hquiet]
      rfl
    rw [htext, hscan, List.map_cons, List.zip_cons_cons, List.filterMap_cons, List.filterMap_cons, ih]
    by_cases hs : r.call.HasSamples
    · have htc : r.call.headingNumbers.1 = r.threadCount.toNat := by
        have hpos : ¬ r.threadCount ≤ 0 := Int.not_le.2 hs.1
        simp [Call.headingNumbers, Run.call, hpos]
      rw [row_search_samples nearestRank path r hs m (by rw [h0, htc]) h1, if_pos hs]
    · rw [row_search_noSamples nearestRank r hs, if_neg hs]
      rfl

end Row

section BenchLine

variable (nearestRank : ℕ → ℚ → ℕ)

theorem bench_quiet_of_no_b (b w xs : Text) (h : 'b' ∉ w) : Quiet benchPattern b w xs := by
  intro u v huv hv
  cases v with
  | nil => exact absurd rfl hv
  | cons x v =>
    have hx : x ≠ 'b' := by
      rintro rfl
      exact h (by simp [huv])
    have hpre : ¬ benchWords <+: x :: (v ++ xs) := by
      intro hpre
      exact hx (List.cons_prefix_cons.1 hpre).1.symm
    rw [matchAt_eq_find, benchPattern_eq, find_seq, find_lineStart]
    split
    · rw [find_seq, List.cons_append, find_literal_of_mismatch _ hpre]
    · rfl

/-- Inside a line nothing starts. -/
theorem bench_quiet_inside (c : Char) (b w xs : Text) (hc : c ≠ '\n') (h : '\n' ∉ w) :
    Quiet benchPattern (c :: b) w xs := by
  intro u v huv _
  have hline : (u.reverse ++ c :: b).head?.all isNewline = false := by
    cases hu : u.reverse with
    | nil => simpa using hc
    | cons x u' =>
      have hx : x ∈ w := by
        rw [huv]
        exact List.mem_append_left _ (List.mem_reverse.1 (hu ▸ List.mem_cons_self))
      simpa using ne_of_mem_of_not_mem hx h
  rw [matchAt_eq_find, benchPattern, find_seq, find_lineStart, if_neg (Bool.eq_false_iff.1 hline)]

theorem newline_not_mem_headingPart (r : Run) : '\n' ∉ headingPart r := by
  have hstr : '\n' ∉ str r.call.headingNumbers.2 := fun h => absurd (str_isDigit h) (by decide)
  have h₁ : '\n' ∉ totalMessagesWords := by decide
  have h₂ : '\n' ∉ loggerWords := by decide
  have h₃ : '\n' ∉ benchmarkWords := by decide
  simp only [headingPart, List.mem_append, not_or]
  exact ⟨h₁, hstr, h₂, r.label.logger_plain.newline, h₃, r.label.benchmark_plain.newline⟩

theorem printed_bench_quiet (runs : List Run) (b : Text) :
    Quiet benchPattern b (printed nearestRank runs) [] := by
  induction runs generalizing b with
  | nil => exact quiet_nil _ _ _
  | cons r rs ih =>
    have hsplit : printed nearestRank (r :: rs) = ['T'] ++ (("hread Count ".toList ++
        (str r.call.headingNumbers.1 ++ headingPart r)) ++
        (('\n' :: body nearestRank r) ++ printed nearestRank rs)) := by
      simp only [printed_cons, blockTail_eq, List.append_assoc, List.cons_append]
      rfl
    rw [hsplit]
    refine quiet_append_iff.2 ⟨bench_quiet_of_no_b _ _ _ (by decide), quiet_append_iff.2
      ⟨bench_quiet_inside 'T' b _ _ (by decide) ?_,
        quiet_append_iff.2 ⟨bench_quiet_of_no_b _ _ _ ?_, ih _⟩⟩⟩
    · have h₁ : '\n' ∉ "hread Count ".toList := by decide
      have hstr : '\n' ∉ str r.call.headingNumbers.1 := fun h => absurd (str_isDigit h) (by decide)
      simp only [List.mem_append, not_or]
      exact ⟨h₁, hstr, newline_not_mem_headingPart r⟩
    · simpa using not_mem_body nearestRank r (.inr (.inl rfl))

theorem bench_matchAt_empty (t : Text) : benchPattern.matchAt ⟨[], resultFile [] t⟩ = none := by
  rw [resultFile, benchPattern_eq, matchAt_eq_find, List.append_nil, find_seq, find_lineStart_nil,
    find_seq, find_literal_append, find_seq, find_group]
  apply find_plus_stop
  rintro x ⟨⟩
  rfl

theorem bench_matchAt_nil (b : Text) : benchPattern.matchAt ⟨b, []⟩ = none := by
  rw [matchAt_eq_find, benchPattern_eq, find_seq, find_lineStart]
  split
  · rw [find_seq, find_literal_of_mismatch]
    decide
  · rfl

theorem bench_search_empty (runs : List Run) :
    benchPattern.search (resultFile [] (printed nearestRank runs)) = none := by
  have hsplit : resultFile [] (printed nearestRank runs) =
      ['b'] ++ ("ench: ".toList ++ (['\n'] ++ printed nearestRank runs)) := rfl
  have hquiet : Quiet benchPattern [] (resultFile [] (printed nearestRank runs)) [] := by
    have hfirst := bench_matchAt_empty (printed nearestRank runs)
    rw [hsplit] at hfirst ⊢
    refine quiet_append_iff.2 ⟨quiet_cons_iff.2 ⟨?_, quiet_nil _ _ _⟩, quiet_append_iff.2
      ⟨bench_quiet_inside 'b' [] _ _ (by decide) (by decide), quiet_append_iff.2
        ⟨bench_quiet_of_no_b _ _ _ (by decide), printed_bench_quiet nearestRank runs _⟩⟩⟩
    simpa using hfirst
  have hs := searchFrom_quiet hquiet
  rw [List.append_nil] at hs
  rw [Pattern.search, hs, Pattern.searchFrom, bench_matchAt_nil]

/-- The path is read back from the first line. -/
theorem bench_path_read (path : BenchPath) (runs : List Run) :
    ((benchPattern.search (resultFile path.text (printed nearestRank runs))).elim [] fun m =>
      strip (m.text 0)) = path.text := by
  by_cases hne : path.text = []
  · rw [hne, bench_search_empty]
    rfl
  · obtain ⟨m, hm, htext⟩ := bench_search_path path.text (printed nearestRank runs) hne path.plain.newline
    rw [hm, Option.elim_some, htext, path.trimmed]

theorem carriageReturn_not_mem_printed (runs : List Run) : '\r' ∉ printed nearestRank runs := by
  have hstr : ∀ n, '\r' ∉ str n := fun n h => absurd (str_isDigit h) (by decide)
  have h₁ : '\r' ∉ threadCountWords := by decide
  have h₂ : '\r' ∉ totalMessagesWords := by decide
  have h₃ : '\r' ∉ loggerWords := by decide
  have h₄ : '\r' ∉ benchmarkWords := by decide
  have h₅ : '\r' ≠ '\n' := by decide
  induction runs with
  | nil => simp [printed]
  | cons r rs ih =>
    simp only [printed_cons, blockTail, List.mem_append, List.mem_cons, not_or]
    exact ⟨h₁, hstr _, ⟨h₂, hstr _, h₃, r.label.logger_plain.carriageReturn, h₄,
      r.label.benchmark_plain.carriageReturn, h₅, not_mem_body nearestRank r (.inr (.inr rfl))⟩, ih⟩

theorem content_read (path : BenchPath) (runs : List Run) :
    universalNewlines (resultFile path.text (printed nearestRank runs)) =
      resultFile path.text (printed nearestRank runs) := by
  apply universalNewlines_eq_self
  have h₁ : '\r' ∉ benchWords := by decide
  have h₂ : '\r' ≠ '\n' := by decide
  simp only [resultFile, List.mem_append, List.mem_cons, not_or]
  exact ⟨⟨h₁, path.plain.carriageReturn⟩, h₂, carriageReturn_not_mem_printed nearestRank runs⟩

theorem benchLine_quiet (path : BenchPath) (xs : Text) :
    Quiet threadCountPattern [] (benchWords ++ (path.text ++ ['\n'])) xs := by
  refine quiet_append_iff.2 ⟨quiet_of_no_T _ _ _ (by decide), quiet_append_iff.2
    ⟨quiet_of_noThreadCount _ _ _ path.plain.threadCount (noRest_newline _),
      quiet_of_no_T _ _ _ (by decide)⟩⟩

/-- Reading back what was written: the path, and one result for each block with samples. -/
theorem latency_round_trip (path : BenchPath) (runs : List Run) :
    let file := resultFile path.text (printed nearestRank runs)
    (readBenchFile file).1 = path.text ∧
      parseLatencyBench path.text (readBenchFile file).2 = runs.filterMap fun r =>
        if r.call.HasSamples then some (blockResult nearestRank path.text r) else none := by
  intro file
  have hfile : file = (benchWords ++ (path.text ++ ['\n'])) ++ printed nearestRank runs := by
    simp only [file, resultFile, List.append_assoc, List.cons_append, List.nil_append]
  have hread : readBenchFile file = (path.text, file) := by
    rw [readBenchFile, content_read, bench_path_read]
  have hsplit : threadCountPattern.split file =
      (benchWords ++ (path.text ++ ['\n'])) :: runs.map (blockTail nearestRank) := by
    have hp := printed_pieces nearestRank runs [] (benchWords ++ (path.text ++ ['\n']))
    rw [Pattern.split, Pattern.findAll, hfile, scan_quiet (benchLine_quiet path _)]
    exact hp
  have hheaders : headerPattern.findAll file = headerPattern.scan 0
      ((benchWords ++ (path.text ++ ['\n'])).reverse ++ []) (printed nearestRank runs) := by
    rw [Pattern.findAll, hfile, scan_quiet (quiet_header (benchLine_quiet path _))]
  refine ⟨by rw [hread], ?_⟩
  rw [hread, parseLatencyBench_eq_zip _ _ _ _ hsplit, hheaders]
  exact printed_results nearestRank path.text runs _

end BenchLine

theorem plain_of_no_T {t : Text} (hbreaks : '\n' ∉ t ∧ '\r' ∉ t ∧ '|' ∉ t) (h : 'T' ∉ t) : Plain t :=
  ⟨hbreaks.1, hbreaks.2.1, hbreaks.2.2, noThreadCount_of_no_T h⟩

def quillLabel : BenchLabel where
  logger := "Quill".toList
  benchmark := "int, int, double".toList
  logger_ne := by decide
  logger_trimmed := by decide
  logger_dash := by decide
  logger_plain := plain_of_no_T (by decide) (by decide)
  benchmark_ne := by decide
  benchmark_plain := plain_of_no_T (by decide) (by decide)

def quillPath : BenchPath where
  text := "/b/BENCHMARK_quill_call_site_latency".toList
  trimmed := by decide +kernel
  plain := plain_of_no_T (by decide) (by decide)

/-- `ceil` of the exact product. -/
def roundedUp (sampleCount : ℕ) (percentile : ℚ) : ℕ :=
  (sampleCount * percentile.num.toNat + percentile.den - 1) / percentile.den

def threeRuns : List Run :=
  [⟨quillLabel, 1, 2, 3, [[30, 20]]⟩, ⟨quillLabel, 2, 0, 3, [[], []]⟩, ⟨quillLabel, 4, 1, 8, [[5], [9], [7], [8]]⟩]

/-- The second block has no samples. -/
theorem latency_round_trip_three :
    let file := resultFile quillPath.text (printed roundedUp threeRuns)
    (readBenchFile file).1 = quillPath.text ∧
      parseLatencyBench quillPath.text (readBenchFile file).2 =
        [⟨"Quill".toList, 1, .intIntDouble, 20, 30, 30, 30, 30, 30⟩,
          ⟨"Quill".toList, 4, .intIntDouble, 7, 8, 9, 9, 9, 9⟩] := by
  obtain ⟨hpath, hresults⟩ := latency_round_trip roundedUp quillPath threeRuns
  have hfirst : latenciesCombined [[30, 20]] = [20, 30] := by simp [latenciesCombined, List.mergeSort]
  have hlast : latenciesCombined [[5], [9], [7], [8]] = [5, 7, 8, 9] := by simp [latenciesCombined, List.mergeSort]
  refine ⟨hpath, hresults.trans ?_⟩
  change [blockResult roundedUp quillPath.text ⟨quillLabel, 1, 2, 3, [[30, 20]]⟩,
    blockResult roundedUp quillPath.text ⟨quillLabel, 4, 1, 8, [[5], [9], [7], [8]]⟩] = _
  unfold blockResult
  dsimp only
  rw [hfirst, hlast]
  decide +kernel

end LoggerBenchmarks.LatencyRoundTrip
