import LoggerBenchmarks.CheckoutRoot

set_option autoImplicit false

/-!
# Which roots change the results

For every way in which a root fails to be clean there is a benchmark and an output
whose results are then other than below the top of the file system.
-/
namespace LoggerBenchmarks.CheckoutRootTriggers
open BacktrackingRegex RegexLocality PythonText PosixPaths BenchmarkRunner ResultFileParser
open LatencyPatterns LatencyTable LatencyTableRows InsertionDict BinaryRounding CheckoutRoot

theorem collect_one {files : List Text} {b : LatencyResult} (h : latencyBlocks files = [b])
    (hsmall : ∀ c ∈ columns, c.sample b < 2 ^ 52) :
    ∃ results a, collectLatencyResults trueDivide files = some results ∧
      ((results.get? (resultKey b)).getD .empty).get? b.logger = some a ∧
      ∀ c ∈ columns, c.average a = c.sample b := by
  have hgroup : loggerBlocks files (resultKey b) b.logger = [b] := by
    simp [loggerBlocks, blocksAt, h]
  have hmean : ∀ c : Column, exactMean c.sample [b] = ((c.sample b : ℕ) / (1 : ℕ) : ℚ) := by
    intro c
    simp [exactMean]
  have hsome : (collectLatencyResults trueDivide files).isSome = true := by
    rw [collect_isSome, h]
    intro b' hb' c hc
    obtain rfl := List.mem_singleton.1 hb'
    rw [hgroup, hmean, toDouble_small Nat.one_pos (hsmall c hc)]
    rfl
  obtain ⟨results, hresults⟩ := Option.isSome_iff_exists.1 hsome
  have hne : loggerBlocks files (resultKey b) b.logger ≠ [] := by simp [hgroup]
  obtain ⟨a, ha⟩ := average_exists hresults hne
  refine ⟨results, a, hresults, ?_, ?_⟩
  · rw [get?_results hresults, if_neg hne, ha]
  · intro c hc
    have hvalue := (mean_eq_some.1 (average_eq_some.1 ha c hc)).2
    rw [hgroup, hmean, halfEven_nearest Nat.one_pos (hsmall c hc), Nat.cast_one, div_one] at hvalue
    rw [← hvalue]
    exact_mod_cast halfEven_int (c.sample b)

theorem get?_of_no_block {files : List Text} {results : LatencyResults} {key : Key} {logger : Text}
    (h : collectLatencyResults trueDivide files = some results)
    (hno : ∀ b ∈ latencyBlocks files, resultKey b = key → b.logger ≠ logger) :
    ((results.get? key).getD .empty).get? logger = none := by
  rw [get?_results h, if_pos]
  rw [loggerBlocks, List.filter_eq_nil_iff]
  intro b hb
  obtain ⟨hmem, hkey⟩ := List.mem_filter.1 hb
  simpa using hno b hmem (of_decide_eq_true hkey)

theorem collect_ne {files files' : List Text} {b : LatencyResult} (h : latencyBlocks files = [b])
    (hsmall : ∀ c ∈ columns, c.sample b < 2 ^ 52)
    (hno : ∀ b' ∈ latencyBlocks files', resultKey b' = resultKey b → b'.logger ≠ b.logger) :
    collectLatencyResults trueDivide files' ≠ collectLatencyResults trueDivide files := by
  obtain ⟨results, a, hresults, hget, -⟩ := collect_one h hsmall
  intro heq
  have hnone := get?_of_no_block (heq.trans hresults) hno
  rw [hget] at hnone
  cases hnone

theorem collect_ne_of_nil {files files' : List Text} (h : latencyBlocks files = [])
    (hne : latencyBlocks files' ≠ []) :
    collectLatencyResults trueDivide files' ≠ collectLatencyResults trueDivide files := by
  have hsome : (collectLatencyResults trueDivide files).isSome = true := by
    rw [collect_isSome, h]
    intro b hb
    cases hb
  obtain ⟨results, hresults⟩ := Option.isSome_iff_exists.1 hsome
  obtain ⟨b, hb⟩ := List.exists_mem_of_ne_nil _ hne
  intro heq
  have hblocks : loggerBlocks files' (resultKey b) b.logger ≠ [] :=
    loggerBlocks_ne_nil (List.mem_filter.2 ⟨hb, decide_eq_true rfl⟩)
  obtain ⟨a, ha⟩ := average_exists (heq.trans hresults) hblocks
  have hget := get?_results (heq.trans hresults) (resultKey b) b.logger
  rw [if_neg hblocks, ha, get?_of_no_block hresults (by rw [h]; exact fun _ hb' => nomatch hb')] at hget
  cases hget

theorem collect_ne_of_value {files files' : List Text} {b b' : LatencyResult}
    (h : latencyBlocks files = [b]) (h' : latencyBlocks files' = [b'])
    (hsmall : ∀ c ∈ columns, c.sample b < 2 ^ 52) (hsmall' : ∀ c ∈ columns, c.sample b' < 2 ^ 52)
    (hkey : resultKey b' = resultKey b) (hlogger : b'.logger = b.logger) (hvalue : b'.p50 ≠ b.p50) :
    collectLatencyResults trueDivide files' ≠ collectLatencyResults trueDivide files := by
  obtain ⟨results, a, hresults, hget, ha⟩ := collect_one h hsmall
  obtain ⟨results', a', hresults', hget', ha'⟩ := collect_one h' hsmall'
  intro heq
  obtain rfl : results' = results := Option.some.inj (hresults'.symm.trans (heq.trans hresults))
  rw [hkey, hlogger, hget] at hget'
  obtain rfl : a = a' := Option.some.inj hget'
  have h50 : a.p50 = b.p50 := ha ⟨LatencyResult.p50, Averages.p50, Row.p50⟩ List.mem_cons_self
  have h50' : a.p50 = b'.p50 := ha' ⟨LatencyResult.p50, Averages.p50, Row.p50⟩ List.mem_cons_self
  exact hvalue (by exact_mod_cast h50'.symm.trans h50)

def onlyAt (i : ℕ) (output : Text) : List Text := List.replicate i [] ++ [output]

theorem zip_onlyAt {α β : Type} (xs : List α) (y z : β) (i : ℕ) {x : α} (hx : xs[i]? = some x) :
    xs.zip (List.replicate i y ++ [z]) = (xs.take i).map (fun a => (a, y)) ++ [(x, z)] := by
  induction xs generalizing i with
  | nil => cases hx
  | cons a xs ih =>
    cases i with
    | zero =>
      cases hx
      simp
    | succ i => simp [List.replicate_succ, ih i (by simpa using hx)]

theorem items_onlyAt {i : ℕ} {path : List Name} (h : (benchmarkPaths [])[i]? = some path) (output : Text) :
    (itemsInOrder (onlyAt i output)).Perm
      (((benchmarkPaths []).take i).map (fun p => (p, [])) ++ [(path, output)]) := by
  have hp := itemsInOrder_perm (onlyAt i output)
  rwa [onlyAt, zip_onlyAt _ _ _ _ h] at hp

theorem mem_blocks {root : Root} {outputs : List Text} {b : LatencyResult}
    (hb : b ∈ latencyBlocks (contents root outputs)) :
    ∃ path output, Tail path ∧ b ∈ fileBlocks (fileOf root (path, output)) := by
  rw [contents_eq, latencyBlocks, List.flatMap_map] at hb
  obtain ⟨⟨path, output⟩, hitem, hmem⟩ := List.mem_flatMap.1 hb
  exact ⟨path, output, benchmark_tail path (item_path hitem), hmem⟩

theorem blocks_perm (root : Root) {i : ℕ} {path : List Name} (h : (benchmarkPaths [])[i]? = some path)
    (output : Text) : (latencyBlocks (contents root (onlyAt i output))).Perm
      ((((benchmarkPaths []).take i).flatMap fun p => fileBlocks (fileOf root (p, []))) ++
        fileBlocks (fileOf root (path, output))) := by
  have hp := (items_onlyAt h output).flatMap_right fun item => fileBlocks (fileOf root item)
  rw [List.flatMap_append, List.flatMap_map, List.flatMap_singleton] at hp
  rw [contents_eq, latencyBlocks, List.flatMap_map]
  exact hp

/-- Below the top only the printing benchmark has blocks. -/
theorem top_blocks_perm {i : ℕ} {path : List Name} (h : (benchmarkPaths [])[i]? = some path)
    (output : Text) : (latencyBlocks (contents top (onlyAt i output))).Perm
      (fileBlocks (fileOf top (path, output))) := by
  have hp := blocks_perm top h output
  have hsilent : (((benchmarkPaths []).take i).flatMap fun p => fileBlocks (fileOf top (p, []))) = [] := by
    rw [List.flatMap_eq_nil_iff]
    intro p hmem
    rw [fileBlocks_clean top_clean (benchmark_tail p (List.mem_of_mem_take hmem))]
    split <;> rfl
  rwa [hsilent, List.nil_append] at hp

theorem block_fields {file : Text} {b : LatencyResult} (h : b ∈ fileBlocks file) :
    b.benchmarkType = benchmarkTypeOf (readBenchFile file).1 ∧
      ∃ logger, b.logger = loggerKey (readBenchFile file).1 logger := by
  unfold fileBlocks at h
  split at h
  · obtain ⟨⟨header, i⟩, -, hb⟩ := List.mem_filterMap.1 h
    obtain ⟨sec, -, hrow⟩ := Option.bind_eq_some_iff.1 hb
    obtain ⟨row, -, rfl⟩ := Option.map_eq_some_iff.1 hrow
    exact ⟨rfl, _, rfl⟩
  · cases h

def doublePath : List Name :=
  callSiteDir [] ++ ["benchmark_quill_with_functions_unbounded_call_site_latency_int_int_double".toList]

def fmtlogPath : List Name :=
  callSiteDir [] ++ ["benchmark_fmtlog_call_site_latency_int_int_double".toList]

def largestrPath : List Name :=
  callSiteDir [] ++ ["benchmark_quill_with_functions_unbounded_call_site_latency_int_int_largestr".toList]

def backendPath : List Name := backendTotalDir [] ++ ["BENCHMARK_ms_binlog_backend_total_time".toList]

theorem doublePath_at : (benchmarkPaths [])[0]? = some doublePath := rfl

theorem fmtlogPath_at : (benchmarkPaths [])[3]? = some fmtlogPath := rfl

theorem largestrPath_at : (benchmarkPaths [])[13]? = some largestrPath := rfl

theorem backendPath_at : (benchmarkPaths [])[33]? = some backendPath := rfl

theorem tail_at {i : ℕ} {path : List Name} (h : (benchmarkPaths [])[i]? = some path) : Tail path :=
  benchmark_tail path (List.mem_of_getElem? h)

def sampleRow (p50 : Text) : Text := '|' :: (p50 ++ "|2|3|4|5|6|\n".toList)

def sampleBlock (logger p50 : Text) : Text :=
  "Thread Count 1 - Total messages 1 - Logger: ".toList ++
    (logger ++ (" - Benchmark: X\n".toList ++ sampleRow p50))

theorem not_same_of_block {F : Type} (float : Text → F) (meanFloat : List F → F) {root : Root} {i : ℕ}
    {path : List Name} (hi : (benchmarkPaths [])[i]? = some path) {output : Text} {b : LatencyResult}
    (htop : fileBlocks (fileOf top (path, output)) = [b]) (hsmall : ∀ c ∈ columns, c.sample b < 2 ^ 52)
    (hno : ∀ p out, Tail p → ∀ b' ∈ fileBlocks (fileOf root (p, out)), resultKey b' = resultKey b →
      b'.logger ≠ b.logger) : ¬ SameResults float meanFloat root top := by
  intro hsame
  have hp := top_blocks_perm hi output
  rw [htop, List.perm_singleton] at hp
  refine collect_ne hp hsmall ?_ (hsame (onlyAt i output)).1
  intro b' hb'
  obtain ⟨p, out, hpath, hmem⟩ := mem_blocks hb'
  exact hno p out hpath b' hmem

def headerTexts (content : Text) : List (Text × Text) :=
  (headerPattern.findAll content).map fun m => (m.text 0, m.text 1)

def labelled (benchPath : Text) (header : Text × Text) (row : Found Char) : LatencyResult :=
  latencyResult benchPath ⟨⟨[], []⟩, ⟨[], []⟩, [⟨0, header.1⟩, ⟨0, header.2⟩]⟩ row

theorem parse_labelled (benchPath : Text) {content s : Text} {ss : List Text}
    (h : threadCountPattern.split content = s :: ss) : parseLatencyBench benchPath content =
      ((headerTexts content).zip ss).filterMap fun x =>
        (rowPattern.search x.2).map (labelled benchPath x.1) := by
  rw [parseLatencyBench_eq_zip _ _ _ _ h, headerTexts, List.zip_map_left, List.filterMap_map]
  rfl

theorem newline_stopsAt_threadCount (t : Text) : StopsAt threadCountPattern ('\n' :: t) := by
  apply stopsAt_of_avoids
  exact ⟨avoids_literal (by decide), avoids_plus (by decide)⟩

/-- No logger name is continued over a dash at the beginning of the next line. -/
theorem dash_stopsAt_header (t : Text) : StopsAt headerPattern ('\n' :: '-' :: t) := by
  have hdecimal : isDecimal '\n' = false := by decide
  have hname : StopsAt (.seq (.group (.plus notDash))
      (.seq (.literal benchmarkWords) (.group (.plus notNewline)))) ('\n' :: '-' :: t) := by
    apply stopsAt_plus_blocked
    · decide
    · exact stopsAt_seq (stopsAt_of_avoids (avoids_literal (by decide)) _)
        (stopsAt_group (stopsAt_of_avoids (avoids_plus (by decide)) _))
    · intro b
      apply run_seq_of_nil
      apply run_literal_of_mismatch
      rintro ⟨u, hu⟩
      cases hu
  exact stopsAt_seq (stopsAt_of_avoids (avoids_literal (by decide)) _)
    (stopsAt_seq (stopsAt_group (stopsAt_of_avoids (avoids_plus hdecimal) _))
      (stopsAt_seq (stopsAt_of_avoids (avoids_literal (by decide)) _)
        (stopsAt_seq (stopsAt_of_avoids (avoids_plus hdecimal) _)
          (stopsAt_seq (stopsAt_of_avoids (avoids_literal (by decide)) _) hname))))

theorem headerTexts_append (v t : Text) : headerTexts (v ++ '\n' :: '-' :: t) =
    headerTexts v ++ headerTexts ('\n' :: '-' :: t) := by
  unfold headerTexts
  rw [findAll_append (dash_stopsAt_header t) noLineStart_header, List.map_append, List.map_map, List.map_map]
  simp only [Function.comp_def, text_under]
  rfl

theorem headerTexts_quiet {v z : Text} (hq : Quiet threadCountPattern [] v z) :
    headerTexts (v ++ z) = headerTexts z := by
  unfold headerTexts
  rw [findAll_quiet noLineStart_header (quiet_header hq), List.map_map]
  simp only [Function.comp_def, text_under]

theorem noLineStart_row : NoLineStart rowPattern := by
  have hcell : NoLineStart cellPattern := ⟨trivial, ⟨trivial, trivial⟩, trivial, trivial⟩
  exact ⟨trivial, hcell, hcell, hcell, hcell, hcell, hcell⟩

def sampleTail (logger : Text) : Text :=
  " - Total messages 1 - Logger: ".toList ++ (logger ++ " - Benchmark: X\n".toList)

theorem sampleRow_match : ∃ m, rowPattern.matchAt ⟨[], sampleRow "1".toList⟩ = some m := by
  apply Option.isSome_iff_exists.1
  decide +kernel

def samples : List (Text × Text) :=
  [("A".toList, "1".toList), ("A".toList, "2".toList), ("Quill".toList, "1".toList)]

theorem sample_parts : ∀ e ∈ samples, '\r' ∉ sampleBlock e.1 e.2 ∧ strip e.1 = e.1 ∧
    threadCountPattern.split (sampleBlock e.1 e.2) = [[], sampleTail e.1 ++ sampleRow e.2] ∧
    headerTexts (sampleBlock e.1 e.2) = [("1".toList, e.1)] ∧
    ((rowPattern.search (sampleTail e.1 ++ sampleRow e.2)).map fun row => (List.range 6).map fun i => int (row.text i)) =
      some [int e.2, 2, 3, 4, 5, 6] := by
  unfold samples sampleBlock sampleTail sampleRow
  repeat rw [String.toList_ofList]
  decide +kernel

/-- One block is read alike under every path, but for its type and the name of its logger. -/
theorem parse_sampleBlock {logger p50 : Text} (h : (logger, p50) ∈ samples) (benchPath : Text) :
    parseLatencyBench benchPath (sampleBlock logger p50) =
      [⟨loggerKey benchPath logger, 1, benchmarkTypeOf benchPath, int p50, 2, 3, 4, 5, 6⟩] := by
  obtain ⟨-, hstrip, hsplit, hheader, hrow⟩ := sample_parts _ h
  obtain ⟨row, hrow, hnumbers⟩ := Option.map_eq_some_iff.1 hrow
  dsimp only at hstrip hsplit hheader hrow
  have hlabel : labelled benchPath ("1".toList, logger) row =
      ⟨loggerKey benchPath logger, 1, benchmarkTypeOf benchPath, int p50, 2, 3, 4, 5, 6⟩ := by
    simp only [List.range_succ, List.range_zero, List.nil_append, List.cons_append, List.map_cons, List.map_nil,
      List.cons.injEq, and_true] at hnumbers
    obtain ⟨h0, h1, h2, h3, h4, h5⟩ := hnumbers
    change LatencyResult.mk (loggerKey benchPath (strip logger)) (int "1".toList) (benchmarkTypeOf benchPath)
      (int (row.text 0)) (int (row.text 1)) (int (row.text 2)) (int (row.text 3)) (int (row.text 4))
      (int (row.text 5)) = _
    rw [hstrip, h0, h1, h2, h3, h4, h5, show int "1".toList = 1 by decide]
  rw [parse_labelled _ hsplit, hheader, List.zip_cons_cons, List.filterMap_cons, hrow, Option.map_some, hlabel]
  rfl

/-- What a benchmark below the top prints there. -/
theorem top_sample {logger p50 : Text} (h : (logger, p50) ∈ samples) {path : List Name} (hpath : Tail path) :
    fileBlocks (fileOf top (path, sampleBlock logger p50)) =
      if contains callSiteWord (render path) then
        [⟨loggerKey (render path) logger, 1, benchmarkTypeOf (render path), int p50, 2, 3, 4, 5, 6⟩]
      else [] := by
  rw [fileBlocks_clean top_clean hpath, universalNewlines_eq_self (sample_parts _ h).1,
    parse_sampleBlock h]

/-- The types and the logger names below the top. -/
theorem path_facts :
    (contains callSiteWord (render doublePath) = true ∧ benchmarkTypeOf (render doublePath) = .intIntDouble ∧
        loggerKey (render doublePath) "A".toList = "A".toList) ∧
      (contains callSiteWord (render largestrPath) = true ∧
        benchmarkTypeOf (render largestrPath) = .intIntLargestr ∧
        loggerKey (render largestrPath) "A".toList = "A".toList) ∧
      (contains callSiteWord (render fmtlogPath) = true ∧ benchmarkTypeOf (render fmtlogPath) = .intIntDouble ∧
        loggerKey (render fmtlogPath) "Quill".toList = "Quill".toList) := by
  unfold doublePath largestrPath fmtlogPath callSiteDir callSiteWord benchmarkTypeOf loggerKey
  repeat rw [String.toList_ofList]
  decide +kernel

theorem top_double : fileBlocks (fileOf top (doublePath, sampleBlock "A".toList "1".toList)) =
    [⟨"A".toList, 1, .intIntDouble, 1, 2, 3, 4, 5, 6⟩] := by
  obtain ⟨hword, htype, hlogger⟩ := path_facts.1
  rw [top_sample List.mem_cons_self (tail_at doublePath_at), if_pos hword, htype, hlogger]
  rfl

theorem top_largestr : fileBlocks (fileOf top (largestrPath, sampleBlock "A".toList "1".toList)) =
    [⟨"A".toList, 1, .intIntLargestr, 1, 2, 3, 4, 5, 6⟩] := by
  obtain ⟨hword, htype, hlogger⟩ := path_facts.2.1
  rw [top_sample List.mem_cons_self (tail_at largestrPath_at), if_pos hword, htype, hlogger]
  rfl

theorem top_fmtlog : fileBlocks (fileOf top (fmtlogPath, sampleBlock "Quill".toList "1".toList)) =
    [⟨"Quill".toList, 1, .intIntDouble, 1, 2, 3, 4, 5, 6⟩] := by
  obtain ⟨hword, htype, hlogger⟩ := path_facts.2.2
  rw [top_sample (List.mem_cons_of_mem _ (List.mem_cons_of_mem _ List.mem_cons_self)) (tail_at fmtlogPath_at),
    if_pos hword, htype, hlogger]
  rfl

section Triggers

variable {F : Type} (float : Text → F) (meanFloat : List F → F) {root : Root}

/-- A table that no file is filed under loses the block that belongs there. -/
theorem not_same_of_no_type {t : BenchmarkType} (ht : t = .intIntDouble ∨ t = .intIntLargestr)
    (h : ∀ p out, Tail p → benchmarkTypeOf (readBenchFile (fileOf root (p, out))).1 ≠ t) :
    ¬ SameResults float meanFloat root top := by
  have hother : ∀ {b : LatencyResult}, b.benchmarkType = t → ∀ p out, Tail p →
      ∀ b' ∈ fileBlocks (fileOf root (p, out)), resultKey b' = resultKey b → b'.logger ≠ b.logger := by
    intro b hb p out hpath b' hb' hkey
    have htype : b'.benchmarkType = b.benchmarkType := congrArg Prod.fst hkey
    rw [(block_fields hb').1, hb] at htype
    exact absurd htype (h p out hpath)
  rcases ht with rfl | rfl
  · exact not_same_of_block float meanFloat doublePath_at top_double (by decide) (hother rfl)
  · exact not_same_of_block float meanFloat largestrPath_at top_largestr (by decide) (hother rfl)

theorem path_of_carriageReturn (h : '\r' ∈ root.text) :
    ∃ path, ∀ p out, (readBenchFile (fileOf root (p, out))).1 = path := by
  obtain ⟨front, back, hroot, hfront⟩ := List.eq_append_cons_of_mem h
  have hne : front ≠ [] := by
    rintro rfl
    have hhead := text_head root '\r' (by rw [hroot]; rfl)
    exact absurd hhead (by decide)
  have hnl : '\n' ∉ front := by
    intro hmem
    exact root.newline (by rw [hroot]; exact List.mem_append_left _ hmem)
  refine ⟨strip front, fun p out => ?_⟩
  have hline : '\r' ∉ benchWords ++ front := by
    have hw : '\r' ∉ benchWords := by decide
    simp [hw, hfront]
  obtain ⟨rest, hrest⟩ : ∃ rest, universalNewlines (fileOf root (p, out)) = resultFile front rest := by
    have happ := universalNewlines_append (benchWords ++ front)
      ('\r' :: (back ++ render p ++ '\n' :: out)) hline
    obtain ⟨rest, hcr⟩ : ∃ rest, universalNewlines ('\r' :: (back ++ render p ++ '\n' :: out)) = '\n' :: rest := by
      rw [universalNewlines.eq_def]
      split
      · rename_i heq
        cases heq
      · exact ⟨_, rfl⟩
      · rename_i heq
        cases heq
        exact ⟨_, by rw [if_pos rfl]⟩
    rw [hcr] at happ
    exact ⟨rest, by simpa [fileOf, resultFile, hroot] using happ⟩
  obtain ⟨m, hm, htext⟩ := bench_search_path front rest hne hnl
  rw [readBenchFile, hrest, hm, Option.elim_some, htext]

theorem not_same_of_carriageReturn (h : '\r' ∈ root.text) : ¬ SameResults float meanFloat root top := by
  obtain ⟨path, hread⟩ := path_of_carriageReturn h
  by_cases hpath : benchmarkTypeOf path = .intIntDouble
  · apply not_same_of_no_type float meanFloat (.inr rfl)
    intro p out _
    rw [hread, hpath]
    decide
  · apply not_same_of_no_type float meanFloat (.inl rfl)
    intro p out _
    rwa [hread]

theorem contains_front {w s : Text} (h : contains w s = true) (t : Text) : contains w (s ++ t) = true := by
  rw [contains_iff] at h ⊢
  exact h.trans (List.infix_append' [] s t)

theorem not_same_of_largestr (hcr : '\r' ∉ root.text) (h : contains largestrWord root.text = true) :
    ¬ SameResults float meanFloat root top := by
  apply not_same_of_no_type float meanFloat (.inl rfl)
  intro p out hpath
  have hword : contains "largestr".toList (root.text ++ render p) = true := contains_front h _
  rw [read_fileOf hcr hpath]
  dsimp only
  rw [benchmarkTypeOf, hword, Bool.or_true, if_pos rfl]
  split <;> decide

theorem loggerKey_ne {path : Text} (h : contains withFunctionsWord path = true ∨
    contains unboundedWord path = true ∨ contains boundedWord path = true) (logger : Text) :
    loggerKey path logger ≠ "Quill".toList := by
  have hmode : quillMacroFreeMode ≠ "Quill".toList ∧ "Quill - Unbounded".toList ≠ "Quill".toList ∧
      "Quill - Bounded".toList ≠ "Quill".toList := by decide
  unfold loggerKey
  split
  · split
    · exact hmode.1
    · split
      · exact hmode.2.1
      · split
        · exact hmode.2.2
        · rename_i hfunctions hunbounded hbounded
          rw [Bool.or_eq_true, not_or] at hfunctions
          rcases h with h | h | h
          · exact absurd h hfunctions.1
          · exact absurd h hunbounded
          · exact absurd h hbounded
  · assumption

theorem not_same_of_variant (hcr : '\r' ∉ root.text) (h : contains withFunctionsWord root.text = true ∨
    contains unboundedWord root.text = true ∨ contains boundedWord root.text = true) :
    ¬ SameResults float meanFloat root top := by
  apply not_same_of_block float meanFloat fmtlogPath_at top_fmtlog (by decide)
  intro p out hpath b hb _
  obtain ⟨-, logger, hlogger⟩ := block_fields hb
  rw [hlogger, read_fileOf hcr hpath]
  apply loggerKey_ne
  exact h.imp (contains_front · _) (Or.imp (contains_front · _) (contains_front · _))

theorem backend_silent : fileBlocks (fileOf top (backendPath, sampleBlock "A".toList "1".toList)) = [] := by
  rw [fileBlocks_clean top_clean (tail_at backendPath_at)]
  unfold backendPath backendTotalDir callSiteWord
  repeat rw [String.toList_ofList]
  rw [if_neg (by decide +kernel)]

theorem mem_contents {outputs : List Text} {item : List Name × Text} (h : item ∈ (benchmarkPaths []).zip outputs) :
    fileOf root item ∈ contents root outputs := by
  rw [contents_eq]
  exact List.mem_map_of_mem ((itemsInOrder_perm outputs).mem_iff.2 h)

theorem onlyAt_mem {i : ℕ} {path : List Name} (h : (benchmarkPaths [])[i]? = some path) (output : Text) :
    fileOf root (path, output) ∈ contents root (onlyAt i output) := by
  apply mem_contents
  rw [onlyAt, zip_onlyAt _ _ _ _ h]
  simp

theorem not_same_of_callSite (hc : '\r' ∉ root.text) (hthread : NoThreadCount root.text)
    (h : contains callSiteWord root.text = true) : ¬ SameResults float meanFloat root top := by
  intro hsame
  have hp := top_blocks_perm backendPath_at (sampleBlock "A".toList "1".toList)
  rw [backend_silent, List.perm_nil] at hp
  refine collect_ne_of_nil hp ?_ (hsame (onlyAt 33 (sampleBlock "A".toList "1".toList))).1
  intro hnil
  rw [latencyBlocks, List.flatMap_eq_nil_iff] at hnil
  have hfile := hnil _ (onlyAt_mem backendPath_at _)
  have hpath := tail_at backendPath_at
  have hword : contains callSiteWord (root.text ++ render backendPath) = true := contains_front h _
  rw [fileBlocks_quiet hc hthread hpath, if_pos hword,
    universalNewlines_eq_self (sample_parts _ List.mem_cons_self).1,
    parse_sampleBlock List.mem_cons_self] at hfile
  cases hfile

theorem contents_first (root : Root) (output : Text) :
    contents root (onlyAt 0 output) = [fileOf root (doublePath, output)] := by
  have hitems : itemsInOrder (onlyAt 0 output) = [(doublePath, output)] :=
    List.perm_singleton.1 (items_onlyAt doublePath_at output)
  rw [contents_eq, hitems, List.map_singleton]

def loneRow : Text := "-\n".toList ++ sampleRow "1".toList

def dashedBlock (p50 : Text) : Text := "-\n".toList ++ sampleBlock "A".toList p50

theorem loneRow_quiet : Quiet threadCountPattern [] ('\n' :: loneRow) [] := by
  apply quiet_of_no_T
  decide

theorem loneRow_parts : threadCountPattern.split ('\n' :: loneRow) = ['\n' :: loneRow] ∧
    headerTexts ('\n' :: loneRow) = [] := by
  have hsplit := split_quiet noLineStart_threadCount loneRow_quiet
  have hheader := headerTexts_quiet loneRow_quiet
  rw [List.append_nil] at hsplit hheader
  exact ⟨hsplit.trans (congrArg (· :: []) (List.append_nil _)), hheader⟩

theorem sample_mem {p50 : Text} (h : p50 = "1".toList ∨ p50 = "2".toList) : ("A".toList, p50) ∈ samples := by
  rcases h with rfl | rfl
  · exact List.mem_cons_self
  · exact List.mem_cons_of_mem _ List.mem_cons_self

theorem dashedBlock_parts {p50 : Text} (h : p50 = "1".toList ∨ p50 = "2".toList) :
    threadCountPattern.split ('\n' :: dashedBlock p50) =
        ["\n-\n".toList, sampleTail "A".toList ++ sampleRow p50] ∧
      headerTexts ('\n' :: dashedBlock p50) = [("1".toList, "A".toList)] := by
  obtain ⟨-, -, hsplit, hheader, -⟩ := sample_parts _ (sample_mem h)
  have hquiet : Quiet threadCountPattern [] "\n-\n".toList (sampleBlock "A".toList p50) :=
    quiet_of_no_T _ _ _ (by decide)
  have hglued := split_quiet noLineStart_threadCount hquiet
  rw [hsplit] at hglued
  exact ⟨hglued, (headerTexts_quiet hquiet).trans hheader⟩

theorem top_dashedBlock {p50 : Text} (h : p50 = "1".toList ∨ p50 = "2".toList) :
    fileBlocks (fileOf top (doublePath, dashedBlock p50)) =
      [⟨"A".toList, 1, .intIntDouble, int p50, 2, 3, 4, 5, 6⟩] := by
  have hmem := sample_mem h
  have hcr : '\r' ∉ dashedBlock p50 := by
    rw [dashedBlock, List.mem_append, not_or]
    exact ⟨by decide, (sample_parts _ hmem).1⟩
  have hquiet : Quiet threadCountPattern [] "-\n".toList (sampleBlock "A".toList p50) := quiet_of_no_T _ _ _ (by decide)
  rw [fileBlocks_clean top_clean (tail_at doublePath_at), universalNewlines_eq_self hcr, dashedBlock,
    parseLatencyBench_quiet _ hquiet, parse_sampleBlock hmem]
  obtain ⟨hword, htype, hlogger⟩ := path_facts.1
  rw [if_pos hword, htype, hlogger]

theorem top_loneRow : fileBlocks (fileOf top (doublePath, loneRow)) = [] := by
  have hquiet : Quiet threadCountPattern [] loneRow [] := quiet_of_no_T _ _ _ (by decide)
  have hparse := parseLatencyBench_quiet (render doublePath) hquiet
  rw [List.append_nil] at hparse
  rw [fileBlocks_clean top_clean (tail_at doublePath_at), universalNewlines_eq_self (by decide), hparse]
  split <;> rfl

theorem zip_append_of_le {α β : Type} {xs : List α} {ys : List β} (h : xs.length ≤ ys.length) (zs : List β) :
    xs.zip (ys ++ zs) = xs.zip ys := by
  induction xs generalizing ys with
  | nil => rfl
  | cons x xs ih =>
    cases ys with
    | nil => cases h
    | cons y ys =>
      rw [List.cons_append, List.zip_cons_cons, List.zip_cons_cons, ih (Nat.le_of_succ_le_succ h)]

def firstLine (root : Root) : Text := benchWords ++ (root.text ++ render doublePath)

theorem fileBlocks_first (hcr : '\r' ∉ root.text) {output : Text} (hout : '\r' ∉ output) :
    fileBlocks (fileOf root (doublePath, output)) =
      parseLatencyBench (root.text ++ render doublePath) (firstLine root ++ '\n' :: output) := by
  have hword : contains "call_site_latency".toList (root.text ++ render doublePath) = true := by
    have hown : contains callSiteWord (render doublePath) = true := by
      unfold doublePath callSiteDir callSiteWord
      repeat rw [String.toList_ofList]
      decide +kernel
    rw [contains_iff] at hown ⊢
    exact hown.trans (List.suffix_append _ _).isInfix
  rw [fileBlocks, read_fileOf hcr (tail_at doublePath_at), hword, if_pos rfl, universalNewlines_eq_self hout,
    firstLine]

/-- The sections behind the occurrences in the first line, the last one continued by `q`. -/
theorem parse_first {s : Text} {ss qs : List Text} (hne : ss ≠ []) (t q : Text)
    (hfirst : threadCountPattern.split (firstLine root) = s :: ss)
    (hbehind : threadCountPattern.split ('\n' :: '-' :: t) = q :: qs) (benchPath : Text) :
    parseLatencyBench benchPath (firstLine root ++ '\n' :: '-' :: t) =
      ((headerTexts (firstLine root) ++ headerTexts ('\n' :: '-' :: t)).zip
        (ss.dropLast ++ [ss.getLast hne ++ q] ++ qs)).filterMap fun x =>
          (rowPattern.search x.2).map (labelled benchPath x.1) := by
  have hsplit : threadCountPattern.split (firstLine root ++ '\n' :: '-' :: t) =
      s :: (ss.dropLast ++ [ss.getLast hne ++ q] ++ qs) := by
    rw [split_append (newline_stopsAt_threadCount _) noLineStart_threadCount, hfirst, hbehind,
      glue_singleton (List.cons_ne_nil s ss), List.dropLast_cons_of_ne_nil hne, List.getLast_cons hne]
    simp
  rw [parse_labelled _ hsplit, headerTexts_append]

theorem firstLine_split (h : ¬ NoThreadCount root.text) :
    ∃ s ss, threadCountPattern.split (firstLine root) = s :: ss ∧ ss ≠ [] := by
  obtain ⟨u, v, huv, hocc⟩ : ∃ u v, root.text = u ++ v ∧ Occurs v := by
    simpa [NoThreadCount] using h
  have hocc' : Occurs (v ++ render doublePath) := by
    obtain ⟨d, w, hd, rfl⟩ := hocc
    exact ⟨d, w ++ render doublePath, hd, by simp⟩
  have hspan : (Cursor.mk [] (firstLine root)).Spans (benchWords ++ u)
      ⟨(benchWords ++ u).reverse, v ++ render doublePath⟩ := ⟨by simp [firstLine, huv], by simp⟩
  obtain ⟨m, hm⟩ := Option.isSome_iff_exists.1
    (threadCount_matchAt_isSome.2 (show Occurs (Cursor.mk (benchWords ++ u).reverse _).after from hocc'))
  have hne : v ++ render doublePath ≠ [] := by
    intro hnil
    rw [hnil] at hocc'
    have hhead := occurs_head hocc'
    cases hhead
  obtain ⟨n, hn, -⟩ := scan_complete hm hne hspan (Nat.zero_le _)
  cases hall : threadCountPattern.findAll (firstLine root) with
  | nil =>
    rw [Pattern.findAll] at hall
    rw [hall] at hn
    cases hn
  | cons m ms =>
    rw [Pattern.split, hall]
    exact ⟨_, _, rfl, pieces_ne_nil _ _⟩

/-- If every occurrence in the first line has a header, a row without a block gets one. -/
theorem loneRow_found {s : Text} {ss : List Text} (hne : ss ≠ [])
    (hfirst : threadCountPattern.split (firstLine root) = s :: ss)
    (hmany : ss.length ≤ (headerTexts (firstLine root)).length) (benchPath : Text) :
    parseLatencyBench benchPath (firstLine root ++ '\n' :: loneRow) ≠ [] := by
  obtain ⟨hbehind, hnone⟩ := loneRow_parts
  have hpos := List.length_pos_of_ne_nil hne
  have hlast : ss.dropLast.length = ss.length - 1 := List.length_dropLast
  have hlt : ss.length - 1 < (headerTexts (firstLine root)).length := by omega
  have hparse := parse_first hne ('\n' :: sampleRow "1".toList) _ hfirst hbehind benchPath
  obtain ⟨m, hm⟩ := sampleRow_match
  have hrow := search_isSome_append noLineStart_row hm (ss.getLast hne ++ "\n-\n".toList)
  have hsection : ss.getLast hne ++ '\n' :: loneRow =
      ss.getLast hne ++ "\n-\n".toList ++ sampleRow "1".toList := by
    rw [List.append_assoc]
    rfl
  rw [← hsection] at hrow
  obtain ⟨row, hrow⟩ := Option.isSome_iff_exists.1 hrow
  intro hnil
  rw [show '\n' :: loneRow = '\n' :: '-' :: '\n' :: sampleRow "1".toList from rfl, hparse,
    List.filterMap_eq_nil_iff] at hnil
  have hmem : ((headerTexts (firstLine root))[ss.length - 1], ss.getLast hne ++ '\n' :: loneRow) ∈
      (headerTexts (firstLine root) ++ headerTexts ('\n' :: loneRow)).zip
        (ss.dropLast ++ [ss.getLast hne ++ '\n' :: loneRow] ++ []) := by
    rw [List.mem_iff_getElem?]
    refine ⟨ss.length - 1, List.getElem?_zip_eq_some.2 ⟨?_, ?_⟩⟩
    · rw [List.getElem?_append_left hlt, List.getElem?_eq_getElem hlt]
    · rw [List.append_nil, List.getElem?_append_right (by omega), hlast, Nat.sub_self]
      rfl
  have hnone := hnil _ hmem
  rw [hrow] at hnone
  cases hnone

/-- If one has none, the header of a block behind the first line meets an earlier section. -/
theorem dashedBlock_missed {s : Text} {ss : List Text} (hne : ss ≠ [])
    (hfirst : threadCountPattern.split (firstLine root) = s :: ss)
    (hfew : (headerTexts (firstLine root)).length < ss.length) (benchPath : Text) :
    parseLatencyBench benchPath (firstLine root ++ '\n' :: dashedBlock "1".toList) =
      parseLatencyBench benchPath (firstLine root ++ '\n' :: dashedBlock "2".toList) := by
  have hlast : ss.dropLast.length = ss.length - 1 := List.length_dropLast
  have hparse : ∀ p50, p50 = "1".toList ∨ p50 = "2".toList →
      parseLatencyBench benchPath (firstLine root ++ '\n' :: dashedBlock p50) =
        ((headerTexts (firstLine root) ++ [("1".toList, "A".toList)]).zip
          (ss.dropLast ++ [ss.getLast hne ++ "\n-\n".toList])).filterMap fun x =>
            (rowPattern.search x.2).map (labelled benchPath x.1) := by
    intro p50 hp
    obtain ⟨hbehind, hheaders⟩ := dashedBlock_parts hp
    have h := parse_first hne ('\n' :: sampleBlock "A".toList p50) _ hfirst hbehind benchPath
    change parseLatencyBench benchPath (firstLine root ++ '\n' :: dashedBlock p50) =
      ((headerTexts (firstLine root) ++ headerTexts ('\n' :: dashedBlock p50)).zip _).filterMap _ at h
    rw [h, hheaders, zip_append_of_le]
    simp only [List.length_append, List.length_singleton]
    omega
  rw [hparse _ (.inl rfl), hparse _ (.inr rfl)]

theorem not_same_of_threadCount (hcr : '\r' ∉ root.text) (h : ¬ NoThreadCount root.text) :
    ¬ SameResults float meanFloat root top := by
  obtain ⟨s, ss, hfirst, hne⟩ := firstLine_split h
  intro hsame
  by_cases hmany : ss.length ≤ (headerTexts (firstLine root)).length
  · have htop : latencyBlocks (contents top (onlyAt 0 loneRow)) = [] := by
      rw [contents_first, latencyBlocks, List.flatMap_singleton, top_loneRow]
    refine collect_ne_of_nil htop ?_ (hsame (onlyAt 0 loneRow)).1
    rw [contents_first, latencyBlocks, List.flatMap_singleton, fileBlocks_first hcr (by decide)]
    exact loneRow_found hne hfirst hmany _
  · have htop : ∀ p50, p50 = "1".toList ∨ p50 = "2".toList →
        latencyBlocks (contents top (onlyAt 0 (dashedBlock p50))) =
          [⟨"A".toList, 1, .intIntDouble, int p50, 2, 3, 4, 5, 6⟩] := by
      intro p50 hp
      rw [contents_first, latencyBlocks, List.flatMap_singleton, top_dashedBlock hp]
    have hroot : collectLatencyResults trueDivide (contents root (onlyAt 0 (dashedBlock "1".toList))) =
        collectLatencyResults trueDivide (contents root (onlyAt 0 (dashedBlock "2".toList))) := by
      apply collectLatency_congr
      rw [contents_first, contents_first, List.map_singleton, List.map_singleton,
        fileBlocks_first hcr (by decide), fileBlocks_first hcr (by decide),
        dashedBlock_missed hne hfirst (by omega)]
    refine collect_ne_of_value (htop _ (.inr rfl)) (htop _ (.inl rfl)) (by decide) (by decide) rfl rfl
      (by decide) ?_
    rw [← (hsame (onlyAt 0 (dashedBlock "1".toList))).1, hroot, (hsame (onlyAt 0 (dashedBlock "2".toList))).1]

theorem throughput_in_front (h : throughputPattern.search root.text ≠ none) {path : List Name}
    (hpath : Tail path) (w t : Text) :
    (throughputPattern.search (w ++ (root.text ++ (render path ++ t)))).isSome = true := by
  obtain ⟨m, hm⟩ := Option.ne_none_iff_exists'.1 h
  obtain ⟨u, hspan, hmatch⟩ := searchFrom_some hm
  obtain ⟨z, hz⟩ := hpath.cons₂
  have hextend := matchAt_extend (throughput_stopsAt (x := 'c') (by decide) (z ++ t)) m.start
  have hunder := matchAt_under noLineStart_throughput w.reverse
    (extend ('/' :: 'c' :: (z ++ t)) m.start)
  rw [hextend, hmatch] at hunder
  have hwhole : (Cursor.mk [] (w ++ (root.text ++ (render path ++ t)))).Spans (w ++ u)
      (under w.reverse (extend ('/' :: 'c' :: (z ++ t)) m.start)) := by
    obtain ⟨hafter, hbefore⟩ := hspan
    dsimp only at hafter
    exact ⟨by simp [hafter, hz, under, extend], by simp [hbefore, under, extend]⟩
  have hstart := matchAt_start hunder
  obtain ⟨n, hn, -⟩ := searchFrom_first (hstart ▸ hwhole) (hstart.symm ▸ hunder)
  rw [Pattern.search, hn]
  rfl

theorem backendBlock_throughput (hcr : '\r' ∉ root.text) (h : throughputPattern.search root.text ≠ none) :
    backendBlock float (fileOf root (backendPath, [])) ≠ none := by
  have hpath := tail_at backendPath_at
  have hlast : backendPath.getLast hpath.ne_nil = "BENCHMARK_ms_binlog_backend_total_time".toList :=
    List.getLast_concat
  obtain ⟨info, hinfo⟩ : ∃ info, backendLoggerMap.lookup (backendPath.getLast hpath.ne_nil) = some info := by
    rw [hlast, backendLoggerMap, List.lookup_cons_self]
    exact ⟨_, rfl⟩
  have hword : contains "backend_total_time".toList (root.text ++ render backendPath) = true := by
    have hown : contains "backend_total_time".toList (render backendPath) = true := by
      unfold backendPath backendTotalDir
      repeat rw [String.toList_ofList]
      decide +kernel
    rw [contains_iff] at hown ⊢
    exact hown.trans (List.suffix_append _ _).isInfix
  obtain ⟨m, hm⟩ := Option.isSome_iff_exists.1 (throughput_in_front h hpath benchWords ['\n'])
  rw [backendBlock, read_line hcr hpath, if_pos hword, parseBackendBench, hpath.name, hinfo, Option.bind_some,
    universalNewlines_eq_self List.not_mem_nil, List.append_nil, benchLine, hm]
  exact Option.some_ne_none _

theorem backendBlock_silent {path : List Name} (hmem : path ∈ benchmarkPaths []) :
    backendBlock float (fileOf top (path, [])) = none := by
  have hsearch : throughputPattern.search [] = none := top_clean.throughput
  have hnothing : parseBackendBench float (render path) [] = none := by
    rw [parseBackendBench, hsearch]
    cases backendLoggerMap.lookup (parse (render path)).name <;> rfl
  rw [backendBlock_clean float top_clean hmem, universalNewlines_eq_self List.not_mem_nil, hnothing, ite_self]

theorem items_silent {i : ℕ} {path : List Name} (hi : (benchmarkPaths [])[i]? = some path)
    {item : List Name × Text} (h : item ∈ itemsInOrder (onlyAt i [])) : item.2 = [] := by
  rcases List.mem_append.1 ((items_onlyAt hi []).mem_iff.1 h) with hmem | hmem
  · obtain ⟨q, -, rfl⟩ := List.mem_map.1 hmem
    rfl
  · rw [List.mem_singleton.1 hmem]

theorem top_no_backend {i : ℕ} {path : List Name} (hi : (benchmarkPaths [])[i]? = some path) :
    (contents top (onlyAt i [])).filterMap (backendBlock float) = [] := by
  rw [contents_eq, List.filterMap_map, List.filterMap_eq_nil_iff]
  rintro ⟨p, out⟩ hitem
  obtain rfl : out = [] := items_silent hi hitem
  rw [Function.comp_apply, backendBlock_silent float (item_path hitem)]

theorem not_same_of_throughput (hcr : '\r' ∉ root.text) (h : throughputPattern.search root.text ≠ none) :
    ¬ SameResults float meanFloat root top := by
  intro hsame
  obtain ⟨b, hb⟩ := Option.ne_none_iff_exists'.1 (backendBlock_throughput float hcr h)
  have hmem : b ∈ (contents root (onlyAt 33 [])).filterMap (backendBlock float) :=
    List.mem_filterMap.2 ⟨_, onlyAt_mem backendPath_at _, hb⟩
  have hcollect := (hsame (onlyAt 33 [])).2
  unfold BackendTable.collectBackendResults at hcollect
  rw [backendSamples_eq, backendSamples_eq, top_no_backend float backendPath_at] at hcollect
  have hentries := mapEntries_keys (mapM_entries (hcollect.trans (show _ = some ⟨[], List.nodup_nil⟩ from rfl)))
  have hnil := List.map_eq_nil_iff.1 hentries.symm
  have hget := get?_group BackendResult.logger
    ((contents root (onlyAt 33 [])).filterMap (backendBlock float)) b.logger
  rw [if_neg (List.ne_nil_of_mem (List.mem_filter.2 ⟨hmem, decide_eq_true rfl⟩)), Dict.get?, hnil] at hget
  cases hget

/-- The results are those below the top just when nothing in the root is mistaken. -/
theorem clean_of_same {root : Root} (h : SameResults float meanFloat root top) : Clean root := by
  have hcr : '\r' ∉ root.text := fun hcr => not_same_of_carriageReturn float meanFloat hcr h
  have hthread : NoThreadCount root.text := by
    by_contra hthread
    exact not_same_of_threadCount float meanFloat hcr hthread h
  refine ⟨hcr, ?_, hthread, ?_⟩
  · intro w hw
    rw [Bool.eq_false_iff]
    intro hin
    simp only [classWords, List.mem_cons, List.not_mem_nil, or_false] at hw
    rcases hw with rfl | rfl | rfl | rfl | rfl
    · exact not_same_of_largestr float meanFloat hcr hin h
    · exact not_same_of_variant float meanFloat hcr (.inl hin) h
    · exact not_same_of_variant float meanFloat hcr (.inr (.inl hin)) h
    · exact not_same_of_variant float meanFloat hcr (.inr (.inr hin)) h
    · exact not_same_of_callSite float meanFloat hcr hthread hin h
  · by_contra hthroughput
    exact not_same_of_throughput float meanFloat hcr hthroughput h

end Triggers

/-- The collections do not depend on the root, as long as it stays among the clean ones. -/
theorem root_independent_iff {F : Type} (float : Text → F) (meanFloat : List F → F) (root : Root) :
    (SameResults float meanFloat root top ↔ Clean root) ∧
      ((∀ root', Clean root' → SameResults float meanFloat root root') ↔ Clean root) := by
  refine ⟨⟨clean_of_same float meanFloat, fun h => same_of_clean float meanFloat h top_clean⟩, ?_, ?_⟩
  · intro h
    exact clean_of_same float meanFloat (h top top_clean)
  · intro h root' h'
    exact same_of_clean float meanFloat h h'

def homeRoot : Root := ⟨["home".toList], by decide⟩

def largestrRoot : Root := ⟨["largestr".toList], by decide⟩

theorem largestr_root_differs :
    collectLatencyResults trueDivide (contents largestrRoot (onlyAt 0 (sampleBlock "A".toList "1".toList))) ≠
      collectLatencyResults trueDivide (contents homeRoot (onlyAt 0 (sampleBlock "A".toList "1".toList))) := by
  have hblocks : ∀ root : Root, '\r' ∉ root.text → 'T' ∉ root.text →
      latencyBlocks (contents root (onlyAt 0 (sampleBlock "A".toList "1".toList))) =
        if contains callSiteWord (root.text ++ render doublePath) then
          [⟨loggerKey (root.text ++ render doublePath) "A".toList, 1, benchmarkTypeOf (root.text ++ render doublePath),
            1, 2, 3, 4, 5, 6⟩]
        else [] := by
    intro root hcr hT
    rw [contents_first, latencyBlocks, List.flatMap_singleton,
      fileBlocks_quiet hcr (noThreadCount_of_no_T hT) (tail_at doublePath_at),
      universalNewlines_eq_self (sample_parts _ List.mem_cons_self).1,
      parse_sampleBlock List.mem_cons_self]
    rfl
  have hhome : latencyBlocks (contents homeRoot (onlyAt 0 (sampleBlock "A".toList "1".toList))) =
      [⟨"A".toList, 1, .intIntDouble, 1, 2, 3, 4, 5, 6⟩] := by
    rw [hblocks _ (by decide) (by decide)]
    unfold doublePath callSiteDir callSiteWord benchmarkTypeOf loggerKey
    repeat rw [String.toList_ofList]
    decide +kernel
  have hlargestr : latencyBlocks (contents largestrRoot (onlyAt 0 (sampleBlock "A".toList "1".toList))) =
      [⟨"A".toList, 1, .intIntLargestr, 1, 2, 3, 4, 5, 6⟩] := by
    rw [hblocks _ (by decide) (by decide)]
    unfold doublePath callSiteDir callSiteWord benchmarkTypeOf loggerKey
    repeat rw [String.toList_ofList]
    decide +kernel
  apply collect_ne hhome (by decide)
  rw [hlargestr]
  decide

end LoggerBenchmarks.CheckoutRootTriggers
