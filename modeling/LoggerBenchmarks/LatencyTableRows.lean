import Mathlib.Data.List.Perm.Subperm
import LoggerBenchmarks.LatencyTable

set_option autoImplicit false

/-!
# The rows of a latency table

The results of all files are grouped by logger key; several keys may be displayed
as one library.
-/
namespace LoggerBenchmarks.LatencyTableRows
open BinaryRounding InsertionDict PythonText ResultFileParser LatencyTable

def fileBlocks (file : Text) : List LatencyResult :=
  if contains "call_site_latency".toList (readBenchFile file).1 then
    parseLatencyBench (readBenchFile file).1 (readBenchFile file).2
  else []

def latencyBlocks (files : List Text) : List LatencyResult := files.flatMap fileBlocks

def blocksAt (files : List Text) (key : Key) : List LatencyResult :=
  (latencyBlocks files).filter (resultKey · = key)

def loggerBlocks (files : List Text) (key : Key) (logger : Text) : List LatencyResult :=
  (blocksAt files key).filter (·.logger = logger)

def libraryOf (logger : Text) : Option LoggerInfo := latencyLoggerMap.lookup logger

def libraryBlocks (files : List Text) (key : Key) (info : LoggerInfo) : List LatencyResult :=
  (blocksAt files key).filter (libraryOf ·.logger = some info)

def Listed (files : List Text) (key : Key) (info : LoggerInfo) : Prop :=
  ∃ b ∈ blocksAt files key, b.logger ∈ (latencySectionMetadata key.1).loggers ∧
    libraryOf b.logger = some info

structure Column where
  sample : LatencyResult → ℕ
  average : Averages → ℤ
  cell : Row → ℤ

def columns : List Column :=
  [⟨LatencyResult.p50, Averages.p50, Row.p50⟩, ⟨LatencyResult.p75, Averages.p75, Row.p75⟩,
    ⟨LatencyResult.p90, Averages.p90, Row.p90⟩, ⟨LatencyResult.p95, Averages.p95, Row.p95⟩,
    ⟨LatencyResult.p99, Averages.p99, Row.p99⟩, ⟨LatencyResult.p999, Averages.p999, Row.p999⟩]

def exactMean (p : LatencyResult → ℕ) (blocks : List LatencyResult) : ℚ :=
  (blocks.map p).sum / blocks.length

def rank (r : Row) : ℤ ×ₗ ℤ ×ₗ ℤ ×ₗ ℤ := toLex (r.p90, toLex (r.p95, toLex (r.p99, r.p999)))

/-- One row for each library, with the means of all its blocks, in the order of the ranks. -/
structure CorrectRows (files : List Text) (key : Key) (rows : List Row) : Prop where
  listed : ∀ info, Listed files key info → (rows.map Row.name).count (link info) = 1
  only : ∀ r ∈ rows, ∃ info, Listed files key info ∧ r.name = link info
  cells : ∀ r ∈ rows, ∀ info, Listed files key info → r.name = link info →
    ∀ c ∈ columns, c.cell r = halfEven (exactMean c.sample (libraryBlocks files key info))
  ordered : rows.Pairwise fun a b => rank a ≤ rank b

def OneRowPerLibrary (files : List Text) (key : Key) : Prop :=
  ∃ results, collectLatencyResults trueDivide files = some results ∧
    CorrectRows files key (latencyRows results key.1 key.2)

def upperBqlog : Text := "Bqlog".toList

def lowerBqlog : Text := "bqlog".toList

structure Collectable (files : List Text) (key : Key) : Prop where
  /-- The two keys that are displayed as one library are not both in use. -/
  spelled : upperBqlog ∈ (latencySectionMetadata key.1).loggers →
    loggerBlocks files key upperBqlog = [] ∨ loggerBlocks files key lowerBqlog = []
  /-- Every mean of every table has a double. -/
  finite : ∀ b ∈ latencyBlocks files, ∀ c ∈ columns,
    (toDouble (exactMean c.sample (loggerBlocks files (resultKey b) b.logger))).isSome = true
  /-- The double of a mean in this table rounds to the same integer as the mean. -/
  rounded : ∀ b ∈ blocksAt files key, b.logger ∈ (latencySectionMetadata key.1).loggers →
    (libraryOf b.logger).isSome = true → ∀ c ∈ columns,
      halfEven (nearest (exactMean c.sample (loggerBlocks files key b.logger))) =
        halfEven (exactMean c.sample (loggerBlocks files key b.logger))

theorem samples_eq (files : List Text) :
    files.foldl addFile .empty = (latencyBlocks files).foldl addResult .empty := by
  have hstep : ∀ samples, files.foldl addFile samples = (latencyBlocks files).foldl addResult samples := by
    induction files with
    | nil => exact fun _ => rfl
    | cons file files ih =>
      intro samples
      have hfile : addFile samples file = (fileBlocks file).foldl addResult samples := by
        unfold addFile fileBlocks
        rcases readBenchFile file with ⟨benchPath, content⟩
        dsimp only
        generalize contains "call_site_latency".toList benchPath = call
        cases call <;> rfl
      rw [List.foldl_cons, ih, hfile, ← List.foldl_append]
      rfl
  exact hstep .empty

theorem get?_samples (files : List Text) (key : Key) :
    (files.foldl addFile .empty).get? key =
      if blocksAt files key = [] then none
      else some (group LatencyResult.logger (blocksAt files key)) := by
  rw [samples_eq]
  exact get?_foldl_modify resultKey Dict.empty
    (fun (loggers : Dict Text (List LatencyResult)) result =>
      loggers.modify result.logger [] fun resultsList => resultsList ++ [result]) _ _ _

theorem mean_eq_some {blocks : List LatencyResult} {p : LatencyResult → ℕ} {n : ℤ} :
    mean trueDivide p blocks = some n ↔
      (toDouble (exactMean p blocks)).isSome = true ∧ halfEven (nearest (exactMean p blocks)) = n := by
  change (toDouble (exactMean p blocks)).map halfEven = some n ↔ _
  unfold toDouble
  split <;> simp

theorem average_eq_some {divide : ℕ → ℕ → Option ℚ} {blocks : List LatencyResult} {a : Averages} :
    average divide blocks = some a ↔ ∀ c ∈ columns, mean divide c.sample blocks = some (c.average a) := by
  simp only [columns, List.forall_mem_cons, List.not_mem_nil, false_imp_iff, implies_true, and_true]
  constructor
  · intro h
    obtain ⟨p50, h50, h⟩ := Option.bind_eq_some_iff.1 h
    obtain ⟨p75, h75, h⟩ := Option.bind_eq_some_iff.1 h
    obtain ⟨p90, h90, h⟩ := Option.bind_eq_some_iff.1 h
    obtain ⟨p95, h95, h⟩ := Option.bind_eq_some_iff.1 h
    obtain ⟨p99, h99, h⟩ := Option.bind_eq_some_iff.1 h
    obtain ⟨p999, h999, h⟩ := Option.bind_eq_some_iff.1 h
    obtain rfl := Option.some.inj h
    exact ⟨h50, h75, h90, h95, h99, h999⟩
  · rintro ⟨h50, h75, h90, h95, h99, h999⟩
    rw [average, h50, h75, h90, h95, h99, h999]
    rfl

theorem average_isSome {divide : ℕ → ℕ → Option ℚ} {blocks : List LatencyResult} :
    (average divide blocks).isSome = true ↔
      ∀ c ∈ columns, (mean divide c.sample blocks).isSome = true := by
  constructor
  · intro h c hc
    obtain ⟨a, ha⟩ := Option.isSome_iff_exists.1 h
    rw [average_eq_some.1 ha c hc]
    rfl
  · intro h
    have hvalue : ∀ c ∈ columns, ∃ n, mean divide c.sample blocks = some n :=
      fun c hc => Option.isSome_iff_exists.1 (h c hc)
    simp only [columns, List.forall_mem_cons, List.not_mem_nil, false_imp_iff, implies_true,
      and_true] at hvalue
    obtain ⟨⟨p50, h50⟩, ⟨p75, h75⟩, ⟨p90, h90⟩, ⟨p95, h95⟩, ⟨p99, h99⟩, ⟨p999, h999⟩⟩ := hvalue
    rw [average, h50, h75, h90, h95, h99, h999]
    rfl

theorem blocksAt_ne_nil {files : List Text} {key : Key} {logger : Text}
    (h : loggerBlocks files key logger ≠ []) : blocksAt files key ≠ [] := by
  intro hnil
  rw [loggerBlocks, hnil] at h
  exact h rfl

theorem collect_isSome {files : List Text} : (collectLatencyResults trueDivide files).isSome = true ↔
    ∀ b ∈ latencyBlocks files, ∀ c ∈ columns,
      (toDouble (exactMean c.sample (loggerBlocks files (resultKey b) b.logger))).isSome = true := by
  have hgroups : (collectLatencyResults trueDivide files).isSome = true ↔
      ∀ key logger, loggerBlocks files key logger ≠ [] →
        (average trueDivide (loggerBlocks files key logger)).isSome = true := by
    rw [collectLatencyResults, mapM_isSome]
    constructor
    · intro h key logger hne
      have hkey : (files.foldl addFile .empty).get? key =
          some (group LatencyResult.logger (blocksAt files key)) := by
        rw [get?_samples, if_neg (blocksAt_ne_nil hne)]
      have hinner := mapM_isSome.1 (h _ ((mem_entries _ _ _).2 hkey))
      refine hinner (logger, loggerBlocks files key logger) ((mem_entries _ _ _).2 ?_)
      rw [get?_group]
      exact if_neg hne
    · rintro h ⟨key, loggers⟩ hmem
      have hkey := (mem_entries _ _ _).1 hmem
      rw [get?_samples] at hkey
      split at hkey
      · cases hkey
      · obtain rfl := Option.some.inj hkey
        rw [mapM_isSome]
        rintro ⟨logger, blocks⟩ hin
        have hlogger := (mem_entries _ _ _).1 hin
        rw [get?_group] at hlogger
        split at hlogger
        · cases hlogger
        · rename_i hne
          obtain rfl := Option.some.inj hlogger
          exact h key logger hne
  rw [hgroups]
  have hmean : ∀ blocks : List LatencyResult, (average trueDivide blocks).isSome = true ↔
      ∀ c ∈ columns, (toDouble (exactMean c.sample blocks)).isSome = true := by
    intro blocks
    rw [average_isSome]
    refine forall₂_congr fun c _ => ?_
    rw [mean, Option.isSome_map]
    rfl
  constructor
  · intro h b hb
    refine (hmean _).1 (h (resultKey b) b.logger ?_)
    exact List.ne_nil_of_mem (a := b) (by simp [loggerBlocks, blocksAt, hb])
  · intro h key logger hne
    obtain ⟨b, hb⟩ := List.exists_mem_of_ne_nil _ hne
    simp only [loggerBlocks, blocksAt, List.mem_filter, decide_eq_true_eq] at hb
    obtain ⟨⟨hmem, rfl⟩, rfl⟩ := hb
    exact (hmean _).2 (h b hmem)

theorem get?_results {divide : ℕ → ℕ → Option ℚ} {files : List Text} {results : LatencyResults}
    (h : collectLatencyResults divide files = some results) (key : Key) (logger : Text) :
    ((results.get? key).getD .empty).get? logger =
      if loggerBlocks files key logger = [] then none
      else average divide (loggerBlocks files key logger) := by
  rw [get?_mapM h, get?_samples]
  by_cases hnil : blocksAt files key = []
  · have hlogger : loggerBlocks files key logger = [] := by rw [loggerBlocks, hnil]; rfl
    rw [if_pos hnil, if_pos hlogger]
    rfl
  · rw [if_neg hnil, Option.bind_some]
    have hkey : (files.foldl addFile .empty).get? key =
        some (group LatencyResult.logger (blocksAt files key)) := by
      rw [get?_samples, if_neg hnil]
    have hsome : ((group LatencyResult.logger (blocksAt files key)).mapM (average divide)).isSome
        = true := by
      have hall := mapM_isSome.1 (Option.isSome_of_eq_some h)
      exact hall _ ((mem_entries _ _ _).2 hkey)
    obtain ⟨e, he⟩ := Option.isSome_iff_exists.1 hsome
    rw [he, Option.getD_some, get?_mapM he, get?_group]
    by_cases hlogger : loggerBlocks files key logger = []
    · rw [if_pos hlogger]
      exact congrArg (Option.bind · _) (if_pos hlogger)
    · rw [if_neg hlogger]
      exact congrArg (Option.bind · _) (if_neg hlogger)

theorem cell_row {c : Column} (hc : c ∈ columns) (logger : Text) (info : LoggerInfo) (data : Averages) :
    c.cell (row logger info data) = c.average data := by
  simp only [columns, List.mem_cons, List.not_mem_nil, or_false] at hc
  rcases hc with rfl | rfl | rfl | rfl | rfl | rfl <;> rfl

theorem rowOf_eq_some {benchmarkType : BenchmarkType} {e : Text × Averages} {r : Row} :
    rowOf benchmarkType e = some r ↔ e.1 ∈ (latencySectionMetadata benchmarkType).loggers ∧
      ∃ info, libraryOf e.1 = some info ∧ row e.1 info e.2 = r := by
  unfold rowOf
  split
  · rename_i h
    simp [h]
  · rename_i h
    simp [not_not.1 h, libraryOf]

theorem latencyRows_perm (results : LatencyResults) (key : Key) :
    (latencyRows results key.1 key.2).Perm
      (((results.get? key).getD .empty).entries.filterMap (rowOf key.1)) :=
  List.mergeSort_perm _ _

theorem latencyRows_ordered (results : LatencyResults) (key : Key) :
    (latencyRows results key.1 key.2).Pairwise fun a b => a.sortKey ≤ b.sortKey := by
  have h : (latencyRows results key.1 key.2).Pairwise fun a b =>
      decide (a.sortKey ≤ b.sortKey) = true := by
    apply List.pairwise_mergeSort
    · intro a b c hab hbc
      exact decide_eq_true (le_trans (of_decide_eq_true hab) (of_decide_eq_true hbc))
    · intro a b
      simp only [Bool.or_eq_true, decide_eq_true_eq]
      exact le_total _ _
  exact h.imp fun hab => of_decide_eq_true hab

theorem rank_le_of_sortKey_le {l l' : Text} {info info' : LoggerInfo} {a a' : Averages}
    (h : (row l info a).sortKey ≤ (row l' info' a').sortKey) :
    rank (row l info a) ≤ rank (row l' info' a') := by
  simp only [row, rank, Prod.Lex.le_iff, ofLex_toLex] at h ⊢
  rcases h with h | ⟨h₁, h | ⟨h₂, h | ⟨h₃, h | ⟨h₄, -⟩⟩⟩⟩
  · exact .inl h
  · exact .inr ⟨h₁, .inl h⟩
  · exact .inr ⟨h₁, .inr ⟨h₂, .inl h⟩⟩
  · exact .inr ⟨h₁, .inr ⟨h₂, .inr ⟨h₃, h.le⟩⟩⟩
  · exact .inr ⟨h₁, .inr ⟨h₂, .inr ⟨h₃, h₄.le⟩⟩⟩

theorem loggerMap_keys : (latencyLoggerMap.map Prod.fst).Nodup := by
  unfold latencyLoggerMap quillMacroFreeMode
  repeat rw [String.toList_ofList]
  decide +kernel

theorem libraryOf_mem {logger : Text} {info : LoggerInfo} (h : libraryOf logger = some info) :
    (logger, info) ∈ latencyLoggerMap :=
  (mem_iff_lookup loggerMap_keys logger info).2 h

theorem same_link : ∀ e ∈ latencyLoggerMap, ∀ e' ∈ latencyLoggerMap, link e.2 = link e'.2 →
    e.2 = e'.2 ∧ (e.1 = e'.1 ∨ (e.1 = upperBqlog ∧ e'.1 = lowerBqlog) ∨
      (e.1 = lowerBqlog ∧ e'.1 = upperBqlog)) := by
  unfold latencyLoggerMap quillMacroFreeMode upperBqlog lowerBqlog
  repeat rw [String.toList_ofList]
  decide +kernel

theorem bqlog_listed (benchmarkType : BenchmarkType) :
    upperBqlog ∈ (latencySectionMetadata benchmarkType).loggers ↔
      lowerBqlog ∈ (latencySectionMetadata benchmarkType).loggers := by
  unfold latencySectionMetadata quillMacroFreeMode upperBqlog lowerBqlog
  repeat rw [String.toList_ofList]
  cases benchmarkType <;> decide +kernel

theorem bqlog_library : libraryOf upperBqlog = libraryOf lowerBqlog ∧
    (libraryOf upperBqlog).isSome = true := by
  decide +kernel

section Table

variable {files : List Text} {results : LatencyResults} {key : Key}

theorem mem_loggers (h : collectLatencyResults trueDivide files = some results) (logger : Text)
    (a : Averages) : (logger, a) ∈ ((results.get? key).getD .empty).entries ↔
      loggerBlocks files key logger ≠ [] ∧ average trueDivide (loggerBlocks files key logger) = some a := by
  rw [mem_entries, get?_results h]
  split
  · rename_i hnil
    simp [hnil]
  · rename_i hne
    simp [hne]

theorem mem_latencyRows (h : collectLatencyResults trueDivide files = some results) (r : Row) :
    r ∈ latencyRows results key.1 key.2 ↔ ∃ logger a info, loggerBlocks files key logger ≠ [] ∧
      average trueDivide (loggerBlocks files key logger) = some a ∧
      logger ∈ (latencySectionMetadata key.1).loggers ∧ libraryOf logger = some info ∧
      row logger info a = r := by
  rw [(latencyRows_perm results key).mem_iff, List.mem_filterMap]
  constructor
  · rintro ⟨⟨logger, a⟩, hmem, hrow⟩
    obtain ⟨hne, ha⟩ := (mem_loggers h logger a).1 hmem
    obtain ⟨hlisted, info, hinfo, hr⟩ := rowOf_eq_some.1 hrow
    exact ⟨logger, a, info, hne, ha, hlisted, hinfo, hr⟩
  · rintro ⟨logger, a, info, hne, ha, hlisted, hinfo, hr⟩
    exact ⟨(logger, a), (mem_loggers h logger a).2 ⟨hne, ha⟩,
      rowOf_eq_some.2 ⟨hlisted, info, hinfo, hr⟩⟩

theorem average_exists (h : collectLatencyResults trueDivide files = some results) {logger : Text}
    (hne : loggerBlocks files key logger ≠ []) :
    ∃ a, average trueDivide (loggerBlocks files key logger) = some a := by
  have hfinite := collect_isSome.1 (Option.isSome_of_eq_some h)
  obtain ⟨b, hb⟩ := List.exists_mem_of_ne_nil _ hne
  simp only [loggerBlocks, blocksAt, List.mem_filter, decide_eq_true_eq] at hb
  obtain ⟨⟨hmem, rfl⟩, rfl⟩ := hb
  apply Option.isSome_iff_exists.1
  rw [average_isSome]
  intro c hc
  rw [mean, Option.isSome_map]
  exact hfinite b hmem c hc

theorem names_count (x : Text) : ((latencyRows results key.1 key.2).map Row.name).count x =
    ((results.get? key).getD .empty).entries.countP fun e =>
      (rowOf key.1 e).map Row.name == some x := by
  rw [((latencyRows_perm results key).map Row.name).count_eq, List.map_filterMap,
    List.count_filterMap]

theorem listed_of_blocks {logger : Text} {info : LoggerInfo}
    (hne : loggerBlocks files key logger ≠ []) (hlisted : logger ∈ (latencySectionMetadata key.1).loggers)
    (hinfo : libraryOf logger = some info) :
    ∃ b ∈ blocksAt files key, b.logger = logger ∧ b.logger ∈ (latencySectionMetadata key.1).loggers ∧
      libraryOf b.logger = some info := by
  obtain ⟨b, hb⟩ := List.exists_mem_of_ne_nil _ hne
  obtain ⟨hmem, hlogger⟩ := List.mem_filter.1 hb
  obtain rfl : b.logger = logger := of_decide_eq_true hlogger
  exact ⟨b, hmem, rfl, hlisted, hinfo⟩

theorem loggerBlocks_ne_nil {b : LatencyResult} (hb : b ∈ blocksAt files key) :
    loggerBlocks files key b.logger ≠ [] :=
  List.ne_nil_of_mem (List.mem_filter.2 ⟨hb, decide_eq_true rfl⟩)

/-- Both spellings in one table give two rows for one library. -/
theorem spelled_of_count (h : collectLatencyResults trueDivide files = some results)
    (hone : ∀ info, Listed files key info →
      ((latencyRows results key.1 key.2).map Row.name).count (link info) = 1)
    (hlisted : upperBqlog ∈ (latencySectionMetadata key.1).loggers) :
    loggerBlocks files key upperBqlog = [] ∨ loggerBlocks files key lowerBqlog = [] := by
  by_contra hboth
  obtain ⟨hup, hlow⟩ := not_or.1 hboth
  obtain ⟨info, hinfo⟩ := Option.isSome_iff_exists.1 bqlog_library.2
  have hinfo' : libraryOf lowerBqlog = some info := bqlog_library.1 ▸ hinfo
  have hlisted' := (bqlog_listed key.1).1 hlisted
  obtain ⟨a, ha⟩ := average_exists h hup
  obtain ⟨a', ha'⟩ := average_exists h hlow
  obtain ⟨b, hb, -, hin, hlib⟩ := listed_of_blocks hup hlisted hinfo
  have hcount := hone info ⟨b, hb, hin, hlib⟩
  have hsub : [(upperBqlog, a), (lowerBqlog, a')].Subperm ((results.get? key).getD .empty).entries := by
    apply List.subperm_of_subset
    · have hne : upperBqlog ≠ lowerBqlog := by decide +kernel
      simp [hne]
    · intro e he
      rcases List.mem_cons.1 he with rfl | he
      · exact (mem_loggers h _ _).2 ⟨hup, ha⟩
      · obtain rfl := List.mem_singleton.1 he
        exact (mem_loggers h _ _).2 ⟨hlow, ha'⟩
  have hrow : rowOf key.1 (upperBqlog, a) = some (row upperBqlog info a) :=
    rowOf_eq_some.2 ⟨hlisted, info, hinfo, rfl⟩
  have hrow' : rowOf key.1 (lowerBqlog, a') = some (row lowerBqlog info a') :=
    rowOf_eq_some.2 ⟨hlisted', info, hinfo', rfl⟩
  have htwo := hsub.countP_le fun e => (rowOf key.1 e).map Row.name == some (link info)
  rw [← names_count, hcount] at htwo
  have hname : ∀ logger data, (row logger info data).name = link info := fun _ _ => rfl
  simp [hrow, hrow', hname] at htwo

theorem names_nodup (h : collectLatencyResults trueDivide files = some results)
    (hspelled : upperBqlog ∈ (latencySectionMetadata key.1).loggers →
      loggerBlocks files key upperBqlog = [] ∨ loggerBlocks files key lowerBqlog = []) :
    ((latencyRows results key.1 key.2).map Row.name).Nodup := by
  rw [((latencyRows_perm results key).map Row.name).nodup_iff, List.Nodup, List.pairwise_map,
    List.pairwise_filterMap]
  have hkeys := ((results.get? key).getD .empty).nodup
  rw [List.Nodup, List.pairwise_map] at hkeys
  refine hkeys.imp_of_mem ?_
  rintro ⟨logger, a⟩ ⟨logger', a'⟩ hmem hmem' hne r hr r' hr' hname
  obtain ⟨hin, info, hinfo, rfl⟩ := rowOf_eq_some.1 hr
  obtain ⟨hin', info', hinfo', rfl⟩ := rowOf_eq_some.1 hr'
  have hblocks := ((mem_loggers h _ _).1 hmem).1
  have hblocks' := ((mem_loggers h _ _).1 hmem').1
  obtain ⟨-, heq | ⟨hup, hlow⟩ | ⟨hlow, hup⟩⟩ :=
    same_link _ (libraryOf_mem hinfo) _ (libraryOf_mem hinfo') hname
  · exact hne heq
  · change logger = upperBqlog at hup
    change logger' = lowerBqlog at hlow
    rcases hspelled (hup ▸ hin) with hnil | hnil
    · exact hblocks (hup ▸ hnil)
    · exact hblocks' (hlow ▸ hnil)
  · change logger = lowerBqlog at hlow
    change logger' = upperBqlog at hup
    rcases hspelled (hup ▸ hin') with hnil | hnil
    · exact hblocks' (hup ▸ hnil)
    · exact hblocks (hlow ▸ hnil)

/-- With one spelling in use the blocks of a library are those of one logger key. -/
theorem libraryBlocks_eq
    (hspelled : upperBqlog ∈ (latencySectionMetadata key.1).loggers →
      loggerBlocks files key upperBqlog = [] ∨ loggerBlocks files key lowerBqlog = [])
    {logger : Text} {info : LoggerInfo} (hne : loggerBlocks files key logger ≠ [])
    (hin : logger ∈ (latencySectionMetadata key.1).loggers) (hinfo : libraryOf logger = some info) :
    libraryBlocks files key info = loggerBlocks files key logger := by
  apply List.filter_congr
  intro b hb
  rw [decide_eq_decide]
  constructor
  · intro hlib
    have hbne := loggerBlocks_ne_nil hb
    obtain ⟨-, heq | ⟨hup, hlow⟩ | ⟨hlow, hup⟩⟩ :=
      same_link _ (libraryOf_mem hlib) _ (libraryOf_mem hinfo) rfl
    · exact heq
    · change b.logger = upperBqlog at hup
      change logger = lowerBqlog at hlow
      have hin' := (bqlog_listed key.1).2 (hlow ▸ hin)
      rcases hspelled hin' with hnil | hnil
      · exact absurd (hup ▸ hnil) hbne
      · exact absurd (hlow ▸ hnil) hne
    · change b.logger = lowerBqlog at hlow
      change logger = upperBqlog at hup
      rcases hspelled (hup ▸ hin) with hnil | hnil
      · exact absurd (hup ▸ hnil) hne
      · exact absurd (hlow ▸ hnil) hbne
  · rintro rfl
    exact hinfo

theorem correctRows_of_collectable (h : collectLatencyResults trueDivide files = some results)
    (hc : Collectable files key) : CorrectRows files key (latencyRows results key.1 key.2) where
  listed := by
    rintro info ⟨b, hb, hin, hlib⟩
    obtain ⟨a, ha⟩ := average_exists h (loggerBlocks_ne_nil hb)
    apply List.count_eq_one_of_mem (names_nodup h hc.spelled)
    exact List.mem_map.2 ⟨row b.logger info a,
      (mem_latencyRows h _).2 ⟨b.logger, a, info, loggerBlocks_ne_nil hb, ha, hin, hlib, rfl⟩, rfl⟩
  only := by
    intro r hr
    obtain ⟨logger, a, info, hne, -, hin, hlib, rfl⟩ := (mem_latencyRows h r).1 hr
    obtain ⟨b, hb, -, hbin, hblib⟩ := listed_of_blocks hne hin hlib
    exact ⟨info, ⟨b, hb, hbin, hblib⟩, rfl⟩
  cells := by
    rintro r hr info ⟨b', -, -, hlib'⟩ hname c hcol
    obtain ⟨logger, a, info', hne, ha, hin, hlib, rfl⟩ := (mem_latencyRows h r).1 hr
    obtain ⟨hsame, -⟩ := same_link _ (libraryOf_mem hlib) _ (libraryOf_mem hlib') hname
    obtain rfl : info' = info := hsame
    obtain ⟨b, hb, rfl, hbin, hblib⟩ := listed_of_blocks hne hin hlib
    have hmean := (mean_eq_some.1 (average_eq_some.1 ha c hcol)).2
    rw [cell_row hcol, libraryBlocks_eq hc.spelled hne hin hlib, ← hmean]
    exact hc.rounded b hb hbin (Option.isSome_of_eq_some hblib) c hcol
  ordered := by
    refine (latencyRows_ordered results key).imp_of_mem ?_
    intro r r' hr hr' hle
    obtain ⟨l, a, info, -, -, -, -, rfl⟩ := (mem_latencyRows h r).1 hr
    obtain ⟨l', a', info', -, -, -, -, rfl⟩ := (mem_latencyRows h r').1 hr'
    exact rank_le_of_sortKey_le hle

theorem collectable_of_correctRows (h : collectLatencyResults trueDivide files = some results)
    (hr : CorrectRows files key (latencyRows results key.1 key.2)) : Collectable files key := by
  have hspelled := spelled_of_count h hr.listed
  refine ⟨hspelled, collect_isSome.1 (Option.isSome_of_eq_some h), ?_⟩
  intro b hb hin hsome c hcol
  obtain ⟨info, hinfo⟩ := Option.isSome_iff_exists.1 hsome
  have hne := loggerBlocks_ne_nil hb
  obtain ⟨a, ha⟩ := average_exists h hne
  have hmem := (mem_latencyRows h (row b.logger info a)).2 ⟨b.logger, a, info, hne, ha, hin, hinfo, rfl⟩
  have hcell := hr.cells _ hmem info ⟨b, hb, hin, hinfo⟩ rfl c hcol
  have hmean := (mean_eq_some.1 (average_eq_some.1 ha c hcol)).2
  rw [cell_row hcol, libraryBlocks_eq hspelled hne hin hinfo] at hcell
  rw [hmean, hcell]

end Table

theorem one_row_per_library_iff (files : List Text) (key : Key) :
    OneRowPerLibrary files key ↔ Collectable files key := by
  constructor
  · rintro ⟨results, h, hr⟩
    exact collectable_of_correctRows h hr
  · intro hc
    obtain ⟨results, h⟩ := Option.isSome_iff_exists.1 (collect_isSome.2 hc.finite)
    exact ⟨results, h, correctRows_of_collectable h hc⟩

def bqlogFile (logger : Text) : Text :=
  "bench: /r/BENCHMARK_bqlog_call_site_latency\n".toList ++
    "Thread Count 1 - Total messages 1 - Logger: ".toList ++ logger ++ " - Benchmark: X\n".toList ++
      "  |  1  |  2  |  3  |  4  |  5  |  6  |  7  |\n\n".toList

theorem bqlog_listed_twice :
    ¬ OneRowPerLibrary [bqlogFile upperBqlog, bqlogFile lowerBqlog] (.intIntDouble, 1) := by
  rintro ⟨results, h, hr⟩
  have hin : upperBqlog ∈ (latencySectionMetadata .intIntDouble).loggers := by decide +kernel
  rcases spelled_of_count h hr.listed hin with hnil | hnil
  · revert hnil
    decide +kernel
  · revert hnil
    decide +kernel

/-- Rounding to a double does no harm as long as the summed values stay below `2 ^ 52`. -/
theorem collectable_of_small {files : List Text} {key : Key}
    (hspelled : loggerBlocks files key upperBqlog = [] ∨ loggerBlocks files key lowerBqlog = [])
    (hsmall : ∀ c ∈ columns, ∀ key' logger,
      ((loggerBlocks files key' logger).map c.sample).sum < 2 ^ 52) : Collectable files key where
  spelled := fun _ => hspelled
  finite := by
    intro b hb c hc
    have hne : b ∈ loggerBlocks files (resultKey b) b.logger := by simp [loggerBlocks, blocksAt, hb]
    rw [exactMean, toDouble_small (List.length_pos_of_mem hne) (hsmall c hc _ _)]
    rfl
  rounded := by
    intro b hb _ _ c hc
    have hne : b ∈ loggerBlocks files key b.logger := by simp [loggerBlocks, hb]
    exact halfEven_nearest (List.length_pos_of_mem hne) (hsmall c hc _ _)

end LoggerBenchmarks.LatencyTableRows
