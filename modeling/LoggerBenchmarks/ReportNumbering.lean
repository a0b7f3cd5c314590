import LoggerBenchmarks.GlobPatterns
import LoggerBenchmarks.ThroughputTable
import Mathlib.Data.List.Permutation

set_option autoImplicit false

/-!
# The numbers of the result files

`generate_tables.py` reads the result files in the order of their names. Means do not
depend on that order; the rows of a table do where two of them have the same key.
-/
namespace LoggerBenchmarks.ReportNumbering
open BinaryRounding InsertionDict StableSorting GlobPatterns PythonText PosixPaths ResultFileParser
open LatencyTable LatencyTableRows LatencyMeans BackendTable ThroughputTable

def sectionText (latencyResults : LatencyResults) (benchmarkType : BenchmarkType) : Text :=
  (latencySectionMetadata benchmarkType).title ++ "\n\n".toList ++
    formatLatencyTable latencyResults benchmarkType 1 ++ "\n".toList ++
    formatLatencyTable latencyResults benchmarkType 4 ++ "\n".toList

def benchmarkTypes : List BenchmarkType := [.intIntDouble, .intIntLargestr, .vectorLargestr]

/-- The output for files in this order, with exact means. -/
def report (files : List Text) : Option Text := do
  let latencyResults ← collectLatencyResults exactDivide files
  let backendResults ← collectThroughputs files
  return benchmarkTypes.flatMap (sectionText latencyResults) ++ formatThroughputTable backendResults ++ "\n".toList

def resultPattern : Text := "bench_results_*.txt".toList

/-- What the script prints in a root directory with these files. -/
def generateTables (files : List (Name × Text)) : Option Text :=
  report (sortedFiles (files.filter fun file => fnmatch file.1 resultPattern))

/-- The contents stand in files with names of the pattern, one each. -/
structure Numbering (contents : List Text) (files : List (Name × Text)) : Prop where
  same : (files.map Prod.snd).Perm contents
  distinct : (files.map Prod.fst).Nodup
  named : ∀ file ∈ files, fnmatch file.1 resultPattern = true

def isBqlog (logger : Text) : Bool := logger = upperBqlog || logger = lowerBqlog

def leader (files : List Text) (key : Key) : Option Text :=
  ((blocksAt files key).map LatencyResult.logger).find? isBqlog

def roundedMean (files : List Text) (key : Key) (logger : Text) (c : Column) : ℤ :=
  halfEven (exactMean c.sample (loggerBlocks files key logger))

/-- Two rows of one library have the same sort key and different cells, and the files
disagree on which of the two comes first. -/
structure Ambiguous (contents : List Text) (key : Key) : Prop where
  shown : upperBqlog ∈ (latencySectionMetadata key.1).loggers
  tied : ∀ c ∈ columns.drop 2, roundedMean contents key upperBqlog c = roundedMean contents key lowerBqlog c
  differ : ∃ c ∈ columns.take 2, roundedMean contents key upperBqlog c ≠ roundedMean contents key lowerBqlog c
  led : ∃ f ∈ contents, ∃ g ∈ contents, leader [f] key = some upperBqlog ∧ leader [g] key = some lowerBqlog

def tableKeys : List Key := benchmarkTypes.flatMap fun benchmarkType => [(benchmarkType, 1), (benchmarkType, 4)]

def loggersAt (results : LatencyResults) (key : Key) : List (Text × Averages) :=
  ((results.get? key).getD .empty).entries

section Files

variable {files files' : List Text} {results results' : LatencyResults} {key : Key}

theorem loggerBlocks_perm (hperm : files.Perm files') (key : Key) (logger : Text) :
    (loggerBlocks files key logger).Perm (loggerBlocks files' key logger) :=
  ((hperm.flatMap_right fileBlocks).filter _).filter _

theorem exactMean_perm {l m : List LatencyResult} (h : l.Perm m) (p : LatencyResult → ℕ) :
    exactMean p l = exactMean p m := by
  rw [exactMean, exactMean, (h.map p).sum_eq, h.length_eq]

theorem roundedMean_perm (hperm : files.Perm files') (key : Key) (logger : Text) (c : Column) :
    roundedMean files key logger c = roundedMean files' key logger c := by
  rw [roundedMean, roundedMean, exactMean_perm (loggerBlocks_perm hperm key logger)]

theorem average_perm {l m : List LatencyResult} (h : l.Perm m) :
    LatencyTable.average exactDivide l = LatencyTable.average exactDivide m := by
  have hmean : ∀ p, LatencyTable.mean exactDivide p l = LatencyTable.mean exactDivide p m := by
    intro p
    rw [LatencyTable.mean, LatencyTable.mean, (h.map p).sum_eq, h.length_eq]
  simp only [LatencyTable.average, hmean]

theorem loggersAt_perm (hperm : files.Perm files') (h : collectLatencyResults exactDivide files = some results)
    (h' : collectLatencyResults exactDivide files' = some results') :
    (loggersAt results key).Perm (loggersAt results' key) := by
  refine entries_perm fun logger => ?_
  have hblocks := loggerBlocks_perm hperm key logger
  rw [get?_results h, get?_results h', average_perm hblocks]
  have hnil : loggerBlocks files key logger = [] ↔ loggerBlocks files' key logger = [] := by
    rw [← List.length_eq_zero_iff, hblocks.length_eq, List.length_eq_zero_iff]
  simp only [hnil]

theorem mem_loggersAt (h : collectLatencyResults exactDivide files = some results) (logger : Text) (a : Averages) :
    (logger, a) ∈ loggersAt results key ↔ loggerBlocks files key logger ≠ [] ∧
      ∀ c ∈ columns, c.average a = roundedMean files key logger c := by
  unfold loggersAt roundedMean
  rw [mem_entries, get?_results h, ← average_exact]
  split
  · rename_i hnil
    simp [hnil]
  · rename_i hne
    simp [hne]

theorem exists_mem_loggersAt (h : collectLatencyResults exactDivide files = some results) {logger : Text}
    (hne : loggerBlocks files key logger ≠ []) : ∃ a, (logger, a) ∈ loggersAt results key := by
  have hsome : (LatencyTable.average exactDivide (loggerBlocks files key logger)).isSome = true :=
    average_isSome.2 fun _ _ => rfl
  obtain ⟨a, ha⟩ := Option.isSome_iff_exists.1 hsome
  exact ⟨a, (mem_loggersAt h logger a).2 ⟨hne, average_exact.1 ha⟩⟩

theorem find?_loggersAt (h : collectLatencyResults exactDivide files = some results) (p : Text → Bool) :
    ((loggersAt results key).map Prod.fst).find? p = ((blocksAt files key).map LatencyResult.logger).find? p := by
  unfold loggersAt
  rw [get?_mapM h, get?_samples]
  by_cases hnil : blocksAt files key = []
  · rw [if_pos hnil, hnil]
    rfl
  · rw [if_neg hnil, Option.bind_some]
    obtain ⟨e, he⟩ : ∃ e, (group LatencyResult.logger (blocksAt files key)).mapM
        (LatencyTable.average exactDivide) = some e := by
      rw [← Option.isSome_iff_exists, mapM_isSome]
      exact fun _ _ => average_isSome.2 fun _ _ => rfl
    rw [he, Option.getD_some, mapM_keys he, find?_group]

theorem isBqlog_iff (logger : Text) : isBqlog logger = true ↔ logger = upperBqlog ∨ logger = lowerBqlog := by
  simp [isBqlog]

/-- There are only two spellings. -/
theorem spelled_as {α : Type} {a b l x y : α} (hl : l = a ∨ l = b) (hx : x = a ∨ x = b) (hy : y = a ∨ y = b)
    (hne : x ≠ y) : l = x ∨ l = y := by
  rcases hx with rfl | rfl <;> rcases hy with rfl | rfl
  · exact absurd rfl hne
  · exact hl
  · exact hl.symm
  · exact absurd rfl hne

theorem leader_eq (files : List Text) (key : Key) : leader files key = files.findSome? fun f => leader [f] key := by
  have hone : ∀ f, blocksAt [f] key = (fileBlocks f).filter (resultKey · = key) := by
    intro f
    rw [blocksAt, latencyBlocks, List.flatMap_singleton]
  unfold leader
  simp only [hone]
  rw [blocksAt, latencyBlocks, List.filter_flatMap, List.map_flatMap, List.find?_flatMap]

theorem leader_cons {f x : Text} (h : leader [f] key = some x) (files : List Text) : leader (f :: files) key = some x := by
  rw [leader_eq, List.findSome?_cons, h]

theorem loggerBlocks_of_leader {logger : Text} (h : leader files key = some logger) :
    loggerBlocks files key logger ≠ [] := by
  obtain ⟨b, hb, rfl⟩ := List.mem_map.1 (List.mem_of_find?_eq_some h)
  exact List.ne_nil_of_mem (List.mem_filter.2 ⟨hb, decide_eq_true rfl⟩)

/-- With both spellings in a table the leader stands in front of the other one. -/
theorem filter_isBqlog (h : collectLatencyResults exactDivide files = some results) {x y : Text} {a b : Averages}
    (hx : isBqlog x = true) (hy : isBqlog y = true) (hne : x ≠ y) (ha : (x, a) ∈ loggersAt results key)
    (hb : (y, b) ∈ loggersAt results key) (hleader : leader files key = some x) :
    (loggersAt results key).filter (fun e => isBqlog e.1) = [(x, a), (y, b)] := by
  have hkeys : ((loggersAt results key).map Prod.fst).Nodup := ((results.get? key).getD .empty).nodup
  have hall : ∀ e ∈ loggersAt results key, isBqlog e.1 = true → e = (x, a) ∨ e = (y, b) := by
    rintro ⟨l, d⟩ he hl
    rcases spelled_as ((isBqlog_iff l).1 hl) ((isBqlog_iff x).1 hx) ((isBqlog_iff y).1 hy) hne with rfl | rfl
    · exact .inl (List.inj_on_of_nodup_map hkeys he ha rfl)
    · exact .inr (List.inj_on_of_nodup_map hkeys he hb rfl)
  have hperm : ((loggersAt results key).filter fun e => isBqlog e.1).Perm [(x, a), (y, b)] := by
    have hnodup : [(x, a), (y, b)].Nodup := by simp [hne]
    refine (List.perm_ext_iff_of_nodup ((List.Nodup.of_map _ hkeys).filter _) hnodup).2 fun e => ?_
    rw [List.mem_filter, List.mem_cons, List.mem_singleton]
    constructor
    · exact fun he => hall e he.1 he.2
    · rintro (rfl | rfl)
      · exact ⟨ha, hx⟩
      · exact ⟨hb, hy⟩
  have hhead : ((loggersAt results key).filter fun e => isBqlog e.1).head?.map Prod.fst = some x := by
    rw [List.head?_filter, ← hleader, leader, ← find?_loggersAt h, List.find?_map]
    rfl
  rcases List.perm_pair.1 hperm with heq | heq
  · exact heq
  · rw [heq] at hhead
    exact absurd (Option.some.inj hhead).symm hne

end Files

theorem same_key : ∀ e ∈ latencyLoggerMap, ∀ e' ∈ latencyLoggerMap, tieBreaker e.1 = tieBreaker e'.1 →
    casefold e.2.name = casefold e'.2.name → e.1 = e'.1 ∨ isBqlog e.1 = true ∧ isBqlog e'.1 = true := by
  unfold latencyLoggerMap quillMacroFreeMode
  repeat rw [String.toList_ofList]
  decide +kernel

theorem sortKey_eq_iff {logger logger' : Text} {info info' : LoggerInfo} {a a' : Averages} :
    (row logger info a).sortKey = (row logger' info' a').sortKey ↔
      (∀ c ∈ columns.drop 2, c.average a = c.average a') ∧ tieBreaker logger = tieBreaker logger' ∧
        casefold info.name = casefold info'.name := by
  simp only [row, columns, List.drop_succ_cons, List.drop_zero, List.forall_mem_cons, List.not_mem_nil,
    false_imp_iff, implies_true, and_true, EmbeddingLike.apply_eq_iff_eq, Prod.mk.injEq, and_assoc]

theorem average_ext {a a' : Averages} (h : ∀ c ∈ columns, c.average a = c.average a') : a = a' := by
  simp only [columns, List.forall_mem_cons, List.not_mem_nil, false_imp_iff, implies_true, and_true] at h
  obtain ⟨h50, h75, h90, h95, h99, h999⟩ := h
  cases a
  cases a'
  simp only [Averages.mk.injEq]
  exact ⟨h50, h75, h90, h95, h99, h999⟩

theorem row_bqlog {logger logger' : Text} (h : isBqlog logger = true) (h' : isBqlog logger' = true) :
    libraryOf logger = libraryOf logger' ∧ tieBreaker logger = tieBreaker logger' := by
  have htie : tieBreaker upperBqlog = tieBreaker lowerBqlog := by decide +kernel
  rw [isBqlog_iff] at h h'
  rcases h with rfl | rfl <;> rcases h' with rfl | rfl
  · exact ⟨rfl, rfl⟩
  · exact ⟨bqlog_library.1, htie⟩
  · exact ⟨bqlog_library.1.symm, htie.symm⟩
  · exact ⟨rfl, rfl⟩

theorem rows_of_sortKey {benchmarkType : BenchmarkType} {e e' : Text × Averages} {r r' : Row}
    (hr : rowOf benchmarkType e = some r) (hr' : rowOf benchmarkType e' = some r') (hkey : r.sortKey = r'.sortKey) :
    (e.1 = e'.1 ∨ isBqlog e.1 = true ∧ isBqlog e'.1 = true) ∧
      ∀ c ∈ columns.drop 2, c.average e.2 = c.average e'.2 := by
  obtain ⟨-, info, hinfo, rfl⟩ := rowOf_eq_some.1 hr
  obtain ⟨-, info', hinfo', rfl⟩ := rowOf_eq_some.1 hr'
  obtain ⟨hcolumns, htie, hname⟩ := sortKey_eq_iff.1 hkey
  exact ⟨same_key _ (libraryOf_mem hinfo) _ (libraryOf_mem hinfo') htie hname, hcolumns⟩

/-- Only the two spellings share a key, so the other loggers can be left out. -/
theorem filter_rows {benchmarkType : BenchmarkType} {e : Text × Averages} {r : Row}
    (hr : rowOf benchmarkType e = some r) (he : isBqlog e.1 = true) (es : List (Text × Averages)) :
    withKey Row.sortKey r.sortKey (es.filterMap (rowOf benchmarkType)) =
      withKey Row.sortKey r.sortKey ((es.filter fun e => isBqlog e.1).filterMap (rowOf benchmarkType)) := by
  rw [withKey, withKey, List.filter_filterMap, List.filter_filterMap, List.filterMap_filter]
  refine List.filterMap_congr fun e' _ => ?_
  by_cases he' : isBqlog e'.1 = true
  · rw [if_pos he']
  · rw [if_neg he']
    rcases hr' : rowOf benchmarkType e' with _ | r'
    · rfl
    · refine Option.filter_eq_none_iff.2 fun r'' hr'' hkey => ?_
      obtain rfl := Option.some.inj hr''
      rcases (rows_of_sortKey hr' hr (of_decide_eq_true hkey)).1 with heq | ⟨h, -⟩
      · exact he' (heq ▸ he)
      · exact he' h

theorem findSome?_perm {α β : Type} {f : α → Option β} {l m : List α} (h : l.Perm m)
    (hagree : ∀ a ∈ l, ∀ b ∈ l, ∀ x y, f a = some x → f b = some y → x = y) : l.findSome? f = m.findSome? f := by
  rcases hl : l.findSome? f with _ | x
  · rw [List.findSome?_eq_none_iff] at hl
    exact (List.findSome?_eq_none_iff.2 fun a ha => hl a (h.mem_iff.2 ha)).symm
  · obtain ⟨a, ha, hx⟩ := List.exists_of_findSome?_eq_some hl
    obtain ⟨y, hy⟩ : ∃ y, m.findSome? f = some y := by
      rw [← Option.isSome_iff_exists, List.findSome?_isSome_iff]
      exact ⟨a, h.mem_iff.1 ha, Option.isSome_of_eq_some hx⟩
    obtain ⟨b, hb, hb'⟩ := List.exists_of_findSome?_eq_some hy
    rw [hy, hagree a ha b (h.mem_iff.2 hb) x y hx hb']

theorem leader_isBqlog {files : List Text} {key : Key} {x : Text} (h : leader files key = some x) :
    x = upperBqlog ∨ x = lowerBqlog :=
  (isBqlog_iff x).1 (List.find?_some h)

section Rows

variable {contents files : List Text} {results results' : LatencyResults} {key : Key}

theorem leader_perm (hperm : contents.Perm files)
    (hled : ¬ ∃ f ∈ contents, ∃ g ∈ contents, leader [f] key = some upperBqlog ∧ leader [g] key = some lowerBqlog) :
    leader contents key = leader files key := by
  rw [leader_eq contents, leader_eq files]
  refine findSome?_perm hperm fun f hf g hg x y hx hy => ?_
  rcases leader_isBqlog hx with rfl | rfl <;> rcases leader_isBqlog hy with rfl | rfl
  · rfl
  · exact absurd ⟨f, hf, g, hg, hx, hy⟩ hled
  · exact absurd ⟨g, hg, f, hf, hy, hx⟩ hled
  · rfl

/-- Two different rows with one key are those of the two spellings. -/
theorem ambiguous_of_rows (h : collectLatencyResults exactDivide contents = some results) {e e' : Text × Averages}
    (he : e ∈ loggersAt results key) (he' : e' ∈ loggersAt results key) {r r' : Row}
    (hr : rowOf key.1 e = some r) (hr' : rowOf key.1 e' = some r') (hkey : r.sortKey = r'.sortKey) (hne : r ≠ r')
    (hled : ∃ f ∈ contents, ∃ g ∈ contents, leader [f] key = some upperBqlog ∧ leader [g] key = some lowerBqlog) :
    Ambiguous contents key := by
  obtain ⟨hlogger, hcolumns⟩ := rows_of_sortKey hr hr' hkey
  have hkeys : ((loggersAt results key).map Prod.fst).Nodup := ((results.get? key).getD .empty).nodup
  have hdiffer : e.1 ≠ e'.1 := by
    intro heq
    obtain rfl : e = e' := List.inj_on_of_nodup_map hkeys he he' heq
    exact hne (Option.some.inj (hr.symm.trans hr'))
  obtain ⟨hb, hb'⟩ := hlogger.resolve_left hdiffer
  obtain ⟨-, hmean⟩ := (mem_loggersAt h e.1 e.2).1 he
  obtain ⟨-, hmean'⟩ := (mem_loggersAt h e'.1 e'.2).1 he'
  have htied : ∀ c ∈ columns.drop 2, roundedMean contents key e.1 c = roundedMean contents key e'.1 c := by
    intro c hc
    rw [← hmean c (List.mem_of_mem_drop hc), ← hmean' c (List.mem_of_mem_drop hc), hcolumns c hc]
  have hcells : ∃ c ∈ columns.take 2, roundedMean contents key e.1 c ≠ roundedMean contents key e'.1 c := by
    by_contra hno
    push Not at hno
    obtain ⟨-, info, hinfo, rfl⟩ := rowOf_eq_some.1 hr
    obtain ⟨-, info', hinfo', rfl⟩ := rowOf_eq_some.1 hr'
    obtain ⟨hlib, htie⟩ := row_bqlog hb hb'
    obtain rfl : info = info' := Option.some.inj (hinfo.symm.trans (hlib.trans hinfo'))
    have hsame : e.2 = e'.2 := by
      refine average_ext fun c hc => ?_
      rw [hmean c hc, hmean' c hc]
      rw [← List.take_append_drop 2 columns, List.mem_append] at hc
      exact hc.elim (hno c) (htied c)
    rw [hsame] at hne
    exact hne (by rw [row, row, htie])
  obtain ⟨hshown, -⟩ := rowOf_eq_some.1 hr
  rw [isBqlog_iff] at hb hb'
  rcases hb with hup | hlow <;> rcases hb' with hup' | hlow'
  · exact absurd (hup.trans hup'.symm) hdiffer
  · rw [hup, hlow'] at htied hcells
    exact ⟨hup ▸ hshown, htied, hcells, hled⟩
  · rw [hlow, hup'] at htied hcells
    obtain ⟨c, hc, hcell⟩ := hcells
    exact ⟨(bqlog_listed key.1).2 (hlow ▸ hshown), fun c hc => (htied c hc).symm, ⟨c, hc, hcell.symm⟩, hled⟩
  · exact absurd (hlow.trans hlow'.symm) hdiffer

theorem latencyRows_of_not_ambiguous (hperm : contents.Perm files)
    (h : collectLatencyResults exactDivide contents = some results)
    (h' : collectLatencyResults exactDivide files = some results') (hnot : ¬ Ambiguous contents key) :
    latencyRows results key.1 key.2 = latencyRows results' key.1 key.2 := by
  have hE : (loggersAt results key).Perm (loggersAt results' key) := loggersAt_perm hperm h h'
  change sortBy Row.sortKey ((loggersAt results key).filterMap (rowOf key.1)) =
    sortBy Row.sortKey ((loggersAt results' key).filterMap (rowOf key.1))
  rw [sortBy_eq_iff]
  intro k
  by_cases hall : ∀ r ∈ withKey Row.sortKey k ((loggersAt results key).filterMap (rowOf key.1)),
      ∀ r' ∈ withKey Row.sortKey k ((loggersAt results key).filterMap (rowOf key.1)), r = r'
  · exact withKey_perm (hE.filterMap _) hall
  · push Not at hall
    obtain ⟨r, hrk, r', hrk', hne⟩ := hall
    obtain ⟨hr, rfl⟩ := mem_withKey.1 hrk
    obtain ⟨hr', hk'⟩ := mem_withKey.1 hrk'
    obtain ⟨e, he, hrow⟩ := List.mem_filterMap.1 hr
    obtain ⟨e', he', hrow'⟩ := List.mem_filterMap.1 hr'
    have hkey : r.sortKey = r'.sortKey := hk'.symm
    have hleader := leader_perm hperm fun hled => hnot (ambiguous_of_rows h he he' hrow hrow' hkey hne hled)
    have hdiffer : e.1 ≠ e'.1 := by
      intro heq
      have hkeys : ((loggersAt results key).map Prod.fst).Nodup := ((results.get? key).getD .empty).nodup
      obtain rfl : e = e' := List.inj_on_of_nodup_map hkeys he he' heq
      exact hne (Option.some.inj (hrow.symm.trans hrow'))
    obtain ⟨hb, hb'⟩ := (rows_of_sortKey hrow hrow' hkey).1.resolve_left hdiffer
    -- both spellings are there, so the leader says how they stand, before and after
    have hsame : (loggersAt results key).filter (fun e => isBqlog e.1) =
        (loggersAt results' key).filter fun e => isBqlog e.1 := by
      obtain ⟨x, hx⟩ : ∃ x, leader contents key = some x := by
        rw [leader, ← find?_loggersAt h, ← Option.isSome_iff_exists, List.find?_isSome]
        exact ⟨e.1, List.mem_map_of_mem he, hb⟩
      have hx' := hleader ▸ hx
      rcases spelled_as (leader_isBqlog hx) ((isBqlog_iff _).1 hb) ((isBqlog_iff _).1 hb') hdiffer with rfl | rfl
      · rw [filter_isBqlog h hb hb' hdiffer he he' hx,
          filter_isBqlog h' hb hb' hdiffer (hE.mem_iff.1 he) (hE.mem_iff.1 he') hx']
      · rw [filter_isBqlog h hb' hb hdiffer.symm he' he hx,
          filter_isBqlog h' hb' hb hdiffer.symm (hE.mem_iff.1 he') (hE.mem_iff.1 he) hx']
    rw [filter_rows hrow hb (loggersAt results key), filter_rows hrow hb (loggersAt results' key), hsame]

/-- The row of a spelling in an ambiguous table. -/
theorem exists_row (hshown : upperBqlog ∈ (latencySectionMetadata key.1).loggers) {logger : Text}
    (hlogger : isBqlog logger = true) (a : Averages) :
    ∃ info, libraryOf logger = some info ∧ rowOf key.1 (logger, a) = some (row logger info a) := by
  have hin : logger ∈ (latencySectionMetadata key.1).loggers := by
    rcases (isBqlog_iff logger).1 hlogger with rfl | rfl
    · exact hshown
    · exact (bqlog_listed key.1).1 hshown
  have hsome : (libraryOf logger).isSome = true := by
    rw [(row_bqlog hlogger (show isBqlog upperBqlog = true from (isBqlog_iff _).2 (.inl rfl))).1]
    exact bqlog_library.2
  obtain ⟨info, hinfo⟩ := Option.isSome_iff_exists.1 hsome
  exact ⟨info, hinfo, rowOf_eq_some.2 ⟨hin, info, hinfo, rfl⟩⟩

theorem latencyRows_of_ambiguous (hamb : Ambiguous contents key) {files files' : List Text}
    (hperm : contents.Perm files) (hperm' : contents.Perm files') (hup : leader files key = some upperBqlog)
    (hlow : leader files' key = some lowerBqlog) (h : collectLatencyResults exactDivide files = some results)
    (h' : collectLatencyResults exactDivide files' = some results') :
    latencyRows results key.1 key.2 ≠ latencyRows results' key.1 key.2 := by
  intro hsame
  have hsorted : sortBy Row.sortKey ((loggersAt results key).filterMap (rowOf key.1)) =
      sortBy Row.sortKey ((loggersAt results' key).filterMap (rowOf key.1)) := hsame
  have hE : (loggersAt results key).Perm (loggersAt results' key) := loggersAt_perm (hperm.symm.trans hperm') h h'
  have hb : isBqlog upperBqlog = true := (isBqlog_iff _).2 (.inl rfl)
  have hb' : isBqlog lowerBqlog = true := (isBqlog_iff _).2 (.inr rfl)
  have hne : upperBqlog ≠ lowerBqlog := by decide +kernel
  obtain ⟨a, ha⟩ := exists_mem_loggersAt h (loggerBlocks_of_leader hup)
  obtain ⟨a', ha'⟩ := exists_mem_loggersAt h' (loggerBlocks_of_leader hlow)
  have ha'' : (lowerBqlog, a') ∈ loggersAt results key := hE.mem_iff.2 ha'
  obtain ⟨info, hinfo, hrow⟩ := exists_row hamb.shown hb a
  obtain ⟨info', hinfo', hrow'⟩ := exists_row hamb.shown hb' a'
  obtain ⟨hlib, htie⟩ := row_bqlog hb hb'
  obtain rfl : info = info' := Option.some.inj (hinfo.symm.trans (hlib.trans hinfo'))
  have hmean : ∀ c ∈ columns, c.average a = roundedMean contents key upperBqlog c := by
    intro c hc
    rw [roundedMean_perm hperm]
    exact ((mem_loggersAt h _ _).1 ha).2 c hc
  have hmean' : ∀ c ∈ columns, c.average a' = roundedMean contents key lowerBqlog c := by
    intro c hc
    rw [roundedMean_perm hperm']
    exact ((mem_loggersAt h' _ _).1 ha').2 c hc
  have hkey : (row upperBqlog info a).sortKey = (row lowerBqlog info a').sortKey := by
    refine sortKey_eq_iff.2 ⟨fun c hc => ?_, htie, rfl⟩
    rw [hmean c (List.mem_of_mem_drop hc), hmean' c (List.mem_of_mem_drop hc), hamb.tied c hc]
  have hrows := sortBy_eq_iff.1 hsorted (row upperBqlog info a).sortKey
  rw [filter_rows hrow hb (loggersAt results key), filter_rows hrow hb (loggersAt results' key),
    filter_isBqlog h hb hb' hne ha ha'' hup,
    filter_isBqlog h' hb' hb hne.symm ha' (hE.mem_iff.1 ha) hlow] at hrows
  have hlist : [row upperBqlog info a, row lowerBqlog info a'] = [row lowerBqlog info a', row upperBqlog info a] := by
    simpa [hrow, hrow', withKey_cons, hkey] using hrows
  obtain ⟨c, hc, hcell⟩ := hamb.differ
  refine hcell ?_
  have hc' := List.mem_of_mem_take hc
  rw [← hmean c hc', ← hmean' c hc', ← cell_row hc' upperBqlog info a, ← cell_row hc' lowerBqlog info a',
    (List.cons.inj hlist).1]

end Rows

section Lines

theorem split_at_first {α : Type} {x : α} {l m r s : List α} (hl : x ∉ l) (hm : x ∉ m)
    (h : l ++ x :: r = m ++ x :: s) : l = m ∧ r = s := by
  induction l generalizing m with
  | nil =>
    cases m with
    | nil => exact ⟨rfl, (List.cons.inj h).2⟩
    | cons b m => exact absurd ((List.cons.inj h).1 ▸ List.mem_cons_self) hm
  | cons a l ih =>
    cases m with
    | nil => exact absurd ((List.cons.inj h).1 ▸ List.mem_cons_self) hl
    | cons b m =>
      obtain ⟨rfl, hrest⟩ := List.cons.inj h
      obtain ⟨rfl, hr⟩ := ih (List.not_mem_of_not_mem_cons hl) (List.not_mem_of_not_mem_cons hm) hrest
      exact ⟨rfl, hr⟩

theorem flatten_inj {α : Type} {x : α} {ls ms : List (List α)} (hl : ∀ l ∈ ls, x ∉ l) (hm : ∀ m ∈ ms, x ∉ m)
    (h : (ls.map (· ++ [x])).flatten = (ms.map (· ++ [x])).flatten) : ls = ms := by
  induction ls generalizing ms with
  | nil =>
    cases ms with
    | nil => rfl
    | cons m ms => simp at h
  | cons l ls ih =>
    cases ms with
    | nil => simp at h
    | cons m ms =>
      rw [List.map_cons, List.map_cons, List.flatten_cons, List.flatten_cons, List.append_assoc, List.append_assoc,
        List.singleton_append, List.singleton_append] at h
      obtain ⟨rfl, hrest⟩ := split_at_first (hl l List.mem_cons_self) (hm m List.mem_cons_self) h
      rw [ih (fun l hl' => hl l (List.mem_cons_of_mem _ hl')) (fun m hm' => hm m (List.mem_cons_of_mem _ hm')) hrest]

def padded (t : Text) : Text := ' ' :: (t ++ [' '])

def cells (r : Row) : List Text :=
  [padded (ljust 73 r.name), padded (center 6 (intStr r.p50)), padded (center 6 (intStr r.p75)),
    padded (center 6 (intStr r.p90)), padded (center 6 (intStr r.p95)), padded (center 6 (intStr r.p99)),
    padded (center 6 (intStr r.p999))]

def lineText (r : Row) : Text := '|' :: ((cells r).map (· ++ ['|'])).flatten

theorem line_shape (n p50 p75 p90 p95 p99 p999 : Text) :
    "| ".toList ++ n ++ " | ".toList ++ p50 ++ " | ".toList ++ p75 ++ " | ".toList ++ p90 ++ " | ".toList ++ p95 ++
        " | ".toList ++ p99 ++ " | ".toList ++ p999 ++ " |\n".toList =
      '|' :: ([padded n, padded p50, padded p75, padded p90, padded p95, padded p99, padded p999].map
        (· ++ ['|'])).flatten ++ ['\n'] := by
  simp [padded]

theorem line_eq (r : Row) : r.line = lineText r ++ ['\n'] := by
  unfold Row.line lineText cells
  exact line_shape _ _ _ _ _ _ _

theorem mem_intStr {n : ℤ} {c : Char} (h : c ∈ intStr n) : c = '-' ∨ c.isDigit = true := by
  unfold intStr at h
  split at h
  · rcases List.mem_cons.1 h with rfl | h
    · exact .inl rfl
    · exact .inr (str_isDigit h)
  · exact .inr (str_isDigit h)

theorem intStr_inj {n m : ℤ} (h : intStr n = intStr m) : n = m := by
  have hdash : ∀ k : ℕ, '-' ∉ str k := fun k hk => absurd (str_isDigit hk) (by decide)
  have hstr : ∀ {k l : ℕ}, str k = str l → k = l := by
    intro k l hkl
    rw [← int_str k, ← int_str l, hkl]
  unfold intStr at h
  split at h <;> split at h
  · have := hstr (List.cons.inj h).2
    omega
  · exact absurd (h ▸ List.mem_cons_self) (hdash _)
  · exact absurd (h.symm ▸ List.mem_cons_self) (hdash _)
  · have := hstr h
    omega

theorem center_inj {n m : ℤ} (h : padded (center 6 (intStr n)) = padded (center 6 (intStr m))) : n = m := by
  have hblank : ∀ k : ℤ, (padded (center 6 (intStr k))).filter (· ≠ ' ') = intStr k := by
    intro k
    have hkeep : (intStr k).filter (· ≠ ' ') = intStr k := by
      refine List.filter_eq_self.2 fun c hc => decide_eq_true ?_
      rintro rfl
      rcases mem_intStr hc with h | h
      · cases h
      · exact absurd h (by decide)
    simp only [padded, center, List.filter_cons, List.filter_append, hkeep]
    simp
  have hfilter := congrArg (List.filter (· ≠ ' ')) h
  rw [hblank, hblank] at hfilter
  exact intStr_inj hfilter

theorem mem_padded {t : Text} {c : Char} (h : c ∈ padded t) : c = ' ' ∨ c ∈ t := by
  simpa [padded, or_comm, or_assoc] using h

theorem mem_center {t : Text} {width : ℕ} {c : Char} (h : c ∈ center width t) : c = ' ' ∨ c ∈ t := by
  simp only [center, List.mem_append, List.mem_replicate] at h
  tauto

theorem mem_ljust {t : Text} {width : ℕ} {c : Char} (h : c ∈ ljust width t) : c = ' ' ∨ c ∈ t := by
  simp only [ljust, List.mem_append, List.mem_replicate] at h
  tauto

theorem names_plain : ∀ e ∈ latencyLoggerMap, '|' ∉ link e.2 ∧ '\n' ∉ link e.2 := by
  unfold latencyLoggerMap quillMacroFreeMode
  repeat rw [String.toList_ofList]
  decide +kernel

theorem padded_names : ∀ e ∈ latencyLoggerMap, ∀ e' ∈ latencyLoggerMap,
    padded (ljust 73 (link e.2)) = padded (ljust 73 (link e'.2)) → link e.2 = link e'.2 := by
  unfold latencyLoggerMap quillMacroFreeMode
  repeat rw [String.toList_ofList]
  decide +kernel

def IsRow (r : Row) : Prop := ∃ logger info a, libraryOf logger = some info ∧ row logger info a = r

theorem plain_cells {r : Row} (h : IsRow r) {x : Char} (hx : x = '|' ∨ x = '\n') : ∀ t ∈ cells r, x ∉ t := by
  obtain ⟨logger, info, a, hinfo, rfl⟩ := h
  have hname : x ∉ padded (ljust 73 (link info)) := by
    intro hmem
    rcases mem_padded hmem with rfl | hmem
    · rcases hx with h | h <;> cases h
    · rcases mem_ljust hmem with rfl | hmem
      · rcases hx with h | h <;> cases h
      · rcases hx with rfl | rfl
        · exact (names_plain _ (libraryOf_mem hinfo)).1 hmem
        · exact (names_plain _ (libraryOf_mem hinfo)).2 hmem
  have hnumber : ∀ n : ℤ, x ∉ padded (center 6 (intStr n)) := by
    intro n hmem
    rcases mem_padded hmem with rfl | hmem
    · rcases hx with h | h <;> cases h
    · rcases mem_center hmem with rfl | hmem
      · rcases hx with h | h <;> cases h
      · rcases mem_intStr hmem with rfl | hdigit
        · rcases hx with h | h <;> cases h
        · rcases hx with rfl | rfl <;> exact absurd hdigit (by decide)
  simp only [cells, List.forall_mem_cons, List.not_mem_nil, false_imp_iff, implies_true, and_true]
  exact ⟨hname, hnumber _, hnumber _, hnumber _, hnumber _, hnumber _, hnumber _⟩

theorem lineText_inj {r r' : Row} (h : IsRow r) (h' : IsRow r') (heq : lineText r = lineText r') : r = r' := by
  have hcells := flatten_inj (plain_cells h (.inl rfl)) (plain_cells h' (.inl rfl)) (List.cons.inj heq).2
  obtain ⟨logger, info, a, hinfo, rfl⟩ := h
  obtain ⟨logger', info', a', hinfo', rfl⟩ := h'
  simp only [cells, List.cons.injEq, and_true] at hcells
  obtain ⟨hname, h50, h75, h90, h95, h99, h999⟩ := hcells
  have hlink := padded_names _ (libraryOf_mem hinfo) _ (libraryOf_mem hinfo') hname
  obtain ⟨hsame, hlogger⟩ := same_link _ (libraryOf_mem hinfo) _ (libraryOf_mem hinfo') hlink
  obtain rfl : info = info' := hsame
  have htie : tieBreaker logger = tieBreaker logger' := by
    rcases hlogger with rfl | ⟨hup, hlow⟩ | ⟨hlow, hup⟩
    · rfl
    · exact (row_bqlog ((isBqlog_iff _).2 (.inl hup)) ((isBqlog_iff _).2 (.inr hlow))).2
    · exact (row_bqlog ((isBqlog_iff _).2 (.inr hlow)) ((isBqlog_iff _).2 (.inl hup))).2
  have hdata : a = a' := by
    refine average_ext ?_
    simp only [columns, List.forall_mem_cons, List.not_mem_nil, false_imp_iff, implies_true, and_true]
    exact ⟨center_inj h50, center_inj h75, center_inj h90, center_inj h95, center_inj h99, center_inj h999⟩
  rw [hdata, row, row, htie]

theorem eq_of_map_eq {α β : Type} {f : α → β} {l m : List α} (hinj : ∀ a ∈ l, ∀ b ∈ m, f a = f b → a = b)
    (h : l.map f = m.map f) : l = m := by
  induction l generalizing m with
  | nil =>
    cases m with
    | nil => rfl
    | cons b m => cases h
  | cons a l ih =>
    cases m with
    | nil => cases h
    | cons b m =>
      obtain ⟨hhead, htail⟩ := List.cons.inj h
      rw [hinj a List.mem_cons_self b List.mem_cons_self hhead,
        ih (fun a ha b hb => hinj a (List.mem_cons_of_mem _ ha) b (List.mem_cons_of_mem _ hb)) htail]

theorem isRow_of_mem {results : LatencyResults} {key : Key} {r : Row} (h : r ∈ latencyRows results key.1 key.2) :
    IsRow r := by
  obtain ⟨e, -, hrow⟩ := List.mem_filterMap.1 ((latencyRows_perm results key).mem_iff.1 h)
  obtain ⟨-, info, hinfo, hr⟩ := rowOf_eq_some.1 hrow
  exact ⟨e.1, info, e.2, hinfo, hr⟩

theorem formatLatencyTable_inj {results results' : LatencyResults} {key : Key}
    (h : formatLatencyTable results key.1 key.2 = formatLatencyTable results' key.1 key.2) :
    latencyRows results key.1 key.2 = latencyRows results' key.1 key.2 := by
  have hlines : ∀ rows : List Row, rows.map Row.line = (rows.map lineText).map (· ++ ['\n']) := by
    intro rows
    rw [List.map_map]
    exact List.map_congr_left fun r _ => line_eq r
  have hplain : ∀ results : LatencyResults, ∀ t ∈ (latencyRows results key.1 key.2).map lineText, '\n' ∉ t := by
    intro results t ht hmem
    obtain ⟨r, hr, rfl⟩ := List.mem_map.1 ht
    rcases List.mem_cons.1 hmem with hbar | hmem
    · cases hbar
    · obtain ⟨cell, hcell, hin⟩ := List.mem_flatten.1 hmem
      obtain ⟨t, ht, rfl⟩ := List.mem_map.1 hcell
      rcases List.mem_append.1 hin with hin | hin
      · exact plain_cells (isRow_of_mem hr) (.inr rfl) t ht hin
      · cases List.mem_singleton.1 hin
  have htext := List.append_cancel_left h
  rw [hlines, hlines] at htext
  exact eq_of_map_eq (fun a ha b hb => lineText_inj (isRow_of_mem ha) (isRow_of_mem hb))
    (flatten_inj (hplain results) (hplain results') htext)

end Lines

section Report

variable {contents files files' : List Text} {results results' : LatencyResults}

theorem report_eq (h : collectLatencyResults exactDivide files = some results)
    {throughputs : Dict Text (BackendAverage Double)} (hb : collectThroughputs files = some throughputs) :
    report files = some (benchmarkTypes.flatMap (sectionText results) ++ formatThroughputTable throughputs ++
      "\n".toList) := by
  rw [report, h, Option.bind_eq_bind, Option.bind_some, hb]
  rfl

theorem length_table (hperm : files.Perm files') (h : collectLatencyResults exactDivide files = some results)
    (h' : collectLatencyResults exactDivide files' = some results') (key : Key) :
    (formatLatencyTable results key.1 key.2).length = (formatLatencyTable results' key.1 key.2).length := by
  have hrows : (latencyRows results key.1 key.2).Perm (latencyRows results' key.1 key.2) :=
    (latencyRows_perm results key).trans
      (((loggersAt_perm hperm h h').filterMap _).trans (latencyRows_perm results' key).symm)
  simp only [formatLatencyTable, List.length_append, (hrows.map Row.line).flatten.length_eq]

theorem flatMap_inj {α β : Type} {f g : α → List β} {l : List α} (hlength : ∀ x ∈ l, (f x).length = (g x).length)
    (h : l.flatMap f = l.flatMap g) : ∀ x ∈ l, f x = g x := by
  induction l with
  | nil => exact fun x hx => absurd hx List.not_mem_nil
  | cons a l ih =>
    rw [List.flatMap_cons, List.flatMap_cons] at h
    obtain ⟨hhead, htail⟩ := List.append_inj h (hlength a List.mem_cons_self)
    intro x hx
    rcases List.mem_cons.1 hx with rfl | hx
    · exact hhead
    · exact ih (fun y hy => hlength y (List.mem_cons_of_mem a hy)) htail x hx

theorem sectionText_inj (hperm : files.Perm files') (h : collectLatencyResults exactDivide files = some results)
    (h' : collectLatencyResults exactDivide files' = some results') {benchmarkType : BenchmarkType}
    (heq : sectionText results benchmarkType = sectionText results' benchmarkType) :
    formatLatencyTable results benchmarkType 1 = formatLatencyTable results' benchmarkType 1 ∧
      formatLatencyTable results benchmarkType 4 = formatLatencyTable results' benchmarkType 4 := by
  simp only [sectionText, List.append_assoc] at heq
  have hone := List.append_cancel_left (List.append_cancel_left heq)
  obtain ⟨h₁, hrest⟩ := List.append_inj hone (length_table hperm h h' (benchmarkType, 1))
  obtain ⟨h₄, -⟩ := List.append_inj (List.append_cancel_left hrest) (length_table hperm h h' (benchmarkType, 4))
  exact ⟨h₁, h₄⟩

theorem report_inj (hperm : files.Perm files') (h : collectLatencyResults exactDivide files = some results)
    (h' : collectLatencyResults exactDivide files' = some results') (heq : report files = report files') :
    ∀ key ∈ tableKeys, latencyRows results key.1 key.2 = latencyRows results' key.1 key.2 := by
  obtain ⟨throughputs, hb⟩ := collect_exists files
  obtain ⟨throughputs', hb'⟩ := collect_exists files'
  rw [report_eq h hb, report_eq h' hb', formatThroughputTable_perm (throughputs_perm hperm hb hb')] at heq
  have htext := List.append_cancel_right (List.append_cancel_right (Option.some.inj heq))
  have hlength : ∀ benchmarkType ∈ benchmarkTypes,
      (sectionText results benchmarkType).length = (sectionText results' benchmarkType).length := by
    intro benchmarkType _
    simp only [sectionText, List.length_append, length_table hperm h h' (benchmarkType, 1),
      length_table hperm h h' (benchmarkType, 4)]
  intro key hkey
  obtain ⟨benchmarkType, htype, hin⟩ := List.mem_flatMap.1 hkey
  obtain ⟨h₁, h₄⟩ := sectionText_inj hperm h h' (flatMap_inj hlength htext benchmarkType htype)
  rcases List.mem_cons.1 hin with rfl | hin
  · exact formatLatencyTable_inj h₁
  · obtain rfl := List.mem_singleton.1 hin
    exact formatLatencyTable_inj h₄

theorem report_perm (hperm : contents.Perm files) (hnot : ∀ key ∈ tableKeys, ¬ Ambiguous contents key) :
    report files = report contents := by
  obtain ⟨results, h⟩ := LatencyMeans.collect_exact contents
  obtain ⟨results', h'⟩ := LatencyMeans.collect_exact files
  obtain ⟨throughputs, hb⟩ := collect_exists contents
  obtain ⟨throughputs', hb'⟩ := collect_exists files
  have htable : ∀ key ∈ tableKeys, formatLatencyTable results key.1 key.2 = formatLatencyTable results' key.1 key.2 := by
    intro key hkey
    rw [formatLatencyTable, formatLatencyTable, latencyRows_of_not_ambiguous hperm h h' (hnot key hkey)]
  have hsections : benchmarkTypes.flatMap (sectionText results) = benchmarkTypes.flatMap (sectionText results') := by
    refine List.flatMap_congr fun benchmarkType htype => ?_
    have hkeys : ∀ n ∈ [1, 4], (benchmarkType, n) ∈ tableKeys := by
      intro n hn
      refine List.mem_flatMap.2 ⟨benchmarkType, htype, ?_⟩
      simpa using hn
    rw [sectionText, sectionText, htable (benchmarkType, 1) (hkeys 1 (by simp)),
      htable (benchmarkType, 4) (hkeys 4 (by simp))]
  rw [report_eq h hb, report_eq h' hb', hsections, formatThroughputTable_perm (throughputs_perm hperm hb hb')]

theorem report_of_ambiguous {key : Key} (hkey : key ∈ tableKeys) (hamb : Ambiguous contents key)
    (hperm : contents.Perm files) (hperm' : contents.Perm files') (hup : leader files key = some upperBqlog)
    (hlow : leader files' key = some lowerBqlog) : report files ≠ report files' := by
  obtain ⟨results, h⟩ := LatencyMeans.collect_exact files
  obtain ⟨results', h'⟩ := LatencyMeans.collect_exact files'
  intro heq
  exact latencyRows_of_ambiguous hamb hperm hperm' hup hlow h h'
    (report_inj (hperm.symm.trans hperm') h h' heq key hkey)

end Report

def nameBetween (front back : Text) (i : ℕ) : Name := front ++ (List.replicate i 'a' ++ back)

def numberedName (i : ℕ) : Name := nameBetween "bench_results_".toList ".txt".toList i

def numbered (files : List Text) : List (Name × Text) := files.zipIdx.map fun x => (numberedName x.2, x.1)

theorem textLe_append (p s t : Text) : textLe (p ++ s) (p ++ t) = textLe s t := by
  induction p with
  | nil => rfl
  | cons c p ih => simp [textLe, ih]

theorem textLe_refl (t : Text) : textLe t t = true := by
  have h := textLe_append t [] []
  rwa [List.append_nil] at h

theorem nameBetween_le {front back : Text} (hback : ∀ t, textLe back ('a' :: t) = true) {i j : ℕ} (h : i ≤ j) :
    textLe (nameBetween front back i) (nameBetween front back j) = true := by
  obtain ⟨k, rfl⟩ := Nat.exists_eq_add_of_le h
  rw [nameBetween, nameBetween, List.replicate_add, List.append_assoc, textLe_append, textLe_append]
  cases k with
  | zero => exact textLe_refl _
  | succ k => exact hback _

theorem nameBetween_inj {front back : Text} {i j : ℕ} (h : nameBetween front back i = nameBetween front back j) :
    i = j := by
  have hlength := congrArg List.length h
  simp only [nameBetween, List.length_append, List.length_replicate] at hlength
  omega

theorem numberedName_matches (i : ℕ) : fnmatch (numberedName i) resultPattern = true := by
  have hpattern : resultPattern = "bench_results_".toList ++ '*' :: ".txt".toList := by decide
  rw [hpattern]
  exact fnmatch_between ⟨by decide, by decide, by decide⟩ ⟨by decide, by decide, by decide⟩ _

theorem numbering_numbered {contents files : List Text} (hperm : contents.Perm files) :
    Numbering contents (numbered files) where
  same := by
    have hsnd : (numbered files).map Prod.snd = files := by
      rw [numbered, List.map_map]
      exact List.zipIdx_map_fst 0 files
    rw [hsnd]
    exact hperm.symm
  distinct := by
    have hfst : (numbered files).map Prod.fst = (List.range' 0 files.length).map numberedName := by
      rw [numbered, List.map_map, ← List.zipIdx_map_snd 0 files, List.map_map]
      rfl
    rw [hfst]
    exact List.Nodup.map (fun _ _ => nameBetween_inj) List.nodup_range'
  named := by
    intro file hfile
    obtain ⟨x, -, rfl⟩ := List.mem_map.1 hfile
    exact numberedName_matches x.2

theorem generateTables_numbering {contents : List Text} {files : List (Name × Text)} (h : Numbering contents files) :
    generateTables files = report (sortedFiles files) ∧ contents.Perm (sortedFiles files) := by
  constructor
  · rw [generateTables, List.filter_eq_self.2 h.named]
  · exact h.same.symm.trans ((List.mergeSort_perm _ _).map Prod.snd).symm

theorem sortedFiles_numbered (files : List Text) : sortedFiles (numbered files) = files := by
  have hsorted : (numbered files).Pairwise fun a b => textLe a.1 b.1 = true := by
    rw [numbered, List.pairwise_map]
    have hlt : files.zipIdx.Pairwise fun a b => a.2 < b.2 := by
      rw [← List.pairwise_map (f := Prod.snd) (R := (· < ·)), List.zipIdx_map_snd]
      exact List.pairwise_lt_range'
    exact hlt.imp fun h => nameBetween_le (fun _ => rfl) h.le
  rw [sortedFiles, List.mergeSort_of_pairwise hsorted, numbered, List.map_map]
  exact List.zipIdx_map_fst 0 files

theorem generateTables_numbered (files : List Text) : generateTables (numbered files) = report files := by
  rw [(generateTables_numbering (numbering_numbered (List.Perm.refl files))).1, sortedFiles_numbered]

/-- The report does not depend on the numbering of the files unless the two spellings of
one library tie in a table in which the files disagree on their order. -/
theorem numbering_irrelevant_iff (contents : List Text) :
    (∃ text, ∀ files, Numbering contents files → generateTables files = some text) ↔
      ∀ key ∈ tableKeys, ¬ Ambiguous contents key := by
  constructor
  · rintro ⟨text, htext⟩ key hkey hamb
    obtain ⟨f, hf, g, hg, hup, hlow⟩ := hamb.led
    have hperm := List.perm_cons_erase hf
    have hperm' := List.perm_cons_erase hg
    have hreport : ∀ files, contents.Perm files → report files = some text := by
      intro files hfiles
      rw [← generateTables_numbered]
      exact htext _ (numbering_numbered hfiles)
    exact report_of_ambiguous hkey hamb hperm hperm' (leader_cons hup _) (leader_cons hlow _)
      ((hreport _ hperm).trans (hreport _ hperm').symm)
  · intro hnot
    obtain ⟨results, h⟩ := LatencyMeans.collect_exact contents
    obtain ⟨throughputs, hb⟩ := collect_exists contents
    refine ⟨benchmarkTypes.flatMap (sectionText results) ++ formatThroughputTable throughputs ++ "\n".toList,
      fun files hfiles => ?_⟩
    obtain ⟨hreport, hperm⟩ := generateTables_numbering hfiles
    rw [hreport, report_perm hperm hnot, report_eq h hb]

def spelledFile (logger median : Text) : Text :=
  "bench: /r/BENCHMARK_bqlog_call_site_latency\n".toList ++
    "Thread Count 1 - Total messages 1 - Logger: ".toList ++ logger ++ " - Benchmark: X\n".toList ++
      "  |  ".toList ++ median ++ "  |  2  |  3  |  4  |  5  |  6  |  7  |\n\n".toList

def firstName : Name := "bench_results_0.txt".toList

def secondName : Name := "bench_results_1.txt".toList

def upperFile : Text := spelledFile upperBqlog "1".toList

def lowerFile : Text := spelledFile lowerBqlog "2".toList

theorem fileBlocks_spelled : fileBlocks upperFile = [⟨upperBqlog, 1, .intIntDouble, 1, 2, 3, 4, 5, 6⟩] ∧
    fileBlocks lowerFile = [⟨lowerBqlog, 1, .intIntDouble, 2, 2, 3, 4, 5, 6⟩] := by
  decide +kernel

theorem loggerBlocks_spelled :
    loggerBlocks [upperFile, lowerFile] (.intIntDouble, 1) upperBqlog =
        [⟨upperBqlog, 1, .intIntDouble, 1, 2, 3, 4, 5, 6⟩] ∧
      loggerBlocks [upperFile, lowerFile] (.intIntDouble, 1) lowerBqlog =
        [⟨lowerBqlog, 1, .intIntDouble, 2, 2, 3, 4, 5, 6⟩] := by
  simp only [loggerBlocks, blocksAt, latencyBlocks, List.flatMap_cons, List.flatMap_nil, fileBlocks_spelled]
  decide

theorem leader_spelled : leader [upperFile] (.intIntDouble, 1) = some upperBqlog ∧
    leader [lowerFile] (.intIntDouble, 1) = some lowerBqlog := by
  simp only [leader, blocksAt, latencyBlocks, List.flatMap_cons, List.flatMap_nil, fileBlocks_spelled]
  decide

theorem ambiguous_spelled : Ambiguous [upperFile, lowerFile] (.intIntDouble, 1) where
  shown := by decide
  tied := by
    simp only [roundedMean, loggerBlocks_spelled]
    decide +kernel
  differ := by
    simp only [roundedMean, loggerBlocks_spelled]
    decide +kernel
  led := ⟨upperFile, List.mem_cons_self, lowerFile, by simp, leader_spelled⟩

theorem numbering_two (x y : Text) : Numbering [x, y] [(firstName, x), (secondName, y)] where
  same := List.Perm.refl _
  distinct := (by decide +kernel : [firstName, secondName].Nodup)
  named := by
    have hnames : fnmatch firstName resultPattern = true ∧ fnmatch secondName resultPattern = true := by
      decide +kernel
    simpa only [List.forall_mem_cons, List.not_mem_nil, false_imp_iff, implies_true, and_true] using hnames

theorem generateTables_two (x y : Text) : generateTables [(firstName, x), (secondName, y)] = report [x, y] := by
  have hle : textLe firstName secondName = true := by decide +kernel
  have hsorted : sortedFiles [(firstName, x), (secondName, y)] = [x, y] := by
    have hpair : [(firstName, x), (secondName, y)].Pairwise fun a b => textLe a.1 b.1 = true := List.pairwise_pair.2 hle
    rw [sortedFiles, List.mergeSort_of_pairwise hpair]
    rfl
  rw [(generateTables_numbering (numbering_two x y)).1, hsorted]

theorem numbering_matters :
    generateTables [(firstName, upperFile), (secondName, lowerFile)] ≠
      generateTables [(firstName, lowerFile), (secondName, upperFile)] := by
  rw [generateTables_two, generateTables_two]
  exact report_of_ambiguous (by decide +kernel) ambiguous_spelled (List.Perm.refl _) (List.Perm.swap _ _ _)
    (leader_cons leader_spelled.1 _) (leader_cons leader_spelled.2 _)

end LoggerBenchmarks.ReportNumbering
