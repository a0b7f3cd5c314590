import LoggerBenchmarks.CheckoutRoot
import LoggerBenchmarks.LatencyMeans
import LoggerBenchmarks.StableSorting
import Mathlib.Algebra.Order.Monoid.Unbundled.WithTop

set_option autoImplicit false

/-!
# Printing the throughputs

A throughput is a nonnegative double, or infinite where its digits are too large for
one. Means are taken exactly.
-/
namespace LoggerBenchmarks.ThroughputTable
open BinaryRounding InsertionDict StableSorting PythonText ResultFileParser LatencyTable LatencyMeans BackendTable
open CheckoutRoot (backendBlock backendSamples_eq)

abbrev Double := WithTop ℚ

def float (t : Text) : Double :=
  let whole := t.takeWhile (· ≠ '.')
  let fraction := t.drop (whole.length + 1)
  (toDouble (int (whole ++ fraction) / 10 ^ fraction.length)).elim ⊤ fun q => q

def meanDouble (xs : List Double) : Double := xs.sum.map fun q => q / xs.length

def readmeThroughputLoggers : List Text :=
  ["MS BinLog (binary log)".toList, "BqLog (binary log)".toList, "XTR".toList, "Quill".toList, "spdlog".toList,
    "fmtlog".toList, "Reckless".toList, quillMacroFreeMode, "BqLog".toList, "Boost.Log".toList]

structure ThroughputRow where
  name : Text
  throughput : Double
  elapsedMs : ℤ

/-- What the loop over the loggers appends for one of them: the link of the first benchmark of that name. -/
def throughputRowOf (e : Text × BackendAverage Double) : Option ThroughputRow :=
  if e.1 ∉ readmeThroughputLoggers then none
  else (backendLoggerMap.find? (·.2.name = e.1)).map fun found => ⟨link found.2, e.2.throughput, e.2.elapsedMs⟩

/-- The greatest throughput comes first. -/
def throughputKey (r : ThroughputRow) : Doubleᵒᵈ ×ₗ Text := toLex (OrderDual.toDual r.throughput, r.name)

def throughputRows (results : Dict Text (BackendAverage Double)) : List ThroughputRow :=
  sortBy throughputKey (results.entries.filterMap throughputRowOf)

def twoDigits (n : ℕ) : Text := if n < 10 then '0' :: str n else str n

/-- `{x:.2f}` -/
def fixed2 : Double → Text
  | none => "inf".toList
  | some q =>
    let hundredths := (halfEven (q * 100)).toNat
    str (hundredths / 100) ++ '.' :: twoDigits (hundredths % 100)

def rjust (width : ℕ) (t : Text) : Text := List.replicate (width - t.length) ' ' ++ t

def ThroughputRow.line (r : ThroughputRow) : Text :=
  "| ".toList ++ ljust 66 r.name ++ " | ".toList ++ rjust 18 (fixed2 r.throughput) ++ " | ".toList ++
    center 12 (intStr r.elapsedMs ++ " ms".toList) ++ " |\n".toList

def throughputTitles : Text :=
  "### Throughput\n\n".toList ++
    "| Library                                                            | million msg/second | elapsed time |\n".toList ++
    "|--------------------------------------------------------------------|:------------------:|:------------:|\n".toList

def formatThroughputTable (results : Dict Text (BackendAverage Double)) : Text :=
  throughputTitles ++ ((throughputRows results).map ThroughputRow.line).flatten

def collectThroughputs (files : List Text) : Option (Dict Text (BackendAverage Double)) :=
  collectBackendResults float meanDouble exactDivide files

theorem collect_exists (files : List Text) : ∃ results, collectThroughputs files = some results := by
  rw [← Option.isSome_iff_exists, collectThroughputs, collectBackendResults, mapM_isSome]
  exact fun _ _ => rfl

theorem average_perm {l m : List (BackendResult Double)} (h : l.Perm m) :
    BackendTable.average meanDouble exactDivide l = BackendTable.average meanDouble exactDivide m := by
  have hmean : meanDouble (l.map BackendResult.throughput) = meanDouble (m.map BackendResult.throughput) := by
    rw [meanDouble, meanDouble, (h.map _).sum_eq, (h.map _).length_eq]
  rw [BackendTable.average, BackendTable.average, hmean, (h.map _).sum_eq, h.length_eq]

theorem get?_throughputs {files : List Text} {results : Dict Text (BackendAverage Double)}
    (h : collectThroughputs files = some results) (logger : Text) : results.get? logger =
      if (files.filterMap (backendBlock float)).filter (·.logger = logger) = [] then none
      else BackendTable.average meanDouble exactDivide
        ((files.filterMap (backendBlock float)).filter (·.logger = logger)) := by
  rw [get?_mapM h, backendSamples_eq, get?_group]
  split
  · rfl
  · rfl

theorem throughputs_perm {files files' : List Text} (hperm : files.Perm files')
    {results results' : Dict Text (BackendAverage Double)} (h : collectThroughputs files = some results)
    (h' : collectThroughputs files' = some results') : results.entries.Perm results'.entries := by
  refine entries_perm fun logger => ?_
  have hblocks := (hperm.filterMap (backendBlock float)).filter (·.logger = logger)
  rw [get?_throughputs h, get?_throughputs h', average_perm hblocks]
  have hnil : (files.filterMap (backendBlock float)).filter (·.logger = logger) = [] ↔
      (files'.filterMap (backendBlock float)).filter (·.logger = logger) = [] := by
    rw [← List.length_eq_zero_iff, hblocks.length_eq, List.length_eq_zero_iff]
  simp only [hnil]

theorem throughput_links : ∀ logger ∈ readmeThroughputLoggers, ∀ logger' ∈ readmeThroughputLoggers,
    (backendLoggerMap.find? (·.2.name = logger)).map (link ·.2) =
      (backendLoggerMap.find? (·.2.name = logger')).map (link ·.2) → logger = logger' := by
  unfold readmeThroughputLoggers backendLoggerMap quillMacroFreeMode
  repeat rw [String.toList_ofList]
  decide +kernel

/-- Different loggers of the table have different links, so the keys tell its rows apart. -/
theorem throughputKey_inj {results : Dict Text (BackendAverage Double)} :
    ∀ r ∈ results.entries.filterMap throughputRowOf, ∀ r' ∈ results.entries.filterMap throughputRowOf,
      throughputKey r = throughputKey r' → r = r' := by
  intro r hr r' hr' hkey
  obtain ⟨⟨logger, data⟩, hmem, hrow⟩ := List.mem_filterMap.1 hr
  obtain ⟨⟨logger', data'⟩, hmem', hrow'⟩ := List.mem_filterMap.1 hr'
  unfold throughputRowOf at hrow hrow'
  split at hrow
  · cases hrow
  · split at hrow'
    · cases hrow'
    · rename_i hin hin'
      have hname : r.name = r'.name := congrArg (fun k => (ofLex k).2) hkey
      have hlogger : logger = logger' := by
        refine throughput_links logger (not_not.1 hin) logger' (not_not.1 hin') ?_
        obtain ⟨found, hfound, rfl⟩ := Option.map_eq_some_iff.1 hrow
        obtain ⟨found', hfound', rfl⟩ := Option.map_eq_some_iff.1 hrow'
        rw [hfound, hfound']
        exact congrArg some hname
      subst hlogger
      have hdata : data = data' := by
        rw [mem_entries] at hmem hmem'
        exact Option.some.inj (hmem.symm.trans hmem')
      subst hdata
      exact Option.some.inj (hrow.symm.trans hrow')

theorem formatThroughputTable_perm {results results' : Dict Text (BackendAverage Double)}
    (h : results.entries.Perm results'.entries) : formatThroughputTable results = formatThroughputTable results' := by
  unfold formatThroughputTable throughputRows
  rw [sortBy_eq_of_perm (h.filterMap throughputRowOf) throughputKey_inj]

end LoggerBenchmarks.ThroughputTable
