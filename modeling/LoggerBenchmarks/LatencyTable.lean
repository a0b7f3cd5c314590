import Mathlib.Data.Char
import Mathlib.Data.List.Lex
import Mathlib.Data.Prod.Lex
import LoggerBenchmarks.BinaryRounding
import LoggerBenchmarks.InsertionDict
import LoggerBenchmarks.ResultFileParser

set_option autoImplicit false

/-!
# Collecting latencies and printing their tables

`divide` is the division of two Python integers; it has no value where the quotient
is too large for a float.
-/
namespace LoggerBenchmarks.LatencyTable
open BinaryRounding InsertionDict PythonText ResultFileParser

def latencyLoggerMap : List (Text × LoggerInfo) :=
  [("Quill - Unbounded".toList,
      ⟨"Quill Unbounded Queue".toList, "https://github.com/odygrd/quill".toList⟩),
    ("Quill - Bounded".toList,
      ⟨"Quill Bounded Dropping Queue".toList, "https://github.com/odygrd/quill".toList⟩),
    (quillMacroFreeMode, ⟨quillMacroFreeMode, "https://github.com/odygrd/quill".toList⟩),
    ("fmtlog".toList, ⟨"fmtlog".toList, "https://github.com/MengRao/fmtlog".toList⟩),
    ("PlatformLab NanoLog".toList,
      ⟨"PlatformLab NanoLog".toList, "https://github.com/PlatformLab/NanoLog".toList⟩),
    ("Ms binLog".toList, ⟨"MS BinLog".toList, "https://github.com/Morgan-Stanley/binlog".toList⟩),
    ("XTR".toList, ⟨"XTR".toList, "https://github.com/choll/xtr".toList⟩),
    ("Reckless".toList, ⟨"Reckless".toList, "https://github.com/mattiasflodin/reckless".toList⟩),
    ("Bqlog".toList, ⟨"BqLog".toList, "https://github.com/Tencent/BqLog".toList⟩),
    ("bqlog".toList, ⟨"BqLog".toList, "https://github.com/Tencent/BqLog".toList⟩),
    ("Iyengar NanoLog".toList,
      ⟨"Iyengar NanoLog".toList, "https://github.com/Iyengar111/NanoLog".toList⟩),
    ("Spdlog".toList, ⟨"spdlog".toList, "https://github.com/gabime/spdlog".toList⟩),
    ("G3Log".toList, ⟨"g3log".toList, "https://github.com/KjellKod/g3log".toList⟩),
    ("Boost.Log".toList, ⟨"Boost.Log".toList, "https://www.boost.org".toList⟩)]

structure Section where
  title : Text
  loggers : List Text

def latencySectionMetadata : BenchmarkType → Section
  | .intIntDouble =>
    ⟨"#### Logging Numbers".toList,
      ["Quill - Bounded".toList, "Quill - Unbounded".toList, quillMacroFreeMode, "fmtlog".toList,
        "PlatformLab NanoLog".toList, "Ms binLog".toList, "XTR".toList, "Reckless".toList,
        "Bqlog".toList, "bqlog".toList, "Iyengar NanoLog".toList, "Spdlog".toList, "G3Log".toList,
        "Boost.Log".toList]⟩
  | .intIntLargestr =>
    ⟨"#### Logging Large Strings".toList,
      ["Quill - Bounded".toList, "Quill - Unbounded".toList, quillMacroFreeMode, "fmtlog".toList,
        "PlatformLab NanoLog".toList, "Ms binLog".toList, "XTR".toList, "Reckless".toList,
        "Bqlog".toList, "bqlog".toList, "Iyengar NanoLog".toList, "Spdlog".toList, "G3Log".toList,
        "Boost.Log".toList]⟩
  | .vectorLargestr =>
    ⟨"#### Logging Complex Types".toList,
      ["Quill - Bounded".toList, "Quill - Unbounded".toList, "fmtlog".toList, "Ms binLog".toList,
        "XTR".toList, "Spdlog".toList, "Boost.Log".toList]⟩

structure Averages where
  p50 : ℤ
  p75 : ℤ
  p90 : ℤ
  p95 : ℤ
  p99 : ℤ
  p999 : ℤ
  deriving DecidableEq

abbrev Key := BenchmarkType × ℕ

abbrev LatencyResults := Dict Key (Dict Text Averages)

/-- Division of integers in Python: the nearest double, or an `OverflowError`. -/
def trueDivide (a b : ℕ) : Option ℚ := toDouble (a / b)

section Collect

variable (divide : ℕ → ℕ → Option ℚ)

def mean (p : LatencyResult → ℕ) (resultsList : List LatencyResult) : Option ℤ :=
  (divide (resultsList.map p).sum resultsList.length).map halfEven

def average (resultsList : List LatencyResult) : Option Averages := do
  let p50 ← mean divide LatencyResult.p50 resultsList
  let p75 ← mean divide LatencyResult.p75 resultsList
  let p90 ← mean divide LatencyResult.p90 resultsList
  let p95 ← mean divide LatencyResult.p95 resultsList
  let p99 ← mean divide LatencyResult.p99 resultsList
  let p999 ← mean divide LatencyResult.p999 resultsList
  return ⟨p50, p75, p90, p95, p99, p999⟩

def resultKey (result : LatencyResult) : Key := (result.benchmarkType, result.threadCount)

def addResult (samples : Dict Key (Dict Text (List LatencyResult))) (result : LatencyResult) :
    Dict Key (Dict Text (List LatencyResult)) :=
  samples.modify (resultKey result) .empty fun loggers =>
    loggers.modify result.logger [] fun resultsList => resultsList ++ [result]

def addFile (samples : Dict Key (Dict Text (List LatencyResult))) (file : Text) :
    Dict Key (Dict Text (List LatencyResult)) :=
  let (benchPath, content) := readBenchFile file
  if !contains "call_site_latency".toList benchPath then samples
  else (parseLatencyBench benchPath content).foldl addResult samples

/-- The files stand in the order of their names. -/
def collectLatencyResults (files : List Text) : Option LatencyResults :=
  (files.foldl addFile .empty).mapM fun loggerResults => loggerResults.mapM (average divide)

end Collect

/-- On the names of the table, which are ASCII, case folding is lower-casing. -/
def casefold (name : Text) : Text := name.map Char.toLower

abbrev SortKey := ℤ ×ₗ ℤ ×ₗ ℤ ×ₗ ℤ ×ₗ ℕ ×ₗ Text

structure Row where
  name : Text
  p50 : ℤ
  p75 : ℤ
  p90 : ℤ
  p95 : ℤ
  p99 : ℤ
  p999 : ℤ
  sortKey : SortKey

def link (info : LoggerInfo) : Text := "[".toList ++ info.name ++ "](".toList ++ info.url ++ ")".toList

def tieBreaker (logger : Text) : ℕ :=
  if logger = "Quill - Bounded".toList then 0
  else if logger = "Quill - Unbounded".toList then 1
  else if "Quill".toList.isPrefixOf logger then 2
  else 3

def row (logger : Text) (info : LoggerInfo) (data : Averages) : Row where
  name := link info
  p50 := data.p50
  p75 := data.p75
  p90 := data.p90
  p95 := data.p95
  p99 := data.p99
  p999 := data.p999
  sortKey := toLex (data.p90, toLex (data.p95, toLex (data.p99, toLex (data.p999,
    toLex (tieBreaker logger, casefold info.name)))))

def rowOf (benchmarkType : BenchmarkType) (e : Text × Averages) : Option Row :=
  if e.1 ∉ (latencySectionMetadata benchmarkType).loggers then none
  else (latencyLoggerMap.lookup e.1).map fun info => row e.1 info e.2

def latencyRows (results : LatencyResults) (benchmarkType : BenchmarkType) (threadCount : ℕ) :
    List Row :=
  let loggerResults := (results.get? (benchmarkType, threadCount)).getD .empty
  (loggerResults.entries.filterMap (rowOf benchmarkType)).mergeSort fun a b => decide (a.sortKey ≤ b.sortKey)

def intStr (n : ℤ) : Text := if n < 0 then '-' :: str n.natAbs else str n.natAbs

def ljust (width : ℕ) (t : Text) : Text := t ++ List.replicate (width - t.length) ' '

/-- `{t:^width}`; the odd blank stands on the right. -/
def center (width : ℕ) (t : Text) : Text :=
  let pad := width - t.length
  List.replicate (pad / 2) ' ' ++ t ++ List.replicate (pad - pad / 2) ' '

def Row.line (r : Row) : Text :=
  "| ".toList ++ ljust 73 r.name ++ " | ".toList ++ center 6 (intStr r.p50) ++ " | ".toList ++
    center 6 (intStr r.p75) ++ " | ".toList ++ center 6 (intStr r.p90) ++ " | ".toList ++
    center 6 (intStr r.p95) ++ " | ".toList ++ center 6 (intStr r.p99) ++ " | ".toList ++
    center 6 (intStr r.p999) ++ " |\n".toList

def tableHeader (threadCount : ℕ) : Text :=
  if threadCount = 1 then "##### 1 Thread Logging\n\n".toList
  else "##### 4 Threads Logging Simultaneously\n\n".toList

def columnTitles : Text :=
  "| Library                                                                   ".toList ++
    "|  50th  |  75th  |  90th  |  95th  |  99th  | 99.9th |\n".toList ++
    "|---------------------------------------------------------------------------".toList ++
    "|:------:|:------:|:------:|:------:|:------:|:------:|\n".toList

def formatLatencyTable (results : LatencyResults) (benchmarkType : BenchmarkType) (threadCount : ℕ) :
    Text :=
  tableHeader threadCount ++ columnTitles ++
    ((latencyRows results benchmarkType threadCount).map Row.line).flatten

end LoggerBenchmarks.LatencyTable
