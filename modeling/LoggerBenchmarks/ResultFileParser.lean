import LoggerBenchmarks.BacktrackingRegex
import LoggerBenchmarks.PosixPaths

set_option autoImplicit false

/-!
# Reading a result file

`generate_tables.py` up to the point where a file has become a list of parsed
blocks. `F` is the type of Python floats: a throughput is only read, added and
divided.
-/
namespace LoggerBenchmarks.ResultFileParser
open BacktrackingRegex PythonText PosixPaths

abbrev isBar (c : Char) : Bool := c == '|'
abbrev isNewline (c : Char) : Bool := c == '\n'
abbrev notNewline (c : Char) : Bool := c != '\n'
abbrev notDash (c : Char) : Bool := c != '-'
abbrev isAsciiDigit (c : Char) : Bool := c.isDigit

def threadCountWords : Text := "Thread Count ".toList
def totalMessagesWords : Text := " - Total messages ".toList
def loggerWords : Text := " - Logger: ".toList
def benchmarkWords : Text := " - Benchmark: ".toList

/-- `^bench: (.+)$` with `re.MULTILINE`. -/
def benchPattern : Pattern Char :=
  .seq (.lineStart isNewline) (.seq (.literal "bench: ".toList)
    (.seq (.group (.plus notNewline)) (.lineEnd isNewline)))

/-- `Thread Count \d+` -/
def threadCountPattern : Pattern Char :=
  .seq (.literal threadCountWords) (.plus isDecimal)

/-- `Thread Count (\d+) - Total messages \d+ - Logger: ([^-]+) - Benchmark: ([^\n]+)` -/
def headerPattern : Pattern Char :=
  .seq (.literal threadCountWords) (.seq (.group (.plus isDecimal))
    (.seq (.literal totalMessagesWords) (.seq (.plus isDecimal)
      (.seq (.literal loggerWords) (.seq (.group (.plus notDash))
        (.seq (.literal benchmarkWords) (.group (.plus notNewline))))))))

/-- `\s*(\d+)\s*\|` -/
def cellPattern : Pattern Char :=
  .seq (.many isSpace) (.seq (.group (.plus isDecimal)) (.seq (.many isSpace) (.one isBar)))

/-- `\|` and six cells. -/
def rowPattern : Pattern Char :=
  .seq (.one isBar) (.seq cellPattern (.seq cellPattern (.seq cellPattern
    (.seq cellPattern (.seq cellPattern cellPattern)))))

/-- `throughput is\s+([0-9]+(?:\.[0-9]+)?)\s+million msgs/sec average,\s+total time elapsed:\s+(\d+)\s+ms` -/
def throughputPattern : Pattern Char :=
  .seq (.literal "throughput is".toList) (.seq (.plus isSpace)
    (.seq (.group (.seq (.plus isAsciiDigit) (.opt (.seq (.one (· == '.')) (.plus isAsciiDigit)))))
      (.seq (.plus isSpace) (.seq (.literal "million msgs/sec average,".toList)
        (.seq (.plus isSpace) (.seq (.literal "total time elapsed:".toList)
          (.seq (.plus isSpace) (.seq (.group (.plus isDecimal))
            (.seq (.plus isSpace) (.literal "ms".toList))))))))))

/-- The texts of the files of one directory, in the order of their names. -/
def sortedFiles (files : List (Name × Text)) : List Text :=
  (files.mergeSort fun a b => textLe a.1 b.1).map Prod.snd

/-- The path of the first `bench:` line and the text of the file. -/
def readBenchFile (file : Text) : Text × Text :=
  let content := universalNewlines file
  let benchPath := (benchPattern.search content).elim [] fun m => strip (m.text 0)
  (benchPath, content)

inductive BenchmarkType where
  | intIntDouble
  | intIntLargestr
  | vectorLargestr
  deriving DecidableEq

def benchmarkTypeOf (benchPath : Text) : BenchmarkType :=
  if contains "vector_largestr".toList benchPath || contains "int_vector_largestr".toList benchPath then
    .vectorLargestr
  else if contains "int_int_largestr".toList benchPath || contains "largestr".toList benchPath then
    .intIntLargestr
  else .intIntDouble

def quillMacroFreeMode : Text := "Quill - Macro Free Mode".toList

def loggerKey (benchPath logger : Text) : Text :=
  if logger = "Quill".toList then
    if contains "with_functions".toList benchPath ||
        contains "quill_with_functions".toList benchPath then quillMacroFreeMode
    else if contains "quill_unbounded".toList benchPath then "Quill - Unbounded".toList
    else if contains "quill_bounded".toList benchPath then "Quill - Bounded".toList
    else logger
  else logger

structure LatencyResult where
  logger : Text
  threadCount : ℕ
  benchmarkType : BenchmarkType
  p50 : ℕ
  p75 : ℕ
  p90 : ℕ
  p95 : ℕ
  p99 : ℕ
  p999 : ℕ
  deriving DecidableEq

def latencyResult (benchPath : Text) (header row : Found Char) : LatencyResult where
  logger := loggerKey benchPath (strip (header.text 1))
  threadCount := int (header.text 0)
  benchmarkType := benchmarkTypeOf benchPath
  p50 := int (row.text 0)
  p75 := int (row.text 1)
  p90 := int (row.text 2)
  p95 := int (row.text 3)
  p99 := int (row.text 4)
  p999 := int (row.text 5)

def parseLatencyBench (benchPath content : Text) : List LatencyResult :=
  let sections := threadCountPattern.split content
  let headers := headerPattern.findAll content
  headers.zipIdx.filterMap fun (header, index) =>
    -- a header beyond the last section is skipped, and so is one whose section has no row
    sections[index + 1]?.bind fun sec =>
      (rowPattern.search sec).map fun row => latencyResult benchPath header row

structure LoggerInfo where
  name : Text
  url : Text
  deriving DecidableEq

def backendLoggerMap : List (Text × LoggerInfo) :=
  [("BENCHMARK_ms_binlog_backend_total_time".toList,
      ⟨"MS BinLog (binary log)".toList, "https://github.com/Morgan-Stanley/binlog".toList⟩),
    ("BENCHMARK_bqlog_binary_backend_total_time".toList,
      ⟨"BqLog (binary log)".toList, "https://github.com/Tencent/BqLog".toList⟩),
    ("BENCHMARK_xtr_backend_total_time".toList, ⟨"XTR".toList, "https://github.com/choll/xtr".toList⟩),
    ("BENCHMARK_quill_backend_total_time".toList,
      ⟨"Quill".toList, "https://github.com/odygrd/quill".toList⟩),
    ("BENCHMARK_spdlog_backend_total_time".toList,
      ⟨"spdlog".toList, "https://github.com/gabime/spdlog".toList⟩),
    ("BENCHMARK_fmtlog_backend_total_time".toList,
      ⟨"fmtlog".toList, "https://github.com/MengRao/fmtlog".toList⟩),
    ("BENCHMARK_reckless_backend_total_time".toList,
      ⟨"Reckless".toList, "https://github.com/mattiasflodin/reckless".toList⟩),
    ("BENCHMARK_quill_with_functions_backend_total_time".toList,
      ⟨quillMacroFreeMode, "https://github.com/odygrd/quill".toList⟩),
    ("BENCHMARK_bqlog_backend_total_time".toList,
      ⟨"BqLog".toList, "https://github.com/Tencent/BqLog".toList⟩),
    ("BENCHMARK_boost_log_backend_total_time".toList,
      ⟨"Boost.Log".toList, "https://www.boost.org".toList⟩),
    ("BENCHMARK_nanolog_backend_total_time".toList,
      ⟨"PlatformLab NanoLog".toList, "https://github.com/PlatformLab/NanoLog".toList⟩),
    ("BENCHMARK_iyengar_nanolog_backend_total_time".toList,
      ⟨"Iyengar NanoLog".toList, "https://github.com/Iyengar111/NanoLog".toList⟩)]

structure BackendResult (F : Type) where
  logger : Text
  throughput : F
  elapsedMs : ℕ
  deriving DecidableEq

def parseBackendBench {F : Type} (float : Text → F) (benchPath content : Text) :
    Option (BackendResult F) :=
  (backendLoggerMap.lookup (parse benchPath).name).bind fun loggerInfo =>
    (throughputPattern.search content).map fun m =>
      ⟨loggerInfo.name, float (m.text 0), int (m.text 1)⟩

/-- Whether it ends in the `ValueError` of `int` instead. -/
def parseBackendBenchRaises (benchPath content : Text) : Bool :=
  (backendLoggerMap.lookup (parse benchPath).name).isSome &&
    (throughputPattern.search content).any fun m => intMaxStrDigits < (m.text 1).length

theorem zipIdx_filterMap {α β γ : Type} (hs : List α) (ss : List β) (g : α → β → Option γ) (k : ℕ) :
    (hs.zipIdx k).filterMap (fun p => (ss[p.2 - k]?).bind (g p.1)) =
      (hs.zip ss).filterMap fun p => g p.1 p.2 := by
  induction hs generalizing ss k with
  | nil => rfl
  | cons h hs ih =>
    cases ss with
    | nil => simp
    | cons s ss =>
      have htail : (hs.zipIdx (k + 1)).filterMap (fun p => ((s :: ss)[p.2 - k]?).bind (g p.1)) =
          (hs.zipIdx (k + 1)).filterMap (fun p => (ss[p.2 - (k + 1)]?).bind (g p.1)) := by
        apply List.filterMap_congr
        rintro ⟨a, i⟩ hi
        have hk : k + 1 ≤ i := (List.mem_zipIdx hi).1
        have hsub : i - k = i - (k + 1) + 1 := by omega
        simp only [hsub, List.getElem?_cons_succ]
      rw [List.zipIdx_cons, List.filterMap_cons, List.zip_cons_cons, List.filterMap_cons, htail, ih]
      simp

/-- The headers are paired with the sections after the first one. -/
theorem parseLatencyBench_eq_zip (benchPath content s : Text) (ss : List Text)
    (h : threadCountPattern.split content = s :: ss) :
    parseLatencyBench benchPath content =
      ((headerPattern.findAll content).zip ss).filterMap fun p =>
        (rowPattern.search p.2).map fun row => latencyResult benchPath p.1 row := by
  have hz := zipIdx_filterMap (headerPattern.findAll content) ss
    (fun header sec => (rowPattern.search sec).map fun row => latencyResult benchPath header row) 0
  rw [← hz]
  simp only [parseLatencyBench, h, List.getElem?_cons_succ, Nat.sub_zero]

end LoggerBenchmarks.ResultFileParser
