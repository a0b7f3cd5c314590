import Mathlib.Algebra.Group.Nat.Defs
import Mathlib.Data.List.GetD
import Mathlib.Data.Rat.Defs
import LoggerBenchmarks.PythonText

set_option autoImplicit false

/-!
# The latency harness

The split of the messages over the threads, the choice of the percentiles and the
text `run_benchmark` prints, for builds that define `BENCH_WITHOUT_PERF`.
-/
namespace LoggerBenchmarks.LatencyHarness
open PythonText

def messagesForThread (messagesPerIteration threadCount threadNum : ℕ) : ℕ :=
  if threadCount = 0 then 0
  else
    let base := messagesPerIteration / threadCount
    let remainder := messagesPerIteration % threadCount
    base + if threadNum < remainder then 1 else 0

structure Call where
  benchmarkName : Text
  threadCount : ℤ
  numIterations : ℕ
  messagesPerIteration : ℕ
  latencies : List (List ℕ)

section

-- `ceil(sample_count * percentile)`, a product of doubles
variable (nearestRank : ℕ → ℚ → ℕ)

def percentileIndex (sampleCount : ℕ) (percentile : ℚ) : ℕ :=
  min (sampleCount - 1)
    (if nearestRank sampleCount percentile = 0 then 0 else nearestRank sampleCount percentile - 1)

def latenciesCombined (latencies : List (List ℕ)) : List ℕ :=
  latencies.flatten.mergeSort (· ≤ ·)

def selected (combined : List ℕ) (percentile : ℚ) : ℕ :=
  combined.getD (percentileIndex nearestRank combined.length percentile) 0

def heading (threadCount totalMessages : ℕ) (benchmarkName : Text) : Text :=
  "Thread Count ".toList ++ str threadCount ++ " - Total messages ".toList ++ str totalMessages ++
    " - ".toList ++ benchmarkName

def noSamples : Text := "\n | no latency samples |\n\n".toList

def columnTitles : Text := "\n |  50th | 75th | 90th | 95th | 99th | 99.9th | Worst |\n".toList

def sampleRow (combined : List ℕ) : Text :=
  " |  ".toList ++ str (selected nearestRank combined 0.5) ++ "  |  ".toList ++
    str (selected nearestRank combined 0.75) ++ "  |  ".toList ++
    str (selected nearestRank combined 0.9) ++ "  |  ".toList ++
    str (selected nearestRank combined 0.95) ++ "  |  ".toList ++
    str (selected nearestRank combined 0.99) ++ "  |  ".toList ++
    str (selected nearestRank combined 0.999) ++ "  |  ".toList ++
    str (combined.getD (combined.length - 1) 0) ++ "  |\n\n".toList

def runBenchmark (call : Call) : Text :=
  if call.threadCount ≤ 0 then heading 0 0 call.benchmarkName ++ noSamples
  else
    let combined := latenciesCombined call.latencies
    let totalMessages := call.numIterations * call.messagesPerIteration % 2 ^ 64
    if combined.isEmpty then heading call.threadCount.toNat totalMessages call.benchmarkName ++ noSamples
    else heading call.threadCount.toNat totalMessages call.benchmarkName ++ columnTitles ++
      sampleRow nearestRank combined

theorem percentileIndex_lt {sampleCount : ℕ} (h : 0 < sampleCount) (percentile : ℚ) :
    percentileIndex nearestRank sampleCount percentile < sampleCount := by
  unfold percentileIndex
  omega

theorem latenciesCombined_perm (latencies : List (List ℕ)) :
    (latenciesCombined latencies).Perm latencies.flatten :=
  List.mergeSort_perm _ _

theorem latenciesCombined_eq_nil {latencies : List (List ℕ)} :
    latenciesCombined latencies = [] ↔ latencies.flatten = [] := by
  have hp := latenciesCombined_perm latencies
  constructor
  · intro h
    exact (h ▸ hp).symm.eq_nil
  · intro h
    exact (h ▸ hp).eq_nil

end

/-- The call prints a row of percentiles. -/
def Call.HasSamples (call : Call) : Prop := 0 < call.threadCount ∧ call.latencies.flatten ≠ []

instance (call : Call) : Decidable call.HasSamples := inferInstanceAs (Decidable (_ ∧ _))

/-- The thread count and the message total in the heading of the call. -/
def Call.headingNumbers (call : Call) : ℕ × ℕ :=
  if call.threadCount ≤ 0 then (0, 0)
  else (call.threadCount.toNat, call.numIterations * call.messagesPerIteration % 2 ^ 64)

/-- Every block is a heading followed by one of two bodies. -/
theorem runBenchmark_eq (nearestRank : ℕ → ℚ → ℕ) (call : Call) :
    runBenchmark nearestRank call =
      heading call.headingNumbers.1 call.headingNumbers.2 call.benchmarkName ++
        if call.HasSamples then columnTitles ++ sampleRow nearestRank (latenciesCombined call.latencies)
        else noSamples := by
  unfold runBenchmark Call.headingNumbers Call.HasSamples
  by_cases ht : call.threadCount ≤ 0
  · have hn : ¬ 0 < call.threadCount := by omega
    simp [ht, hn]
  · by_cases hs : call.latencies.flatten = []
    · simp [ht, hs, latenciesCombined_eq_nil.2 hs]
    · have hc : latenciesCombined call.latencies ≠ [] := fun h => hs (latenciesCombined_eq_nil.1 h)
      have hp : 0 < call.threadCount := by omega
      simp [ht, hs, hc, hp]

end LoggerBenchmarks.LatencyHarness
