import Mathlib.Algebra.BigOperators.Ring.Finset
import Mathlib.Algebra.Order.BigOperators.Group.List
import LoggerBenchmarks.LatencyTableRows

set_option autoImplicit false

/-!
# Means of percentile rows

With exact division every mean exists, and rounding keeps the order of the means.
-/
namespace LoggerBenchmarks.LatencyMeans
open BinaryRounding InsertionDict PythonText ResultFileParser LatencyTable LatencyTableRows

def exactDivide (a b : ℕ) : Option ℚ := some (a / b)

def Ordered (b : LatencyResult) : Prop :=
  b.p50 ≤ b.p75 ∧ b.p75 ≤ b.p90 ∧ b.p90 ≤ b.p95 ∧ b.p95 ≤ b.p99 ∧ b.p99 ≤ b.p999

instance (b : LatencyResult) : Decidable (Ordered b) := inferInstanceAs (Decidable (_ ∧ _))

def OrderedRow (a : Averages) : Prop :=
  a.p50 ≤ a.p75 ∧ a.p75 ≤ a.p90 ∧ a.p90 ≤ a.p95 ∧ a.p95 ≤ a.p99 ∧ a.p99 ≤ a.p999

def Between (blocks : List LatencyResult) (a : Averages) : Prop :=
  ∀ c ∈ columns, (∃ b ∈ blocks, (c.sample b : ℤ) ≤ c.average a) ∧ ∃ b ∈ blocks, c.average a ≤ c.sample b

theorem collect_exact (files : List Text) :
    ∃ results, collectLatencyResults exactDivide files = some results := by
  rw [← Option.isSome_iff_exists, collectLatencyResults, mapM_isSome]
  intro loggers _
  rw [mapM_isSome]
  intro blocks _
  rw [average_isSome]
  intro c _
  rfl

theorem average_exact {blocks : List LatencyResult} {a : Averages} :
    average exactDivide blocks = some a ↔ ∀ c ∈ columns, c.average a = halfEven (exactMean c.sample blocks) := by
  rw [average_eq_some]
  refine forall₂_congr fun c _ => ?_
  change some (halfEven (exactMean c.sample blocks)) = some (c.average a) ↔ _
  rw [Option.some_inj, eq_comm]

theorem exactMean_mono {blocks : List LatencyResult} {p q : LatencyResult → ℕ}
    (h : ∀ b ∈ blocks, p b ≤ q b) : exactMean p blocks ≤ exactMean q blocks := by
  unfold exactMean
  gcongr
  exact List.sum_le_sum h

theorem exactMean_le {blocks : List LatencyResult} (hne : blocks ≠ []) {p : LatencyResult → ℕ} {k : ℤ}
    (h : ∀ b ∈ blocks, (p b : ℤ) ≤ k) : exactMean p blocks ≤ k := by
  have hpos : (0 : ℚ) < blocks.length := by exact_mod_cast List.length_pos_of_ne_nil hne
  have hle : ∀ x ∈ (blocks.map p).map (Nat.cast : ℕ → ℚ), x ≤ k := by
    simp only [List.map_map, List.forall_mem_map, Function.comp_apply]
    exact fun b hb => by exact_mod_cast h b hb
  have hsum := List.sum_le_card_nsmul _ _ hle
  rw [exactMean, div_le_iff₀ hpos, Nat.cast_list_sum, mul_comm]
  simpa only [List.length_map, nsmul_eq_mul] using hsum

theorem le_exactMean {blocks : List LatencyResult} (hne : blocks ≠ []) {p : LatencyResult → ℕ} {k : ℤ}
    (h : ∀ b ∈ blocks, k ≤ (p b : ℤ)) : (k : ℚ) ≤ exactMean p blocks := by
  have hpos : (0 : ℚ) < blocks.length := by exact_mod_cast List.length_pos_of_ne_nil hne
  have hle : ∀ x ∈ (blocks.map p).map (Nat.cast : ℕ → ℚ), (k : ℚ) ≤ x := by
    simp only [List.map_map, List.forall_mem_map, Function.comp_apply]
    exact fun b hb => by exact_mod_cast h b hb
  have hsum := List.card_nsmul_le_sum _ _ hle
  rw [exactMean, le_div_iff₀ hpos, Nat.cast_list_sum, mul_comm]
  simpa only [List.length_map, nsmul_eq_mul] using hsum

theorem average_between {blocks : List LatencyResult} (hne : blocks ≠ []) {a : Averages}
    (h : average exactDivide blocks = some a) : Between blocks a := by
  intro c hc
  have hvalue := average_exact.1 h c hc
  constructor
  · by_contra hnone
    push Not at hnone
    have hall : ∀ b ∈ blocks, c.average a + 1 ≤ (c.sample b : ℤ) := fun b hb => hnone b hb
    have hround := halfEven_mono (le_exactMean hne hall)
    rw [halfEven_int, ← hvalue] at hround
    omega
  · by_contra hnone
    push Not at hnone
    have hall : ∀ b ∈ blocks, (c.sample b : ℤ) ≤ c.average a - 1 := by
      intro b hb
      have := hnone b hb
      omega
    have hround := halfEven_mono (exactMean_le hne hall)
    rw [halfEven_int, ← hvalue] at hround
    omega

theorem average_ordered {blocks : List LatencyResult} (hordered : ∀ b ∈ blocks, Ordered b) {a : Averages}
    (h : average exactDivide blocks = some a) : OrderedRow a := by
  have hvalue := average_exact.1 h
  simp only [columns, List.forall_mem_cons, List.not_mem_nil, false_imp_iff, implies_true, and_true] at hvalue
  obtain ⟨h50, h75, h90, h95, h99, h999⟩ := hvalue
  unfold OrderedRow
  rw [h50, h75, h90, h95, h99, h999]
  refine ⟨?_, ?_, ?_, ?_, ?_⟩
  · exact halfEven_mono (exactMean_mono fun b hb => (hordered b hb).1)
  · exact halfEven_mono (exactMean_mono fun b hb => (hordered b hb).2.1)
  · exact halfEven_mono (exactMean_mono fun b hb => (hordered b hb).2.2.1)
  · exact halfEven_mono (exactMean_mono fun b hb => (hordered b hb).2.2.2.1)
  · exact halfEven_mono (exactMean_mono fun b hb => (hordered b hb).2.2.2.2)

/-- What is averaged for a logger of a table is a percentile row again. -/
theorem averages_stay_percentiles {files : List Text} (hordered : ∀ b ∈ latencyBlocks files, Ordered b) :
    ∃ results, collectLatencyResults exactDivide files = some results ∧
      ∀ key logger a, ((results.get? key).getD .empty).get? logger = some a →
        OrderedRow a ∧ Between (loggerBlocks files key logger) a := by
  obtain ⟨results, hresults⟩ := collect_exact files
  refine ⟨results, hresults, ?_⟩
  intro key logger a ha
  rw [get?_results hresults] at ha
  split at ha
  · cases ha
  · rename_i hne
    refine ⟨average_ordered (fun b hb => hordered b ?_) ha, average_between hne ha⟩
    exact (List.mem_filter.1 (List.mem_filter.1 hb).1).1

def slowerBqlogFile : Text :=
  "bench: /r/BENCHMARK_bqlog_call_site_latency\n".toList ++
    "Thread Count 1 - Total messages 1 - Logger: Bqlog - Benchmark: X\n".toList ++
      "  |  4  |  4  |  9  |  10  |  20  |  60  |  80  |\n\n".toList

theorem averages_stay_percentiles_two :
    (∀ b ∈ latencyBlocks [bqlogFile upperBqlog, slowerBqlogFile], Ordered b) ∧
      (loggerBlocks [bqlogFile upperBqlog, slowerBqlogFile] (.intIntDouble, 1) upperBqlog).length = 2 ∧
      ∃ results, collectLatencyResults exactDivide [bqlogFile upperBqlog, slowerBqlogFile] = some results ∧
        ∀ key logger a, ((results.get? key).getD .empty).get? logger = some a →
          OrderedRow a ∧ Between (loggerBlocks [bqlogFile upperBqlog, slowerBqlogFile] key logger) a :=
  have hordered : ∀ b ∈ latencyBlocks [bqlogFile upperBqlog, slowerBqlogFile], Ordered b := by
    decide +kernel
  ⟨hordered, by decide +kernel, averages_stay_percentiles hordered⟩

end LoggerBenchmarks.LatencyMeans
