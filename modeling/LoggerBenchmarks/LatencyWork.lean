import Mathlib.Algebra.BigOperators.Ring.List
import Mathlib.Algebra.Ring.Nat
import LoggerBenchmarks.LatencyHarness

set_option autoImplicit false

/-!
# The work of a latency run

What the threads of `run_benchmark` log and measure between them, and what is then
printed about it. The times they measure are arbitrary.
-/
namespace LoggerBenchmarks.LatencyWork
open PythonText LatencyHarness

/-- The arguments `(i, j)` of the calls of `log_func` and the latencies of one thread. -/
structure Worker where
  calls : List (ℕ × ℕ)
  latencies : List ℕ

def messageLoop (i messages : ℕ) (calls : List (ℕ × ℕ)) : List (ℕ × ℕ) :=
  (List.range messages).foldl (fun calls j => calls ++ [(i, j)]) calls

def iteration (messages : ℕ) (measured : ℕ → ℕ) (w : Worker) (i : ℕ) : Worker :=
  ⟨messageLoop i messages w.calls, w.latencies ++ [measured i]⟩

def runLogBenchmark (numIterations messagesPerIteration : ℕ) (measured : ℕ → ℕ) : Worker :=
  if messagesPerIteration = 0 then ⟨[], []⟩
  else (List.range numIterations).foldl (iteration messagesPerIteration measured) ⟨[], []⟩

section Run

variable (threadCount numIterations messagesPerIteration : ℕ) (measured : ℕ → ℕ → ℕ)

def workers : List Worker :=
  (List.range threadCount).map fun threadNum =>
    runLogBenchmark numIterations (messagesForThread messagesPerIteration threadCount threadNum)
      (measured threadNum)

def finishedCall (benchmarkName : Text) : Call where
  benchmarkName := benchmarkName
  threadCount := threadCount
  numIterations := numIterations
  messagesPerIteration := messagesPerIteration
  latencies := (workers threadCount numIterations messagesPerIteration measured).map Worker.latencies

end Run

theorem messageLoop_eq (i messages : ℕ) (calls : List (ℕ × ℕ)) :
    messageLoop i messages calls = calls ++ (List.range messages).map fun j => (i, j) := by
  unfold messageLoop
  induction messages with
  | zero => simp
  | succ m ih => rw [List.range_succ, List.foldl_append, ih, List.map_append, List.foldl_cons,
      List.foldl_nil, List.append_assoc, List.map_singleton]

theorem iterations_eq (messages : ℕ) (measured : ℕ → ℕ) (n : ℕ) :
    (List.range n).foldl (iteration messages measured) ⟨[], []⟩ =
      ⟨(List.range n).flatMap fun i => (List.range messages).map fun j => (i, j),
        (List.range n).map measured⟩ := by
  induction n with
  | zero => rfl
  | succ n ih =>
    rw [List.range_succ, List.foldl_append, ih, List.foldl_cons, List.foldl_nil, iteration, messageLoop_eq]
    simp

/-- A thread makes every call `(i, j)` of its share once, and has one sample for each iteration
unless its share is empty. -/
theorem runLogBenchmark_eq (numIterations messages : ℕ) (measured : ℕ → ℕ) :
    runLogBenchmark numIterations messages measured =
      ⟨(List.range numIterations).flatMap fun i => (List.range messages).map fun j => (i, j),
        if messages = 0 then [] else (List.range numIterations).map measured⟩ := by
  unfold runLogBenchmark
  by_cases h : messages = 0
  · simp [h]
  · rw [if_neg h, if_neg h, iterations_eq]

theorem calls_length (numIterations messages : ℕ) (measured : ℕ → ℕ) :
    (runLogBenchmark numIterations messages measured).calls.length = numIterations * messages := by
  have hconst : ∀ n, ((List.range n).map fun _ => messages).sum = n * messages := by
    intro n
    rw [List.map_const', List.length_range, List.sum_replicate_nat]
  simp only [runLogBenchmark_eq, List.length_flatMap, List.length_map, List.length_range, hconst]

theorem latencies_length (numIterations messages : ℕ) (measured : ℕ → ℕ) :
    (runLogBenchmark numIterations messages measured).latencies.length =
      if messages = 0 then 0 else numIterations := by
  rw [runLogBenchmark_eq]
  split <;> simp

theorem ite_sum (i m n : ℕ) :
    ((List.range n).map fun k => if k = i then m else 0).sum = if i < n then m else 0 := by
  induction n with
  | zero => simp
  | succ n ih =>
    rw [List.range_succ, List.map_append, List.sum_append, ih, List.map_singleton, List.sum_singleton]
    split <;> split <;> split <;> omega

theorem calls_of_iteration {numIterations messages : ℕ} {measured : ℕ → ℕ} {i : ℕ} (h : i < numIterations) :
    (runLogBenchmark numIterations messages measured).calls.countP (·.1 = i) = messages := by
  have hone : ∀ k, ((List.range messages).map fun j => (k, j)).countP (fun c : ℕ × ℕ => c.1 = i) =
      if k = i then messages else 0 := by
    intro k
    by_cases hk : k = i
    · simp [List.countP_map, Function.comp_def, hk]
    · simp [List.countP_map, Function.comp_def, hk]
  simp only [runLogBenchmark_eq, List.countP_flatMap, Function.comp_def, hone]
  rw [ite_sum, if_pos h]

theorem messagesForThread_eq {threadCount : ℕ} (h : 1 ≤ threadCount) (messages threadNum : ℕ) :
    messagesForThread messages threadCount threadNum =
      messages / threadCount + if threadNum < messages % threadCount then 1 else 0 := by
  rw [messagesForThread, if_neg (by omega)]

theorem shares_sum (base remainder n : ℕ) :
    ((List.range n).map fun t => base + if t < remainder then 1 else 0).sum = n * base + min n remainder := by
  induction n with
  | zero => simp
  | succ n ih =>
    rw [List.range_succ, List.map_append, List.sum_append, ih, List.map_singleton, List.sum_singleton]
    rw [Nat.succ_mul]
    split <;> omega

/-- The shares add up to all messages. -/
theorem messagesForThread_sum {threadCount : ℕ} (h : 1 ≤ threadCount) (messages : ℕ) :
    ((List.range threadCount).map (messagesForThread messages threadCount)).sum = messages := by
  have hrem := Nat.mod_lt messages h
  have hdiv := Nat.div_add_mod messages threadCount
  have hsum := shares_sum (messages / threadCount) (messages % threadCount) threadCount
  rw [List.map_congr_left fun t _ => messagesForThread_eq h messages t, hsum]
  omega

/-- Shares differ by at most one, and an earlier thread has no less. -/
theorem messagesForThread_near {threadCount : ℕ} (h : 1 ≤ threadCount) (messages : ℕ) {s t : ℕ} (hst : s ≤ t) :
    messagesForThread messages threadCount t ≤ messagesForThread messages threadCount s ∧
      messagesForThread messages threadCount s ≤ messagesForThread messages threadCount t + 1 := by
  rw [messagesForThread_eq h, messagesForThread_eq h]
  constructor
  · split <;> split <;> omega
  · split <;> split <;> omega

theorem messagesForThread_eq_zero {threadCount : ℕ} (h : 1 ≤ threadCount) {messages t : ℕ}
    (ht : t < threadCount) : messagesForThread messages threadCount t = 0 ↔ messages ≤ t := by
  rw [messagesForThread_eq h]
  by_cases hm : messages < threadCount
  · rw [Nat.div_eq_of_lt hm, Nat.mod_eq_of_lt hm]
    split <;> omega
  · have hbase : 0 < messages / threadCount := Nat.div_pos (by omega) h
    constructor
    · intro hzero
      omega
    · intro hle
      omega

theorem busy_sum (numIterations messages n : ℕ) :
    ((List.range n).map fun t => if messages ≤ t then 0 else numIterations).sum =
      numIterations * min n messages := by
  induction n with
  | zero => simp
  | succ n ih =>
    rw [List.range_succ, List.map_append, List.sum_append, ih, List.map_singleton, List.sum_singleton]
    split
    · rw [Nat.min_eq_right (by omega), Nat.min_eq_right (by omega), Nat.add_zero]
    · rw [Nat.min_eq_left (by omega), Nat.min_eq_left (by omega), Nat.mul_succ]

section Totals

variable {threadCount : ℕ} (h : 1 ≤ threadCount) (numIterations messagesPerIteration : ℕ)
  (measured : ℕ → ℕ → ℕ)
include h

theorem total_calls :
    ((workers threadCount numIterations messagesPerIteration measured).map (·.calls.length)).sum =
      numIterations * messagesPerIteration := by
  have hthread : ((workers threadCount numIterations messagesPerIteration measured).map (·.calls.length)) =
      ((List.range threadCount).map (messagesForThread messagesPerIteration threadCount)).map
        (numIterations * ·) := by
    rw [workers, List.map_map, List.map_map]
    exact List.map_congr_left fun t _ => calls_length _ _ _
  rw [hthread, List.sum_map_mul_left, List.map_id', messagesForThread_sum h]

theorem total_samples (benchmarkName : Text) :
    (finishedCall threadCount numIterations messagesPerIteration measured benchmarkName).latencies.flatten.length =
      numIterations * min threadCount messagesPerIteration := by
  rw [finishedCall, List.length_flatten, workers, List.map_map, List.map_map, ← busy_sum]
  congr 1
  apply List.map_congr_left
  intro t ht
  simp only [Function.comp_apply, latencies_length,
    messagesForThread_eq_zero h (List.mem_range.1 ht)]

theorem hasSamples_iff (benchmarkName : Text) :
    (finishedCall threadCount numIterations messagesPerIteration measured benchmarkName).HasSamples ↔
      ¬ (numIterations = 0 ∨ messagesPerIteration = 0) := by
  have hlength := total_samples h numIterations messagesPerIteration measured benchmarkName
  have hcount : 0 < (finishedCall threadCount numIterations messagesPerIteration measured
      benchmarkName).threadCount := by
    change (0 : ℤ) < threadCount
    omega
  have hmin : min threadCount messagesPerIteration = 0 ↔ messagesPerIteration = 0 := by omega
  rw [Call.HasSamples, and_iff_right hcount, ← List.length_pos_iff, hlength, Nat.pos_iff_ne_zero, ne_eq,
    Nat.mul_eq_zero, hmin]

/-- The heading gives the number of calls, and the body says whether anything was measured. -/
theorem printed_eq (nearestRank : ℕ → ℚ → ℕ) (benchmarkName : Text)
    (hfits : numIterations * messagesPerIteration < 2 ^ 64) :
    runBenchmark nearestRank
        (finishedCall threadCount numIterations messagesPerIteration measured benchmarkName) =
      heading threadCount (numIterations * messagesPerIteration) benchmarkName ++
        if numIterations = 0 ∨ messagesPerIteration = 0 then noSamples
        else columnTitles ++ sampleRow nearestRank (latenciesCombined
          (finishedCall threadCount numIterations messagesPerIteration measured benchmarkName).latencies) := by
  have hiff := hasSamples_iff h numIterations messagesPerIteration measured benchmarkName
  have hnumbers : (finishedCall threadCount numIterations messagesPerIteration measured
      benchmarkName).headingNumbers = (threadCount, numIterations * messagesPerIteration) := by
    have hpos : ¬ (threadCount : ℤ) ≤ 0 := by omega
    simp only [Call.headingNumbers, finishedCall, if_neg hpos, Int.toNat_natCast, Nat.mod_eq_of_lt hfits]
  rw [runBenchmark_eq, hnumbers]
  congr 1
  by_cases hz : numIterations = 0 ∨ messagesPerIteration = 0
  · rw [if_neg (fun hs => hiff.1 hs hz), if_pos hz]
  · rw [if_pos (hiff.2 hz), if_neg hz]

end Totals

theorem noSamples_ne (t : Text) : columnTitles ++ t ≠ noSamples := by
  have hlong : 5 ≤ columnTitles.length := by decide +kernel
  have hfront : columnTitles.take 5 ≠ noSamples.take 5 := by decide +kernel
  intro h
  have htake := congrArg (List.take 5) h
  rw [List.take_append_of_le_length hlong] at htake
  exact hfront htake

/-- The split does all the work: `N * M` calls, which is the total printed, in shares that are as
even as possible, and a sample for each iteration of each thread that has a share. -/
theorem work_conserved (nearestRank : ℕ → ℚ → ℕ) (benchmarkName : Text) {threadCount numIterations
    messagesPerIteration : ℕ} (measured : ℕ → ℕ → ℕ) (hthreads : 1 ≤ threadCount)
    (hmessages : numIterations * messagesPerIteration < 2 ^ 64) :
    let threads := workers threadCount numIterations messagesPerIteration measured
    let call := finishedCall threadCount numIterations messagesPerIteration measured benchmarkName
    (threads.map (·.calls.length)).sum = numIterations * messagesPerIteration ∧
      call.headingNumbers = (threadCount, numIterations * messagesPerIteration) ∧
      (∀ i < numIterations, ∀ s t, (hst : s ≤ t) → (ht : t < threads.length) →
        threads[t].calls.countP (·.1 = i) ≤ threads[s].calls.countP (·.1 = i) ∧
          threads[s].calls.countP (·.1 = i) ≤ threads[t].calls.countP (·.1 = i) + 1) ∧
      call.latencies.flatten.length = numIterations * min threadCount messagesPerIteration ∧
      runBenchmark nearestRank call = heading threadCount (numIterations * messagesPerIteration) benchmarkName ++
        (if numIterations = 0 ∨ messagesPerIteration = 0 then noSamples
        else columnTitles ++ sampleRow nearestRank (latenciesCombined call.latencies)) ∧
      ((runBenchmark nearestRank call = heading threadCount (numIterations * messagesPerIteration)
          benchmarkName ++ noSamples) ↔ numIterations = 0 ∨ messagesPerIteration = 0) := by
  intro threads call
  have hprinted := printed_eq hthreads numIterations messagesPerIteration measured nearestRank benchmarkName hmessages
  refine ⟨total_calls hthreads _ _ measured, ?_, ?_, total_samples hthreads _ _ measured _, hprinted, ?_⟩
  · have hpos : ¬ (threadCount : ℤ) ≤ 0 := by omega
    simp only [call, Call.headingNumbers, finishedCall, if_neg hpos, Int.toNat_natCast,
      Nat.mod_eq_of_lt hmessages]
  · intro i hi s t hst ht
    have hshare : ∀ k, (hk : k < threads.length) → threads[k].calls.countP (·.1 = i) =
        messagesForThread messagesPerIteration threadCount k := by
      intro k hk
      simp only [threads, workers, List.getElem_map, List.getElem_range]
      exact calls_of_iteration hi
    rw [hshare t ht, hshare s (by omega)]
    exact messagesForThread_near hthreads _ hst
  · rw [hprinted, List.append_cancel_left_eq]
    by_cases hz : numIterations = 0 ∨ messagesPerIteration = 0
    · rw [if_pos hz]
      exact iff_of_true rfl hz
    · rw [if_neg hz]
      exact iff_of_false (noSamples_ne _) hz

/-- Two of the four threads have no share. -/
theorem work_conserved_more_threads :
    1 ≤ 4 ∧ 3 * 2 < 2 ^ 64 ∧
      (finishedCall 4 3 2 (fun t i => 10 * t + i) []).latencies.flatten.length = 3 * min 4 2 ∧
      runBenchmark (fun n _ => n) (finishedCall 4 3 2 (fun t i => 10 * t + i) []) = heading 4 (3 * 2) [] ++
        (if 3 = 0 ∨ 2 = 0 then noSamples
        else columnTitles ++ sampleRow (fun n _ => n)
          (latenciesCombined (finishedCall 4 3 2 (fun t i => 10 * t + i) []).latencies)) :=
  have h := @work_conserved (fun n _ => n) [] 4 3 2 (fun t i => 10 * t + i) (by decide) (by decide)
  ⟨by decide, by decide, h.2.2.2.1, h.2.2.2.2.1⟩

end LoggerBenchmarks.LatencyWork
