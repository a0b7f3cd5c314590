import Mathlib.Algebra.Order.Floor.Ring
import Mathlib.Data.Rat.Floor
import Mathlib.Tactic.Linarith
import LoggerBenchmarks.LatencyHarness
import LoggerBenchmarks.OrderStatistics

set_option autoImplicit false

/-!
# The percentiles are nearest-rank order statistics

Here the product of the number of samples and the percentile is exact.
-/
namespace LoggerBenchmarks.LatencyPercentiles
open LatencyHarness OrderStatistics

def exactRank (sampleCount : ℕ) (percentile : ℚ) : ℕ := ⌈(sampleCount : ℚ) * percentile⌉₊

def reported (latencies : List (List ℕ)) (percentile : ℚ) : ℕ :=
  selected exactRank (latenciesCombined latencies) percentile

def worst (latencies : List (List ℕ)) : ℕ :=
  (latenciesCombined latencies).getD ((latenciesCombined latencies).length - 1) 0

/-- At least the share `p` of the samples is at most `v`, and less than that share is below `v`. -/
structure NearestRank (samples : List ℕ) (p : ℚ) (v : ℕ) : Prop where
  sample : v ∈ samples
  enough : p * samples.length ≤ samples.countP (· ≤ v)
  fewer : (samples.countP (· < v) : ℚ) < p * samples.length

theorem NearestRank.perm {samples samples' : List ℕ} {p : ℚ} {v : ℕ} (h : NearestRank samples p v)
    (hp : samples.Perm samples') : NearestRank samples' p v where
  sample := hp.mem_iff.1 h.sample
  enough := by
    rw [← hp.length_eq, ← hp.countP_eq]
    exact h.enough
  fewer := by
    rw [← hp.length_eq, ← hp.countP_eq]
    exact h.fewer

theorem NearestRank.unique {samples : List ℕ} {p : ℚ} {v w : ℕ} (hv : NearestRank samples p v)
    (hw : NearestRank samples p w) : v = w :=
  rank_unique (Nat.mono_cast (α := ℚ)) hv.enough hv.fewer hw.enough hw.fewer

theorem exactRank_bounds {n : ℕ} (hn : 0 < n) {p : ℚ} (hp : 0 < p) (hp1 : p ≤ 1) :
    1 ≤ exactRank n p ∧ exactRank n p ≤ n := by
  have hn' : (0 : ℚ) < n := by exact_mod_cast hn
  constructor
  · exact Nat.ceil_pos.2 (mul_pos hn' hp)
  · exact Nat.ceil_le.2 (mul_le_of_le_one_right hn'.le hp1)

theorem percentileIndex_succ {n : ℕ} (hn : 0 < n) {p : ℚ} (hp : 0 < p) (hp1 : p ≤ 1) :
    percentileIndex exactRank n p + 1 = exactRank n p := by
  have hb := exactRank_bounds hn hp hp1
  have hne : exactRank n p ≠ 0 := by omega
  rw [percentileIndex, if_neg hne]
  omega

theorem exactRank_mono (n : ℕ) {p q : ℚ} (h : p ≤ q) : exactRank n p ≤ exactRank n q :=
  Nat.ceil_mono (mul_le_mul_of_nonneg_left h (Nat.cast_nonneg n))

section Combined

variable {latencies : List (List ℕ)}

theorem combined_sorted (latencies : List (List ℕ)) : (latenciesCombined latencies).Pairwise (· ≤ ·) := by
  have h := @List.pairwise_mergeSort _ (fun a b : ℕ => decide (a ≤ b))
    (by simpa using fun a b c => Nat.le_trans (n := a) (m := b) (k := c))
    (by simpa using Nat.le_total) latencies.flatten
  exact h.imp of_decide_eq_true

theorem combined_length (latencies : List (List ℕ)) :
    (latenciesCombined latencies).length = latencies.flatten.length :=
  (latenciesCombined_perm latencies).length_eq

variable (hne : latencies.flatten ≠ [])
include hne

theorem combined_pos : 0 < (latenciesCombined latencies).length := by
  rw [combined_length]
  exact List.length_pos_of_ne_nil hne

theorem reported_eq {p : ℚ} : reported latencies p =
    (latenciesCombined latencies).get ⟨percentileIndex exactRank (latenciesCombined latencies).length p,
      percentileIndex_lt exactRank (combined_pos hne) p⟩ := by
  rw [reported, selected]
  exact List.getD_eq_getElem _ _ _

theorem reported_nearestRank {p : ℚ} (hp : 0 < p) (hp1 : p ≤ 1) :
    NearestRank latencies.flatten p (reported latencies p) := by
  have hn := combined_pos hne
  have hlt := percentileIndex_lt exactRank hn p
  have hindex := percentileIndex_succ hn hp hp1
  have hsorted := combined_sorted latencies
  refine NearestRank.perm ?_ (latenciesCombined_perm latencies)
  rw [reported_eq hne]
  refine ⟨List.getElem_mem hlt, ?_, ?_⟩
  · have hcount := succ_le_countP_le hsorted hlt
    rw [hindex] at hcount
    have hceil : (latenciesCombined latencies).length * p ≤ exactRank (latenciesCombined latencies).length p :=
      Nat.le_ceil _
    rw [mul_comm]
    exact hceil.trans (by exact_mod_cast hcount)
  · have hcount := countP_lt_le hsorted hlt
    have hbelow : ((percentileIndex exactRank (latenciesCombined latencies).length p : ℕ) : ℚ) <
        (latenciesCombined latencies).length * p := by
      rw [← Nat.lt_ceil]
      change percentileIndex exactRank (latenciesCombined latencies).length p <
        exactRank (latenciesCombined latencies).length p
      omega
    rw [mul_comm]
    exact lt_of_le_of_lt (by exact_mod_cast hcount) hbelow

theorem reported_mono {p q : ℚ} (hp : 0 < p) (hpq : p ≤ q) (hq : q ≤ 1) :
    reported latencies p ≤ reported latencies q := by
  have hn := combined_pos hne
  have hindex := percentileIndex_succ hn hp (hpq.trans hq)
  have hindex' := percentileIndex_succ hn (hp.trans_le hpq) hq
  have hrank := exactRank_mono (latenciesCombined latencies).length hpq
  rw [reported_eq hne, reported_eq hne]
  exact getElem_mono (combined_sorted latencies) (by omega) _

theorem reported_le_worst (p : ℚ) : reported latencies p ≤ worst latencies := by
  have hn := combined_pos hne
  have hlt := percentileIndex_lt exactRank hn p
  rw [reported_eq hne, worst, List.getD_eq_getElem _ _ (by omega)]
  exact getElem_mono (combined_sorted latencies) (by omega) _

end Combined

/-- The index is in range and the value is the nearest-rank order statistic, which no other value
is; so it depends on the samples only, grows with the percentile and stays below the worst one. -/
theorem percentiles_are_nearest_rank {latencies : List (List ℕ)} (hne : latencies.flatten ≠ []) {p : ℚ}
    (hp : 0 < p) (hp1 : p ≤ 1) :
    percentileIndex exactRank latencies.flatten.length p < latencies.flatten.length ∧
      (∀ v, NearestRank latencies.flatten p v ↔ v = reported latencies p) ∧
      (∀ latencies' : List (List ℕ), latencies'.flatten.Perm latencies.flatten →
        reported latencies' p = reported latencies p) ∧
      (∀ q, p ≤ q → q ≤ 1 → reported latencies p ≤ reported latencies q) ∧
      reported latencies p ≤ worst latencies := by
  have hrank := reported_nearestRank hne hp hp1
  refine ⟨percentileIndex_lt _ (List.length_pos_of_ne_nil hne) p, ?_, ?_, ?_, reported_le_worst hne p⟩
  · intro v
    constructor
    · exact fun hv => hv.unique hrank
    · rintro rfl
      exact hrank
  · intro latencies' hperm
    have hne' : latencies'.flatten ≠ [] := fun h => hne ((h ▸ hperm).symm.eq_nil)
    exact ((reported_nearestRank hne' hp hp1).perm hperm).unique hrank
  · exact fun q hpq hq => reported_mono hne hp hpq hq

theorem percentiles_are_nearest_rank_median :
    ([[3, 1], [2]] : List (List ℕ)).flatten ≠ [] ∧ (0 : ℚ) < 1 / 2 ∧ (1 / 2 : ℚ) ≤ 1 ∧
      (∀ v, NearestRank ([[3, 1], [2]] : List (List ℕ)).flatten (1 / 2) v ↔
        v = reported [[3, 1], [2]] (1 / 2)) :=
  have hne : ([[3, 1], [2]] : List (List ℕ)).flatten ≠ [] := by decide
  ⟨hne, by norm_num, by norm_num, (percentiles_are_nearest_rank hne (by norm_num) (by norm_num)).2.1⟩

end LoggerBenchmarks.LatencyPercentiles
