import Mathlib.Data.List.Basic

set_option autoImplicit false

/-!
# Finite runs of a labelled transition function

A label resolves every choice of a step, so `step s a` is a partial function. A
run keeps each label beside the state in which it was taken: a condition on
the steps of a run is then a condition on the members of its trace.
-/
namespace LabelledRuns

variable {σ α : Type*} (step : σ → α → Option σ)

inductive Run : σ → List (σ × α) → σ → Prop where
  | refl (s : σ) : Run s [] s
  | next {s u v : σ} {a : α} {tr : List (σ × α)} (h : step s a = some u)
      (tail : Run u tr v) : Run s ((s, a) :: tr) v

def Reachable (s v : σ) : Prop := ∃ tr, Run step s tr v

def exec (s : σ) : List α → Option σ
  | [] => some s
  | a :: as => (step s a).bind fun u => exec u as

def trace (s : σ) : List α → List (σ × α)
  | [] => []
  | a :: as => (s, a) :: (step s a).elim [] fun u => trace u as

variable {step}

theorem Run.trans {s u v : σ} {tr tr' : List (σ × α)} (h : Run step s tr u)
    (h' : Run step u tr' v) : Run step s (tr ++ tr') v := by
  induction h with
  | refl _ => exact h'
  | next hs _ ih => exact .next hs (ih h')

theorem Run.single {s u : σ} {a : α} (h : step s a = some u) : Run step s [(s, a)] u :=
  .next h (.refl u)

theorem run_of_exec (step : σ → α → Option σ) (s : σ) (as : List α) {v : σ}
    (h : exec step s as = some v) : Run step s (trace step s as) v := by
  induction as generalizing s with
  | nil =>
    have hs : s = v := by simpa [exec] using h
    subst v
    exact .refl s
  | cons a as ih =>
    obtain ⟨u, hu, htail⟩ := Option.bind_eq_some_iff.1 h
    simp only [trace, hu, Option.elim_some]
    exact .next hu (ih u htail)

/-- A property that holds at the start and that every step keeps holds at the end. -/
theorem Run.invariant (I : σ → Prop) {s v : σ} {tr : List (σ × α)}
    (h : Run step s tr v) (hs : I s)
    (hstep : ∀ s a u, I s → step s a = some u → I u) : I v := by
  induction h with
  | refl _ => exact hs
  | next h _ ih => exact ih (hstep _ _ _ hs h)

/-- A step that meets `G` keeps `I`; one that does not leads into `K`, which is
never left. A run therefore ends in `I` or in `K` according to its labels. -/
theorem Run.keeps_or_breaks (G : σ → α → Prop) (I K : σ → Prop) {s v : σ}
    {tr : List (σ × α)} (h : Run step s tr v) (hs : I s)
    (hgood : ∀ s a u, I s → G s a → step s a = some u → I u)
    (hbad : ∀ s a u, I s → ¬ G s a → step s a = some u → K u)
    (hstay : ∀ s a u, K s → step s a = some u → K u) :
    ((∀ p ∈ tr, G p.1 p.2) ∧ I v) ∨ ((∃ p ∈ tr, ¬ G p.1 p.2) ∧ K v) := by
  induction h with
  | refl _ => exact .inl ⟨by simp, hs⟩
  | @next s u v a tr h tail ih =>
    by_cases hg : G s a
    · rcases ih (hgood s a u hs hg h) with ⟨hall, hv⟩ | ⟨⟨p, hp, hnp⟩, hv⟩
      · exact .inl ⟨by simpa [hg] using hall, hv⟩
      · exact .inr ⟨⟨p, List.mem_cons_of_mem _ hp, hnp⟩, hv⟩
    · exact .inr ⟨⟨(s, a), List.mem_cons_self, hg⟩,
        tail.invariant K (hbad s a u hs hg h) hstay⟩

def states (tr : List (σ × α)) (v : σ) : List σ := tr.map Prod.fst ++ [v]

theorem states_cons (s v : σ) (a : α) (tr : List (σ × α)) : states ((s, a) :: tr) v = s :: states tr v := rfl

/-- A property that every step meeting `G` keeps holds all along a run of such steps. -/
theorem Run.invariant_along (G : σ → α → Prop) (I : σ → Prop) {s v : σ} {tr : List (σ × α)}
    (h : Run step s tr v) (hs : I s) (hstep : ∀ s a u, I s → G s a → step s a = some u → I u)
    (hG : ∀ e ∈ tr, G e.1 e.2) : ∀ u ∈ states tr v, I u := by
  induction h with
  | refl _ => simpa [states] using hs
  | @next s u v a tr h tail ih =>
    obtain ⟨hhead, htail⟩ := List.forall_mem_cons.1 hG
    rw [states_cons]
    exact List.forall_mem_cons.2 ⟨hs, ih (hstep s a u hs hhead h) htail⟩

/-- If a step leads from `I` to `I`, and from `P` to `P` exactly when it meets `G`, then
`P` holds all along a run exactly when every step meets `G`. -/
theorem Run.along_iff (G : σ → α → Prop) (I P : σ → Prop) {s v : σ} {tr : List (σ × α)}
    (h : Run step s tr v) (hI : I s) (hP : P s) (hstep : ∀ s a u, I s → step s a = some u → I u)
    (hiff : ∀ s a u, I s → P s → step s a = some u → (P u ↔ G s a)) :
    (∀ u ∈ states tr v, P u) ↔ ∀ e ∈ tr, G e.1 e.2 := by
  constructor
  · intro hall
    induction h with
    | refl _ => simp
    | @next s u v a tr h tail ih =>
      rw [states_cons] at hall
      obtain ⟨-, hrest⟩ := List.forall_mem_cons.1 hall
      have hu : P u := by
        cases tail with
        | refl _ => exact hrest u (by simp [states])
        | next _ _ => exact hrest u List.mem_cons_self
      exact List.forall_mem_cons.2 ⟨(hiff s a u hI hP h).1 hu, ih (hstep s a u hI h) hu hrest⟩
  · intro hG u hu
    refine (h.invariant_along G (fun x => I x ∧ P x) ⟨hI, hP⟩ ?_ hG u hu).2
    exact fun s a u hs hg h => ⟨hstep s a u hs.1 h, (hiff s a u hs.1 hs.2 h).2 hg⟩

theorem Reachable.refl (s : σ) : Reachable step s s := ⟨[], .refl s⟩

theorem Reachable.trans {s u v : σ} (h : Reachable step s u) (h' : Reachable step u v) :
    Reachable step s v := by
  obtain ⟨tr, hr⟩ := h
  obtain ⟨tr', hr'⟩ := h'
  exact ⟨tr ++ tr', hr.trans hr'⟩

theorem Reachable.tail {s u v : σ} {a : α} (h : Reachable step s u)
    (hs : step u a = some v) : Reachable step s v :=
  h.trans ⟨_, .single hs⟩

theorem Reachable.invariant (I : σ → Prop) {s v : σ} (h : Reachable step s v) (hs : I s)
    (hstep : ∀ s a u, I s → step s a = some u → I u) : I v := by
  obtain ⟨tr, hr⟩ := h
  exact hr.invariant I hs hstep

/-- If an invariant state that is not final always has a step that lowers
`measure`, a final state can be reached from every invariant state. -/
theorem reaches_final (I final : σ → Prop) (measure : σ → ℕ)
    (hstep : ∀ s a u, I s → step s a = some u → I u)
    (hprogress : ∀ s, I s → ¬ final s → ∃ a u, step s a = some u ∧ measure u < measure s)
    (s : σ) (hs : I s) : ∃ v, Reachable step s v ∧ final v := by
  induction hn : measure s using Nat.strongRecOn generalizing s with
  | ind n ih =>
    by_cases hf : final s
    · exact ⟨s, .refl s, hf⟩
    · obtain ⟨a, u, hu, hlt⟩ := hprogress s hs hf
      obtain ⟨v, hv, hfv⟩ := ih (measure u) (by omega) u (hstep s a u hs hu) rfl
      exact ⟨v, Reachable.trans ⟨_, .single hu⟩ hv, hfv⟩

end LabelledRuns
