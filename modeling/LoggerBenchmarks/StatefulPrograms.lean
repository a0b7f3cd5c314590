import Mathlib.Data.List.Basic

set_option autoImplicit false

/-!
# Programs with a state and an exception

An exception does not undo what the program has done: the state at the place where
it was raised is what is left behind. A triple states what holds after a normal
end and what holds when an exception stops the program.
-/
namespace StatefulPrograms

variable {σ ε α β : Type}

def Prog (σ ε α : Type) := σ → Except ε α × σ

instance : Monad (Prog σ ε) where
  pure a := fun s => (.ok a, s)
  bind m f := fun s =>
    match m s with
    | (.ok a, s') => f a s'
    | (.error e, s') => (.error e, s')

def raise (e : ε) : Prog σ ε α := fun s => (.error e, s)

def observe (f : σ → α) : Prog σ ε α := fun s => (.ok (f s), s)

def update (f : σ → σ) : Prog σ ε Unit := fun s => (.ok (), f s)

theorem observe_bind (f : σ → α) (k : α → Prog σ ε β) (s : σ) : (observe f >>= k) s = k (f s) s := rfl

theorem ok_bind {m : Prog σ ε α} {s s' : σ} {a : α} (h : m s = (.ok a, s')) (k : α → Prog σ ε β) :
    (m >>= k) s = k a s' := by
  change (match m s with | (.ok a, s') => k a s' | (.error e, s') => (.error e, s')) = k a s'
  rw [h]

theorem error_bind {m : Prog σ ε α} {s s' : σ} {e : ε} (h : m s = (.error e, s')) (k : α → Prog σ ε β) :
    (m >>= k) s = (.error e, s') := by
  change (match m s with | (.ok a, s') => k a s' | (.error e, s') => (.error e, s')) = (.error e, s')
  rw [h]

theorem bind_ok {m : Prog σ ε α} {k : α → Prog σ ε β} {s s' : σ} {b : β} (h : (m >>= k) s = (.ok b, s')) :
    ∃ a s₁, m s = (.ok a, s₁) ∧ k a s₁ = (.ok b, s') := by
  rcases hm : m s with ⟨e | a, s₁⟩
  · rw [error_bind hm] at h
    cases h
  · exact ⟨a, s₁, rfl, (ok_bind hm k).symm.trans h⟩

theorem bind_assoc {δ : Type} (m : Prog σ ε α) (f : α → Prog σ ε β) (g : β → Prog σ ε δ) :
    (m >>= f) >>= g = m >>= fun a => f a >>= g := by
  funext s
  rcases hm : m s with ⟨e | a, s'⟩
  · exact (error_bind (error_bind hm f) g).trans (error_bind hm _).symm
  · rw [ok_bind hm]
    change (match (m >>= f) s with | (.ok b, s') => g b s' | (.error e, s') => (.error e, s')) = _
    rw [ok_bind hm]
    rfl

theorem eq_of_fst {m : Prog σ ε α} {s : σ} {r : Except ε α} (h : (m s).1 = r) : m s = (r, (m s).2) :=
  Prod.ext h rfl

theorem forM_cons_ok {f : α → Prog σ ε PUnit} {x : α} {s s' : σ} {u : PUnit} (h : f x s = (.ok u, s'))
    (xs : List α) : (x :: xs).forM f s = xs.forM f s' :=
  ok_bind h _

theorem forM_cons_error {f : α → Prog σ ε PUnit} {x : α} {s s' : σ} {e : ε} (h : f x s = (.error e, s'))
    (xs : List α) : (x :: xs).forM f s = (.error e, s') :=
  error_bind h _

theorem forM_singleton (f : α → Prog σ ε PUnit) (x : α) (s : σ) : [x].forM f s = f x s := by
  rcases hx : f x s with ⟨e | u, s'⟩
  · exact forM_cons_error hx []
  · exact forM_cons_ok hx []

theorem forM_append (f : α → Prog σ ε PUnit) (xs ys : List α) (s : σ) :
    (xs ++ ys).forM f s = (xs.forM f >>= fun _ => ys.forM f) s := by
  induction xs generalizing s with
  | nil => rfl
  | cons x xs ih =>
    rcases hx : f x s with ⟨e | u, s'⟩
    · exact (forM_cons_error hx _).trans (error_bind (forM_cons_error hx xs) _).symm
    · rw [List.cons_append, forM_cons_ok hx, ih s']
      rcases hxs : xs.forM f s' with ⟨e | v, s''⟩
      · exact (error_bind hxs _).trans (error_bind ((forM_cons_ok hx xs).trans hxs) _).symm
      · exact (ok_bind hxs _).trans (ok_bind ((forM_cons_ok hx xs).trans hxs) fun _ => ys.forM f).symm

theorem forM_skip {f : α → Prog σ ε PUnit} {xs : List α} {s : σ} (h : ∀ x ∈ xs, f x s = (.ok ⟨⟩, s)) (ys : List α) :
    (xs ++ ys).forM f s = ys.forM f s := by
  induction xs with
  | nil => rfl
  | cons x xs ih =>
    rw [List.cons_append, forM_cons_ok (h x List.mem_cons_self)]
    exact ih fun y hy => h y (List.mem_cons_of_mem x hy)

/-- From a state in `P` the program ends in `Q`, or it is stopped in `E`. -/
def Triple (P : σ → Prop) (m : Prog σ ε α) (Q : α → σ → Prop) (E : ε → σ → Prop) : Prop :=
  ∀ s, P s → match m s with
    | (.ok a, s') => Q a s'
    | (.error e, s') => E e s'

section Rules

variable {P P' : σ → Prop} {Q Q' : α → σ → Prop} {R : β → σ → Prop} {E E' : ε → σ → Prop}

theorem triple_pure (a : α) (h : ∀ s, P s → Q a s) : Triple P (pure a : Prog σ ε α) Q E :=
  fun s hs => h s hs

theorem triple_raise (e : ε) (h : ∀ s, P s → E e s) : Triple P (raise e : Prog σ ε α) Q E :=
  fun s hs => h s hs

theorem triple_observe {f : σ → α} (h : ∀ s, P s → Q (f s) s) : Triple P (observe f : Prog σ ε α) Q E :=
  fun s hs => h s hs

theorem triple_update {f : σ → σ} {Q : Unit → σ → Prop} (h : ∀ s, P s → Q () (f s)) :
    Triple P (update f : Prog σ ε Unit) Q E :=
  fun s hs => h s hs

theorem triple_bind {m : Prog σ ε α} {f : α → Prog σ ε β} (hm : Triple P m Q E)
    (hf : ∀ a, Triple (Q a) (f a) R E) : Triple P (m >>= f) R E := by
  intro s hs
  have h := hm s hs
  change match (match m s with | (.ok a, s') => f a s' | (.error e, s') => (.error e, s')) with
    | (.ok b, s') => R b s'
    | (.error e, s') => E e s'
  rcases hms : m s with ⟨e | a, s'⟩
  · rw [hms] at h
    exact h
  · rw [hms] at h
    exact hf a s' h

theorem triple_weaken {m : Prog σ ε α} (h : Triple P m Q E) (hP : ∀ s, P' s → P s)
    (hQ : ∀ a s, Q a s → Q' a s) (hE : ∀ e s, E e s → E' e s) : Triple P' m Q' E' := by
  intro s hs
  have hm := h s (hP s hs)
  rcases hms : m s with ⟨e | a, s'⟩
  · rw [hms] at hm
    exact hE e s' hm
  · rw [hms] at hm
    exact hQ a s' hm

theorem triple_and {P₂ : σ → Prop} {Q₂ : α → σ → Prop} {E₂ : ε → σ → Prop} {m : Prog σ ε α} (h : Triple P m Q E)
    (h₂ : Triple P₂ m Q₂ E₂) :
    Triple (fun s => P s ∧ P₂ s) m (fun a s => Q a s ∧ Q₂ a s) fun e s => E e s ∧ E₂ e s := by
  intro s hs
  have hm := h s hs.1
  have hm₂ := h₂ s hs.2
  rcases hms : m s with ⟨e | a, s'⟩ <;> rw [hms] at hm hm₂ <;> exact ⟨hm, hm₂⟩

/-- A fact about the start that the state does not change may be assumed. -/
theorem triple_of_forall {m : Prog σ ε α} (h : ∀ s, P s → Triple (fun s' => s' = s) m Q E) : Triple P m Q E :=
  fun s hs => h s hs s rfl

theorem triple_exists {ι : Type} {P : ι → σ → Prop} {m : Prog σ ε α} (h : ∀ i, Triple (P i) m Q E) :
    Triple (fun s => ∃ i, P i s) m Q E := by
  rintro s ⟨i, hs⟩
  exact h i s hs

theorem triple_ite {c : Prop} [Decidable c] {m m' : Prog σ ε α} (ht : c → Triple P m Q E)
    (hf : ¬ c → Triple P m' Q E) : Triple P (if c then m else m') Q E := by
  by_cases hc : c
  · rw [if_pos hc]
    exact ht hc
  · rw [if_neg hc]
    exact hf hc

/-- A loop keeps an invariant that may speak of the elements already handled. -/
theorem triple_forM {xs : List α} {f : α → Prog σ ε PUnit} (I : List α → σ → Prop)
    (hf : ∀ done x later, xs = done ++ x :: later →
      Triple (I done) (f x) (fun _ => I (done ++ [x])) E) :
    Triple (I []) (xs.forM f) (fun _ => I xs) E := by
  have hloop : ∀ done later, xs = done ++ later → Triple (I done) (later.forM f) (fun _ => I xs) E := by
    intro done later hsplit
    induction later generalizing done with
    | nil =>
      obtain rfl : xs = done := by simpa using hsplit
      exact triple_pure _ fun s hs => hs
    | cons x later ih =>
      refine triple_bind (hf done x later hsplit) fun _ => ?_
      exact ih (done ++ [x]) (by simpa using hsplit)
  exact hloop [] xs rfl

/-- A turn of the loop may use how its state was reached. -/
theorem triple_forM_reached {xs : List α} {f : α → Prog σ ε PUnit} {s₀ : σ} (I : List α → σ → Prop) (h₀ : I [] s₀)
    (hf : ∀ done x later s, xs = done ++ x :: later → done.forM f s₀ = (.ok ⟨⟩, s) → I done s →
      Triple (fun s' => s' = s) (f x) (fun _ => I (done ++ [x])) E) :
    Triple (fun s => s = s₀) (xs.forM f) (fun _ => I xs) E := by
  have hloop : Triple (fun s => List.forM [] f s₀ = (.ok ⟨⟩, s) ∧ I [] s) (xs.forM f)
      (fun _ s => xs.forM f s₀ = (.ok ⟨⟩, s) ∧ I xs s) E := by
    refine triple_forM (fun done s => done.forM f s₀ = (.ok ⟨⟩, s) ∧ I done s) fun done x later hsplit => ?_
    rintro s ⟨hreached, hI⟩
    have hturn := hf done x later s hsplit hreached hI s rfl
    rcases hx : f x s with ⟨e | u, s'⟩ <;> rw [hx] at hturn
    · exact hturn
    · refine ⟨?_, hturn⟩
      rw [forM_append]
      exact (ok_bind hreached _).trans ((forM_singleton f x s).trans hx)
  refine triple_weaken hloop ?_ (fun _ s hs => hs.2) fun _ _ hs => hs
  rintro s rfl
  exact ⟨rfl, h₀⟩

/-- Whether it ends or is stopped, the program leaves the invariant as it was. -/
def Keeps (I : σ → Prop) (m : Prog σ ε α) : Prop := Triple I m (fun _ => I) (fun _ => I)

variable {I : σ → Prop}

/-- What holds of the state at every end holds of the state that is left. -/
theorem triple_left {J : σ → Prop} {m : Prog σ ε α} (h : Triple P m (fun _ => J) (fun _ => J)) {s : σ} (hs : P s) :
    J (m s).2 := by
  have hm := h s hs
  rcases hrun : m s with ⟨e | a, s'⟩ <;> rw [hrun] at hm <;> exact hm

theorem triple_of_keeps {m : Prog σ ε α} (h : Keeps I m) : Triple I m (fun _ => I) fun _ _ => True :=
  triple_weaken h (fun _ hs => hs) (fun _ _ hs => hs) fun _ _ _ => trivial

theorem keeps_pure (a : α) : Keeps I (pure a : Prog σ ε α) := triple_pure a fun _ hs => hs

theorem keeps_raise (e : ε) : Keeps I (raise e : Prog σ ε α) := triple_raise e fun _ hs => hs

theorem keeps_observe (f : σ → α) : Keeps I (observe f : Prog σ ε α) := triple_observe fun _ hs => hs

theorem keeps_update {f : σ → σ} (h : ∀ s, I s → I (f s)) : Keeps I (update f : Prog σ ε Unit) :=
  triple_update h

theorem keeps_bind {m : Prog σ ε α} {f : α → Prog σ ε β} (hm : Keeps I m) (hf : ∀ a, Keeps I (f a)) :
    Keeps I (m >>= f) :=
  triple_bind hm hf

theorem keeps_ite {c : Prop} [Decidable c] {m m' : Prog σ ε α} (ht : c → Keeps I m) (hf : ¬ c → Keeps I m') :
    Keeps I (if c then m else m') :=
  triple_ite ht hf

theorem keeps_forM {xs : List α} {f : α → Prog σ ε PUnit} (hf : ∀ x ∈ xs, Keeps I (f x)) :
    Keeps I (xs.forM f) := by
  refine triple_forM (fun _ => I) fun done x later hsplit => hf x ?_
  rw [hsplit]
  exact List.mem_append_right _ List.mem_cons_self

/-- What was seen of the state may be used for the rest of the program. -/
theorem keeps_bind_observe {f : σ → α} {k : α → Prog σ ε β}
    (h : ∀ s, I s → Triple (fun s' => s' = s) (k (f s)) (fun _ => I) (fun _ => I)) :
    Keeps I (observe f >>= k) :=
  fun s hs => h s hs s rfl

end Rules

end StatefulPrograms
