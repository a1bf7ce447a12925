import Mathlib.Data.List.Basic

/-!
# Runs — guarded runs of a partial step function

`step s a` is the state after the action `a`, or `none` where `a` is not enabled.  A run under a
condition `ok` takes only steps whose condition held in the state before them; the condition
`Always` asks for nothing.  `exec` runs a list of actions, so that a concrete run can be evaluated
and then read as a `Run`.
-/

namespace FluxFast.Theory

universe u v

section Runs

variable {σ : Type u} {α : Type v} (step : σ → α → Option σ) (ok : σ → α → Prop)

inductive Run (s : σ) : σ → Prop
  | refl : Run s s
  | tail {t t' : σ} {a : α} : Run s t → ok t a → step t a = some t' → Run s t'

/-- The condition that every action meets. -/
def Always (_ : σ) (_ : α) : Prop := True

/-- Run the actions one after the other. -/
def exec (s : σ) : List α → Option σ
  | [] => some s
  | a :: as => (step s a).bind fun t => exec t as

variable {step ok}

theorem Run.trans {s t t' : σ} (h₁ : Run step ok s t) (h₂ : Run step ok t t') :
    Run step ok s t' := by
  induction h₂ with
  | refl => exact h₁
  | tail _ hok hstep ih => exact ih.tail hok hstep

theorem Run.head {s t t' : σ} {a : α} (hok : ok s a) (hstep : step s a = some t)
    (h : Run step ok t t') : Run step ok s t' :=
  (Run.refl.tail hok hstep).trans h

/-- A property of the first state that every allowed step keeps holds at the end of the run. -/
theorem Run.invariant {I : σ → Prop} {s t : σ} (h : Run step ok s t)
    (hkeep : ∀ t a t', I t → ok t a → step t a = some t' → I t') (hs : I s) : I t := by
  induction h with
  | refl => exact hs
  | tail _ hok hstep ih => exact hkeep _ _ _ ih hok hstep

theorem Run.mono {ok' : σ → α → Prop} {s t : σ} (h : Run step ok s t)
    (himp : ∀ t a, ok t a → ok' t a) : Run step ok' s t := by
  induction h with
  | refl => exact .refl
  | tail _ hok hstep ih => exact ih.tail (himp _ _ hok) hstep

theorem Run.of_exec {s t : σ} {as : List α} (h : exec step s as = some t) :
    Run step Always s t := by
  induction as generalizing s with
  | nil =>
    simp only [exec, Option.some.injEq] at h
    exact h ▸ .refl
  | cons a as ih =>
    obtain ⟨u, hu, hrest⟩ := Option.bind_eq_some_iff.mp h
    exact Run.head trivial hu (ih hrest)

end Runs

section Guarded

variable {σ : Type u} {α : Type v} (step : σ → α → Option σ)
variable (ok : σ → α → Prop) [∀ s a, Decidable (ok s a)]

/-- Run the actions, refusing an action whose condition fails. -/
def execUnder (s : σ) : List α → Option σ
  | [] => some s
  | a :: as => if ok s a then (step s a).bind fun t => execUnder t as else none

variable {step ok}

theorem Run.of_execUnder {s t : σ} {as : List α} (h : execUnder step ok s as = some t) :
    Run step ok s t := by
  induction as generalizing s with
  | nil =>
    simp only [execUnder, Option.some.injEq] at h
    exact h ▸ .refl
  | cons a as ih =>
    simp only [execUnder] at h
    split at h
    · next hok =>
      obtain ⟨u, hu, hrest⟩ := Option.bind_eq_some_iff.mp h
      exact Run.head hok hu (ih hrest)
    · cases h

end Guarded

/-! ## What one observer sees -/

section Views

variable {σ : Type u} {α : Type v} {ν : Type*} {step : σ → α → Option σ}

/-- Where the relevant actions act on a view of the state and the others leave it as it is, the
view at the end of a run is computed from the relevant actions alone. -/
theorem view_exec {view : σ → ν} {relevant : α → Bool} {viewStep : ν → α → ν} {I : σ → Prop}
    {ok : α → Prop}
    (hstep : ∀ s a s', I s → ok a → step s a = some s' →
      I s' ∧ view s' = if relevant a then viewStep (view s) a else view s)
    {as : List α} {s s' : σ} (hs : I s) (hok : ∀ a ∈ as, ok a) (h : exec step s as = some s') :
    I s' ∧ view s' = (as.filter relevant).foldl viewStep (view s) := by
  induction as generalizing s with
  | nil =>
    simp only [exec, Option.some.injEq] at h
    subst h
    exact ⟨hs, rfl⟩
  | cons a as ih =>
    obtain ⟨u, hu, hrest⟩ := Option.bind_eq_some_iff.mp h
    obtain ⟨hI, hview⟩ := hstep s a u hs (hok a (by simp)) hu
    obtain ⟨hI', hend⟩ := ih hI (fun b hb => hok b (List.mem_cons_of_mem _ hb)) hrest
    refine ⟨hI', hend.trans ?_⟩
    cases hrelevant : relevant a with
    | true =>
      rw [hrelevant, if_pos rfl] at hview
      rw [List.filter_cons_of_pos hrelevant, List.foldl_cons, hview]
    | false =>
      rw [hrelevant, if_neg (by decide)] at hview
      rw [List.filter_cons_of_neg (by simp [hrelevant]), hview]

end Views

/-! ## Folds -/

/-- A preorder respected by every iteration relates the two ends of a fold. -/
theorem foldl_relates {σ : Type u} {α : Type v} {R : σ → σ → Prop} {f : σ → α → σ}
    (hrefl : ∀ s, R s s) (htrans : ∀ {s t t'}, R s t → R t t' → R s t')
    (hstep : ∀ s a, R s (f s a)) (as : List α) (s : σ) : R s (as.foldl f s) := by
  induction as generalizing s with
  | nil => exact hrefl s
  | cons a as ih => exact htrans (hstep s a) (ih _)

/-- As `foldl_relates`, for iterations over elements with a property. -/
theorem foldl_relates_of_mem {σ : Type u} {α : Type v} {R : σ → σ → Prop} {f : σ → α → σ}
    (hrefl : ∀ s, R s s) (htrans : ∀ {s t t'}, R s t → R t t' → R s t') (as : List α)
    (hstep : ∀ s, ∀ a ∈ as, R s (f s a)) (s : σ) : R s (as.foldl f s) := by
  induction as generalizing s with
  | nil => exact hrefl s
  | cons a as ih =>
    refine htrans (hstep s a (by simp)) (ih (fun s b hb => hstep s b ?_) _)
    exact List.mem_cons_of_mem _ hb

theorem foldl_invariant {σ : Type u} {α : Type v} {I : σ → Prop} {f : σ → α → σ}
    (as : List α) (hstep : ∀ s, ∀ a ∈ as, I s → I (f s a)) {s : σ} (hs : I s) :
    I (as.foldl f s) := by
  induction as generalizing s with
  | nil => exact hs
  | cons a as ih =>
    exact ih (fun s b hb => hstep s b (List.mem_cons_of_mem _ hb)) (hstep s a (by simp) hs)

end FluxFast.Theory
