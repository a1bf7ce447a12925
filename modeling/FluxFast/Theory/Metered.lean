import Mathlib.Order.Basic

/-!
# Metered — computations that meet limits, side by side

A computation reads and writes a state that keeps books of the limits that were met.  `Covers` holds
two computations against each other, the second under larger limits: its answer is at least as good,
and the two differ only after the first one met a limit.
-/

namespace FluxFast.Theory

/-- A computation with an answer over the state `σ`. -/
def Work (σ α : Type) : Type := σ → α × σ

namespace Work

variable {σ α β φ : Type}

instance : Monad (Work σ) where
  pure a := fun s => (a, s)
  bind x f := fun s => f (x s).1 (x s).2

/-- Change the state. -/
def change (f : σ → σ) : Work σ Unit := fun s => (⟨⟩, f s)

/-- Read a part of the state. -/
def read (f : σ → α) : Work σ α := fun s => (f s, s)

@[simp] theorem pure_apply (a : α) (s : σ) : (pure a : Work σ α) s = (a, s) := rfl

theorem bind_apply (x : Work σ α) (f : α → Work σ β) (s : σ) :
    (x >>= f) s = f (x s).1 (x s).2 := rfl

@[simp] theorem change_apply (f : σ → σ) (s : σ) : change f s = (⟨⟩, f s) := rfl

@[simp] theorem read_apply (f : σ → α) (s : σ) : read f s = (f s, s) := rfl

end Work

/-- What is recorded of a state: the part that every computation restores, the budget that is used,
how many limits were met, whether one was met where the answer may hang on it, and whether the
budget was overdrawn. -/
structure Books (σ φ : Type) where
  frame : σ → φ
  used : σ → Nat
  met : σ → Nat
  lost : σ → Prop
  overdrawn : σ → Prop

section Metered

variable {σ α β φ : Type} {B : Books σ φ} {budget : Nat} {lockstep : Prop}
variable {R : α → α → Prop} {Q : β → β → Prop}

variable (B) in
/-- The computation restores the frame and strikes nothing from the books. -/
structure Keeps (x : Work σ α) : Prop where
  frame : ∀ s, B.frame (x s).2 = B.frame s
  used : ∀ s, B.used s ≤ B.used (x s).2
  met : ∀ s, B.met s ≤ B.met (x s).2
  lost : ∀ s, B.lost s → B.lost (x s).2
  overdrawn : ∀ s, B.overdrawn s → B.overdrawn (x s).2

theorem Keeps.pure (a : α) : Keeps B (Pure.pure a : Work σ α) :=
  ⟨fun _ => rfl, fun _ => Nat.le_refl _, fun _ => Nat.le_refl _, fun _ h => h, fun _ h => h⟩

theorem Keeps.read (f : σ → α) : Keeps B (Work.read f) :=
  ⟨fun _ => rfl, fun _ => Nat.le_refl _, fun _ => Nat.le_refl _, fun _ h => h, fun _ h => h⟩

theorem Keeps.bind {x : Work σ α} {f : α → Work σ β} (hx : Keeps B x) (hf : ∀ a, Keeps B (f a)) :
    Keeps B (x >>= f) where
  frame s := ((hf _).frame _).trans (hx.frame s)
  used s := Nat.le_trans (hx.used s) ((hf _).used _)
  met s := Nat.le_trans (hx.met s) ((hf _).met _)
  lost s h := (hf _).lost _ (hx.lost s h)
  overdrawn s h := (hf _).overdrawn _ (hx.overdrawn s h)

variable (B budget lockstep) in
/-- The frames agree, and in lockstep both used the same until the first budget is used up. -/
def InStep (s s' : σ) : Prop :=
  B.frame s = B.frame s' ∧ ((lockstep → B.used s = B.used s') ∨ budget ≤ B.used s)

variable (B budget lockstep R) in
/-- What two runs from states in step come to. -/
structure Outcome (s : σ) (r r' : α × σ) : Prop where
  answers : R r.1 r'.1
  same : r.1 = r'.1 ∨ (B.met s < B.met r.2 ∧ (¬lockstep ∨ budget ≤ B.used r.2))
  inStep : InStep B budget lockstep r.2 r'.2

variable (B budget lockstep R) in
/-- The answer of `x'` is at least that of `x`, unless `x` lost something, or outside lockstep `x'`
overdraws its own budget. -/
def AtLeast (x x' : Work σ α) : Prop :=
  ∀ s s', InStep B budget lockstep s s' → (lockstep ∨ ¬B.overdrawn (x' s').2) →
    ¬B.lost (x s).2 → R (x s).1 (x' s').1

variable (B budget lockstep R) in
/-- Besides, the answers differ only where `x` met a limit, and the states stay in step. -/
structure Covers (x x' : Work σ α) : Prop where
  left : Keeps B x
  right : Keeps B x'
  outcome : ∀ s s', InStep B budget lockstep s s' → (lockstep ∨ ¬B.overdrawn (x' s').2) →
    ¬B.lost (x s).2 → Outcome B budget lockstep R s (x s) (x' s')

theorem Covers.atLeast {x x' : Work σ α} (h : Covers B budget lockstep R x x') :
    AtLeast B budget lockstep R x x' :=
  fun s s' hstep hspare hlost => (h.outcome s s' hstep hspare hlost).answers

theorem AtLeast.of_forall {a : α} (h : ∀ b, R a b) (x' : Work σ α) :
    AtLeast B budget lockstep R (Pure.pure a) x' :=
  fun _ _ _ _ _ => h _

theorem Covers.pure {a : α} (h : R a a) :
    Covers B budget lockstep R (Pure.pure a) (Pure.pure a) where
  left := .pure a
  right := .pure a
  outcome _ _ hstep _ _ := ⟨h, .inl rfl, hstep⟩

/-- What depends on the frame only is read alike. -/
theorem Covers.read {g : σ → α} (f : φ → α) (hg : ∀ s, g s = f (B.frame s))
    (hrefl : ∀ a, R a a) : Covers B budget lockstep R (Work.read g) (Work.read g) where
  left := .read _
  right := .read _
  outcome s s' hstep _ _ := by
    have hread : g s = g s' := by rw [hg, hg, hstep.1]
    refine ⟨?_, .inl hread, hstep⟩
    simp only [Work.read_apply]
    rw [hread]
    exact hrefl _

/-- One computation after the other: where the first answers differ, only the order of the final
answers is asked for. -/
theorem Covers.bind {x x' : Work σ α} {f f' : α → Work σ β}
    (hx : Covers B budget lockstep R x x') (hf : ∀ a, Covers B budget lockstep Q (f a) (f' a))
    (hdiff : ∀ a a', R a a' → a ≠ a' → AtLeast B budget lockstep Q (f a) (f' a')) :
    Covers B budget lockstep Q (x >>= f) (x' >>= f') where
  left := hx.left.bind fun a => (hf a).left
  right := hx.right.bind fun a => (hf a).right
  outcome s s' hstep hspare hlost := by
    simp only [Work.bind_apply] at hspare hlost ⊢
    have hspare' : lockstep ∨ ¬B.overdrawn (x' s').2 :=
      hspare.imp_right fun h hover => h ((hf _).right.overdrawn _ hover)
    have hlost' : ¬B.lost (x s).2 := fun h => hlost ((hf _).left.lost _ h)
    have hout := hx.outcome s s' hstep hspare' hlost'
    have hmet := hx.left.met s
    by_cases heq : (x s).1 = (x' s').1
    · rw [← heq] at hspare ⊢
      have hrest := (hf (x s).1).outcome _ _ hout.inStep hspare hlost
      exact ⟨hrest.answers, hrest.same.imp_right fun h => ⟨Nat.lt_of_le_of_lt hmet h.1, h.2⟩,
        hrest.inStep⟩
    · obtain ⟨hgrew, hloose⟩ := hout.same.resolve_left heq
      have hgrew' := Nat.lt_of_lt_of_le hgrew ((hf (x s).1).left.met (x s).2)
      have hloose' : ¬lockstep ∨ budget ≤ B.used (f (x s).1 (x s).2).2 :=
        hloose.imp_right fun h => Nat.le_trans h ((hf _).left.used _)
      refine ⟨hdiff _ _ hout.answers heq _ _ hout.inStep hspare hlost, .inr ⟨hgrew', hloose'⟩, ?_, ?_⟩
      · rw [(hf _).left.frame, (hf _).right.frame]
        exact hout.inStep.1
      · exact hloose'.imp_left fun h hlock => absurd hlock h

/-- The same where equal first answers are all there is. -/
theorem Covers.bind_eq {x x' : Work σ α} {f f' : α → Work σ β}
    (hx : Covers B budget lockstep Eq x x') (hf : ∀ a, Covers B budget lockstep Q (f a) (f' a)) :
    Covers B budget lockstep Q (x >>= f) (x' >>= f') :=
  hx.bind hf fun _ _ heq hne => absurd heq hne

/-- A computation that only the first side stops before. -/
theorem Covers.guard {x x' : Work σ Bool} {y y' : Work σ β} {d : β}
    (hx : Covers B budget lockstep (· ≤ ·) x x') (hd : ∀ b, Q d b)
    (hy : Covers B budget lockstep Q y y') :
    Covers B budget lockstep Q (x >>= fun ok => if (!ok) = true then Pure.pure d else y)
      (x' >>= fun ok => if (!ok) = true then Pure.pure d else y') := by
  refine hx.bind (fun ok => ?_) fun ok ok' hle hne => ?_
  · cases ok with
    | false => exact .pure (hd d)
    | true => exact hy
  · cases ok with
    | false => exact .of_forall hd _
    | true =>
      cases ok' with
      | false => exact absurd hle (by decide)
      | true => exact absurd rfl hne

/-- A change of the state that leaves the budget alone. -/
theorem Covers.change {g g' : σ → σ} (hleft : Keeps B (Work.change g))
    (hright : Keeps B (Work.change g')) (hused : ∀ s, B.used (g s) = B.used s)
    (hused' : ∀ s, B.used (g' s) = B.used s) :
    Covers B budget lockstep Eq (Work.change g) (Work.change g') where
  left := hleft
  right := hright
  outcome s s' hstep _ _ := by
    refine ⟨rfl, .inl rfl, ?_, ?_⟩
    · rw [hleft.frame, hright.frame]
      exact hstep.1
    · simp only [Work.change_apply]
      rw [hused, hused']
      exact hstep.2

/-- Both runs change the frame alike, and change it back at the end. -/
theorem Covers.bracket {x x' : Work σ α} {enter leave : σ → σ}
    (hx : Covers B budget lockstep R x x') (act restore : φ → φ)
    (henter : ∀ s, B.frame (enter s) = act (B.frame s))
    (hleave : ∀ s, B.frame (leave s) = restore (B.frame s))
    (hrestore : ∀ s, restore (act (B.frame s)) = B.frame s)
    (hbooks : ∀ g ∈ [enter, leave], ∀ s, B.used (g s) = B.used s ∧ B.met (g s) = B.met s ∧
      (B.lost (g s) ↔ B.lost s) ∧ (B.overdrawn (g s) ↔ B.overdrawn s)) :
    Covers B budget lockstep R
      (do Work.change enter; let a ← x; Work.change leave; Pure.pure a)
      (do Work.change enter; let a ← x'; Work.change leave; Pure.pure a) := by
  have hin := hbooks enter (by simp)
  have hout := hbooks leave (by simp)
  -- either side keeps the books, since the change and its undoing touch none of them
  have hkeeps : ∀ y : Work σ α, Keeps B y →
      Keeps B (do Work.change enter; let a ← y; Work.change leave; Pure.pure a) := by
    intro y hy
    refine ⟨fun s => ?_, fun s => ?_, fun s => ?_, fun s h => ?_, fun s h => ?_⟩
    · show B.frame (leave (y (enter s)).2) = B.frame s
      rw [hleave, hy.frame, henter, hrestore]
    · show B.used s ≤ B.used (leave (y (enter s)).2)
      rw [(hout _).1, ← (hin s).1]
      exact hy.used _
    · show B.met s ≤ B.met (leave (y (enter s)).2)
      rw [(hout _).2.1, ← (hin s).2.1]
      exact hy.met _
    · exact (hout _).2.2.1.mpr (hy.lost _ ((hin s).2.2.1.mpr h))
    · exact (hout _).2.2.2.mpr (hy.overdrawn _ ((hin s).2.2.2.mpr h))
  refine ⟨hkeeps x hx.left, hkeeps x' hx.right, fun s s' hstep hspare hlost => ?_⟩
  -- inside the bracket both sides are in step as they were outside
  have hinside : InStep B budget lockstep (enter s) (enter s') := by
    refine ⟨by rw [henter, henter, hstep.1], ?_⟩
    rw [(hin s).1, (hin s').1]
    exact hstep.2
  have hspare' : lockstep ∨ ¬B.overdrawn (x' (enter s')).2 :=
    hspare.imp_right fun h hover => h ((hout _).2.2.2.mpr hover)
  have hlost' : ¬B.lost (x (enter s)).2 := fun h => hlost ((hout _).2.2.1.mpr h)
  obtain ⟨hanswers, hsame, hend⟩ := hx.outcome _ _ hinside hspare' hlost'
  -- what is shown of the inner work is carried through the undoing
  refine ⟨hanswers, ?_, ?_, ?_⟩
  · refine hsame.imp_right fun h => ?_
    rw [(hin s).2.1] at h
    show _ < B.met (leave (x (enter s)).2) ∧ (_ ∨ _ ≤ B.used (leave (x (enter s)).2))
    rw [(hout _).1, (hout _).2.1]
    exact h
  · show B.frame (leave (x (enter s)).2) = B.frame (leave (x' (enter s')).2)
    rw [hleave, hleave, hend.1]
  · show (_ → B.used (leave (x (enter s)).2) = B.used (leave (x' (enter s')).2)) ∨
      _ ≤ B.used (leave (x (enter s)).2)
    rw [(hout _).1, (hout _).1]
    exact hend.2

end Metered

end FluxFast.Theory
