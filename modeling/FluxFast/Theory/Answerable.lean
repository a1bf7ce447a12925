import FluxFast.Theory.Metered

/-!
# Answerable — computations that account for their bad answers

A computation works inside a frame that it restores.  From a sound state it comes to a sound and
later one, and where its answer is bad the state says so: somewhere the blame is on record, and later
states keep it.
-/

namespace FluxFast.Theory

/-- What is watched of a state, and in which order the states come. -/
structure Accounts (σ φ : Type) where
  frame : σ → φ
  sound : σ → Prop
  later : σ → σ → Prop
  blamed : σ → Prop
  later_refl : ∀ s, later s s
  later_trans : ∀ s t u, later s t → later t u → later s u
  frame_later : ∀ s t, later s t → frame t = frame s
  blamed_later : ∀ s t, later s t → blamed s → blamed t

section Answerable

variable {σ φ α β : Type} {A : Accounts σ φ} {f : φ} {bad : α → Prop} {bad' : β → Prop}

variable (A f bad) in
/-- In the frame `f` the computation keeps the state sound, and a bad answer has blame on record. -/
def Answers (x : Work σ α) : Prop :=
  ∀ s, A.frame s = f → A.sound s →
    A.sound (x s).2 ∧ A.later s (x s).2 ∧ (bad (x s).1 → A.blamed (x s).2)

theorem Answers.mono {x : Work σ α} {worse : α → Prop} (h : Answers A f bad x)
    (himp : ∀ a, worse a → bad a) : Answers A f worse x := by
  intro s hframe hsound
  obtain ⟨hsound', hlater, hblame⟩ := h s hframe hsound
  exact ⟨hsound', hlater, fun hworse => hblame (himp _ hworse)⟩

theorem Answers.pure {a : α} (h : ¬bad a) : Answers A f bad (Pure.pure a) :=
  fun s _ hsound => ⟨hsound, A.later_refl s, fun hbad => absurd hbad h⟩

/-- What comes after a bad answer has nothing more to account for. -/
theorem Answers.bind {x : Work σ α} {g : α → Work σ β} (hx : Answers A f bad x)
    (hg : ∀ a, Answers A f (fun b => bad' b ∧ ¬bad a) (g a)) : Answers A f bad' (x >>= g) := by
  intro s hframe hsound
  obtain ⟨hmid, hlater, hblame⟩ := hx s hframe hsound
  have hframe' := (A.frame_later _ _ hlater).trans hframe
  obtain ⟨hend, hlater', hblame'⟩ := hg (x s).1 (x s).2 hframe' hmid
  refine ⟨hend, A.later_trans _ _ _ hlater hlater', fun hbad => ?_⟩
  by_cases hfirst : bad (x s).1
  · exact A.blamed_later _ _ hlater' (hblame hfirst)
  · exact hblame' ⟨hbad, hfirst⟩

/-- After a computation that has blame on record whatever it answers. -/
theorem Answers.then_any {x : Work σ α} {g : α → Work σ β}
    (hx : Answers A f (fun _ => True) x) (hg : ∀ a, Answers A f (fun _ => False) (g a)) :
    Answers A f bad' (x >>= g) :=
  hx.bind fun a => (hg a).mono fun _ h => h.2 trivial

/-- What is read of the frame is known. -/
theorem Answers.read {g : σ → α} {k : α → Work σ β} (h : φ → α) (hg : ∀ s, g s = h (A.frame s))
    (hk : Answers A f bad' (k (h f))) : Answers A f bad' (Work.read g >>= k) := by
  intro s hframe hsound
  show A.sound (k (g s) s).2 ∧ A.later s (k (g s) s).2 ∧ (bad' (k (g s) s).1 → A.blamed (k (g s) s).2)
  rw [hg, hframe]
  exact hk s hframe hsound

theorem Answers.change {g : σ → σ} (hsound : ∀ s, A.sound s → A.sound (g s))
    (hlater : ∀ s, A.sound s → A.later s (g s)) : Answers A f (fun _ => False) (Work.change g) :=
  fun s _ h => ⟨hsound s h, hlater s h, False.elim⟩

/-- A guard whose failure is accounted for. -/
theorem Answers.guard {x : Work σ Bool} {d : β} {y : Work σ β}
    (hx : Answers A f (· = false) x) (hy : Answers A f bad' y) :
    Answers A f bad' (x >>= fun ok => if (!ok) = true then Pure.pure d else y) := by
  refine hx.bind fun ok => ?_
  cases ok with
  | false => exact .pure fun h => h.2 rfl
  | true => exact hy.mono fun _ h => h.1

/-- Both answers have to hold. -/
theorem Answers.and {x y : Work σ Bool} (hx : Answers A f (· = false) x)
    (hy : Answers A f (· = false) y) :
    Answers A f (· = false) (do let valid ← x; let others ← y; return valid && others) := by
  refine hx.bind fun valid => hy.bind fun others => .pure ?_
  rintro ⟨⟨hboth, hvalid⟩, hothers⟩
  cases valid with
  | false => exact hvalid rfl
  | true =>
    cases others with
    | false => exact hothers rfl
    | true => exact absurd hboth (by decide)

/-- The computation works in another frame, which `enter` makes and `leave` takes down. -/
theorem Answers.bracket {x : Work σ α} {enter leave : σ → σ} {f' : φ}
    (hx : Answers A f' bad x) (henter : ∀ s, A.frame s = f → A.frame (enter s) = f')
    (hsound : ∀ s, A.sound s → A.sound (enter s))
    (hleave : ∀ s t, A.frame s = f → A.sound t → A.later (enter s) t →
      A.sound (leave t) ∧ A.later s (leave t))
    (hkeep : ∀ a t, bad a → A.blamed t → A.blamed (leave t)) :
    Answers A f bad (do Work.change enter; let a ← x; Work.change leave; Pure.pure a) := by
  intro s hframe hs
  obtain ⟨hmid, hlater, hblame⟩ := hx (enter s) (henter s hframe) (hsound s hs)
  obtain ⟨hend, hlater'⟩ := hleave s _ hframe hmid hlater
  exact ⟨hend, hlater', fun hbad => hkeep _ _ hbad (hblame hbad)⟩

end Answerable

end FluxFast.Theory
