import Mathlib.Data.List.Basic
import Mathlib.Tactic.Common

/-!
# Asking — programs that ask their surroundings

A program runs over a state and draws one answer for each call to the outside.  It returns or raises;
it has no result where the answers end before it does.  `Ensures` is partial correctness, with one
rule for each way to put programs together.
-/

namespace FluxFast.Theory

def Asking (σ A ε α : Type) : Type := σ → List A → Option (Except ε α × σ × List A)

namespace Asking

variable {σ A ε α β : Type}

instance : Monad (Asking σ A ε) where
  pure a := fun s as => some (.ok a, s, as)
  bind p f := fun s as =>
    match p s as with
    | none => none
    | some (.error e, s, as) => some (.error e, s, as)
    | some (.ok a, s, as) => f a s as

def raise (e : ε) : Asking σ A ε α := fun s as => some (.error e, s, as)

def read (f : σ → α) : Asking σ A ε α := fun s as => some (.ok (f s), s, as)

def change (f : σ → σ) : Asking σ A ε Unit := fun s as => some (.ok (), f s, as)

def ask : Asking σ A ε A := fun s as =>
  match as with
  | [] => none
  | a :: as => some (.ok a, s, as)

/-- What a program raises becomes its value. -/
def attempt (p : Asking σ A ε α) : Asking σ A ε (Except ε α) := fun s as =>
  (p s as).map fun (r, s, as) => (.ok r, s, as)

/-- Rounds until one gives a value. -/
def rounds (body : Asking σ A ε (Option β)) : Nat → Asking σ A ε β
  | 0 => fun _ _ => none
  | n + 1 => body >>= fun
    | some b => pure b
    | none => rounds body n

/-- A loop.  Where each round asks, the rounds do not end before the answers do. -/
def forever (body : Asking σ A ε (Option β)) : Asking σ A ε β := fun s as =>
  rounds body (as.length + 1) s as

theorem bind_eq (p : Asking σ A ε α) (f : α → Asking σ A ε β) (s : σ) (as : List A) :
    (p >>= f) s as = match p s as with
      | none => none
      | some (.error e, s, as) => some (.error e, s, as)
      | some (.ok a, s, as) => f a s as := rfl

/-- A program of which every round asks for something. -/
def Asks (body : Asking σ A ε (Option β)) : Prop :=
  ∀ s as s' as', body s as = some (.ok none, s', as') → as'.length < as.length

theorem rounds_enough {body : Asking σ A ε (Option β)} (hbody : Asks body) {n m : Nat} (s : σ)
    (as : List A) (hn : as.length < n) (hm : as.length < m) :
    rounds body n s as = rounds body m s as := by
  induction n generalizing m s as with
  | zero => omega
  | succ n ih =>
    cases m with
    | zero => omega
    | succ m =>
      rw [rounds, rounds, bind_eq, bind_eq]
      cases hround : body s as with
      | none => rfl
      | some round =>
        obtain ⟨r, s', as'⟩ := round
        match r with
        | .error e => rfl
        | .ok (some b) => rfl
        | .ok none =>
          have hless := hbody s as s' as' hround
          exact ih s' as' (by omega) (by omega)

/-- After a round of the loop. -/
def onward (body : Asking σ A ε (Option β)) : Option β → Asking σ A ε β
  | some b => pure b
  | none => forever body

/-- A loop is its first round, and then itself. -/
theorem forever_eq {body : Asking σ A ε (Option β)} (hbody : Asks body) :
    forever body = body >>= onward body := by
  funext s as
  rw [forever, rounds, bind_eq, bind_eq]
  cases hround : body s as with
  | none => rfl
  | some round =>
    obtain ⟨r, s', as'⟩ := round
    match r with
    | .error e => rfl
    | .ok (some b) => rfl
    | .ok none =>
      have hless := hbody s as s' as' hround
      exact rounds_enough hbody s' as' hless (Nat.lt_succ_self _)

/-- A program that returns draws `n` answers at least. -/
def Draws (p : Asking σ A ε α) (n : Nat) : Prop :=
  ∀ s as a s' as', p s as = some (.ok a, s', as') → as'.length + n ≤ as.length

theorem draws_pure (a : α) : Draws (pure a : Asking σ A ε α) 0 := by
  intro s as b s' as' hrun
  cases hrun
  exact Nat.le_refl _

theorem draws_raise (e : ε) (n : Nat) : Draws (raise e : Asking σ A ε α) n := by
  intro s as a s' as' hrun
  cases hrun

theorem draws_read (f : σ → α) : Draws (read f : Asking σ A ε α) 0 := by
  intro s as a s' as' hrun
  cases hrun
  exact Nat.le_refl _

theorem draws_change (f : σ → σ) : Draws (change f : Asking σ A ε Unit) 0 := by
  intro s as a s' as' hrun
  cases hrun
  exact Nat.le_refl _

theorem draws_ask : Draws (ask : Asking σ A ε A) 1 := by
  intro s as a s' as' hrun
  cases as with
  | nil => cases hrun
  | cons b as =>
    cases hrun
    exact Nat.le_refl _

theorem Draws.bind {p : Asking σ A ε α} {f : α → Asking σ A ε β} {n m : Nat} (hp : Draws p n)
    (hf : ∀ a, Draws (f a) m) : Draws (p >>= f) (n + m) := by
  intro s as b s' as' hrun
  rw [bind_eq] at hrun
  cases hfirst : p s as with
  | none =>
    rw [hfirst] at hrun
    cases hrun
  | some first =>
    obtain ⟨result, s₁, as₁⟩ := first
    rw [hfirst] at hrun
    cases result with
    | error e => cases hrun
    | ok a =>
      have hn := hp s as a s₁ as₁ hfirst
      have hm := hf a s₁ as₁ b s' as' hrun
      omega

theorem Draws.asks {body : Asking σ A ε (Option β)} {n : Nat} (h : Draws body (n + 1)) :
    Asks body := by
  intro s as s' as' hrun
  have hless := h s as none s' as' hrun
  omega

theorem Draws.weaken {p : Asking σ A ε α} {n m : Nat} (h : Draws p n) (hm : m ≤ n) : Draws p m := by
  intro s as a s' as' hrun
  have hn := h s as a s' as' hrun
  omega

theorem asks_read (f : σ → α) {next : α → Asking σ A ε (Option β)} (h : ∀ a, Asks (next a)) :
    Asks (read f >>= next) := fun s as s' as' hrun => h (f s) s as s' as' hrun

/-- A round that is the last one. -/
theorem asks_last (p : Asking σ A ε α) (b : β) :
    Asks (p >>= fun _ => (pure (some b) : Asking σ A ε (Option β))) := by
  intro s as s' as' hrun
  rw [bind_eq] at hrun
  cases hfirst : p s as with
  | none =>
    rw [hfirst] at hrun
    cases hrun
  | some first =>
    obtain ⟨result, s₁, as₁⟩ := first
    rw [hfirst] at hrun
    cases result <;> cases hrun

/-! ## Partial correctness -/

/-- Whatever the answers, a run from `P` that comes to an end does so in `Q`. -/
def Ensures (P : σ → Prop) (p : Asking σ A ε α) (Q : Except ε α → σ → Prop) : Prop :=
  ∀ s as r s' as', P s → p s as = some (r, s', as') → Q r s'

variable {P I : σ → Prop} {p : Asking σ A ε α} {Q : Except ε α → σ → Prop}

theorem Ensures.weaken {P' : σ → Prop} {Q' : Except ε α → σ → Prop} (h : Ensures P p Q)
    (hP : ∀ s, P' s → P s) (hQ : ∀ r s, Q r s → Q' r s) : Ensures P' p Q' :=
  fun s as r s' as' hs hrun => hQ r s' (h s as r s' as' (hP s hs) hrun)

theorem ensures_pure {a : α} (h : ∀ s, P s → Q (.ok a) s) :
    Ensures P (pure a : Asking σ A ε α) Q := fun s as r s' as' hs hrun => by
  cases hrun
  exact h s hs

theorem ensures_raise {e : ε} (h : ∀ s, P s → Q (.error e) s) :
    Ensures P (raise e : Asking σ A ε α) Q := fun s as r s' as' hs hrun => by
  cases hrun
  exact h s hs

theorem ensures_read {f : σ → α} (h : ∀ s, P s → Q (.ok (f s)) s) :
    Ensures P (read f : Asking σ A ε α) Q := fun s as r s' as' hs hrun => by
  cases hrun
  exact h s hs

theorem ensures_change {f : σ → σ} {Q : Except ε Unit → σ → Prop} (h : ∀ s, P s → Q (.ok ()) (f s)) :
    Ensures P (change f : Asking σ A ε Unit) Q := fun s as r s' as' hs hrun => by
  cases hrun
  exact h s hs

theorem ensures_ask {Q : Except ε A → σ → Prop} (h : ∀ s a, P s → Q (.ok a) s) :
    Ensures P (ask : Asking σ A ε A) Q := fun s as r s' as' hs hrun => by
  cases as with
  | nil => cases hrun
  | cons a as =>
    cases hrun
    exact h s a hs

theorem Ensures.bind {R : Except ε α → σ → Prop} {f : α → Asking σ A ε β}
    {Q : Except ε β → σ → Prop} (hp : Ensures P p R) (hf : ∀ a, Ensures (R (.ok a)) (f a) Q)
    (herror : ∀ e s, R (.error e) s → Q (.error e) s) : Ensures P (p >>= f) Q := by
  intro s as r s' as' hs hrun
  rw [bind_eq] at hrun
  cases hfirst : p s as with
  | none =>
    rw [hfirst] at hrun
    cases hrun
  | some first =>
    obtain ⟨result, s₁, as₁⟩ := first
    rw [hfirst] at hrun
    have hR := hp s as result s₁ as₁ hs hfirst
    cases result with
    | error e =>
      cases hrun
      exact herror e _ hR
    | ok a => exact hf a s₁ as₁ r s' as' hR hrun

theorem ensures_attempt {Q : Except ε (Except ε α) → σ → Prop}
    (h : Ensures P p fun r s => Q (.ok r) s) : Ensures P (attempt p) Q := by
  intro s as r s' as' hs hrun
  obtain ⟨⟨result, s₁, as₁⟩, hp, hend⟩ := Option.map_eq_some_iff.mp hrun
  cases hend
  exact h s as _ _ _ hs hp

/-- What every round keeps, the loop keeps. -/
theorem ensures_forever {body : Asking σ A ε (Option β)} {Q : Except ε β → σ → Prop}
    (hbody : Ensures I body fun r s =>
      match r with
      | .ok none => I s
      | .ok (some b) => Q (.ok b) s
      | .error e => Q (.error e) s) : Ensures I (forever body) Q := by
  have hrounds : ∀ n, Ensures I (rounds body n) Q := by
    intro n
    induction n with
    | zero =>
      intro s as r s' as' _ hrun
      cases hrun
    | succ n ih =>
      refine Ensures.bind hbody (fun b => ?_) fun e s h => h
      cases b with
      | none => exact ih
      | some b => exact ensures_pure fun s h => h
  intro s as
  exact hrounds _ s as

end Asking

end FluxFast.Theory
