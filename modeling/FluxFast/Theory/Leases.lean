import Mathlib

/-!
# Leases — keyed values that run out

What a cache with lifetimes and tags is for, without capacity, order or indexes: each key holds at
most one lease, a lease is alive before its deadline, and a tag drops every lease that carries it.
Two shelves that agree on what is alive go on to agree, whatever is done to both, and a shelf on one
clock tracks a shelf on another.
-/

namespace FluxFast.Theory

universe u v w x

structure Lease (α : Type u) (τ : Type v) (T : Type w) where
  content : α
  tags : List τ
  deadline : T

abbrev Shelf (κ : Type x) (α : Type u) (τ : Type v) (T : Type w) := κ → Option (Lease α τ T)

namespace Shelf

variable {κ : Type x} {α : Type u} {τ : Type v} {T : Type w}
variable [DecidableEq κ] [DecidableEq τ] [LinearOrder T]

def bare : Shelf κ α τ T := fun _ => none

def put (s : Shelf κ α τ T) (k : κ) (l : Lease α τ T) : Shelf κ α τ T :=
  Function.update s k (some l)

def drop (s : Shelf κ α τ T) (k : κ) : Shelf κ α τ T :=
  Function.update s k none

def dropTag (s : Shelf κ α τ T) (t : τ) : Shelf κ α τ T :=
  fun k => (s k).filter fun l => t ∉ l.tags

/-- The lease of `k`, while it is alive. -/
def alive (s : Shelf κ α τ T) (now : T) (k : κ) : Option (Lease α τ T) :=
  (s k).filter fun l => now < l.deadline

omit [DecidableEq κ] [DecidableEq τ] in
theorem alive_eq_some_iff {s : Shelf κ α τ T} {now : T} {k : κ} {l : Lease α τ T} :
    s.alive now k = some l ↔ s k = some l ∧ now < l.deadline := by
  simp [alive, Option.filter_eq_some_iff]

/-- What is alive from `now` on is the same. -/
def Agree (now : T) (s t : Shelf κ α τ T) : Prop :=
  ∀ k, s.alive now k = t.alive now k

variable {s t : Shelf κ α τ T} {now : T}

omit [DecidableEq τ] in
theorem alive_put (s : Shelf κ α τ T) (k j : κ) (l : Lease α τ T) :
    (s.put k l).alive now j =
      if j = k then (if now < l.deadline then some l else none) else s.alive now j := by
  by_cases hj : j = k
  · subst hj
    simp [alive, Shelf.put, Option.filter_some]
  · simp [alive, Shelf.put, hj]

omit [DecidableEq τ] in
theorem alive_drop (s : Shelf κ α τ T) (k j : κ) :
    (s.drop k).alive now j = if j = k then none else s.alive now j := by
  by_cases hj : j = k
  · subst hj
    simp [alive, Shelf.drop]
  · simp [alive, Shelf.drop, hj]

omit [DecidableEq κ] in
theorem alive_dropTag (s : Shelf κ α τ T) (tag : τ) (k : κ) :
    (s.dropTag tag).alive now k = (s.alive now k).filter fun l => tag ∉ l.tags := by
  simp only [alive, Shelf.dropTag, Option.filter_filter]
  exact congrArg (fun p => (s k).filter p) (funext fun l => Bool.and_comm _ _)

/-! ## The same leases on another clock

A clock has a reading at each tick.  The ticks from `limit` on do not come.
-/

section Clocks

/-- A deadline stands for the tick `e`: it is not reached before, and reached after; and at `e`
itself where it is sharp. -/
structure Marks (reading : ℕ → T) (limit : ℕ) (sharp : Prop) (deadline : T) (e : ℕ) : Prop where
  before : ∀ t < limit, t < e → reading t < deadline
  after : ∀ t < limit, e < t → deadline ≤ reading t
  sharp : sharp → e < limit → deadline ≤ reading e

/-- The shelf `s` holds what is alive on `a`, whose deadlines are ticks; at the ticks of `edges` it
may hold it still. -/
structure Tracks (reading : ℕ → T) (limit : ℕ) (edges : κ → ℕ → Prop) (now : ℕ)
    (s : Shelf κ α τ T) (a : Shelf κ α τ ℕ) : Prop where
  known : ∀ k l, s.alive (reading now) k = some l → ∃ m, a k = some m ∧ l.content = m.content ∧
    l.tags = m.tags ∧ Marks reading limit (¬edges k m.deadline) l.deadline m.deadline
  kept : ∀ k m, a.alive now k = some m → ∃ l, s.alive (reading now) k = some l

variable {reading : ℕ → T} {limit now : ℕ} {edges edges' : κ → ℕ → Prop} {s s' : Shelf κ α τ T}
  {a : Shelf κ α τ ℕ} {k : κ}

omit [DecidableEq κ] [DecidableEq τ] in
theorem tracks_bare : Tracks reading limit edges now (bare : Shelf κ α τ T) bare where
  known k l h := by cases h
  kept k m h := by cases h

omit [DecidableEq κ] [DecidableEq τ] in
theorem Tracks.of_agree (h : Tracks reading limit edges now s a)
    (hagree : Agree (reading now) s' s) : Tracks reading limit edges now s' a where
  known k l hl := h.known k l ((hagree k).symm.trans hl)
  kept k m hm := by
    rw [hagree k]
    exact h.kept k m hm

omit [DecidableEq κ] [DecidableEq τ] in
theorem Tracks.more_edges (h : Tracks reading limit edges now s a)
    (hmore : ∀ k e, edges k e → edges' k e) : Tracks reading limit edges' now s a where
  known k l hl := by
    obtain ⟨m, hm, hcontent, htags, hmarks⟩ := h.known k l hl
    refine ⟨m, hm, hcontent, htags, hmarks.before, hmarks.after, fun hsharp => hmarks.sharp ?_⟩
    exact fun hedge => hsharp (hmore _ _ hedge)
  kept := h.kept

omit [DecidableEq κ] [DecidableEq τ] in
theorem Tracks.later (h : Tracks reading limit edges now s a)
    (hmono : ∀ t u, t ≤ u → u < limit → reading t ≤ reading u) {later : ℕ} (hle : now ≤ later)
    (hlimit : later < limit) : Tracks reading limit edges later s a where
  known k l hl := by
    rw [alive_eq_some_iff] at hl
    exact h.known k l (alive_eq_some_iff.mpr ⟨hl.1, (hmono _ _ hle hlimit).trans_lt hl.2⟩)
  kept k m hm := by
    rw [alive_eq_some_iff] at hm
    obtain ⟨l, hl⟩ := h.kept k m (alive_eq_some_iff.mpr ⟨hm.1, hle.trans_lt hm.2⟩)
    obtain ⟨m', hm', -, -, hmarks⟩ := h.known k l hl
    obtain rfl := Option.some.inj (hm.1.symm.trans hm')
    exact ⟨l, alive_eq_some_iff.mpr ⟨(alive_eq_some_iff.mp hl).1, hmarks.before _ hlimit hm.2⟩⟩

omit [DecidableEq τ] in
theorem Tracks.put (h : Tracks reading limit edges now s a) (hlimit : now < limit) (k : κ) {l : Lease α τ T}
    {m : Lease α τ ℕ} (hcontent : l.content = m.content) (htags : l.tags = m.tags)
    (hmarks : Marks reading limit (¬edges k m.deadline) l.deadline m.deadline) :
    Tracks reading limit edges now (s.put k l) (a.put k m) where
  known j l' hl' := by
    rw [alive_put] at hl'
    split at hl'
    · next heq =>
      split at hl'
      · cases hl'
        exact ⟨m, by rw [heq, Shelf.put, Function.update_self], hcontent, htags, heq ▸ hmarks⟩
      · cases hl'
    · next hne =>
      rw [Shelf.put, Function.update_of_ne hne]
      exact h.known j l' hl'
  kept j m' hm' := by
    rw [alive_put] at hm' ⊢
    split at hm'
    · next heq =>
      split at hm'
      · next hlt => exact ⟨l, by rw [if_pos heq, if_pos (hmarks.before now hlimit hlt)]⟩
      · cases hm'
    · next hne =>
      rw [if_neg hne]
      exact h.kept j m' hm'

omit [DecidableEq τ] in
theorem Tracks.drop (h : Tracks reading limit edges now s a) (k : κ) :
    Tracks reading limit edges now (s.drop k) (a.drop k) where
  known j l hl := by
    rw [alive_drop] at hl
    split at hl
    · cases hl
    · next hne =>
      rw [Shelf.drop, Function.update_of_ne hne]
      exact h.known j l hl
  kept j m hm := by
    rw [alive_drop] at hm ⊢
    split at hm
    · cases hm
    · next hne =>
      rw [if_neg hne]
      exact h.kept j m hm

omit [DecidableEq κ] in
theorem Tracks.dropTag (h : Tracks reading limit edges now s a) (tag : τ) :
    Tracks reading limit edges now (s.dropTag tag) (a.dropTag tag) where
  known j l hl := by
    rw [alive_dropTag, Option.filter_eq_some_iff] at hl
    obtain ⟨m, hm, hcontent, htags, hmarks⟩ := h.known j l hl.1
    refine ⟨m, ?_, hcontent, htags, hmarks⟩
    rw [Shelf.dropTag, hm, Option.filter_eq_some_iff, ← htags]
    exact ⟨rfl, hl.2⟩
  kept j m hm := by
    rw [alive_dropTag, Option.filter_eq_some_iff] at hm
    obtain ⟨l, hl⟩ := h.kept j m hm.1
    obtain ⟨m', hm', -, htags, -⟩ := h.known j l hl
    obtain rfl := Option.some.inj ((alive_eq_some_iff.mp hm.1).1.symm.trans hm')
    refine ⟨l, ?_⟩
    rw [alive_dropTag, Option.filter_eq_some_iff, htags]
    exact ⟨hl, hm.2⟩

omit [DecidableEq κ] [DecidableEq τ] in
/-- But at the edges of a key, the shelf holds what is alive. -/
theorem Tracks.alive_eq (h : Tracks reading limit edges now s a) (hlimit : now < limit)
    (hedge : ¬edges k now) : (s.alive (reading now) k).map (fun l => (l.content, l.tags)) =
      (a.alive now k).map fun m => (m.content, m.tags) := by
  cases hl : s.alive (reading now) k with
  | none =>
    cases hm : a.alive now k with
    | none => rfl
    | some m =>
      obtain ⟨l, hkept⟩ := h.kept k m hm
      cases hl.symm.trans hkept
  | some l =>
    obtain ⟨m, hm, hcontent, htags, hmarks⟩ := h.known k l hl
    have hahead := (alive_eq_some_iff.mp hl).2
    have hlt : now < m.deadline := by
      rcases Nat.lt_trichotomy now m.deadline with hlt | heq | hgt
      · exact hlt
      · have hsharp := hmarks.sharp (heq ▸ hedge) (heq ▸ hlimit)
        rw [← heq] at hsharp
        exact absurd hahead (not_lt.mpr hsharp)
      · exact absurd hahead (not_lt.mpr (hmarks.after now hlimit hgt))
    rw [alive_eq_some_iff.mpr ⟨hm, hlt⟩, Option.map_some, Option.map_some, hcontent, htags]

end Clocks

end Shelf

end FluxFast.Theory
