import FluxFast.Core.Protocol
import Mathlib.Order.Lattice

/-!
# ResourceEpochs — the bounded race history

`ResourceEpochMap` remembers the epochs of at most 1024 keys.  A key it has forgotten answers with
the watermarks of everything evicted so far, never with epoch zero, so forgetting can only make an
old response look older: `epochOf` and `authorityOf` never decrease (`extends_set`).
-/

namespace FluxFast.Core

open FluxFast.Theory

structure ResourceEpoch where
  epoch : Nat
  authoritativeEpoch : Nat
  conservative : Bool := false
  deriving DecidableEq

def maxResourceEpochEntries : Nat := 1024

structure ResourceEpochMap where
  entries : OrderedMap String ResourceEpoch := .empty
  evictedEpoch : Nat := 0
  evictedAuthoritativeEpoch : Nat := 0

namespace ResourceEpochMap

def get (m : ResourceEpochMap) (key : String) : Option ResourceEpoch :=
  match m.entries.get? key with
  | some e => some e
  | none =>
    if m.evictedEpoch = 0 then none
    else some ⟨m.evictedEpoch, m.evictedAuthoritativeEpoch, true⟩

/-- Forget the oldest key. -/
def evictOldest (m : ResourceEpochMap) : ResourceEpochMap :=
  match m.entries.entries with
  | [] => m
  | (oldest, evicted) :: _ =>
    { entries := m.entries.delete oldest
      evictedEpoch := max m.evictedEpoch evicted.epoch
      evictedAuthoritativeEpoch := max m.evictedAuthoritativeEpoch evicted.authoritativeEpoch }

def evictLoop : Nat → ResourceEpochMap → ResourceEpochMap
  | 0, m => m
  | fuel + 1, m =>
    if maxResourceEpochEntries < m.entries.size then evictLoop fuel m.evictOldest else m

def set (m : ResourceEpochMap) (key : String) (value : ResourceEpoch) : ResourceEpochMap :=
  let written := { m with entries := (m.entries.delete key).set key value }
  written.evictLoop written.entries.size

def clear (_ : ResourceEpochMap) : ResourceEpochMap := {}

def epochOf (m : ResourceEpochMap) (key : String) : Nat := ((m.get key).map (·.epoch)).getD 0

def authorityOf (m : ResourceEpochMap) (key : String) : Nat :=
  ((m.get key).map (·.authoritativeEpoch)).getD 0

/-! ## What is remembered -/

theorem get_of_mem {m : ResourceEpochMap} {k : String} {e : ResourceEpoch}
    (h : m.entries.get? k = some e) : m.get k = some e := by
  simp [get, h]

theorem epochOf_of_mem {m : ResourceEpochMap} {k : String} {e : ResourceEpoch}
    (h : m.entries.get? k = some e) : m.epochOf k = e.epoch := by
  simp [epochOf, get_of_mem h]

theorem authorityOf_of_mem {m : ResourceEpochMap} {k : String} {e : ResourceEpoch}
    (h : m.entries.get? k = some e) : m.authorityOf k = e.authoritativeEpoch := by
  simp [authorityOf, get_of_mem h]

theorem epochOf_of_not_mem {m : ResourceEpochMap} {k : String}
    (h : m.entries.get? k = none) : m.epochOf k = m.evictedEpoch := by
  by_cases h0 : m.evictedEpoch = 0
  · simp [epochOf, get, h, h0]
  · simp [epochOf, get, h, h0]

/-- Watermarks that agree on there being none. -/
def Consistent (m : ResourceEpochMap) : Prop :=
  m.evictedAuthoritativeEpoch ≤ m.evictedEpoch ∧
    ∀ k e, m.entries.get? k = some e → e.authoritativeEpoch ≤ e.epoch

theorem authorityOf_of_not_mem {m : ResourceEpochMap} (hm : m.Consistent) {k : String}
    (h : m.entries.get? k = none) : m.authorityOf k = m.evictedAuthoritativeEpoch := by
  by_cases h0 : m.evictedEpoch = 0
  · have := hm.1
    simp only [authorityOf, get, h, h0, if_true, Option.map_none, Option.getD_none]
    omega
  · simp [authorityOf, get, h, h0]

theorem authorityOf_le_epochOf {m : ResourceEpochMap} (hm : m.Consistent) (k : String) :
    m.authorityOf k ≤ m.epochOf k := by
  cases h : m.entries.get? k with
  | none =>
    rw [authorityOf_of_not_mem hm h, epochOf_of_not_mem h]
    exact hm.1
  | some e =>
    rw [authorityOf_of_mem h, epochOf_of_mem h]
    exact hm.2 k e h

/-! ## Eviction -/

/-- `n` remembers at least as much authority as `m` about every key. -/
def Extends (m n : ResourceEpochMap) : Prop :=
  n.Consistent ∧ ∀ k, m.epochOf k ≤ n.epochOf k ∧ m.authorityOf k ≤ n.authorityOf k

theorem Extends.refl {m : ResourceEpochMap} (hm : m.Consistent) : m.Extends m :=
  ⟨hm, fun _ => ⟨le_refl _, le_refl _⟩⟩

theorem Extends.trans {m n p : ResourceEpochMap} (h₁ : m.Extends n) (h₂ : n.Extends p) :
    m.Extends p :=
  ⟨h₂.1, fun k => ⟨(h₁.2 k).1.trans (h₂.2 k).1, (h₁.2 k).2.trans (h₂.2 k).2⟩⟩

theorem extends_evictOldest {m : ResourceEpochMap} (hm : m.Consistent) :
    m.Extends m.evictOldest := by
  unfold evictOldest
  split
  · exact .refl hm
  -- the epochs of the evicted key go into the two floors, from which its reads are answered then
  · next oldest evicted rest heq =>
    have hev : m.entries.get? oldest = some evicted :=
      OrderedMap.get?_eq_some_iff.mpr (by rw [heq]; exact List.mem_cons_self ..)
    set n : ResourceEpochMap :=
      { entries := m.entries.delete oldest
        evictedEpoch := max m.evictedEpoch evicted.epoch
        evictedAuthoritativeEpoch :=
          max m.evictedAuthoritativeEpoch evicted.authoritativeEpoch } with hn
    have hcons : n.Consistent := by
      refine ⟨?_, fun k e hk => ?_⟩
      · exact sup_le_sup hm.1 (hm.2 _ _ hev)
      · by_cases hko : k = oldest
        · simp [hn, hko] at hk
        · exact hm.2 k e (by simpa [hn, OrderedMap.get?_delete_ne _ hko] using hk)
    -- No read goes back: the key reads the floor, and the floor is above it.
    refine ⟨hcons, fun k => ?_⟩
    by_cases hko : k = oldest
    · subst hko
      have hnone : n.entries.get? k = none := by simp [hn]
      rw [epochOf_of_not_mem hnone, authorityOf_of_not_mem hcons hnone, epochOf_of_mem hev,
        authorityOf_of_mem hev]
      exact ⟨le_max_right _ _, le_max_right _ _⟩
    -- another key has its own entry, or reads a floor that has only risen
    · have hsame : n.entries.get? k = m.entries.get? k := by
        simp [hn, OrderedMap.get?_delete_ne _ hko]
      cases hk : m.entries.get? k with
      | none =>
        rw [hk] at hsame
        rw [epochOf_of_not_mem hk, authorityOf_of_not_mem hm hk, epochOf_of_not_mem hsame,
          authorityOf_of_not_mem hcons hsame]
        exact ⟨le_max_left _ _, le_max_left _ _⟩
      | some e =>
        rw [hk] at hsame
        rw [epochOf_of_mem hk, authorityOf_of_mem hk, epochOf_of_mem hsame,
          authorityOf_of_mem hsame]
        exact ⟨le_refl _, le_refl _⟩

theorem extends_evictLoop (fuel : Nat) {m : ResourceEpochMap} (hm : m.Consistent) :
    m.Extends (evictLoop fuel m) := by
  induction fuel generalizing m with
  | zero => exact .refl hm
  | succ fuel ih =>
    unfold evictLoop
    split
    · have hone := extends_evictOldest hm
      exact hone.trans (ih hone.1)
    · exact .refl hm

/-- The key written last is the last to be forgotten. -/
theorem get?_evictLoop_last (fuel : Nat) {m : ResourceEpochMap} {k : String} {e : ResourceEpoch}
    {older : List (String × ResourceEpoch)} (h : m.entries.entries = older ++ [(k, e)]) :
    (evictLoop fuel m).entries.get? k = some e := by
  induction fuel generalizing m older with
  | zero =>
    exact OrderedMap.get?_eq_some_iff.mpr (by rw [evictLoop, h]; simp)
  | succ fuel ih =>
    unfold evictLoop
    split
    · next hover =>
      cases older with
      | nil =>
        simp only [OrderedMap.size, h, maxResourceEpochEntries] at hover
        simp at hover
      | cons x rest =>
        refine ih (show m.evictOldest.entries.entries = rest ++ [(k, e)] from ?_)
        have hnodup := m.entries.nodup
        rw [h] at hnodup
        simp only [evictOldest, h, List.cons_append, OrderedMap.delete, OrderedMap.without]
        have hx : ∀ y ∈ rest ++ [(k, e)], y.1 ≠ x.1 := by
          intro y hy hyx
          simp only [List.cons_append, List.map_cons, List.nodup_cons] at hnodup
          exact hnodup.1 (hyx ▸ List.mem_map_of_mem hy)
        rw [List.filter_cons_of_neg (by simp)]
        exact List.filter_eq_self.mpr fun y hy => by simpa using hx y hy
    · exact OrderedMap.get?_eq_some_iff.mpr (by rw [h]; simp)

/-! ## Writing -/

private theorem entries_set_after_delete (m : OrderedMap String ResourceEpoch) (k : String)
    (e : ResourceEpoch) :
    ((m.delete k).set k e).entries = (m.delete k).entries ++ [(k, e)] := by
  have hk : k ∉ (m.delete k).keys := fun hmem => (OrderedMap.mem_keys_delete.mp hmem).1 rfl
  simp [OrderedMap.set, hk]

theorem get?_set_self (m : ResourceEpochMap) (k : String) (e : ResourceEpoch) :
    (m.set k e).entries.get? k = some e :=
  get?_evictLoop_last _ (entries_set_after_delete m.entries k e)

@[simp] theorem get_set_self (m : ResourceEpochMap) (k : String) (e : ResourceEpoch) :
    (m.set k e).get k = some e :=
  get_of_mem (get?_set_self m k e)

@[simp] theorem epochOf_set_self (m : ResourceEpochMap) (k : String) (e : ResourceEpoch) :
    (m.set k e).epochOf k = e.epoch :=
  epochOf_of_mem (get?_set_self m k e)

@[simp] theorem authorityOf_set_self (m : ResourceEpochMap) (k : String) (e : ResourceEpoch) :
    (m.set k e).authorityOf k = e.authoritativeEpoch :=
  authorityOf_of_mem (get?_set_self m k e)

/-- Writing an epoch that is not older than the remembered one loses no authority. -/
theorem extends_set {m : ResourceEpochMap} (hm : m.Consistent) {k : String} {e : ResourceEpoch}
    (hepoch : m.epochOf k ≤ e.epoch) (hauth : m.authorityOf k ≤ e.authoritativeEpoch)
    (he : e.authoritativeEpoch ≤ e.epoch) : m.Extends (m.set k e) := by
  set written : ResourceEpochMap :=
    { m with entries := (m.entries.delete k).set k e } with hwritten
  -- written last, so the key is the newest; the others are read as before
  have hget : ∀ j, written.entries.get? j = if j = k then some e else m.entries.get? j := by
    intro j
    by_cases hj : j = k
    · simp [hwritten, hj]
    · simp [hwritten, OrderedMap.get?_set_ne _ _ hj, OrderedMap.get?_delete_ne _ hj, hj]
  have hcons : written.Consistent := by
    refine ⟨hm.1, fun j f hj => ?_⟩
    rw [hget] at hj
    split at hj
    · rw [← Option.some.inj hj]
      exact he
    · exact hm.2 j f hj
  have hext : m.Extends written := by
    refine ⟨hcons, fun j => ?_⟩
    have hj := hget j
    by_cases hjk : j = k
    · rw [if_pos hjk] at hj
      rw [epochOf_of_mem hj, authorityOf_of_mem hj, hjk]
      exact ⟨hepoch, hauth⟩
    · rw [if_neg hjk] at hj
      have hsame : written.get j = m.get j := by
        unfold get
        rw [hj]
      rw [epochOf, epochOf, authorityOf, authorityOf, hsame]
      exact ⟨le_refl _, le_refl _⟩
  -- making room afterwards lets no read go back either
  exact hext.trans (extends_evictLoop _ hcons)

/-! ## No epoch comes from the future -/

def UpTo (n : Nat) (m : ResourceEpochMap) : Prop :=
  m.evictedEpoch ≤ n ∧ ∀ k e, m.entries.get? k = some e → e.epoch ≤ n

theorem epochOf_le_of_upTo {n : Nat} {m : ResourceEpochMap} (h : UpTo n m) (k : String) :
    m.epochOf k ≤ n := by
  cases hk : m.entries.get? k with
  | none =>
    rw [epochOf_of_not_mem hk]
    exact h.1
  | some e =>
    rw [epochOf_of_mem hk]
    exact h.2 k e hk

theorem upTo_evictLoop {n : Nat} (fuel : Nat) {m : ResourceEpochMap} (h : UpTo n m) :
    UpTo n (evictLoop fuel m) := by
  induction fuel generalizing m with
  | zero => exact h
  | succ fuel ih =>
    unfold evictLoop
    split
    · refine ih ?_
      unfold evictOldest
      split
      · exact h
      · next oldest evicted rest heq =>
        have hev : m.entries.get? oldest = some evicted :=
          OrderedMap.get?_eq_some_iff.mpr (by rw [heq]; exact List.mem_cons_self ..)
        refine ⟨sup_le h.1 (h.2 _ _ hev), fun k e hk => ?_⟩
        rw [OrderedMap.get?_delete] at hk
        split at hk
        · cases hk
        · exact h.2 k e hk
    · exact h

theorem upTo_set {n : Nat} {m : ResourceEpochMap} (h : UpTo n m) {k : String} {e : ResourceEpoch}
    (he : e.epoch ≤ n) : UpTo n (m.set k e) := by
  refine upTo_evictLoop _ ⟨h.1, fun j f hj => ?_⟩
  rw [OrderedMap.get?_set] at hj
  split at hj
  · rw [← Option.some.inj hj]
    exact he
  · rw [OrderedMap.get?_delete] at hj
    split at hj
    · cases hj
    · exact h.2 j f hj

theorem UpTo.mono {n p : Nat} {m : ResourceEpochMap} (h : UpTo n m) (hnp : n ≤ p) : UpTo p m :=
  ⟨h.1.trans hnp, fun k e hk => (h.2 k e hk).trans hnp⟩

/-! ## Within the bound -/

theorem set_eq_of_size_le {m : ResourceEpochMap} {k : String} {e : ResourceEpoch}
    (h : ((m.entries.delete k).set k e).size ≤ maxResourceEpochEntries) :
    m.set k e = { m with entries := (m.entries.delete k).set k e } := by
  have hloop : ∀ fuel, evictLoop fuel { m with entries := (m.entries.delete k).set k e } =
      { m with entries := (m.entries.delete k).set k e } := by
    intro fuel
    cases fuel with
    | zero => rfl
    | succ fuel =>
      unfold evictLoop
      rw [if_neg (by simpa using h)]
  exact hloop _

theorem get_set_ne_of_size_le {m : ResourceEpochMap} {j k : String} {e : ResourceEpoch}
    (h : ((m.entries.delete k).set k e).size ≤ maxResourceEpochEntries) (hj : j ≠ k) :
    (m.set k e).get j = m.get j := by
  rw [set_eq_of_size_le h]
  simp [get, OrderedMap.get?_set_ne _ _ hj, OrderedMap.get?_delete_ne _ hj]

end ResourceEpochMap

end FluxFast.Core
