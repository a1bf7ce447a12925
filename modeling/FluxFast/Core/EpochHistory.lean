import FluxFast.Core.Resources

/-!
# EpochHistory — the bounded epoch map beside a history that forgets nothing

`bumpResourceEpoch` and `clear` run on the bounded map and, side by side, on two unbounded ones:
`written` receives exactly the values the bounded map was set to, `bumped` computes its own values
from its own previous ones.  `Refines` relates the three after every call.

An epoch captured for a key is a number: what a bump returned, or `get(key)?.epoch ?? 0`.  Both are
`epochOf` at the moment of the capture.
-/

namespace FluxFast.Core

open FluxFast.Theory

/-- A map that forgets no key. -/
abbrev UnboundedEpochs := String → Option ResourceEpoch

/-- The value `bumpResourceEpoch` sets for a key that had the value `previous`. -/
def bumpedValue (previous : Option ResourceEpoch) (epoch : Nat) (speculative : Bool) :
    ResourceEpoch where
  epoch := epoch
  authoritativeEpoch :=
    if speculative then (previous.map (·.authoritativeEpoch)).getD 0 else epoch
  conservative := speculative && (previous.map (·.conservative)).getD false

inductive EpochCall where
  | bump (key : String) (speculative : Bool)
  | clear

structure EpochHistory where
  counter : Nat := 0
  epochs : ResourceEpochMap := {}
  written : UnboundedEpochs := fun _ => none
  bumped : UnboundedEpochs := fun _ => none

namespace EpochHistory

/-- One call; `clear` leaves the counter where it is. -/
def call (h : EpochHistory) : EpochCall → EpochHistory
  | .bump key speculative =>
    let epoch := h.counter + 1
    let value := bumpedValue (h.epochs.get key) epoch speculative
    { counter := epoch
      epochs := h.epochs.set key value
      written := Function.update h.written key (some value)
      bumped := Function.update h.bumped key
        (some (bumpedValue (h.bumped key) epoch speculative)) }
  | .clear =>
    { counter := h.counter
      epochs := h.epochs.clear }

def run (h : EpochHistory) (calls : List EpochCall) : EpochHistory := calls.foldl call h

end EpochHistory

/-- The router bumps its epochs exactly so. -/
theorem Resources.resourceEpochs_bump {V : Type} (r : Resources V) (key : String) (cause : Cause) :
    (r.bumpResourceEpoch key cause).resourceEpochs =
      r.resourceEpochs.set key (bumpedValue (r.resourceEpochs.get key)
        (r.resourceEpochCounter + 1) (!cause.authoritative)) := by
  cases hc : cause.authoritative
  · simp [bumpResourceEpoch, bumpedValue, hc]
  · simp [bumpResourceEpoch, bumpedValue, hc]

theorem bumpedValue_le {previous : Option ResourceEpoch} {epoch : Nat} {speculative : Bool}
    (h : ∀ e, previous = some e → e.authoritativeEpoch ≤ epoch) :
    (bumpedValue previous epoch speculative).authoritativeEpoch ≤ epoch := by
  cases speculative with
  | false => exact le_refl _
  | true =>
    cases previous with
    | none => exact Nat.zero_le _
    | some e => exact h e rfl

/-! ## What eviction keeps -/

namespace ResourceEpochMap

variable {m : ResourceEpochMap} {j k : String} {e f : ResourceEpoch}

/-- The head of an over-full map is what `evictOldest` takes out. -/
theorem evictOldest_cases (m : ResourceEpochMap) :
    (m.entries.entries = [] ∧ m.evictOldest = m) ∨
      ∃ oldest evicted, m.entries.get? oldest = some evicted ∧
        m.evictOldest =
          { entries := m.entries.delete oldest
            evictedEpoch := max m.evictedEpoch evicted.epoch
            evictedAuthoritativeEpoch :=
              max m.evictedAuthoritativeEpoch evicted.authoritativeEpoch } := by
  cases hes : m.entries.entries with
  | nil => exact .inl ⟨rfl, by simp [evictOldest, hes]⟩
  | cons x rest =>
    have hx : m.entries.get? x.1 = some x.2 :=
      OrderedMap.get?_eq_some_iff.mpr (by rw [hes]; exact List.mem_cons_self ..)
    exact .inr ⟨x.1, x.2, hx, by simp [evictOldest, hes]⟩

theorem get?_of_evictLoop (fuel : Nat) (h : (evictLoop fuel m).entries.get? j = some f) :
    m.entries.get? j = some f := by
  induction fuel generalizing m with
  | zero => exact h
  | succ fuel ih =>
    unfold evictLoop at h
    split at h
    · have hone := ih h
      rcases evictOldest_cases m with ⟨-, heq⟩ | ⟨oldest, evicted, -, heq⟩
      · rwa [heq] at hone
      · rw [heq] at hone
        by_cases hj : j = oldest
        · simp [hj] at hone
        · rwa [OrderedMap.get?_delete_ne _ hj] at hone
    · exact h

theorem get?_of_set (h : (m.set k e).entries.get? j = some f) :
    (j = k ∧ f = e) ∨ (j ≠ k ∧ m.entries.get? j = some f) := by
  have hwritten := get?_of_evictLoop _ h
  by_cases hj : j = k
  · subst hj
    simp only [OrderedMap.get?_set_self, Option.some.injEq] at hwritten
    exact .inl ⟨rfl, hwritten.symm⟩
  · rw [OrderedMap.get?_set_ne _ _ hj, OrderedMap.get?_delete_ne _ hj] at hwritten
    exact .inr ⟨hj, hwritten⟩

theorem size_evictLoop (fuel : Nat) (h : m.entries.size ≤ maxResourceEpochEntries + fuel) :
    (evictLoop fuel m).entries.size ≤ maxResourceEpochEntries := by
  induction fuel generalizing m with
  | zero => exact h
  | succ fuel ih =>
    unfold evictLoop
    split
    · next hover =>
      apply ih
      rcases evictOldest_cases m with ⟨hnil, -⟩ | ⟨oldest, evicted, hget, heq⟩
      · simp only [OrderedMap.size, hnil, List.length_nil] at hover
        omega
      · have hsize := OrderedMap.size_delete_of_mem (OrderedMap.mem_keys_of_get? hget)
        rw [heq]
        show (m.entries.delete oldest).size ≤ _
        omega
    · omega

theorem size_set_le (m : ResourceEpochMap) (k : String) (e : ResourceEpoch) :
    (m.set k e).entries.size ≤ maxResourceEpochEntries :=
  size_evictLoop _ (Nat.le_add_left _ _)

/-! ## Everything known is newer than an epoch -/

/-- Every remembered epoch is above `c`, and so is the watermark unless nothing was evicted. -/
def Above (c : Nat) (m : ResourceEpochMap) : Prop :=
  (∀ k e, m.entries.get? k = some e → c < e.epoch) ∧ (m.evictedEpoch = 0 ∨ c < m.evictedEpoch)

theorem above_evictLoop {c : Nat} (fuel : Nat) (h : m.Above c) : (evictLoop fuel m).Above c := by
  induction fuel generalizing m with
  | zero => exact h
  | succ fuel ih =>
    unfold evictLoop
    split
    · apply ih
      rcases evictOldest_cases m with ⟨-, heq⟩ | ⟨oldest, evicted, hget, heq⟩
      · rwa [heq]
      · rw [heq]
        refine ⟨fun k e hk => ?_, .inr (lt_max_of_lt_right (h.1 _ _ hget))⟩
        rw [OrderedMap.get?_delete] at hk
        split at hk
        · cases hk
        · exact h.1 k e hk
    · exact h

theorem above_set {c : Nat} (h : m.Above c) (he : c < e.epoch) : (m.set k e).Above c := by
  apply above_evictLoop
  refine ⟨fun j f hj => ?_, h.2⟩
  rw [OrderedMap.get?_set] at hj
  split at hj
  · rw [← Option.some.inj hj]
    exact he
  · rw [OrderedMap.get?_delete] at hj
    split at hj
    · cases hj
    · exact h.1 j f hj

theorem above_empty (c : Nat) : Above c {} :=
  ⟨fun _ _ hk => (Option.some_ne_none _ hk.symm).elim, .inl rfl⟩

/-- A key answers with a remembered value, with the watermarks, or not at all. -/
theorem get_cases (m : ResourceEpochMap) (k : String) :
    (∃ e, m.entries.get? k = some e ∧ m.get k = some e) ∨
      (m.entries.get? k = none ∧ 0 < m.evictedEpoch ∧
        m.get k = some ⟨m.evictedEpoch, m.evictedAuthoritativeEpoch, true⟩) ∨
      (m.entries.get? k = none ∧ m.evictedEpoch = 0 ∧ m.get k = none) := by
  cases hk : m.entries.get? k with
  | some e => exact .inl ⟨e, rfl, get_of_mem hk⟩
  | none =>
    by_cases h0 : m.evictedEpoch = 0
    · exact .inr (.inr ⟨rfl, h0, by simp [get, hk, h0]⟩)
    · exact .inr (.inl ⟨rfl, Nat.pos_of_ne_zero h0, by simp [get, hk, h0]⟩)

theorem get_ne_of_above {c : Nat} (h : m.Above c) :
    (m.get k).map (·.epoch) ≠ some c := by
  rcases get_cases m k with ⟨e, hmem, hget⟩ | ⟨-, hpos, hget⟩ | ⟨-, -, hget⟩
  · have := h.1 k e hmem
    simp only [hget, Option.map_some, ne_eq, Option.some.injEq]
    omega
  · have := h.2
    simp only [hget, Option.map_some, ne_eq, Option.some.injEq]
    omega
  · simp [hget]

theorem get_ne_of_lt {c : Nat} (h : c < m.epochOf k) : (m.get k).map (·.epoch) ≠ some c := by
  intro heq
  rw [epochOf, heq, Option.getD_some] at h
  exact Nat.lt_irrefl _ h

theorem get_of_epochOf_pos (h : 0 < m.epochOf k) :
    ∃ e, m.get k = some e ∧ m.epochOf k = e.epoch ∧ m.authorityOf k = e.authoritativeEpoch := by
  cases hget : m.get k with
  | none => simp [epochOf, hget] at h
  | some e => exact ⟨e, rfl, by simp [epochOf, hget], by simp [authorityOf, hget]⟩

end ResourceEpochMap

/-! ## The relation between the three maps -/

namespace EpochHistory

variable {h : EpochHistory} {k : String}

/-- What an unbounded map says of a key is never newer than the bounded answer. -/
def Bounds (u : UnboundedEpochs) (m : ResourceEpochMap) : Prop :=
  ∀ k v, u k = some v →
    0 < v.epoch ∧ v.epoch ≤ m.epochOf k ∧ v.authoritativeEpoch ≤ m.authorityOf k

structure Refines (h : EpochHistory) : Prop where
  consistent : h.epochs.Consistent
  upTo : h.epochs.UpTo h.counter
  size : h.epochs.entries.size ≤ maxResourceEpochEntries
  written : Bounds h.written h.epochs
  bumped : Bounds h.bumped h.epochs
  remembered : ∀ k e, h.epochs.entries.get? k = some e →
    h.written k = some e ∧ (e.conservative = false → h.bumped k = some e)

theorem refines_empty (counter : Nat) : Refines { counter := counter } where
  consistent := ⟨le_refl _, fun _ _ hk => (Option.some_ne_none _ hk.symm).elim⟩
  upTo := ⟨Nat.zero_le _, fun _ _ hk => (Option.some_ne_none _ hk.symm).elim⟩
  size := Nat.zero_le _
  written := fun _ _ hk => (Option.some_ne_none _ hk.symm).elim
  bumped := fun _ _ hk => (Option.some_ne_none _ hk.symm).elim
  remembered := fun _ _ hk => (Option.some_ne_none _ hk.symm).elim

theorem Bounds.update {u : UnboundedEpochs} {m n : ResourceEpochMap} {v e : ResourceEpoch}
    (hu : Bounds u m) (hext : m.Extends n) (hn : n.get k = some e) (hpos : 0 < v.epoch)
    (hepoch : v.epoch ≤ e.epoch) (hauth : v.authoritativeEpoch ≤ e.authoritativeEpoch) :
    Bounds (Function.update u k (some v)) n := by
  intro j w hj
  by_cases hjk : j = k
  · subst hjk
    simp only [Function.update_self, Option.some.injEq] at hj
    subst hj
    simp only [ResourceEpochMap.epochOf, ResourceEpochMap.authorityOf, hn, Option.map_some,
      Option.getD_some]
    exact ⟨hpos, hepoch, hauth⟩
  · rw [Function.update_of_ne hjk] at hj
    have hw := hu j w hj
    have hle := hext.2 j
    exact ⟨hw.1, hw.2.1.trans hle.1, hw.2.2.trans hle.2⟩

/-- A map the history refines has forgotten every key it holds nothing newer about. -/
theorem Refines.bumped_none (hr : h.Refines) (hget : h.epochs.get k = none) :
    h.bumped k = none := by
  cases hk : h.bumped k with
  | none => rfl
  | some v =>
    have hv := hr.bumped k v hk
    have hzero : h.epochs.epochOf k = 0 := by simp [ResourceEpochMap.epochOf, hget]
    omega

/-- The authority a speculative bump carries over is at least the unbounded one. -/
theorem Refines.authority_le (hr : h.Refines) (k : String) :
    ((h.bumped k).map (·.authoritativeEpoch)).getD 0 ≤ h.epochs.authorityOf k := by
  cases hk : h.bumped k with
  | none => exact Nat.zero_le _
  | some v => exact (hr.bumped k v hk).2.2

/-- A key that answers without the mark is remembered by both unbounded maps. -/
theorem Refines.exact (hr : h.Refines) {e : ResourceEpoch} (hget : h.epochs.get k = some e)
    (hmark : e.conservative = false) : h.written k = some e ∧ h.bumped k = some e := by
  rcases ResourceEpochMap.get_cases h.epochs k with
    ⟨f, hmem, hf⟩ | ⟨-, -, hwater⟩ | ⟨-, -, hnone⟩
  · rw [hget, Option.some.injEq] at hf
    subst hf
    have hboth := hr.remembered k e hmem
    exact ⟨hboth.1, hboth.2 hmark⟩
  · -- a watermark answer always carries the mark
    rw [hget, Option.some.injEq] at hwater
    rw [hwater] at hmark
    cases hmark
  · rw [hget] at hnone
    cases hnone

/-- A bump without the mark saw the same previous value in both maps. -/
theorem Refines.value_eq (hr : h.Refines) {epoch : Nat} {speculative : Bool}
    (hmark : (bumpedValue (h.epochs.get k) epoch speculative).conservative = false) :
    bumpedValue (h.bumped k) epoch speculative =
      bumpedValue (h.epochs.get k) epoch speculative := by
  cases speculative with
  | false => rfl
  | true =>
    cases hget : h.epochs.get k with
    | none => rw [hr.bumped_none hget]
    | some e =>
      have hplain : e.conservative = false := by simpa [bumpedValue, hget] using hmark
      rw [(hr.exact hget hplain).2]

/-- A bump leaves no key with less authority than it had. -/
theorem Refines.extends_bump (hr : h.Refines) (key : String) (speculative : Bool) :
    h.epochs.Extends (h.call (.bump key speculative)).epochs := by
  have hnew : h.epochs.epochOf key ≤ h.counter := ResourceEpochMap.epochOf_le_of_upTo hr.upTo key
  have hauthOf : h.epochs.authorityOf key ≤ h.epochs.epochOf key :=
    ResourceEpochMap.authorityOf_le_epochOf hr.consistent key
  apply ResourceEpochMap.extends_set hr.consistent
  · show h.epochs.epochOf key ≤ h.counter + 1
    omega
  · cases speculative with
    | false =>
      show h.epochs.authorityOf key ≤ h.counter + 1
      omega
    | true => exact le_refl _
  · apply bumpedValue_le
    intro e he
    have hauth : h.epochs.authorityOf key = e.authoritativeEpoch := by
      simp [ResourceEpochMap.authorityOf, he]
    omega

theorem Refines.bump (hr : h.Refines) (key : String) (speculative : Bool) :
    (h.call (.bump key speculative)).Refines := by
  set value := bumpedValue (h.epochs.get key) (h.counter + 1) speculative with hvalue
  have hext : h.epochs.Extends (h.epochs.set key value) := hr.extends_bump key speculative
  have hself : (h.epochs.set key value).get key = some value :=
    ResourceEpochMap.get_set_self _ _ _
  have hown : (bumpedValue (h.bumped key) (h.counter + 1) speculative).authoritativeEpoch ≤
      value.authoritativeEpoch := by
    cases speculative with
    | false => exact le_refl _
    | true => exact hr.authority_le key
  constructor
  case consistent => exact hext.1
  case upTo =>
    exact ResourceEpochMap.upTo_set (hr.upTo.mono (Nat.le_succ _)) (le_refl (h.counter + 1))
  case size => exact ResourceEpochMap.size_set_le _ _ _
  case written => exact hr.written.update hext hself (Nat.succ_pos _) (le_refl _) (le_refl _)
  case bumped => exact hr.bumped.update hext hself (Nat.succ_pos _) (le_refl _) hown
  case remembered =>
    intro j e hj
    rcases ResourceEpochMap.get?_of_set hj with ⟨rfl, rfl⟩ | ⟨hjk, hold⟩
    · refine ⟨Function.update_self .., fun hmark => ?_⟩
      show Function.update h.bumped j _ j = _
      rw [Function.update_self, hr.value_eq hmark]
    · have hboth := hr.remembered j e hold
      refine ⟨(Function.update_of_ne hjk ..).trans hboth.1, fun hmark => ?_⟩
      exact (Function.update_of_ne hjk ..).trans (hboth.2 hmark)

theorem Refines.call (hr : h.Refines) (c : EpochCall) : (h.call c).Refines := by
  cases c with
  | bump key speculative => exact hr.bump key speculative
  | clear => exact refines_empty h.counter

theorem Refines.run (hr : h.Refines) (calls : List EpochCall) : (h.run calls).Refines :=
  foldl_invariant (I := Refines) calls (fun _ c _ hs => hs.call c) hr

/-! ## An epoch that was overtaken -/

/-- `c` lies in the past of a key: the key answers with something newer, or everything the map
knows is newer. -/
def Overtaken (c : Nat) (k : String) (h : EpochHistory) : Prop :=
  h.Refines ∧ c ≤ h.counter ∧ (c < h.epochs.epochOf k ∨ h.epochs.Above c)

theorem Overtaken.call {c : Nat} (ho : Overtaken c k h) (a : EpochCall) :
    Overtaken c k (h.call a) := by
  obtain ⟨hr, hc, hpast⟩ := ho
  cases a with
  | clear => exact ⟨refines_empty _, hc, .inr (ResourceEpochMap.above_empty c)⟩
  | bump key speculative =>
    refine ⟨hr.bump key speculative, hc.trans (Nat.le_succ _), ?_⟩
    rcases hpast with hnewer | habove
    · exact .inl (Nat.lt_of_lt_of_le hnewer ((hr.extends_bump key speculative).2 k).1)
    · exact .inr (ResourceEpochMap.above_set habove (Nat.lt_succ_of_le hc))

theorem Overtaken.run {c : Nat} (ho : Overtaken c k h) (calls : List EpochCall) :
    Overtaken c k (h.run calls) :=
  foldl_invariant (I := Overtaken c k) calls (fun _ a _ hs => hs.call a) ho

theorem Overtaken.get_ne {c : Nat} (ho : Overtaken c k h) :
    (h.epochs.get k).map (·.epoch) ≠ some c := by
  rcases ho.2.2 with hnewer | habove
  · exact ResourceEpochMap.get_ne_of_lt hnewer
  · exact ResourceEpochMap.get_ne_of_above habove

theorem counter_le_run (calls : List EpochCall) (h : EpochHistory) :
    h.counter ≤ (h.run calls).counter := by
  refine foldl_relates (R := fun h h' : EpochHistory => h.counter ≤ h'.counter)
    (fun _ => le_refl _) le_trans (fun h c => ?_) calls h
  cases c with
  | bump key speculative => exact Nat.le_succ _
  | clear => exact le_refl _

/-- A bump overtakes every epoch captured for its key before. -/
theorem overtaken_bump (hr : h.Refines) {c : Nat} (hc : c ≤ h.counter) (k : String)
    (speculative : Bool) : Overtaken c k (h.call (.bump k speculative)) := by
  refine ⟨hr.bump k speculative, hc.trans (Nat.le_succ _), .inl ?_⟩
  show c < (h.epochs.set k _).epochOf k
  rw [ResourceEpochMap.epochOf_set_self]
  exact Nat.lt_succ_of_le hc

/-- After any calls the bounded map holds at most 1024 keys, answers for every key set since the
last clear with at least what an unbounded map would say (fed the same values, or the same bumps),
answers exactly where it does not mark the answer, and never again answers with an epoch that was
captured for a key before a bump of that key. -/
theorem bounded_map_refines (calls : List EpochCall) :
    let h := EpochHistory.run {} calls
    h.epochs.entries.size ≤ maxResourceEpochEntries ∧
      (∀ k v, h.written k = some v ∨ h.bumped k = some v →
        ∃ e, h.epochs.get k = some e ∧ v.epoch ≤ e.epoch ∧
          v.authoritativeEpoch ≤ e.authoritativeEpoch) ∧
      (∀ k e, h.epochs.get k = some e → e.conservative = false →
        h.written k = some e ∧ h.bumped k = some e) ∧
      ∀ k between speculative later,
        ((((h.run between).call (.bump k speculative)).run later).epochs.get k).map (·.epoch) ≠
          some (h.epochs.epochOf k) := by
  intro h
  have hr : h.Refines := (refines_empty 0).run calls
  refine ⟨hr.size, fun k v hv => ?_, fun k e hget hmark => hr.exact hget hmark,
    fun k between speculative later => ?_⟩
  · have hbound : 0 < v.epoch ∧ v.epoch ≤ h.epochs.epochOf k ∧
        v.authoritativeEpoch ≤ h.epochs.authorityOf k :=
      hv.elim (hr.written k v) (hr.bumped k v)
    obtain ⟨e, hget, hepoch, hauth⟩ :=
      ResourceEpochMap.get_of_epochOf_pos (show 0 < h.epochs.epochOf k by omega)
    exact ⟨e, hget, hepoch ▸ hbound.2.1, hauth ▸ hbound.2.2⟩
  · have hc : h.epochs.epochOf k ≤ (h.run between).counter :=
      (ResourceEpochMap.epochOf_le_of_upTo hr.upTo k).trans (counter_le_run between h)
    exact ((overtaken_bump (hr.run between) hc k speculative).run later).get_ne

end EpochHistory

end FluxFast.Core
