import FluxFast.Core.Store

/-!
# StoreEntries — what every store operation does to every key

`entry s k` is all that the store holds under `k`.  An operation on one key is specified by the
entry it leaves there and by `Kept` for the others: they are as before, or evicted because the
store was over capacity.
-/

namespace FluxFast.Core

open FluxFast.Theory

structure ResourceEntry (V : Type) where
  record : Option (ResourceRecord V)
  stale : Bool
  snapshot : Option (ResourceStateSnapshot V)

namespace ResourceEntry

variable {V : Type}

def evicted : ResourceEntry V := ⟨none, false, none⟩

def status (e : ResourceEntry V) : ResourceStatus := (e.snapshot.getD missingResourceState).status

/-- A record that the store would advertise to the server. -/
def fresh (e : ResourceEntry V) : Prop := e.record.isSome ∧ e.stale = false

@[simp] theorem status_evicted : (evicted : ResourceEntry V).status = .missing := rfl
@[simp] theorem record_evicted : (evicted : ResourceEntry V).record = none := rfl
@[simp] theorem stale_evicted : (evicted : ResourceEntry V).stale = false := rfl

/-- The entry right after its record was written. -/
def settled (r : ResourceRecord V) : ResourceEntry V :=
  ⟨some r, false, some ⟨some r.value, .ready, none, false⟩⟩

/-- The entry shown with a status that says its data is unconfirmed. -/
def unsettled (e : ResourceEntry V) (status : ResourceStatus)
    (error : Option (ResourceErrorDetail V)) : ResourceEntry V :=
  ⟨e.record, e.record.isSome || e.stale,
    some ⟨e.record.map (·.value), status, error, e.record.isSome⟩⟩

@[simp] theorem status_settled (r : ResourceRecord V) : (settled r).status = .ready := rfl

@[simp] theorem status_unsettled (e : ResourceEntry V) (status : ResourceStatus)
    (error : Option (ResourceErrorDetail V)) : (e.unsettled status error).status = status := rfl

@[simp] theorem record_unsettled (e : ResourceEntry V) (status : ResourceStatus)
    (error : Option (ResourceErrorDetail V)) : (e.unsettled status error).record = e.record := rfl

end ResourceEntry

namespace ResourceStore

variable {V P : Type} [DecidableEq V] [Patchable V P]

def entry (s : ResourceStore V) (k : String) : ResourceEntry V :=
  ⟨s.records.get? k, s.isStale k, s.stateSnapshots.get? k⟩

def Kept (s t : ResourceStore V) (k : String) : Prop :=
  t.entry k = s.entry k ∨ t.entry k = .evicted

omit [DecidableEq V] in
theorem Kept.refl (s : ResourceStore V) (k : String) : Kept s s k := .inl rfl

omit [DecidableEq V] in
theorem Kept.trans {s t u : ResourceStore V} {k : String} (h₁ : Kept s t k) (h₂ : Kept t u k) :
    Kept s u k := by
  rcases h₂ with h₂ | h₂
  · rcases h₁ with h₁ | h₁
    · exact .inl (h₂.trans h₁)
    · exact .inr (h₂.trans h₁)
  · exact .inr h₂

omit [DecidableEq V] in
theorem Kept.of_eq {s t : ResourceStore V} {k : String} (h : t.entry k = s.entry k) :
    Kept s t k := .inl h

omit [DecidableEq V] in
theorem status_entry (s : ResourceStore V) (k : String) : (s.entry k).status = (s.stateOf k).status :=
  rfl

/-! ## Recency leaves the entries alone -/

omit [DecidableEq V] in
@[simp] theorem entry_removeFromLru (s : ResourceStore V) (j k : String) :
    (s.removeFromLru j).entry k = s.entry k := rfl

omit [DecidableEq V] in
@[simp] theorem entry_touchLru (s : ResourceStore V) (j k : String) :
    (s.touchLru j).entry k = s.entry k := rfl

omit [DecidableEq V] in
@[simp] theorem entry_touchState (s : ResourceStore V) (j k : String) :
    (s.touchState j).entry k = s.entry k := by
  unfold touchState
  split <;> rfl

omit [DecidableEq V] in
@[simp] theorem entry_touchRecord (s : ResourceStore V) (j k : String) :
    (s.touchRecord j).entry k = s.entry k := by
  unfold touchRecord
  split <;> rfl

omit [DecidableEq V] in
theorem entry_touchAll (s : ResourceStore V) (keys : List String) (k : String) :
    (keys.foldl (fun s key => s.touchState key) s).entry k = s.entry k := by
  induction keys generalizing s with
  | nil => rfl
  | cons key keys ih => exact (ih _).trans (entry_touchState ..)

omit [DecidableEq V] in
@[simp] theorem entry_subscribe (s : ResourceStore V) (j k : String) :
    (s.subscribe j).entry k = s.entry k := rfl

omit [DecidableEq V] in
@[simp] theorem entry_unsubscribe (s : ResourceStore V) (j k : String) :
    (s.unsubscribe j).entry k = s.entry k := by
  unfold unsubscribe
  split <;> rfl

/-! ## The parts of an entry -/

omit [DecidableEq V] in
@[simp] theorem isStale_putRecord (s : ResourceStore V) (r : ResourceRecord V) (k : String) :
    (s.putRecord r).isStale k = s.isStale k := rfl

omit [DecidableEq V] in
@[simp] theorem isStale_putSnapshot (s : ResourceStore V) (j k : String)
    (snapshot : ResourceStateSnapshot V) :
    (s.putSnapshot j snapshot).isStale k = s.isStale k := rfl

omit [DecidableEq V] in
@[simp] theorem isStale_dropSnapshot (s : ResourceStore V) (j k : String) :
    (s.dropSnapshot j).isStale k = s.isStale k := rfl

omit [DecidableEq V] in
@[simp] theorem entry_putRecord_self (s : ResourceStore V) (r : ResourceRecord V) :
    (s.putRecord r).entry r.key = { s.entry r.key with record := some r } := by
  simp [entry]; simp [putRecord]

omit [DecidableEq V] in
theorem entry_putRecord_ne (s : ResourceStore V) (r : ResourceRecord V) {k : String}
    (h : k ≠ r.key) : (s.putRecord r).entry k = s.entry k := by
  simp [entry]; simp [putRecord, OrderedMap.get?_set_ne _ _ h]

omit [DecidableEq V] in
@[simp] theorem entry_putSnapshot_self (s : ResourceStore V) (k : String)
    (snapshot : ResourceStateSnapshot V) :
    (s.putSnapshot k snapshot).entry k = { s.entry k with snapshot := some snapshot } := by
  simp [entry]; simp [putSnapshot]

omit [DecidableEq V] in
theorem entry_putSnapshot_ne (s : ResourceStore V) {j k : String}
    (snapshot : ResourceStateSnapshot V) (h : j ≠ k) :
    (s.putSnapshot k snapshot).entry j = s.entry j := by
  simp [entry]; simp [putSnapshot, OrderedMap.get?_set_ne _ _ h]

omit [DecidableEq V] in
theorem entry_dropSnapshot_ne (s : ResourceStore V) {j k : String} (h : j ≠ k) :
    (s.dropSnapshot k).entry j = s.entry j := by
  simp [entry]; simp [dropSnapshot, OrderedMap.get?_delete_ne _ h]

omit [DecidableEq V] in
@[simp] theorem entry_addStale_self (s : ResourceStore V) (k : String) :
    (s.addStale k).entry k = { s.entry k with stale := true } := by
  simp [entry, addStale, isStale]

omit [DecidableEq V] in
theorem entry_addStale_ne (s : ResourceStore V) {j k : String} (h : j ≠ k) :
    (s.addStale k).entry j = s.entry j := by
  simp [entry, addStale, isStale, h]

omit [DecidableEq V] in
@[simp] theorem entry_dropStale_self (s : ResourceStore V) (k : String) :
    (s.dropStale k).entry k = { s.entry k with stale := false } := by
  simp [entry, dropStale, isStale]

omit [DecidableEq V] in
theorem entry_dropStale_ne (s : ResourceStore V) {j k : String} (h : j ≠ k) :
    (s.dropStale k).entry j = s.entry j := by
  simp [entry, dropStale, isStale, h]

/-! ## Removal -/

omit [DecidableEq V] in
@[simp] theorem entry_invalidate_self (s : ResourceStore V) (k : String) :
    (s.invalidate k).entry k = .evicted := by
  unfold invalidate
  split
  · simp [entry, ResourceEntry.evicted, isStale]
  · next h =>
    simp only [Bool.or_eq_true, not_or, Bool.not_eq_true, OrderedMap.has,
      Option.isSome_eq_false_iff, Option.isNone_iff_eq_none] at h
    simp [entry, ResourceEntry.evicted, h.1.1, h.1.2, h.2]

omit [DecidableEq V] in
theorem entry_invalidate_ne (s : ResourceStore V) {j k : String} (h : j ≠ k) :
    (s.invalidate k).entry j = s.entry j := by
  unfold invalidate
  split
  · simp [entry, isStale, OrderedMap.get?_delete_ne _ h, h]
  · rfl

omit [DecidableEq V] in
theorem kept_invalidate (s : ResourceStore V) (j k : String) : Kept s (s.invalidate k) j := by
  by_cases h : j = k
  · subst h
    exact .inr (entry_invalidate_self s j)
  · exact .inl (entry_invalidate_ne s h)

omit [DecidableEq V] in
@[simp] theorem entry_clear (s : ResourceStore V) (k : String) : s.clear.entry k = .evicted := by
  simp [clear, entry, isStale, ResourceEntry.evicted]

omit [DecidableEq V] in
theorem kept_evictLoop (fuel : Nat) (s : ResourceStore V) (k : String) :
    Kept s (evictLoop fuel s) k := by
  induction fuel generalizing s with
  | zero => exact .refl s k
  | succ fuel ih =>
    unfold evictLoop
    split
    · cases horder : s.lruOrder with
      | nil => exact .refl s k
      | cons oldest rest =>
        have hdrop : Kept s { s with lruOrder := rest } k := .of_eq rfl
        exact (hdrop.trans (kept_invalidate _ k oldest)).trans (ih _)
    · exact .refl s k

omit [DecidableEq V] in
theorem kept_evictIfNeeded (s : ResourceStore V) (k : String) : Kept s s.evictIfNeeded k :=
  kept_evictLoop _ s k

/-! ## The state snapshot -/

theorem kept_updateStateSnapshot (s : ResourceStore V) {j k : String} (status : ResourceStatus)
    (error : Option (ResourceErrorDetail V)) (stale : Bool) (h : j ≠ k) :
    Kept s (s.updateStateSnapshot k status error stale) j := by
  simp only [updateStateSnapshot]
  split
  · exact .refl s j
  · split
    · split
      · exact .of_eq (entry_dropSnapshot_ne s h)
      · exact .of_eq (by rw [entry_removeFromLru, entry_dropSnapshot_ne s h])
    · refine Kept.trans (.of_eq ?_) (kept_evictIfNeeded _ j)
      rw [entry_touchLru, entry_putSnapshot_ne s _ h]

/-- A status other than `missing`, or one with a stale value, is shown as given. -/
theorem entry_updateStateSnapshot_self (s : ResourceStore V) (k : String)
    (status : ResourceStatus) (error : Option (ResourceErrorDetail V)) (stale : Bool)
    (h : status ≠ .missing ∨ stale = true) :
    (s.updateStateSnapshot k status error stale).entry k =
        { s.entry k with
          snapshot := some ⟨(s.entry k).record.map (·.value), status, error, stale⟩ } ∨
      (s.updateStateSnapshot k status error stale).entry k = .evicted := by
  have hnot : ¬(status = .missing ∧ (s.records.get? k).map (·.value) = none ∧ error = none ∧
      stale = false) := by
    rintro ⟨hs, -, -, ht⟩
    rcases h with h | h
    · exact h hs
    · simp [h] at ht
  simp only [updateStateSnapshot, if_neg hnot]
  split
  · next heq =>
    left
    -- the snapshot shown already: it cannot be the default of a key without one
    cases hsnap : s.stateSnapshots.get? k with
    | none =>
      simp only [stateOf, hsnap, Option.getD_none, missingResourceState,
        ResourceStateSnapshot.mk.injEq] at heq
      rcases h with h | h
      · exact absurd heq.2.1.symm h
      · rw [h] at heq
        exact absurd heq.2.2.2 (by simp)
    | some snap =>
      simp only [stateOf, hsnap, Option.getD_some] at heq
      simp [entry, hsnap, heq]
  · rcases kept_evictIfNeeded ((s.putSnapshot k
      ⟨(s.records.get? k).map (·.value), status, error, stale⟩).touchLru k) k with hkept | hevicted
    · left
      rw [hkept, entry_touchLru, entry_putSnapshot_self]
      rfl
    · exact .inr hevicted

/-! ## Writing a record -/

omit [DecidableEq V] in
theorem settledAt_iff {s : ResourceStore V} {k version : String} :
    s.settledAt k version = true ↔
      ∃ r, s.records.get? k = some r ∧ r.version = version ∧ s.isStale k = false ∧
        (s.stateOf k).status = .ready ∧ (s.stateOf k).error = none := by
  unfold settledAt
  cases hrec : s.records.get? k with
  | none => simp
  | some r => simp [and_assoc]

theorem kept_set (s : ResourceStore V) (now : Nat) {j k : String} (version : String) (value : V)
    (h : j ≠ k) : Kept s (s.set now k version value).1 j := by
  unfold set
  split
  · exact .of_eq (by simp)
  · have hwritten : Kept s (((s.touchState k).putRecord ⟨k, version, value, now⟩).dropStale k) j := by
      refine .of_eq ?_
      rw [entry_dropStale_ne _ h, entry_putRecord_ne _ _ h, entry_touchState]
    refine (hwritten.trans (kept_updateStateSnapshot _ .ready none false h)).trans ?_
    exact (Kept.of_eq (entry_touchLru _ k j)).trans (kept_evictIfNeeded _ j)

/-- `set` leaves an entry that is already settled at the version as it is. -/
theorem entry_set_settledAt {s : ResourceStore V} (now : Nat) {k version : String} (value : V)
    (h : s.settledAt k version = true) (j : String) :
    (s.set now k version value).1.entry j = s.entry j := by
  simp [set, h]

theorem entry_set_self (s : ResourceStore V) (now : Nat) (k version : String) (value : V)
    (h : s.settledAt k version = false) :
    (s.set now k version value).1.entry k = .settled ⟨k, version, value, now⟩ ∨
      (s.set now k version value).1.entry k = .evicted := by
  simp only [set, h, Bool.false_eq_true, if_false]
  set written := ((s.touchState k).putRecord ⟨k, version, value, now⟩).dropStale k with hwritten
  have hentry : written.entry k =
      { s.entry k with record := some ⟨k, version, value, now⟩, stale := false } := by
    rw [hwritten, entry_dropStale_self]
    have := entry_putRecord_self (s.touchState k) ⟨k, version, value, now⟩
    simp only [entry_touchState] at this
    rw [this]
  rcases kept_evictIfNeeded ((written.updateStateSnapshot k .ready none false).touchLru k) k
    with hkept | hevicted
  · rw [hkept, entry_touchLru]
    rcases entry_updateStateSnapshot_self written k .ready none false (.inl (by decide))
      with hshown | hshown
    · left
      rw [hshown, hentry]
      rfl
    · exact .inr hshown
  · exact .inr hevicted

/-! ## Unsettled entries -/

theorem kept_showUnsettled (s : ResourceStore V) {j k : String} (status : ResourceStatus)
    (error : Option (ResourceErrorDetail V)) (h : j ≠ k) :
    Kept s (s.showUnsettled k status error) j := by
  unfold showUnsettled
  refine Kept.trans ?_ (kept_updateStateSnapshot _ _ _ _ h)
  split
  · exact .of_eq (entry_addStale_ne s h)
  · exact .refl s j

theorem entry_showUnsettled_self (s : ResourceStore V) (k : String) {status : ResourceStatus}
    (error : Option (ResourceErrorDetail V)) (h : status ≠ .missing) :
    (s.showUnsettled k status error).entry k = (s.entry k).unsettled status error ∨
      (s.showUnsettled k status error).entry k = .evicted := by
  unfold showUnsettled
  cases hrec : s.records.get? k with
  | none =>
    have hhas : s.records.has k = false := by simp [OrderedMap.has, hrec]
    simp only [hhas, Bool.false_eq_true, if_false]
    rcases entry_updateStateSnapshot_self s k status error false (.inl h) with hu | hu
    · left
      rw [hu]
      simp [ResourceEntry.unsettled, entry, hrec]
    · exact .inr hu
  | some r =>
    have hhas : s.records.has k = true := by simp [OrderedMap.has, hrec]
    simp only [hhas, if_true]
    rcases entry_updateStateSnapshot_self (s.addStale k) k status error true (.inl h) with hu | hu
    · left
      rw [hu, entry_addStale_self]
      simp [ResourceEntry.unsettled, entry, hrec]
    · exact .inr hu

/-! ## Patches and stale marks -/

/-- A patch that does not throw finds no record and leaves the store alone, or writes the value. -/
theorem patch_cases {s t : ResourceStore V} {now : Nat} {k : String} {patches : List P}
    {flag : Bool} (h : s.patch now k patches = some (t, flag)) :
    (s.records.get? k = none ∧ t = s ∧ flag = false) ∨
      ∃ existing value, s.records.get? k = some existing ∧
        t = s.putPatched now existing k value ∧ flag = true := by
  unfold patch at h
  split at h
  · next hnone =>
    cases h
    exact .inl ⟨hnone, rfl, rfl⟩
  · next existing hrecord =>
    obtain ⟨value, -, h⟩ := Option.map_eq_some_iff.mp h
    cases h
    exact .inr ⟨existing, value, hrecord, rfl, rfl⟩

omit [Patchable V P] in
theorem kept_putPatched (s : ResourceStore V) (now : Nat) (existing : ResourceRecord V)
    {j k : String} (value : V) (h : j ≠ k) : Kept s (s.putPatched now existing k value) j := by
  unfold putPatched
  refine Kept.trans ?_ (.of_eq (entry_touchLru _ k j))
  refine Kept.trans (.of_eq ?_) (kept_updateStateSnapshot _ .ready none true h)
  rw [entry_addStale_ne _ h, entry_putRecord_ne _ _ h]

omit [Patchable V P] in
/-- A patched record is stale. -/
theorem entry_putPatched_self (s : ResourceStore V) (now : Nat) (existing : ResourceRecord V)
    (k : String) (value : V) :
    (∃ r, (s.putPatched now existing k value).entry k =
        ⟨some r, true, some ⟨some r.value, .ready, none, true⟩⟩) ∨
      (s.putPatched now existing k value).entry k = .evicted := by
  unfold putPatched
  simp only [entry_touchLru]
  set record : ResourceRecord V := ⟨k, existing.version ++ "_p" ++ toString36 now, value, now⟩
    with hrecord
  have hwritten : ((s.putRecord record).addStale k).entry k =
      ⟨some record, true, (s.entry k).snapshot⟩ := by
    rw [entry_addStale_self, show k = record.key from rfl, entry_putRecord_self]
  rcases entry_updateStateSnapshot_self ((s.putRecord record).addStale k) k .ready none true
    (.inr rfl) with hu | hu
  · refine .inl ⟨record, ?_⟩
    rw [hu, hwritten]
    rfl
  · exact .inr hu

theorem kept_patch {s t : ResourceStore V} {now : Nat} {j k : String} {patches : List P}
    {flag : Bool} (h : s.patch now k patches = some (t, flag)) (hj : j ≠ k) : Kept s t j := by
  rcases patch_cases h with ⟨-, rfl, -⟩ | ⟨existing, value, -, rfl, -⟩
  · exact .refl t j
  · exact kept_putPatched s now existing value hj

theorem kept_markStale (s : ResourceStore V) {j k : String} (h : j ≠ k) :
    Kept s (s.markStale k) j := by
  unfold markStale
  split
  · exact .refl s j
  · refine Kept.trans (.of_eq ?_) (kept_updateStateSnapshot _ _ _ _ h)
    rw [entry_touchState, entry_addStale_ne s h]

/-- `markStale` only sets the stale flag of a held record. -/
theorem entry_markStale_self (s : ResourceStore V) (k : String) :
    ((s.markStale k).entry k = s.entry k ∧
        ((s.entry k).record = none ∨ (s.entry k).stale = true)) ∨
      (s.markStale k).entry k = ⟨(s.entry k).record, true,
          some ⟨(s.entry k).record.map (·.value), (s.stateOf k).status, (s.stateOf k).error,
            true⟩⟩ ∨
      (s.markStale k).entry k = .evicted := by
  unfold markStale
  split
  · next h =>
    refine .inl ⟨rfl, ?_⟩
    simp only [Bool.or_eq_true, Bool.not_eq_true', OrderedMap.has, Option.isSome_eq_false_iff,
      Option.isNone_iff_eq_none] at h
    exact h
  · right
    rcases entry_updateStateSnapshot_self ((s.addStale k).touchState k) k
      ((s.addStale k).stateOf k).status ((s.addStale k).stateOf k).error true (.inr rfl)
      with hu | hu
    · left
      rw [hu, entry_touchState, entry_addStale_self]
      rfl
    · exact .inr hu

/-! ## Statuses after a write -/

theorem status_set_self (s : ResourceStore V) (now : Nat) (k version : String) (value : V) :
    ((s.set now k version value).1.entry k).status = .ready ∨
      (s.set now k version value).1.entry k = .evicted := by
  by_cases h : s.settledAt k version = true
  · rw [entry_set_settledAt now value h]
    obtain ⟨_, -, -, -, hs, -⟩ := settledAt_iff.mp h
    exact .inl hs
  · rcases entry_set_self s now k version value (by simpa using h) with hset | hset
    · exact .inl (by rw [hset]; rfl)
    · exact .inr hset

theorem status_set_ne_loading (s : ResourceStore V) (now : Nat) (k version : String) (value : V) :
    ((s.set now k version value).1.entry k).status ≠ .loading := by
  rcases status_set_self s now k version value with h | h <;> simp [h]

theorem status_showUnsettled_self (s : ResourceStore V) (k : String) {status : ResourceStatus}
    (error : Option (ResourceErrorDetail V)) (h : status ≠ .missing) :
    ((s.showUnsettled k status error).entry k).status = status ∨
      (s.showUnsettled k status error).entry k = .evicted := by
  rcases entry_showUnsettled_self s k error h with hshown | hevicted
  · exact .inl (by rw [hshown]; rfl)
  · exact .inr hevicted

theorem status_setResourceError_ne_loading (s : ResourceStore V) (k : String)
    (error : ResourceErrorDetail V) : ((s.setResourceError k error).entry k).status ≠ .loading := by
  rcases status_showUnsettled_self s k (some error)
    (show ResourceStatus.error ≠ .missing by decide) with h | h
  · rw [setResourceError, h]
    decide
  · rw [setResourceError, h]
    simp

theorem status_markPending_ne_loading (s : ResourceStore V) (k : String) :
    ((s.markPending [k]).entry k).status ≠ .loading := by
  rcases status_showUnsettled_self s k none
    (show ResourceStatus.pending ≠ .missing by decide) with h | h
  · simp [markPending, h]
  · simp [markPending, h]

/-- A patched key is shown as ready; without a record nothing changes. -/
theorem status_patch_self {s t : ResourceStore V} {now : Nat} {k : String} {patches : List P}
    {flag : Bool} (h : s.patch now k patches = some (t, flag)) :
    (t = s ∧ flag = false) ∨ (flag = true ∧ (t.entry k).status ≠ .loading) := by
  rcases patch_cases h with ⟨-, hsame, hflag⟩ | ⟨existing, value, -, rfl, hflag⟩
  · exact .inl ⟨hsame, hflag⟩
  · rcases entry_putPatched_self s now existing k value with ⟨record, hentry⟩ | hentry
    · exact .inr ⟨hflag, by rw [hentry]; simp [ResourceEntry.status]⟩
    · exact .inr ⟨hflag, by rw [hentry]; simp⟩

/-- `markStale` shows no key as loading that was not. -/
theorem loading_of_markStale {s : ResourceStore V} {k : String}
    (h : ((s.markStale k).entry k).status = .loading) : (s.entry k).status = .loading := by
  rcases entry_markStale_self s k with ⟨hsame, -⟩ | hmarked | hevicted
  · rwa [hsame] at h
  · rwa [hmarked] at h
  · rw [hevicted] at h
    cases h

/-! ## Writes that evict nothing -/

/-- The record and the snapshot of the key fit into the store. -/
def HasRoom (s : ResourceStore V) (key : String) : Prop :=
  (unique (key :: s.records.keys)).length ≤ s.maxResources ∧
    (unique (key :: s.stateSnapshots.keys)).length ≤ s.maxResources

instance (s : ResourceStore V) (key : String) : Decidable (s.HasRoom key) :=
  inferInstanceAs (Decidable (_ ∧ _))

/-- `t` holds no more than `s` does, the key apart. -/
structure Within (key : String) (s t : ResourceStore V) : Prop where
  maxResources : t.maxResources = s.maxResources
  records : ∀ k ∈ t.records.keys, k ∈ unique (key :: s.records.keys)
  snapshots : ∀ k ∈ t.stateSnapshots.keys, k ∈ unique (key :: s.stateSnapshots.keys)

section Room

variable {s t : ResourceStore V} {key : String}

omit [DecidableEq V]

theorem Within.refl (s : ResourceStore V) (key : String) : Within key s s :=
  ⟨rfl, fun _ hk => mem_unique.mpr (List.mem_cons_of_mem _ hk),
    fun _ hk => mem_unique.mpr (List.mem_cons_of_mem _ hk)⟩

theorem Within.touchState (h : Within key s t) (k : String) : Within key s (t.touchState k) := by
  unfold ResourceStore.touchState
  split <;> exact ⟨h.maxResources, h.records, h.snapshots⟩

theorem Within.putRecord (h : Within key s t) {record : ResourceRecord V} (hkey : record.key = key) :
    Within key s (t.putRecord record) where
  maxResources := h.maxResources
  records k hk := by
    rcases OrderedMap.mem_keys_set.mp hk with rfl | hk
    · exact mem_unique.mpr (hkey ▸ List.mem_cons_self ..)
    · exact h.records k hk
  snapshots := h.snapshots

theorem Within.putSnapshot (h : Within key s t) (snapshot : ResourceStateSnapshot V) :
    Within key s (t.putSnapshot key snapshot) where
  maxResources := h.maxResources
  records := h.records
  snapshots k hk := by
    rcases OrderedMap.mem_keys_set.mp hk with rfl | hk
    · exact mem_unique.mpr (List.mem_cons_self ..)
    · exact h.snapshots k hk

theorem evictIfNeeded_of_within (hroom : s.HasRoom key) (h : Within key s t) :
    t.evictIfNeeded = t := by
  have hover : t.overCapacity = false := by
    have hrecords := (OrderedMap.size_le_of_keys_subset h.records).trans hroom.1
    have hsnapshots := (OrderedMap.size_le_of_keys_subset h.snapshots).trans hroom.2
    simp only [overCapacity, h.maxResources, Bool.or_eq_false_iff, decide_eq_false_iff_not, not_lt]
    exact ⟨hrecords, hsnapshots⟩
  unfold evictIfNeeded
  cases t.lruOrder.length with
  | zero => rfl
  | succ fuel => rw [evictLoop, hover]; rfl

end Room

/-- Within the room a snapshot of `key` is shown without touching the other keys. -/
theorem updateStateSnapshot_of_within {s t : ResourceStore V} {key : String}
    (hroom : s.HasRoom key) (h : Within key s t) (status : ResourceStatus)
    (error : Option (ResourceErrorDetail V)) (stale : Bool) :
    Within key s (t.updateStateSnapshot key status error stale) ∧
      ∀ j, j ≠ key → (t.updateStateSnapshot key status error stale).entry j = t.entry j := by
  simp only [updateStateSnapshot]
  split
  · exact ⟨h, fun _ _ => rfl⟩
  · split
    · have hdropped : Within key s (t.dropSnapshot key) :=
        ⟨h.maxResources, h.records, fun k hk => h.snapshots k (OrderedMap.mem_keys_delete.mp hk).2⟩
      split
      · exact ⟨hdropped, fun j hj => entry_dropSnapshot_ne t hj⟩
      · exact ⟨⟨hdropped.maxResources, hdropped.records, hdropped.snapshots⟩,
          fun j hj => entry_dropSnapshot_ne t hj⟩
    · set shown := (t.putSnapshot key
        ⟨(t.records.get? key).map (·.value), status, error, stale⟩).touchLru key with hshown
      have hput : Within key s shown :=
        ⟨h.maxResources, h.records, (h.putSnapshot _).snapshots⟩
      rw [evictIfNeeded_of_within hroom hput]
      exact ⟨hput, fun j hj => entry_putSnapshot_ne t _ hj⟩

theorem entry_set_ne {s : ResourceStore V} {j key : String} (hroom : s.HasRoom key) (hj : j ≠ key)
    (now : Nat) (version : String) (value : V) :
    (s.set now key version value).1.entry j = s.entry j := by
  unfold set
  split
  · simp
  · dsimp only
    set written := ((s.touchState key).putRecord ⟨key, version, value, now⟩).dropStale key
      with hwritten
    have hput : Within key s ((s.touchState key).putRecord ⟨key, version, value, now⟩) :=
      ((Within.refl s key).touchState key).putRecord rfl
    have hwithin : Within key s written := ⟨hput.maxResources, hput.records, hput.snapshots⟩
    obtain ⟨hshown, hentry⟩ := updateStateSnapshot_of_within hroom hwithin .ready none false
    have htouched : Within key s ((written.updateStateSnapshot key .ready none false).touchLru key) :=
      ⟨hshown.maxResources, hshown.records, hshown.snapshots⟩
    rw [evictIfNeeded_of_within hroom htouched, entry_touchLru, hentry j hj, hwritten,
      entry_dropStale_ne _ hj, entry_putRecord_ne _ _ hj, entry_touchState]

theorem entry_showUnsettled_ne {s : ResourceStore V} {j key : String} (hroom : s.HasRoom key)
    (hj : j ≠ key) (status : ResourceStatus) (error : Option (ResourceErrorDetail V)) :
    (s.showUnsettled key status error).entry j = s.entry j := by
  unfold showUnsettled
  dsimp only
  split
  · have hstale : Within key s (s.addStale key) :=
      ⟨rfl, (Within.refl s key).records, (Within.refl s key).snapshots⟩
    rw [(updateStateSnapshot_of_within hroom hstale _ _ _).2 j hj, entry_addStale_ne s hj]
  · exact (updateStateSnapshot_of_within hroom (.refl s key) _ _ _).2 j hj

end ResourceStore

end FluxFast.Core
