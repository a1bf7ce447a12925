import FluxFast.Core.StoreEntries

/-!
# StoreInvariant — the four tables of the store stay in step

A store keeps records, state snapshots, stale marks and a recency list side by side.  What one key
holds is `Coherent`: the snapshot shows the record, and an unconfirmed record is marked.  The
recency list is `Listed`: each key that holds anything is in it once.  Eviction relies on the list
being complete, and it never reaches the key that was written last.
-/

namespace FluxFast.Core

open FluxFast.Theory

variable {V P : Type} [DecidableEq V] [Patchable V P]

/-! ## One key -/

/-- A record has a snapshot that shows it, and is ready without an error unless it is stale. -/
structure ResourceEntry.Coherent (e : ResourceEntry V) : Prop where
  shown : ∀ r, e.record = some r → ∃ snap, e.snapshot = some snap ∧ snap.data = some r.value ∧
    snap.stale = e.stale ∧ (e.stale = false → snap.status = .ready ∧ snap.error = none)
  held : e.stale = true → e.record.isSome = true

namespace ResourceEntry

omit [DecidableEq V] in
theorem coherent_evicted : (evicted : ResourceEntry V).Coherent where
  shown _ h := by cases h
  held h := by cases h

omit [DecidableEq V] in
theorem coherent_settled (r : ResourceRecord V) : (settled r).Coherent where
  shown r' h := by
    cases h
    exact ⟨_, rfl, rfl, rfl, fun _ => ⟨rfl, rfl⟩⟩
  held h := by cases h

omit [DecidableEq V] in
theorem Coherent.unsettled {e : ResourceEntry V} (h : e.Coherent) (status : ResourceStatus)
    (error : Option (ResourceErrorDetail V)) : (e.unsettled status error).Coherent where
  shown r hr := by
    have hr : e.record = some r := hr
    refine ⟨_, rfl, ?_, ?_, fun hstale => ?_⟩
    · show e.record.map (·.value) = some r.value
      rw [hr]
      rfl
    · show e.record.isSome = (e.record.isSome || e.stale)
      rw [hr]
      rfl
    · have hstale : (e.record.isSome || e.stale) = false := hstale
      rw [hr] at hstale
      cases hstale
  held hstale := by
    have hstale : (e.record.isSome || e.stale) = true := hstale
    rcases Bool.or_eq_true _ _ ▸ hstale with hsome | hstale
    · exact hsome
    · exact h.held hstale

end ResourceEntry

namespace ResourceStore

/-! ## The recency list -/

def Present (s : ResourceStore V) (k : String) : Prop :=
  k ∈ s.records.keys ∨ k ∈ s.stateSnapshots.keys

/-- The list holds each present key once, but `key` may be missing. -/
structure ListedBut (key : String) (s : ResourceStore V) : Prop where
  nodup : s.lruOrder.Nodup
  present : ∀ k ∈ s.lruOrder, s.Present k
  listed : ∀ k, s.Present k → k ≠ key → k ∈ s.lruOrder

structure Listed (s : ResourceStore V) : Prop where
  nodup : s.lruOrder.Nodup
  iff : ∀ k, k ∈ s.lruOrder ↔ s.Present k

section Lists

omit [DecidableEq V]

variable {s : ResourceStore V} {key : String}

theorem Listed.but (h : Listed s) (key : String) : ListedBut key s where
  nodup := h.nodup
  present k hk := (h.iff k).mp hk
  listed k hk _ := (h.iff k).mpr hk

theorem ListedBut.listed' (h : ListedBut key s) (hkey : s.Present key → key ∈ s.lruOrder) :
    Listed s where
  nodup := h.nodup
  iff k := by
    refine ⟨h.present k, fun hk => ?_⟩
    by_cases heq : k = key
    · exact heq ▸ hkey (heq ▸ hk)
    · exact h.listed k hk heq

theorem ListedBut.touchLru (h : ListedBut key s) (hkey : s.Present key) :
    Listed (s.touchLru key) where
  nodup := by
    refine List.nodup_append.mpr ⟨h.nodup.erase key, List.nodup_singleton key, ?_⟩
    rintro k hk _ hk' rfl
    rw [List.mem_singleton] at hk'
    exact (List.Nodup.not_mem_erase h.nodup) (hk' ▸ hk)
  iff k := by
    show k ∈ s.lruOrder.erase key ++ [key] ↔ s.Present k
    rw [List.mem_append, List.mem_singleton]
    by_cases heq : k = key
    · exact ⟨fun _ => heq ▸ hkey, fun _ => .inr heq⟩
    · rw [List.mem_erase_of_ne heq]
      exact ⟨fun hk => h.present k (hk.resolve_right heq), fun hk => .inl (h.listed k hk heq)⟩

theorem Listed.touchLru (h : Listed s) (hkey : s.Present key) : Listed (s.touchLru key) :=
  (h.but key).touchLru hkey

theorem Listed.touchState (h : Listed s) (key : String) : Listed (s.touchState key) := by
  unfold ResourceStore.touchState
  split
  · next hhas =>
    rw [Bool.or_eq_true, OrderedMap.has_iff_mem_keys, OrderedMap.has_iff_mem_keys] at hhas
    exact h.touchLru hhas
  · exact h

theorem Listed.touchRecord (h : Listed s) (key : String) : Listed (s.touchRecord key) := by
  unfold ResourceStore.touchRecord
  split
  · next hhas => exact h.touchLru (.inl (OrderedMap.has_iff_mem_keys.mp hhas))
  · exact h

theorem present_iff {k : String} :
    s.Present k ↔ (s.entry k).record ≠ none ∨ (s.entry k).snapshot ≠ none := by
  unfold Present entry
  rw [← not_iff_not, not_or, not_or, ← OrderedMap.get?_eq_none_iff, ← OrderedMap.get?_eq_none_iff]
  simp

theorem listed_invalidate (hnodup : s.lruOrder.Nodup)
    (hlisted : ∀ k, k ≠ key → (k ∈ s.lruOrder ↔ s.Present k))
    (hkey : key ∈ s.lruOrder → s.Present key) : Listed (s.invalidate key) := by
  have hpresent : ∀ k, (s.invalidate key).Present k ↔ k ≠ key ∧ s.Present k := by
    intro k
    by_cases heq : k = key
    · rw [heq, present_iff, entry_invalidate_self]
      simp [ResourceEntry.evicted]
    · rw [present_iff, entry_invalidate_ne s heq, present_iff]
      exact ⟨fun hk => ⟨heq, hk⟩, fun hk => hk.2⟩
  have hlist : (s.invalidate key).lruOrder = s.lruOrder.erase key := by
    unfold invalidate
    split
    · rfl
    · next hnone =>
      refine (List.erase_of_not_mem fun hmem => hnone ?_).symm
      rcases hkey hmem with hrecord | hsnapshot
      · simp [OrderedMap.has_iff_mem_keys.mpr hrecord]
      · simp [OrderedMap.has_iff_mem_keys.mpr hsnapshot]
  refine ⟨by rw [hlist]; exact hnodup.erase key, fun k => ?_⟩
  rw [hlist, hpresent k, hnodup.mem_erase_iff]
  exact and_congr_right fun hne => hlisted k hne

theorem Listed.invalidate (h : Listed s) (key : String) : Listed (s.invalidate key) :=
  listed_invalidate h.nodup (fun k _ => h.iff k) (h.iff key).mp

/-! ## Eviction -/

theorem lruOrder_invalidate (s : ResourceStore V) {key : String} (h : key ∉ s.lruOrder) :
    (s.invalidate key).lruOrder = s.lruOrder := by
  unfold ResourceStore.invalidate
  split
  · exact List.erase_of_not_mem h
  · rfl

theorem maxResources_invalidate (s : ResourceStore V) (key : String) :
    (s.invalidate key).maxResources = s.maxResources := by
  unfold ResourceStore.invalidate
  split <;> rfl

theorem not_overCapacity_iff :
    s.overCapacity = false ↔
      s.records.size ≤ s.maxResources ∧ s.stateSnapshots.size ≤ s.maxResources := by
  simp only [overCapacity, Bool.or_eq_false_iff, decide_eq_false_iff_not, not_lt]

/-- No table is larger than the list. -/
theorem Listed.not_overCapacity (h : Listed s) (hmax : s.lruOrder.length ≤ s.maxResources) :
    s.overCapacity = false := by
  have hrecords := OrderedMap.size_le_of_keys_subset (m := s.records)
    fun k hk => (h.iff k).mpr (.inl hk)
  have hsnapshots := OrderedMap.size_le_of_keys_subset (m := s.stateSnapshots)
    fun k hk => (h.iff k).mpr (.inr hk)
  exact not_overCapacity_iff.mpr ⟨hrecords.trans hmax, hsnapshots.trans hmax⟩

/-- Take the oldest key off the list and remove it. -/
theorem listed_evictOne {oldest : String} {rest : List String} (h : Listed s)
    (hlru : s.lruOrder = oldest :: rest) :
    Listed (invalidate { s with lruOrder := rest } oldest) ∧
      (invalidate { s with lruOrder := rest } oldest).lruOrder = rest := by
  have hnodup := h.nodup
  rw [hlru] at hnodup
  obtain ⟨hnot, hrest⟩ := List.nodup_cons.mp hnodup
  refine ⟨listed_invalidate hrest (fun k hk => ?_) fun hmem => absurd hmem hnot,
    lruOrder_invalidate _ hnot⟩
  show k ∈ rest ↔ s.Present k
  rw [← h.iff k, hlru, List.mem_cons]
  exact ⟨.inr, fun hmem => hmem.resolve_left hk⟩

/-- Eviction with a complete list ends within the capacity and spares the key used last. -/
theorem evictLoop_spec (fuel : Nat) (h : Listed s) (hmax : 1 ≤ s.maxResources)
    (hfuel : s.lruOrder.length ≤ fuel) :
    Listed (evictLoop fuel s) ∧ (evictLoop fuel s).overCapacity = false ∧
      (evictLoop fuel s).maxResources = s.maxResources ∧
      ∀ older, s.lruOrder = older ++ [key] → (evictLoop fuel s).entry key = s.entry key := by
  induction fuel generalizing s with
  | zero =>
    have hnil : s.lruOrder.length ≤ s.maxResources := hfuel.trans (Nat.zero_le _)
    exact ⟨h, h.not_overCapacity hnil, rfl, fun _ _ => rfl⟩
  | succ fuel ih =>
    unfold evictLoop
    split
    · next hover =>
      split
      · next hnil =>
        have hlength : s.lruOrder.length ≤ s.maxResources := by rw [hnil]; exact Nat.zero_le _
        rw [h.not_overCapacity hlength] at hover
        cases hover
      · next oldest rest hlru =>
        obtain ⟨hlisted, hrest⟩ := listed_evictOne h hlru
        have hmaxEq := maxResources_invalidate { s with lruOrder := rest } oldest
        have hlength : rest.length ≤ fuel := by
          rw [hlru, List.length_cons] at hfuel
          exact Nat.le_of_succ_le_succ hfuel
        obtain ⟨hdone, hcap, hmaxDone, hlast⟩ :=
          ih hlisted (by rw [hmaxEq]; exact hmax) (by rw [hrest]; exact hlength)
        refine ⟨hdone, hcap, hmaxDone.trans hmaxEq, fun older holder => ?_⟩
        cases older with
        | nil =>
          -- the only key: one entry fits
          have hone : s.lruOrder.length ≤ s.maxResources := by rw [holder]; exact hmax
          rw [h.not_overCapacity hone] at hover
          cases hover
        | cons x older =>
          have hsame : rest = older ++ [key] := by
            rw [hlru, List.cons_append] at holder
            exact (List.cons.inj holder).2
          have hne : key ≠ oldest := by
            rintro rfl
            have hnodup := h.nodup
            rw [hlru, hsame] at hnodup
            simp at hnodup
          rw [hlast older (hrest.trans hsame), entry_invalidate_ne _ hne]
          rfl
    · next hover => exact ⟨h, Bool.eq_false_iff.mpr hover, rfl, fun _ _ => rfl⟩

theorem evictIfNeeded_spec (h : Listed s) (hmax : 1 ≤ s.maxResources) :
    Listed s.evictIfNeeded ∧ s.evictIfNeeded.overCapacity = false ∧
      s.evictIfNeeded.maxResources = s.maxResources ∧
      ∀ older, s.lruOrder = older ++ [key] → s.evictIfNeeded.entry key = s.entry key :=
  evictLoop_spec _ h hmax (le_refl _)

end Lists

/-! ## Showing a snapshot -/

section Snapshots

variable {s : ResourceStore V} {key : String} {status : ResourceStatus}
  {error : Option (ResourceErrorDetail V)} {stale : Bool}

omit [DecidableEq V] in
/-- A key that is shown without a snapshot holds nothing. -/
theorem listed_of_shown (h : ListedBut key s)
    (hsnap : key ∈ s.stateSnapshots.keys → key ∈ s.lruOrder)
    (hsame : s.stateOf key = ⟨(s.records.get? key).map (·.value), status, error, stale⟩) :
    Listed s := by
  refine h.listed' fun hpresent => ?_
  by_cases hmem : key ∈ s.stateSnapshots.keys
  · exact hsnap hmem
  · rcases hpresent with hrecord | hsnapshot
    · rw [stateOf, OrderedMap.get?_eq_none_iff.mpr hmem, Option.getD_none] at hsame
      have hnone : (s.records.get? key).map (·.value) = none :=
        (congrArg ResourceStateSnapshot.data hsame).symm
      rw [Option.map_eq_none_iff, OrderedMap.get?_eq_none_iff] at hnone
      exact absurd hrecord hnone
    · exact absurd hsnapshot hmem

/-- Showing a snapshot completes the list, keeps to the capacity and spares a held record. -/
theorem updateStateSnapshot_spec (h : ListedBut key s)
    (hsnap : key ∈ s.stateSnapshots.keys → key ∈ s.lruOrder) (hmax : 1 ≤ s.maxResources) :
    Listed (s.updateStateSnapshot key status error stale) ∧
      (s.updateStateSnapshot key status error stale).maxResources = s.maxResources ∧
      (s.overCapacity = false →
        (s.updateStateSnapshot key status error stale).overCapacity = false) ∧
      (key ∈ s.records.keys → (s.updateStateSnapshot key status error stale).Present key) := by
  simp only [updateStateSnapshot]
  -- The three branches of the source: nothing changed, nothing left to keep, a snapshot to write.
  split
  · next hsame => exact ⟨listed_of_shown h hsnap hsame, rfl, id, .inl⟩
  · split
    · next hmissing =>
      have hnone : key ∉ s.records.keys := by
        rw [← OrderedMap.get?_eq_none_iff, ← Option.map_eq_none_iff]
        exact hmissing.2.1
      have hhas : (s.dropSnapshot key).records.has key = false :=
        Bool.eq_false_iff.mpr fun hhas => hnone (OrderedMap.has_iff_mem_keys.mp hhas)
      rw [hhas, if_neg (by decide)]
      -- a key that is missing and has no record leaves both maps and the order
      have hpresent : ∀ k, ((s.dropSnapshot key).removeFromLru key).Present k ↔
          k ≠ key ∧ s.Present k := by
        intro k
        show (k ∈ s.records.keys ∨ k ∈ (s.stateSnapshots.delete key).keys) ↔ _
        rw [OrderedMap.mem_keys_delete, Present]
        constructor
        · rintro (hrecord | ⟨hne, hsnapshot⟩)
          · exact ⟨fun heq => hnone (heq ▸ hrecord), .inl hrecord⟩
          · exact ⟨hne, .inr hsnapshot⟩
        · rintro ⟨hne, hrecord | hsnapshot⟩
          · exact .inl hrecord
          · exact .inr ⟨hne, hsnapshot⟩
      -- the order loses exactly this key
      refine ⟨⟨h.nodup.erase key, fun k => ?_⟩, rfl, fun hcap => ?_, fun hk => absurd hk hnone⟩
      · show k ∈ s.lruOrder.erase key ↔ _
        rw [h.nodup.mem_erase_iff, hpresent k]
        exact and_congr_right fun hne => ⟨h.present k, fun hk => h.listed k hk hne⟩
      · obtain ⟨hrecords, hsnapshots⟩ := not_overCapacity_iff.mp hcap
        exact not_overCapacity_iff.mpr
          ⟨hrecords, (OrderedMap.size_delete_le s.stateSnapshots key).trans hsnapshots⟩
    · set put := s.putSnapshot key ⟨(s.records.get? key).map (·.value), status, error, stale⟩
        with hput
      -- the snapshot makes the key present, so moving it to the end keeps the order a listing
      have hpresent : ∀ k, put.Present k ↔ k = key ∨ s.Present k := by
        intro k
        show (k ∈ s.records.keys ∨ k ∈ (s.stateSnapshots.set key _).keys) ↔ _
        rw [OrderedMap.mem_keys_set, Present]
        exact or_left_comm
      have hbut : ListedBut key put :=
        { nodup := h.nodup
          present := fun k hk => (hpresent k).mpr (.inr (h.present k hk))
          listed := fun k hk hne => h.listed k (((hpresent k).mp hk).resolve_left hne) hne }
      have hlisted : Listed (put.touchLru key) := hbut.touchLru ((hpresent key).mpr (.inl rfl))
      -- room is made last; the key just touched is the newest and stays
      obtain ⟨hdone, hcap, hmaxDone, hlast⟩ := evictIfNeeded_spec (s := put.touchLru key) hlisted hmax
      refine ⟨hdone, hmaxDone, fun _ => hcap, fun hk => ?_⟩
      rw [present_iff, hlast _ rfl]
      exact present_iff.mp (.inl hk)

end Snapshots

/-! ## The invariant -/

structure Sound (bound : Nat) (s : ResourceStore V) : Prop where
  positive : 1 ≤ bound
  max : s.maxResources = bound
  listed : Listed s
  capacity : s.overCapacity = false
  coherent : ∀ k, (s.entry k).Coherent

section Sound

variable {bound : Nat} {s t : ResourceStore V} {key : String}

omit [DecidableEq V] in
theorem Sound.one_le (h : Sound bound s) : 1 ≤ s.maxResources :=
  h.max ▸ h.positive

omit [DecidableEq V] in
/-- A key that has a record has a snapshot, too, and both stay in a store that is within bounds. -/
theorem Sound.hasRoom (h : Sound bound s) {record : ResourceRecord V}
    (hrecord : s.records.get? key = some record) : s.HasRoom key := by
  obtain ⟨snap, hsnap, -⟩ := (h.coherent key).shown record hrecord
  have hunique : ∀ keys : List String, key ∈ keys → (unique (key :: keys)).length ≤ keys.length := by
    intro keys hkey
    refine (List.subperm_of_subset (nodup_unique _) fun k hk => ?_).length_le
    rcases List.mem_cons.mp (mem_unique.mp hk) with rfl | hk
    · exact hkey
    · exact hk
  obtain ⟨hrecords, hsnapshots⟩ := not_overCapacity_iff.mp h.capacity
  rw [OrderedMap.size_eq_length_keys] at hrecords hsnapshots
  exact ⟨(hunique _ (OrderedMap.mem_keys_of_get? hrecord)).trans hrecords,
    (hunique _ (OrderedMap.mem_keys_of_get? hsnap)).trans hsnapshots⟩

omit [DecidableEq V] in
theorem Sound.coherent_of_kept (h : Sound bound s) (hkept : ∀ k, k ≠ key → Kept s t k)
    (hself : (t.entry key).Coherent) (k : String) : (t.entry k).Coherent := by
  by_cases hk : k = key
  · exact hk ▸ hself
  · rcases hkept k hk with hsame | hevicted
    · rw [hsame]
      exact h.coherent k
    · rw [hevicted]
      exact ResourceEntry.coherent_evicted

omit [DecidableEq V] in
/-- A change of the list alone. -/
theorem Sound.of_listed (h : Sound bound s) (hlisted : Listed t) (hrecords : t.records = s.records)
    (hsnapshots : t.stateSnapshots = s.stateSnapshots) (hstale : t.staleKeys = s.staleKeys)
    (hmax : t.maxResources = s.maxResources) : Sound bound t where
  positive := h.positive
  max := hmax.trans h.max
  listed := hlisted
  capacity := by
    rw [overCapacity, hrecords, hsnapshots, hmax]
    exact h.capacity
  coherent k := by
    rw [entry, hrecords, hsnapshots, isStale, hstale]
    exact h.coherent k

omit [DecidableEq V] in
theorem Sound.touchState (h : Sound bound s) (key : String) : Sound bound (s.touchState key) := by
  have hlisted := h.listed.touchState key
  unfold ResourceStore.touchState at hlisted ⊢
  split
  · next hhas =>
    rw [if_pos hhas] at hlisted
    exact h.of_listed hlisted rfl rfl rfl rfl
  · exact h

omit [DecidableEq V] in
theorem Sound.touchRecord (h : Sound bound s) (key : String) : Sound bound (s.touchRecord key) := by
  have hlisted := h.listed.touchRecord key
  unfold ResourceStore.touchRecord at hlisted ⊢
  split
  · next hhas =>
    rw [if_pos hhas] at hlisted
    exact h.of_listed hlisted rfl rfl rfl rfl
  · exact h

omit [DecidableEq V] in
theorem listed_snapshot (h : Listed s) : key ∈ s.stateSnapshots.keys → key ∈ s.lruOrder :=
  fun hk => (h.iff key).mpr (.inr hk)

theorem coherent_set_self (h : Sound bound s) (now : Nat) (version : String) (value : V) :
    ((s.set now key version value).1.entry key).Coherent := by
  by_cases hsettled : s.settledAt key version = true
  · rw [entry_set_settledAt now value hsettled]
    exact h.coherent key
  · rcases entry_set_self s now key version value (Bool.eq_false_iff.mpr hsettled)
      with hset | hevicted
    · rw [hset]
      exact ResourceEntry.coherent_settled _
    · rw [hevicted]
      exact ResourceEntry.coherent_evicted

/-- A write keeps the list complete and the capacity, and spares the key that it writes. -/
theorem set_spec (h : Sound bound s) (now : Nat) (key version : String) (value : V) :
    (s.set now key version value).1.maxResources = s.maxResources ∧
      Listed (s.set now key version value).1 ∧
      (s.set now key version value).1.overCapacity = false ∧
      (s.set now key version value).1.Present key := by
  have htouched := h.touchState key
  have htouchedMax : (s.touchState key).maxResources = s.maxResources := by
    unfold ResourceStore.touchState
    split <;> rfl
  unfold ResourceStore.set
  -- the same version, fresh: `set` only touches the key
  split
  · next hsettled =>
    obtain ⟨record, hrecord, -⟩ := settledAt_iff.mp hsettled
    have hsame : (s.touchState key).records = s.records := by
      unfold ResourceStore.touchState
      split <;> rfl
    have hpresent : (s.touchState key).Present key :=
      .inl (hsame ▸ OrderedMap.mem_keys_of_get? hrecord)
    exact ⟨htouchedMax, htouched.listed.touchLru hpresent, htouched.capacity, hpresent⟩
  -- otherwise the record is written, shown and touched, and then room is made
  · dsimp only
    set written := ((s.touchState key).putRecord ⟨key, version, value, now⟩).dropStale key
      with hwritten
    have hpresent : ∀ k, written.Present k ↔ k = key ∨ (s.touchState key).Present k := by
      intro k
      show (k ∈ ((s.touchState key).records.set key _).keys ∨ _) ↔ _
      rw [OrderedMap.mem_keys_set, Present]
      exact or_assoc
    -- the only key that may be missing from the order is the one written
    have hbut : ListedBut key written :=
      { nodup := htouched.listed.nodup
        present := fun k hk => (hpresent k).mpr (.inr ((htouched.listed.iff k).mp hk))
        listed := fun k hk hne =>
          (htouched.listed.iff k).mpr (((hpresent k).mp hk).resolve_left hne) }
    have hrecord : key ∈ written.records.keys := OrderedMap.mem_keys_set.mpr (.inl rfl)
    have hmax : 1 ≤ written.maxResources := htouchedMax ▸ h.one_le
    obtain ⟨hshown, hshownMax, -, hkey⟩ :=
      @updateStateSnapshot_spec V _ written key .ready none false hbut
        (fun hk => (htouched.listed.iff key).mpr (.inr hk)) hmax
    obtain ⟨hlisted, hcap, hfinalMax, hlast⟩ := @evictIfNeeded_spec V
      ((written.updateStateSnapshot key .ready none false).touchLru key) key
      (hshown.touchLru (hkey hrecord)) (by rw [← hshownMax] at hmax; exact hmax)
    refine ⟨hfinalMax.trans (hshownMax.trans htouchedMax), hlisted, hcap, ?_⟩
    rw [present_iff, hlast _ rfl]
    exact present_iff.mp (hkey hrecord)

theorem sound_set (h : Sound bound s) (now : Nat) (key version : String) (value : V) :
    Sound bound (s.set now key version value).1 := by
  have hcoherent : ∀ k, ((s.set now key version value).1.entry k).Coherent :=
    h.coherent_of_kept (fun _ hk => kept_set s now version value hk)
      (coherent_set_self h now version value)
  obtain ⟨hmax, hlisted, hcap, -⟩ := set_spec h now key version value
  exact ⟨h.positive, hmax.trans h.max, hlisted, hcap, hcoherent⟩

/-- The record that was written is held afterwards, fresh; one that was settled at the version is
not written again. -/
theorem record_set_self (h : Sound bound s) (now : Nat) (key version : String) (value : V) :
    ∃ r, (s.set now key version value).1.records.get? key = some r ∧ r.version = version ∧
      (s.set now key version value).1.isStale key = false ∧
      (r.value = value ∨ s.records.get? key = some r) := by
  cases hsettled : s.settledAt key version with
  | true =>
    obtain ⟨r, hr, hversion, hfresh, -⟩ := settledAt_iff.mp hsettled
    have hentry := entry_set_settledAt now value hsettled key
    have hrecord : (s.set now key version value).1.records.get? key = s.records.get? key :=
      congrArg ResourceEntry.record hentry
    have hstale : (s.set now key version value).1.isStale key = s.isStale key :=
      congrArg ResourceEntry.stale hentry
    exact ⟨r, hrecord.trans hr, hversion, hstale.trans hfresh, .inr hr⟩
  | false =>
    have hpresent := (set_spec h now key version value).2.2.2
    rcases entry_set_self s now key version value hsettled with hset | hevicted
    · exact ⟨_, congrArg ResourceEntry.record hset, rfl, congrArg ResourceEntry.stale hset,
        .inl rfl⟩
    · rw [present_iff, hevicted] at hpresent
      exact absurd hpresent (by simp [ResourceEntry.evicted])

theorem sound_showUnsettled (h : Sound bound s) (key : String) {status : ResourceStatus}
    (error : Option (ResourceErrorDetail V)) (hstatus : status ≠ .missing) :
    Sound bound (s.showUnsettled key status error) := by
  -- `showUnsettled` marks a held value stale, so its entry stays coherent; no other entry moves.
  have hself : ((s.showUnsettled key status error).entry key).Coherent := by
    rcases entry_showUnsettled_self s key error hstatus with hshown | hevicted
    · rw [hshown]
      exact (h.coherent key).unsettled status error
    · rw [hevicted]
      exact ResourceEntry.coherent_evicted
  have hcoherent : ∀ k, ((s.showUnsettled key status error).entry k).Coherent :=
    h.coherent_of_kept (fun _ hk => kept_showUnsettled s status error hk) hself
  unfold showUnsettled at hcoherent ⊢
  dsimp only at hcoherent ⊢
  set marked := if s.records.has key then s.addStale key else s with hmarked
  -- marking the key stale leaves the order and both maps alone
  have hsame : marked.lruOrder = s.lruOrder ∧ marked.records = s.records ∧
      marked.stateSnapshots = s.stateSnapshots ∧ marked.maxResources = s.maxResources := by
    rw [hmarked]
    split <;> exact ⟨rfl, rfl, rfl, rfl⟩
  obtain ⟨hlru, hrecords, hsnapshots, hmax⟩ := hsame
  have hlisted : Listed marked := by
    refine ⟨hlru ▸ h.listed.nodup, fun k => ?_⟩
    rw [hlru, Present, hrecords, hsnapshots]
    exact h.listed.iff k
  have hcap : marked.overCapacity = false := by
    rw [overCapacity, hrecords, hsnapshots, hmax]
    exact h.capacity
  obtain ⟨hdone, hdoneMax, hdoneCap, -⟩ :=
    @updateStateSnapshot_spec V _ marked key status error (s.records.has key) (hlisted.but key)
      (listed_snapshot hlisted) (hmax ▸ h.one_le)
  exact ⟨h.positive, (hdoneMax.trans hmax).trans h.max, hdone, hdoneCap hcap, hcoherent⟩

/-- A ready snapshot of what is held, marked as the record is, or nothing at all. -/
theorem coherent_clearResourceError_self (h : Sound bound s) (key : String) :
    ((s.clearResourceError key).entry key).Coherent := by
  unfold clearResourceError
  dsimp only
  -- only a key with an error is changed
  split
  · rw [entry_touchState]
    exact h.coherent key
  · next herror =>
    set touched := s.touchState key with htouched
    have hentry : touched.entry key = s.entry key := entry_touchState s key key
    have hcoherent : (touched.entry key).Coherent := hentry ▸ h.coherent key
    cases hrecord : touched.records.get? key with
    -- without a record the snapshot goes, and a stale mark would need a record
    | none =>
      have hhas : touched.records.has key = false := by simp [OrderedMap.has, hrecord]
      have hstale : touched.isStale key = false := by
        refine Bool.eq_false_iff.mpr fun hstale => ?_
        have hsome : (touched.records.get? key).isSome = true := hcoherent.held hstale
        rw [hrecord] at hsome
        cases hsome
      simp only [updateStateSnapshot, hhas, hrecord, Option.map_none, Bool.false_and,
        Bool.false_eq_true, if_false, and_self, if_true]
      split
      · exact hcoherent
      · have hdropped : (touched.dropSnapshot key).records.has key = false := hhas
        rw [hdropped, if_neg (by decide), entry_removeFromLru]
        refine ⟨fun r hr => ?_, fun hheld => ?_⟩
        · have hr : touched.records.get? key = some r := hr
          rw [hrecord] at hr
          cases hr
        · have hheld : touched.isStale key = true := hheld
          rw [hstale] at hheld
          cases hheld
    -- with a record the error is replaced by the held value
    | some r =>
      have hhas : touched.records.has key = true := by simp [OrderedMap.has, hrecord]
      rw [hhas, if_pos rfl, Bool.true_and]
      rcases entry_updateStateSnapshot_self touched key .ready none (touched.isStale key)
        (.inl (by decide)) with hshown | hevicted
      · rw [hshown]
        refine ⟨fun r' hr' => ?_, hcoherent.held⟩
        exact ⟨_, rfl, congrArg (Option.map ResourceRecord.value) hr', rfl, fun _ => ⟨rfl, rfl⟩⟩
      · rw [hevicted]
        exact ResourceEntry.coherent_evicted

theorem sound_clearResourceError (h : Sound bound s) (key : String) :
    Sound bound (s.clearResourceError key) := by
  have hkept : ∀ k, k ≠ key → Kept s (s.clearResourceError key) k := by
    intro k hk
    unfold clearResourceError
    dsimp only
    split
    · exact .of_eq (entry_touchState s key k)
    · exact (Kept.of_eq (entry_touchState s key k)).trans (kept_updateStateSnapshot _ _ _ _ hk)
  have hcoherent : ∀ k, ((s.clearResourceError key).entry k).Coherent :=
    h.coherent_of_kept hkept (coherent_clearResourceError_self h key)
  have htouched := h.touchState key
  unfold clearResourceError at hcoherent ⊢
  dsimp only at hcoherent ⊢
  split
  · exact htouched
  · next herror =>
    rw [if_neg herror] at hcoherent
    have hspec := fun status stale => @updateStateSnapshot_spec V _ (s.touchState key) key status
      none stale (htouched.listed.but key) (listed_snapshot htouched.listed) htouched.one_le
    obtain ⟨hdone, hmax, hcap, -⟩ := hspec
      (if (s.touchState key).records.has key then .ready else .missing)
      ((s.touchState key).records.has key && (s.touchState key).isStale key)
    exact ⟨h.positive, hmax.trans htouched.max, hdone, hcap htouched.capacity, hcoherent⟩

omit [Patchable V P] in
theorem sound_putPatched (h : Sound bound s) (now : Nat) {existing : ResourceRecord V}
    {key : String} (hrecord : s.records.get? key = some existing) (value : V) :
    Sound bound (s.putPatched now existing key value) := by
  -- the patched record is stale until the server confirms it
  have hself : ((s.putPatched now existing key value).entry key).Coherent := by
    rcases entry_putPatched_self s now existing key value with ⟨r, hpatched⟩ | hevicted
    · rw [hpatched]
      refine ⟨fun r' hr' => ?_, fun _ => rfl⟩
      cases hr'
      exact ⟨_, rfl, rfl, rfl, fun hstale => by cases hstale⟩
    · rw [hevicted]
      exact ResourceEntry.coherent_evicted
  have hcoherent : ∀ k, ((s.putPatched now existing key value).entry k).Coherent :=
    h.coherent_of_kept (fun _ hk => kept_putPatched s now existing value hk) hself
  unfold ResourceStore.putPatched at hcoherent ⊢
  dsimp only at hcoherent ⊢
  set record : ResourceRecord V := ⟨key, existing.version ++ "_p" ++ toString36 now, value, now⟩
    with hnew
  set written := (s.putRecord record).addStale key with hwritten
  have hmem : key ∈ s.records.keys := OrderedMap.mem_keys_of_get? hrecord
  -- the key had a record already, so the maps keep their keys and their sizes
  have hkeys : ∀ k, k ∈ written.records.keys ↔ k ∈ s.records.keys := by
    intro k
    show k ∈ (s.records.set key record).keys ↔ _
    rw [OrderedMap.mem_keys_set]
    exact ⟨fun hk => hk.elim (fun heq => heq ▸ hmem) id, .inr⟩
  have hlisted : Listed written := by
    refine ⟨h.listed.nodup, fun k => (h.listed.iff k).trans ?_⟩
    exact or_congr_left (hkeys k).symm
  have hcap : written.overCapacity = false := by
    obtain ⟨hrecords, hsnapshots⟩ := not_overCapacity_iff.mp h.capacity
    refine not_overCapacity_iff.mpr ⟨?_, hsnapshots⟩
    show (s.records.set key record).size ≤ s.maxResources
    rw [OrderedMap.size_set_of_mem record hmem]
    exact hrecords
  obtain ⟨hdone, hmax, hdoneCap, hkey⟩ := @updateStateSnapshot_spec V _ written key .ready none
    true (hlisted.but key) (listed_snapshot hlisted) h.one_le
  exact ⟨h.positive, hmax.trans h.max, hdone.touchLru (hkey ((hkeys key).mpr hmem)), hdoneCap hcap,
    hcoherent⟩

theorem sound_patch (h : Sound bound s) {now : Nat} {key : String} {patches : List P}
    {t : ResourceStore V} {flag : Bool} (hpatch : s.patch now key patches = some (t, flag)) :
    Sound bound t := by
  rcases patch_cases hpatch with ⟨-, rfl, -⟩ | ⟨existing, value, hrecord, rfl, -⟩
  · exact h
  · exact sound_putPatched h now hrecord value

theorem coherent_markStale_self (h : Sound bound s) (key : String) :
    ((s.markStale key).entry key).Coherent := by
  by_cases hrecord : (s.entry key).record = none
  · have hsame : s.markStale key = s := by
      have hhas : s.records.has key = false := by
        have hnone : s.records.get? key = none := hrecord
        simp [OrderedMap.has, hnone]
      rw [ResourceStore.markStale, hhas]
      rfl
    rw [hsame]
    exact h.coherent key
  · rcases entry_markStale_self s key with ⟨hsame, -⟩ | hmarked | hevicted
    · rw [hsame]
      exact h.coherent key
    · rw [hmarked]
      refine ⟨fun r hr => ?_, fun _ => Option.isSome_iff_ne_none.mpr hrecord⟩
      exact ⟨_, rfl, congrArg (Option.map ResourceRecord.value) hr, rfl,
        fun hstale => by cases hstale⟩
    · rw [hevicted]
      exact ResourceEntry.coherent_evicted

theorem sound_markStale (h : Sound bound s) (key : String) : Sound bound (s.markStale key) := by
  have hcoherent : ∀ k, ((s.markStale key).entry k).Coherent :=
    h.coherent_of_kept (fun _ hk => kept_markStale s hk) (coherent_markStale_self h key)
  unfold ResourceStore.markStale at hcoherent ⊢
  split
  · exact h
  · next hheld =>
    rw [if_neg hheld] at hcoherent
    have hmarked : Listed (s.addStale key) := ⟨h.listed.nodup, h.listed.iff⟩
    have hlisted : Listed ((s.addStale key).touchState key) := hmarked.touchState key
    have hcap : ((s.addStale key).touchState key).overCapacity = false := by
      unfold ResourceStore.touchState
      split <;> exact h.capacity
    have hmax : ((s.addStale key).touchState key).maxResources = bound := by
      unfold ResourceStore.touchState
      split <;> exact h.max
    obtain ⟨hdone, hdoneMax, hdoneCap, -⟩ := @updateStateSnapshot_spec V _
      ((s.addStale key).touchState key) key ((s.addStale key).stateOf key).status
      ((s.addStale key).stateOf key).error true (hlisted.but key) (listed_snapshot hlisted)
      (hmax ▸ h.positive)
    exact ⟨h.positive, hdoneMax.trans hmax, hdone, hdoneCap hcap, hcoherent⟩

omit [DecidableEq V] in
theorem sound_invalidate (h : Sound bound s) (key : String) : Sound bound (s.invalidate key) := by
  have hsmaller : (s.invalidate key).records.size ≤ s.records.size ∧
      (s.invalidate key).stateSnapshots.size ≤ s.stateSnapshots.size := by
    unfold ResourceStore.invalidate
    split
    · exact ⟨OrderedMap.size_delete_le _ _, OrderedMap.size_delete_le _ _⟩
    · exact ⟨le_refl _, le_refl _⟩
  have hmax := maxResources_invalidate s key
  obtain ⟨hrecords, hsnapshots⟩ := not_overCapacity_iff.mp h.capacity
  refine ⟨h.positive, hmax.trans h.max, h.listed.invalidate key, not_overCapacity_iff.mpr ?_, fun k => ?_⟩
  · rw [hmax]
    exact ⟨hsmaller.1.trans hrecords, hsmaller.2.trans hsnapshots⟩
  · rcases kept_invalidate s k key with hsame | hevicted
    · rw [hsame]
      exact h.coherent k
    · rw [hevicted]
      exact ResourceEntry.coherent_evicted

omit [DecidableEq V] in
theorem sound_clear (h : Sound bound s) : Sound bound s.clear where
  positive := h.positive
  max := h.max
  listed := ⟨List.nodup_nil, fun k => by simp [ResourceStore.clear, Present]⟩
  capacity := not_overCapacity_iff.mpr ⟨Nat.zero_le _, Nat.zero_le _⟩
  coherent k := by
    rw [entry_clear]
    exact ResourceEntry.coherent_evicted

end Sound

/-! ## Every sequence of operations -/

/-- The operations of the store, readers that touch the recency list included. -/
inductive Op (V P : Type) where
  | set (now : Nat) (key version : String) (value : V)
  | setMany (now : Nat) (resources : OrderedMap String (ResourceWireRecord V))
  | markPending (keys : List String)
  | markLoading (keys : List String)
  | setResourceError (key : String) (error : ResourceErrorDetail V)
  | clearResourceError (key : String)
  | patch (now : Nat) (key : String) (patches : List P)
  | invalidate (key : String)
  | markStale (key : String)
  | clear
  | getSnapshot (key : String)
  | getStateSnapshot (key : String)
  | getRecord (key : String)
  | subscribe (key : String)
  | unsubscribe (key : String)

def run (s : ResourceStore V) : Op V P → ResourceStore V
  | .set now key version value => (s.set now key version value).1
  | .setMany now resources => (s.setMany now resources).1
  | .markPending keys => s.markPending keys
  | .markLoading keys => s.markLoading keys
  | .setResourceError key error => s.setResourceError key error
  | .clearResourceError key => s.clearResourceError key
  -- a patch that throws has written nothing
  | .patch now key patches => (s.patch now key patches).elim s (·.1)
  | .invalidate key => s.invalidate key
  | .markStale key => s.markStale key
  | .clear => s.clear
  | .getSnapshot key => s.touchRecord key
  | .getStateSnapshot key => s.touchState key
  | .getRecord key => s.touchRecord key
  | .subscribe key => s.subscribe key
  | .unsubscribe key => s.unsubscribe key

theorem sound_setMany {bound : Nat} {s : ResourceStore V} (h : Sound bound s) (now : Nat)
    (resources : OrderedMap String (ResourceWireRecord V)) : Sound bound (s.setMany now resources).1 := by
  unfold setMany
  exact foldl_invariant (I := fun acc : ResourceStore V × List String => Sound bound acc.1) _
    (fun acc e _ hacc => sound_set hacc now e.1 e.2.version e.2.value) h

theorem sound_run {s : ResourceStore V} (h : Sound bound s) (op : Op V P) : Sound bound (s.run op) := by
  -- One lemma for each operation; the loops go through `foldl_invariant`.
  cases op with
  | set now key version value => exact sound_set h now key version value
  | setMany now resources => exact sound_setMany h now resources
  | markPending keys =>
    exact foldl_invariant (I := Sound bound) (f := fun s key => s.showUnsettled key .pending none) keys
      (fun _ key _ hs => sound_showUnsettled hs key none (by decide)) h
  | markLoading keys =>
    exact foldl_invariant (I := Sound bound) (f := fun s key => s.showUnsettled key .loading none) keys
      (fun _ key _ hs => sound_showUnsettled hs key none (by decide)) h
  | setResourceError key error => exact sound_showUnsettled h key (some error) (by decide)
  | clearResourceError key => exact sound_clearResourceError h key
  | patch now key patches =>
    show Sound bound ((s.patch now key patches).elim s (·.1))
    cases hpatch : s.patch now key patches with
    | none => exact h
    | some patched => exact sound_patch h hpatch
  | invalidate key => exact sound_invalidate h key
  | markStale key => exact sound_markStale h key
  | clear => exact sound_clear h
  | getSnapshot key => exact h.touchRecord key
  | getStateSnapshot key => exact h.touchState key
  | getRecord key => exact h.touchRecord key
  | subscribe key => exact h.of_listed ⟨h.listed.nodup, h.listed.iff⟩ rfl rfl rfl rfl
  | unsubscribe key =>
    show Sound bound (s.unsubscribe key)
    unfold ResourceStore.unsubscribe
    split <;> exact h.of_listed ⟨h.listed.nodup, h.listed.iff⟩ rfl rfl rfl rfl

omit [DecidableEq V] in
theorem sound_new {maxResources : Nat} (h : 1 ≤ maxResources) :
    Sound maxResources ({ maxResources := maxResources } : ResourceStore V) where
  positive := h
  max := rfl
  listed := ⟨List.nodup_nil, fun k => by simp [Present]⟩
  capacity := not_overCapacity_iff.mpr ⟨Nat.zero_le _, Nat.zero_le _⟩
  coherent k := ResourceEntry.coherent_evicted

/-- After any sequence of operations on a new store, the recency list holds exactly the keys that
hold anything, once each; a record is shown by its snapshot, marked stale there exactly when it is
stale, and ready without an error otherwise; only records are stale; and both tables keep to the
capacity. -/
theorem reachable_sound {maxResources : Nat} (hmax : 1 ≤ maxResources) (ops : List (Op V P)) :
    let s := ops.foldl run ({ maxResources := maxResources } : ResourceStore V)
    (s.lruOrder.Nodup ∧ ∀ k, k ∈ s.lruOrder ↔ k ∈ s.records.keys ∨ k ∈ s.stateSnapshots.keys) ∧
      (∀ k r, s.records.get? k = some r → ∃ snap, s.stateSnapshots.get? k = some snap ∧
        snap.data = some r.value ∧ snap.stale = decide (k ∈ s.staleKeys) ∧
          (k ∉ s.staleKeys → snap.status = .ready ∧ snap.error = none)) ∧
      (∀ k ∈ s.staleKeys, k ∈ s.records.keys) ∧
      s.records.size ≤ maxResources ∧ s.stateSnapshots.size ≤ maxResources := by
  intro s
  have hsound : Sound maxResources s :=
    foldl_invariant (I := Sound maxResources) ops (fun _ op _ hs => sound_run hs op) (sound_new hmax)
  obtain ⟨hrecords, hsnapshots⟩ := not_overCapacity_iff.mp hsound.capacity
  refine ⟨⟨hsound.listed.nodup, hsound.listed.iff⟩, fun k r hr => ?_, fun k hk => ?_,
    hsound.max ▸ hrecords, hsound.max ▸ hsnapshots⟩
  · obtain ⟨snap, hsnap, hdata, hflag, hready⟩ := (hsound.coherent k).shown r hr
    refine ⟨snap, hsnap, hdata, hflag, fun hk => hready ?_⟩
    exact decide_eq_false hk
  · have hheld : (s.records.get? k).isSome = true :=
      (hsound.coherent k).held (decide_eq_true hk)
    obtain ⟨r, hr⟩ := Option.isSome_iff_exists.mp hheld
    exact OrderedMap.mem_keys_of_get? hr

/-- A store of one resource: announcing a second one evicts the first. -/
theorem reachable_sound_evicted :
    let s := [Op.set 0 "a" "v1" 7, .patch 1 "a" [8], .markPending ["b"]].foldl run
      ({ maxResources := 1 } : ResourceStore Nat)
    s.lruOrder = ["b"] ∧ s.lruOrder.Nodup ∧ s.records.size ≤ 1 :=
  have h := reachable_sound (V := Nat) (by decide : 1 ≤ 1)
    [Op.set 0 "a" "v1" 7, .patch 1 "a" [8], .markPending ["b"]]
  ⟨by decide, h.1.1, h.2.2.2.1⟩

end ResourceStore

end FluxFast.Core
