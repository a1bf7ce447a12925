import FluxFast.Core.LoadsUnderWay

/-!
# LoadAbort — an aborted load takes back what its start did

The start of a load bumps its keys and shows them as loading; when the load is aborted, the keys
that are still at the captured epoch are put back to what they held.  In between any operation may
run.  `Spared` is what holds of a requested key in every state until the abort: it was bumped
again, or the key still holds what it held, and no task is left that writes it.
-/

namespace FluxFast.Core

open FluxFast.Theory

set_option linter.unusedSectionVars false

variable {V P : Type} [DecidableEq V] [Patchable V P]

namespace Task

/-- The keys whose records the page or the prefetch that is being applied has still to write. -/
def toRecord : Task V P → List String
  | .navResources _ rest => rest.map Prod.fst
  | .applyPrefetch _ _ rest _ => rest.map Prod.fst
  | _ => []

theorem mem_toWrite_of_toRecord {t : Task V P} {k : String} (h : k ∈ t.toRecord) :
    k ∈ t.toWrite := by
  cases t with
  | navResources nav rest => exact List.mem_append_left _ (List.mem_append_left _ h)
  | applyPrefetch call fetched rest race => exact h
  | _ => cases h

theorem Follows.toRecord_subset {t t' : Task V P} (h : t.Follows t') {k : String}
    (hk : k ∈ t'.toRecord) : k ∈ t.toRecord := by
  cases h with
  | wroteResource | wrotePrefetched => exact List.mem_cons_of_mem _ hk
  | _ => cases hk

end Task

namespace Router

/-- The step starts the load: its keys are bumped, and nothing has been written yet. -/
structure Starts (r : Router V P) (a : Action V P) (call : LoadCall) (r' : Router V P) : Prop where
  step : r.step a = some r'
  started : r'.Started call
  new : r.resourceLoadCounter < call.id

/-- No response answers the load. -/
def Unanswered (call : LoadCall) (r : Router V P) : Action V P → Prop
  | .loadResponse index _ _ => ∀ c ∈ r.loads[index]?, c.id ≠ call.id
  | _ => True

/-- The key was bumped after the state `r₁`. -/
def BumpedSince (r₁ r : Router V P) (key : String) : Prop :=
  ∃ b ∈ r.resources.bumps, b.key = key ∧ r₁.resources.resourceEpochCounter < b.epoch

/-- No page and no prefetch is being applied that has the key's record still to write. -/
def Unclaimed (r : Router V P) (key : String) : Prop :=
  ∀ t ∈ r.turn, t.live r = true → key ∉ t.toRecord

/-- A requested key between the start of the load, in `r₁`, and its abort. -/
structure Spared (call : LoadCall) (key : String) (r₁ r : Router V P) : Prop where
  accounted : r.Accounted
  begun : call.lifecycleGeneration ≤ r.lifecycleGeneration
  unsettled : ∀ c envelope rest settled, Task.settleLoad c envelope rest settled ∈ r.turn →
    c.id ≠ call.id
  suffix : call.lifecycleGeneration = r.lifecycleGeneration →
    r₁.resources.bumps <:+ r.resources.bumps ∧
      r₁.resources.resourceEpochCounter ≤ r.resources.resourceEpochCounter
  kept : call.lifecycleGeneration = r.lifecycleGeneration → r.resources.Bounded →
    BumpedSince r₁ r key ∨
      r.resources.currentEpoch key = r₁.resources.currentEpoch key ∧
        ResourceStore.HeldKept key r₁.store r.store ∧ r.Unclaimed key

/-- Only a load that captured the key's epoch writes its record, and that load is the one that
bumped it last. -/
theorem not_writesRecord {r : Router V P} {t : Task V P} {key : String} {call : LoadCall} {e : Nat}
    (hr : r.Accounted) (ht : t ∈ r.turn) (hunclaimed : r.Unclaimed key)
    (hunsettled : ∀ c envelope rest settled, Task.settleLoad c envelope rest settled ∈ r.turn →
      c.id ≠ call.id)
    (hepoch : r.resources.currentEpoch key = some e)
    (howner : ⟨key, e, .load call.id⟩ ∈ r.resources.bumps) : t.writesRecord r ≠ some key := by
  intro hwrites
  cases t with
  | settleLoad c envelope rest settled =>
    cases rest with
    | nil => cases hwrites
    | cons k rest =>
      simp only [Task.writesRecord] at hwrites
      split at hwrites <;> cases hwrites
      next hcond =>
      have hcaptured : c.capturedEpochs.get? key = some e :=
        (Resources.stillAt_iff.mp hcond.2).symm.trans hepoch
      have hbump := hr.owned c (hasLoad_of_mem ht rfl) hcond.1 key e hcaptured
      -- two bumps of one epoch are the same bump, so the loads are the same
      have hsame := hr.descending.eq hbump howner rfl
      injection hsame with _ _ hcause
      injection hcause with hid
      exact hunsettled c envelope (key :: rest) settled ht hid
  | navResources nav rest =>
    cases rest with
    | nil => cases hwrites
    | cons entry rest =>
      obtain ⟨k, record⟩ := entry
      simp only [Task.writesRecord] at hwrites
      split at hwrites <;> cases hwrites
      next hcurrent => exact hunclaimed _ ht hcurrent List.mem_cons_self
  | applyPrefetch c fetched rest race =>
    cases rest with
    | nil => cases hwrites
    | cons entry rest =>
      obtain ⟨k, record⟩ := entry
      simp only [Task.writesRecord] at hwrites
      split at hwrites <;> cases hwrites
      next hsame => exact hunclaimed _ ht (decide_eq_true hsame) List.mem_cons_self
  | _ => cases hwrites

/-- A page or a prefetch that the step begins to apply has bumped the keys that it writes. -/
theorem unclaimed_step {r r' : Router V P} {a : Action V P} {key : String} (hr : r.Accounted)
    (h : r.step a = some r') (hunclaimed : r.Unclaimed key)
    (hquiet : ¬∃ b ∈ r'.resources.bumps, b.key = key ∧ r.resources.resourceEpochCounter < b.epoch) :
    r'.Unclaimed key := by
  intro t ht hlive hk
  have hold : ∀ t₀ ∈ r.turn, t₀.live r' = true → key ∉ t₀.toRecord := fun t₀ ht₀ hlive₀ hk₀ =>
    hunclaimed t₀ ht₀ (live_of_step h (hr.orderly.tasks t₀ ht₀)
      (Task.mem_toWrite_of_toRecord hk₀) hlive₀).1 hk₀
  rcases mem_turn_step h ht with hmem | hspawned
  · exact hold t (mem_turn_of_mem_below hmem) hlive hk
  · cases hspawned with
    | follows _ hturn hfollows =>
      exact hold _ (hturn ▸ List.mem_cons_self) ((hfollows.live_eq r').symm.trans hlive)
        (hfollows.toRecord_subset hk)
    | navigation _ _ hresources =>
      have heligible := (mem_toWrite_navigation (Task.mem_toWrite_of_toRecord hk)).1
      exact hquiet (hresources ▸ Resources.exists_new_bump_bumpAll r.resources _ heligible)
    | prefetched _ _ hresources =>
      exact hquiet (hresources ▸ Resources.exists_new_bump_bumpAll r.resources _ hk)
    | _ => cases hk

theorem unsettled_step {r r' : Router V P} {a : Action V P} {call : LoadCall}
    (h : r.step a = some r') (hok : Unanswered call r a)
    (hunsettled : ∀ c envelope rest settled, Task.settleLoad c envelope rest settled ∈ r.turn →
      c.id ≠ call.id) (c : LoadCall) (envelope : PageEnvelope V) (rest settled : List String)
    (hmem : Task.settleLoad c envelope rest settled ∈ r'.turn) : c.id ≠ call.id := by
  rcases mem_turn_step h hmem with hold | hspawned
  · exact hunsettled _ _ _ _ (mem_turn_of_mem_below hold)
  · cases hspawned with
    | follows _ hturn hfollows =>
      cases hfollows with
      | settled => exact hunsettled _ _ _ _ (hturn ▸ List.mem_cons_self)
    | answered ha hcall =>
      subst ha
      exact hok c hcall

/-- What the load captured is where the key stands when it has been started. -/
theorem currentEpoch_of_started {r : Router V P} {call : LoadCall} {key : String}
    (hr : r.Accounted) (hb : r.resources.Bounded) (h : r.Started call)
    (hkey : key ∈ call.requestedKeys) :
    ∃ e, call.capturedEpochs.get? key = some e ∧ r.resources.currentEpoch key = some e := by
  obtain ⟨before, hresources, hcaptured⟩ := h.captured
  obtain ⟨e, hget, hnewest⟩ := Resources.newest_captureEpochs before call.id call.requestedKeys hkey
  rw [← hcaptured] at hget
  rw [← hresources] at hnewest
  exact ⟨e, hget, (hr.remembers hb key).trans hnewest⟩

theorem spared_start {r r₁ : Router V P} {a : Action V P} {call : LoadCall} {key : String}
    (hr : r.Accounted) (h : Starts r a call r₁) (hunclaimed : r₁.Unclaimed key) :
    Spared call key r₁ r₁ where
  accounted := accounted_step hr h.step
  begun := h.started.generation.le
  unsettled c envelope rest settled hmem := by
    -- a load that is being settled was numbered before this one
    have hold : r.HasLoad c := by
      rcases mem_turn_step h.step hmem with hbelow | hspawned
      · exact hasLoad_of_mem (mem_turn_of_mem_below hbelow) rfl
      · cases hspawned with
        | follows _ hturn hfollows =>
          exact hasLoad_of_mem (hturn ▸ List.mem_cons_self) hfollows.load?_eq.symm
        | answered _ hcall => exact .inl (List.mem_of_getElem? hcall)
    exact ((hr.numbered c hold).trans_lt h.new).ne
  suffix _ := ⟨List.suffix_refl _, le_refl _⟩
  kept _ _ := .inr ⟨rfl, .refl key _, hunclaimed⟩

theorem spared_step {r₁ r r' : Router V P} {a : Action V P} {call : LoadCall} {key : String}
    (h₁ : r₁.Accounted) (hstarted : r₁.Started call) (hkey : key ∈ call.requestedKeys)
    (hr : Spared call key r₁ r) (hok : Unanswered call r a) (h : r.step a = some r') :
    Spared call key r₁ r' := by
  have hgeneration := (changes_step h).generation hr.begun
  -- a step of the call's own generation is no `clear`
  have hclear : call.lifecycleGeneration = r'.lifecycleGeneration → a ≠ .clear := by
    rintro hsame rfl
    cases h
    have hbefore := hr.begun
    have hnext : call.lifecycleGeneration = r.lifecycleGeneration + 1 := hsame
    omega
  refine { accounted := accounted_step hr.accounted h
           begun := hr.begun.trans (changes_step h).counters_le.2
           unsettled := unsettled_step h hok hr.unsettled
           suffix := fun hsame => ?_, kept := fun hsame hb => ?_ }
  -- the bumps only grow, so "bumped since" is never lost
  · have hgrows := grows_step h (hclear hsame)
    obtain ⟨hsuffix, hcounter⟩ := hr.suffix (hgeneration hsame)
    exact ⟨hsuffix.trans hgrows.suffix, hcounter.trans hgrows.counter_le⟩
  · have hgrows := grows_step h (hclear hsame)
    obtain ⟨hsuffix, hcounter⟩ := hr.suffix (hgeneration hsame)
    have hb₀ := hb.of_suffix hgrows.suffix
    -- Either this step has bumped the key, or its entry is spared by what holds of a sparing step.
    by_cases hbumped : BumpedSince r₁ r' key
    · exact .inl hbumped
    have hquiet : ¬∃ b ∈ r'.resources.bumps,
        b.key = key ∧ r.resources.resourceEpochCounter < b.epoch := fun ⟨b, hmem, hk, hlt⟩ =>
      hbumped ⟨b, hmem, hk, hcounter.trans_lt hlt⟩
    -- what holds so far: the key was bumped, or it is at its epoch, held and claimed by nobody
    rcases hr.kept (hgeneration hsame) hb₀ with ⟨b, hmem, hrest⟩ | ⟨hepoch, hheld, hunclaimed⟩
    · exact .inl ⟨b, hgrows.suffix.subset hmem, hrest⟩
    refine .inr ⟨?_, ?_, unclaimed_step hr.accounted h hunclaimed hquiet⟩
    · exact ((hgrows.currentEpoch hr.accounted.exact hb key).resolve_left hquiet).trans hepoch
    · obtain ⟨e, hcaptured, hcurrent⟩ :=
        currentEpoch_of_started h₁ (hb₀.of_suffix hsuffix) hstarted hkey
      have howner := hsuffix.subset (hstarted.owned hcaptured)
      -- the call still owns the key, so no part of another call may write its record
      have hspares : Sparing key r a := by
        refine ⟨hclear hsame, fun t rest ha hturn => ?_⟩
        exact not_writesRecord hr.accounted (hturn ▸ List.mem_cons_self) hunclaimed hr.unsettled
          (hepoch.trans hcurrent) howner
      exact hheld.trans ((passes_step h hspares).held.resolve_left hquiet)

theorem spared_run {r r₁ r₂ : Router V P} {a : Action V P} {call : LoadCall} {key : String}
    (hr : r.Accounted) (h : Starts r a call r₁) (hkey : key ∈ call.requestedKeys)
    (hunclaimed : r₁.Unclaimed key) (hrun : Run step (Unanswered call) r₁ r₂) :
    Spared call key r₁ r₂ :=
  hrun.invariant (I := Spared call key r₁)
    (fun _ _ _ => spared_step (accounted_step hr h.step) h.started hkey)
    (spared_start hr h hunclaimed)

/-! ## The abort -/

theorem store_resume_aborted {r r' : Router V P} {call : LoadCall} {failure : Failure} {key : String}
    {rest settled : List String} {below : List (Task V P)}
    (hturn : r.turn = .rejectLoad call failure true (key :: rest) settled :: below)
    (hgeneration : call.lifecycleGeneration = r.lifecycleGeneration)
    (hstill : r.resources.stillAt key (call.capturedEpochs.get? key) = true)
    (h : r.step .resume = some r') : r'.store = rewriteHeld r.store r.now key := by
  simp only [step, resume, hturn, Option.some.injEq] at h
  rw [← h]
  show (stepRejectLoad { r with turn := below } call failure true (key :: rest) settled).store = _
  unfold stepRejectLoad
  dsimp only
  rw [if_neg (not_not.mpr hgeneration), if_pos hstill, if_pos rfl]
  rfl

/-- A key without a record is missing afterwards; a held record is held as before, and confirmed. -/
theorem rewriteHeld_spec {bound : Nat} {s : ResourceStore V} (hs : ResourceStore.Sound bound s)
    (now : Nat) (key : String) :
    (rewriteHeld s now key).held key = s.held key ∧
      (s.held key = none → (rewriteHeld s now key).entry key = .evicted) ∧
      (rewriteHeld s now key).isStale key = false := by
  unfold rewriteHeld
  split
  · next record hrecord =>
    obtain ⟨written, hwritten, hversion, hfresh, hvalue⟩ := ResourceStore.record_set_self
      (hs.touchRecord key) now key record.version record.value
    have hrecord' : (s.touchRecord key).records.get? key = some record :=
      (congrArg ResourceEntry.record (ResourceStore.entry_touchRecord s key key)).trans hrecord
    have hsame : written.value = record.value := by
      rcases hvalue with hvalue | hheld
      · exact hvalue
      · rw [hrecord'] at hheld
        exact (congrArg ResourceRecord.value (Option.some.inj hheld)).symm
    refine ⟨?_, fun hnone => ?_, hfresh⟩
    · rw [ResourceStore.held, hwritten, ResourceStore.held, hrecord, Option.map_some,
        Option.map_some, hversion, hsame]
    · rw [ResourceStore.held, hrecord] at hnone
      cases hnone
  · next hnone =>
    have hevicted := ResourceStore.entry_invalidate_self s key
    refine ⟨?_, fun _ => hevicted, congrArg ResourceEntry.stale hevicted⟩
    rw [ResourceStore.held_of_entry hevicted, ResourceStore.held, hnone]
    rfl

/-- Writing a held record again evicts nothing. -/
theorem entry_rewriteHeld_other {bound : Nat} {s : ResourceStore V}
    (hs : ResourceStore.Sound bound s) (now : Nat) {key j : String} (hj : j ≠ key) :
    (rewriteHeld s now key).entry j = s.entry j := by
  cases hrecord : s.records.get? key with
  | none =>
    unfold rewriteHeld
    rw [hrecord]
    exact ResourceStore.entry_invalidate_ne s hj
  | some record => exact entry_rewriteHeld_ne (hs.hasRoom hrecord) hj now

/-- A turn of the abort loop writes at most the key that it comes to. -/
theorem abort_turn {r r' : Router V P} {call : LoadCall} {failure : Failure} {key : String}
    {rest settled : List String} {below : List (Task V P)}
    (hturn : r.turn = .rejectLoad call failure true (key :: rest) settled :: below)
    (hgeneration : call.lifecycleGeneration = r.lifecycleGeneration)
    (h : r.step .resume = some r') :
    r'.turn = .rejectLoad call failure true rest settled :: below ∧
      r'.lifecycleGeneration = r.lifecycleGeneration ∧
      (r'.store = r.store ∨ r'.store = rewriteHeld r.store r.now key) := by
  simp only [step, resume, hturn, Option.some.injEq] at h
  rw [← h]
  unfold runTask stepRejectLoad
  dsimp only
  rw [if_neg (not_not.mpr hgeneration)]
  split
  · exact ⟨rfl, rfl, .inr rfl⟩
  · exact ⟨rfl, rfl, .inl rfl⟩

theorem store_abort_end {r r' : Router V P} {call : LoadCall} {failure : Failure}
    {settled : List String} {below : List (Task V P)}
    (hturn : r.turn = .rejectLoad call failure true [] settled :: below)
    (h : r.step .resume = some r') : r'.store = r.store := by
  simp only [step, resume, hturn, Option.some.injEq] at h
  rw [← h]
  unfold runTask stepRejectLoad
  dsimp only
  rw [if_pos (.inr rfl)]
  rfl

/-- The turns that are left of the loop leave a key that is not stale as it is. -/
theorem abort_turns {call : LoadCall} {failure : Failure} {key : String} {settled : List String}
    {below : List (Task V P)} {bound : Nat} (n : Nat) :
    ∀ {keys : List String} {r r' : Router V P},
      r.turn = .rejectLoad call failure true keys settled :: below → n ≤ keys.length + 1 →
      call.lifecycleGeneration = r.lifecycleGeneration → ResourceStore.Sound bound r.store →
      r.store.isStale key = false → exec step r (List.replicate n .resume) = some r' →
      r'.store.held key = r.store.held key ∧ r'.store.isStale key = false ∧
        (r.store.entry key = .evicted → r'.store.entry key = .evicted) := by
  -- Induction on the turns that are taken; each settles the first key that is left.
  induction n with
  | zero =>
    intro keys r r' _ _ _ _ hfresh h
    cases h
    exact ⟨rfl, hfresh, id⟩
  | succ n ih =>
    intro keys r r' hturn hlength hgeneration hsound hfresh h
    obtain ⟨s, hstep, hrest⟩ := Option.bind_eq_some_iff.mp h
    cases keys with
    | nil =>
      -- no key is left: the last turn ends the load and writes nothing
      obtain rfl : n = 0 := Nat.le_zero.mp (Nat.le_of_succ_le_succ hlength)
      cases hrest
      rw [store_abort_end hturn hstep]
      exact ⟨rfl, hfresh, id⟩
    | cons k keys =>
      obtain ⟨hnext, hsame, hstore⟩ := abort_turn hturn hgeneration hstep
      have hsound' : ResourceStore.Sound bound s.store := by
        rcases hstore with hstore | hstore
        · exact hstore ▸ hsound
        · exact hstore ▸ sound_rewriteHeld hsound r.now k
      have hturned : s.store.held key = r.store.held key ∧ s.store.isStale key = false ∧
          (r.store.entry key = .evicted → s.store.entry key = .evicted) := by
        -- a turn that skips its key changes no entry; one that does not gives the key's value back
        rcases hstore with hstore | hstore
        · rw [hstore]
          exact ⟨rfl, hfresh, id⟩
        rw [hstore]
        by_cases hk : key = k
        -- the turn of `key` itself
        · subst hk
          obtain ⟨hheld, hmissing, hconfirmed⟩ := rewriteHeld_spec hsound r.now key
          refine ⟨hheld, hconfirmed, fun hentry => hmissing ?_⟩
          rw [ResourceStore.held_of_entry hentry]
          rfl
        -- the turn of another key leaves the entry as it is
        · have hentry := entry_rewriteHeld_other hsound r.now hk
          refine ⟨congrArg (fun e => e.record.map fun r => (r.version, r.value)) hentry, ?_, ?_⟩
          · exact (congrArg ResourceEntry.stale hentry).trans hfresh
          · exact hentry.trans
      obtain ⟨hheld, hstale, hevicted⟩ := ih hnext (Nat.le_of_succ_le_succ hlength)
        (hgeneration.trans hsame.symm) hsound' hturned.2.1 hrest
      exact ⟨hheld.trans hturned.1, hstale, fun hentry => hevicted (hturned.2.2 hentry)⟩

/-- When an aborted load comes to a requested key that was not bumped since, the key holds the
version and the value from before the load, provided that its record was not evicted, that no page
or prefetch was being applied that still wrote it, that nothing was cleared and that the epoch map
forgot nothing.  A key that was not stale is not stale, and one without a record is missing.  The
turns for the keys behind it, up to the end of the loop, change none of this. -/
theorem aborted_load_restores {r r₁ r₂ r₃ : Router V P} {a : Action V P} {call : LoadCall}
    {failure : Failure} {key : String} {rest settled : List String} {below : List (Task V P)}
    (hreach : Reachable r) (hstart : Starts r a call r₁) (hkey : key ∈ call.requestedKeys)
    (hrun : Run step (Unanswered call) r₁ r₂)
    (habort : r₂.turn = .rejectLoad call failure true (key :: rest) settled :: below)
    (hnewer : ¬BumpedSince r₁ r₂ key) (hunclaimed : r₁.Unclaimed key)
    (hcleared : r₂.lifecycleGeneration = r₁.lifecycleGeneration) (hbound : r₂.resources.Bounded)
    (hevicted : r₂.store.held key = none → r₁.store.held key = none)
    {n : Nat} (hloop : n ≤ rest.length + 1)
    (h : exec step r₂ (.resume :: List.replicate n .resume) = some r₃) :
    r₃.store.held key = r₁.store.held key ∧
      (r₁.store.isStale key = false → r₃.store.isStale key = false) ∧
      (r₁.store.held key = none → r₃.store.entry key = .evicted) := by
  have hr := accounted_reachable hreach
  have hspared := spared_run hr hstart hkey hunclaimed hrun
  have hgeneration : call.lifecycleGeneration = r₂.lifecycleGeneration :=
    hstart.started.generation.trans hcleared.symm
  obtain ⟨hsuffix, -⟩ := hspared.suffix hgeneration
  obtain ⟨hepoch, hheld, -⟩ := (hspared.kept hgeneration hbound).resolve_left hnewer
  obtain ⟨e, hcaptured, hcurrent⟩ := currentEpoch_of_started (accounted_step hr hstart.step)
    (hbound.of_suffix hsuffix) hstart.started hkey
  have hstill : r₂.resources.stillAt key (call.capturedEpochs.get? key) = true :=
    Resources.stillAt_iff.mpr ((hepoch.trans hcurrent).trans hcaptured.symm)
  have hbefore : r₂.store.held key = r₁.store.held key := by
    rcases hheld with hsame | hnone
    · exact hsame
    · rw [hnone, hevicted hnone]
  obtain ⟨bound, hsound⟩ := hspared.accounted.sound
  -- the turn of the key itself, and then the others
  obtain ⟨own, hown, hothers⟩ := Option.bind_eq_some_iff.mp h
  have hstore := store_resume_aborted habort hgeneration hstill hown
  obtain ⟨hrewritten, hmissing, hfresh⟩ := rewriteHeld_spec hsound r₂.now key
  obtain ⟨hturn, hsame, -⟩ := abort_turn habort hgeneration hown
  have hsound' : ResourceStore.Sound bound own.store :=
    hstore ▸ sound_rewriteHeld hsound r₂.now key
  obtain ⟨hlast, hstale, hgone⟩ := abort_turns n hturn hloop (hgeneration.trans hsame.symm) hsound'
    (by rw [hstore]; exact hfresh) hothers
  rw [hstore] at hlast hgone
  exact ⟨hlast.trans (hrewritten.trans hbefore), fun _ => hstale,
    fun hnone => hgone (hmissing (hbefore.trans hnone))⟩

/-! ## Two runs -/

theorem starts_loadResources (r : Router V P) {keys : List String} (url : Option String)
    (reason : LoadReason) (signal : Option Nat) (h : unique (keys.filter (· ≠ "")) ≠ []) :
    ∃ call r', r'.turn = .markLoading call call.requestedKeys :: r.turn ∧ r'.store = r.store ∧
      Starts r (.loadResources keys url reason signal) call r' := by
  set options : LoadResourcesOptions := ⟨url, reason, signal.map .caller⟩ with hoptions
  have hstep : r.step (.loadResources keys url reason signal) = some (r.loadResources keys options) :=
    rfl
  have hstore : (r.loadResources keys options).store = r.store := by
    unfold loadResources
    dsimp only
    rw [if_neg h]
    exact Resources.resourceStore_captureEpoch (r.resourceLoadCounter + 1) (r.resources, .empty) _
  rcases turn_loadResources r keys options with hnone | ⟨call, hturn, hstarted, hnew⟩
  · unfold loadResources at hnone
    dsimp only at hnone
    rw [if_neg h] at hnone
    exact absurd (congrArg List.length hnone) (by simp [push])
  · exact ⟨call, _, hturn, hstore, hstep, hstarted, hnew⟩

def answersLoad : Action V P → Bool
  | .loadResponse .. => true
  | _ => false

theorem unanswered_of_not_answersLoad (call : LoadCall) {r : Router V P} {a : Action V P}
    (h : answersLoad a = false) : Unanswered call r a := by
  cases a with
  | loadResponse => cases h
  | _ => exact trivial

theorem run_of_not_answersLoad (call : LoadCall) {between : List (Action V P)} {r r' : Router V P}
    (hbetween : between.all (fun a => !answersLoad a) = true)
    (h : exec step r between = some r') : Run step (Unanswered call) r r' := by
  induction between generalizing r with
  | nil =>
    cases h
    exact .refl
  | cons a between ih =>
    simp only [List.all_cons, Bool.and_eq_true, Bool.not_eq_true'] at hbetween
    obtain ⟨s, hstep, hrest⟩ := Option.bind_eq_some_iff.mp h
    exact Run.head (unanswered_of_not_answersLoad call hbetween.1) hstep (ih hbetween.2 hrest)

/-- A load is called, other things happen, and the load fails by an abort. -/
theorem abort_of_steps {keys : List String} {signal : Option Nat} {between : List (Action V P)}
    {r r₁ r₂ r₃ : Router V P} {call : LoadCall} {failure : Failure}
    (hstart : r.step (.loadResources keys none .refresh signal) = some r₁)
    (hcall : r₁.turn.head?.bind Task.load? = some call)
    (hbetween : between.all (fun a => !answersLoad a) = true)
    (hrun : exec step r₁ between = some r₂) (hloads : r₂.loads = [call]) (hidle : r₂.turn = [])
    (hname : failure.name = "AbortError") (hkeys : unique (keys.filter (· ≠ "")) ≠ [])
    (hfail : r₂.step (.loadFailure 0 failure) = some r₃) :
    Starts r (.loadResources keys none .refresh signal) call r₁ ∧ r₁.store = r.store ∧
      Run step (Unanswered call) r₁ r₃ ∧
      r₃.turn = [.rejectLoad call failure true call.requestedKeys []] := by
  obtain ⟨started, r₁', hturn, hstore, hstarts⟩ := starts_loadResources r none .refresh signal hkeys
  obtain rfl : r₁' = r₁ := Option.some.inj (hstarts.step.symm.trans hstart)
  -- the call that the run names is the one that the request started
  obtain rfl : started = call := by
    rw [hturn] at hcall
    exact Option.some.inj hcall
  have hfails : r₂.step (.loadFailure 0 failure) = some (r₂.receiveLoadFailure 0 started failure) := by
    simp only [step, notified, hidle, hloads]
    rfl
  obtain rfl : r₂.receiveLoadFailure 0 started failure = r₃ :=
    Option.some.inj (hfails.symm.trans hfail)
  refine ⟨hstarts, hstore, ?_, ?_⟩
  · exact (run_of_not_answersLoad started hbetween hrun).tail
      (unanswered_of_not_answersLoad started rfl) hfails
  -- the error's name makes the failure an abort, whatever the signal says
  · show Task.rejectLoad started failure (_ || decide (failure.name = "AbortError"))
      started.requestedKeys [] :: r₂.turn = _
    rw [hidle, hname]
    simp

end Router

section Runs

/-- The caller aborts a refresh of two keys while a mutation of the second is being applied. -/
def signalled : List (Action Nat Nat) :=
  [.resume, .resume, .resume, .mutate "/mutate",
    .mutateResponse 0 { invalidate := some ["other"] } 5, .resume, .abort 7, .resume, .resume]

def signalledCall : LoadCall :=
  { id := 1
    url := "/board"
    reason := .refresh
    requestedKeys := ["tasks", "other"]
    knownVersions := .ofList [("tasks", "v1")]
    capturedEpochs := .ofList [("tasks", 1), ("other", 2)]
    lifecycleGeneration := 0
    signal := some (.caller 7) }

def failedRefresh : Failure := { name := "AbortError", message := "aborted" }

/-- A run around an aborted load: the router before its call, after it, when it fails, before the
abort comes to the first key, and some turns of the loop later. -/
structure AbortRun where
  before : Router Nat Nat
  started : Router Nat Nat
  waiting : Router Nat Nat
  failed : Router Nat Nat
  after : Router Nat Nat

def abortRun (options : Router.RuntimeOptions Nat) (keys : List String) (signal : Option Nat)
    (between : List (Action Nat Nat)) (turns : Nat) : Option AbortRun :=
  (Router.create options).bind fun r =>
    (r.step (.loadResources keys none .refresh signal)).bind fun r₁ =>
      (exec Router.step r₁ between).bind fun r₂ =>
        (r₂.step (.loadFailure 0 failedRefresh)).bind fun r₃ =>
          (exec Router.step r₃ (.resume :: List.replicate turns .resume)).map fun r₄ =>
            ⟨r, r₁, r₂, r₃, r₄⟩

/-- The load is the one that was called, and nothing bumped the key or claims its record. -/
def AbortRun.quiet (run : AbortRun) (call : LoadCall) (key : String) : Bool :=
  decide (run.started.turn.head?.bind Task.load? = some call) &&
    decide (run.waiting.loads = [call]) && run.waiting.turn.isEmpty &&
    run.started.turn.all (fun t => decide (key ∉ t.toRecord)) &&
    run.failed.resources.bumps.all fun b =>
      decide (b.key = key → b.epoch ≤ run.started.resources.resourceEpochCounter)

theorem AbortRun.spec {options : Router.RuntimeOptions Nat} {keys : List String}
    {signal : Option Nat} {between : List (Action Nat Nat)} {turns : Nat} {run : AbortRun}
    {call : LoadCall} {key : String} (h : abortRun options keys signal between turns = some run)
    (hquiet : run.quiet call key = true) (hkeys : unique (keys.filter (· ≠ "")) ≠ [])
    (hbetween : between.all (fun a => !Router.answersLoad a) = true) :
    Router.Reachable run.before ∧
      Router.Starts run.before (.loadResources keys none .refresh signal) call run.started ∧
      Run Router.step (Router.Unanswered call) run.started run.failed ∧
      run.failed.turn = [.rejectLoad call failedRefresh true call.requestedKeys []] ∧
      ¬Router.BumpedSince run.started run.failed key ∧ run.started.Unclaimed key ∧
      exec Router.step run.failed (.resume :: List.replicate turns .resume) = some run.after := by
  obtain ⟨r, hcreate, h⟩ := Option.bind_eq_some_iff.mp h
  obtain ⟨r₁, hstart, h⟩ := Option.bind_eq_some_iff.mp h
  obtain ⟨r₂, hrun, h⟩ := Option.bind_eq_some_iff.mp h
  obtain ⟨r₃, hfail, h⟩ := Option.bind_eq_some_iff.mp h
  obtain ⟨r₄, hresume, rfl⟩ := Option.map_eq_some_iff.mp h
  simp only [quiet, Bool.and_eq_true, decide_eq_true_eq, List.all_eq_true] at hquiet
  obtain ⟨⟨⟨⟨hcall, hloads⟩, hidle⟩, hunclaimed⟩, hbumps⟩ := hquiet
  obtain ⟨hstarts, -, hruns, hturn⟩ := Router.abort_of_steps hstart hcall hbetween hrun hloads
    (List.isEmpty_iff.mp hidle) rfl hkeys hfail
  refine ⟨⟨r, ⟨options, hcreate⟩, .refl⟩, hstarts, hruns, hturn, ?_, ?_, hresume⟩
  · rintro ⟨b, hb, hbk, hlt⟩
    exact absurd (hbumps b hb hbk) (not_le_of_gt hlt)
  · exact fun t ht _ => hunclaimed t ht

/-- The first key is restored; the turns for the second and for the end of the loop follow. -/
theorem aborted_load_restores_signalled :
    ∃ r₁ r₃ : Router Nat Nat, r₁.store.held "tasks" = some ("v1", 1) ∧
      r₁.store.isStale "tasks" = false ∧ r₃.store.held "tasks" = some ("v1", 1) ∧
      r₃.store.isStale "tasks" = false := by
  obtain ⟨run, hrun⟩ : ∃ run,
      abortRun { initialEnvelope := some livePage } ["tasks", "other"] (some 7) signalled 2 =
        some run :=
    Option.isSome_iff_exists.mp (by decide)
  have hall : ((abortRun { initialEnvelope := some livePage } ["tasks", "other"] (some 7) signalled
      2).map fun run => run.quiet signalledCall "tasks" &&
        decide (run.started.store.held "tasks" = some ("v1", 1)) &&
        decide (run.started.store.isStale "tasks" = false) &&
        decide (run.failed.lifecycleGeneration = run.started.lifecycleGeneration) &&
        decide (run.failed.resources.bumpedKeys.length ≤ maxResourceEpochEntries) &&
        decide (run.failed.store.held "tasks" ≠ none)) = some true := by decide
  rw [hrun, Option.map_some, Option.some.injEq] at hall
  simp only [Bool.and_eq_true, decide_eq_true_eq] at hall
  obtain ⟨⟨⟨⟨⟨hquiet, hheld⟩, hfresh⟩, hcleared⟩, hbound⟩, hkept⟩ := hall
  obtain ⟨hreach, hstarts, hruns, hturn, hnewer, hunclaimed, hresume⟩ :=
    AbortRun.spec hrun hquiet (by decide) (by decide)
  obtain ⟨hsame, hnotStale, -⟩ := Router.aborted_load_restores hreach hstarts (by decide) hruns
    hturn hnewer hunclaimed hcleared hbound (fun hnone => absurd hnone hkept) (le_refl 2) hresume
  exact ⟨run.started, run.after, hheld, hfresh, hsame.trans hheld, hnotStale hfresh⟩

def evictedCall : LoadCall :=
  { signalledCall with
    requestedKeys := ["tasks", "other"]
    capturedEpochs := .ofList [("tasks", 1), ("other", 2)]
    signal := none }

/-- A load of a second key evicts the first from a store of one resource; the abort finds no record
to put back. -/
theorem aborted_load_evicts :
    ¬∀ (r r₁ r₂ r₃ : Router Nat Nat) (a : Action Nat Nat) (call : LoadCall) (failure : Failure)
      (key : String) (rest settled : List String) (below : List (Task Nat Nat)),
      Router.Reachable r → Router.Starts r a call r₁ → key ∈ call.requestedKeys →
      Run Router.step (Router.Unanswered call) r₁ r₂ →
      r₂.turn = .rejectLoad call failure true (key :: rest) settled :: below →
      ¬Router.BumpedSince r₁ r₂ key → r₂.step .resume = some r₃ →
        r₃.store.held key = r₁.store.held key ∧
          r₃.store.isStale key = r₁.store.isStale key ∧
            (r₁.store.held key = none → r₃.store.entry key = .evicted) := by
  intro hall
  -- The store holds one key only, so giving the first key back evicts nothing, the second one does.
  obtain ⟨run, hrun⟩ : ∃ run, abortRun { initialEnvelope := some livePage, maxResources := 1 }
      ["tasks", "other"] none [.resume, .resume, .resume] 0 = some run :=
    Option.isSome_iff_exists.mp (by decide)
  have hfacts : ((abortRun { initialEnvelope := some livePage, maxResources := 1 }
      ["tasks", "other"] none [.resume, .resume, .resume] 0).map fun run =>
        run.quiet evictedCall "tasks" &&
          decide (run.started.store.held "tasks" = some ("v1", 1)) &&
          decide (run.after.store.held "tasks" = none)) = some true := by decide
  rw [hrun, Option.map_some, Option.some.injEq] at hfacts
  simp only [Bool.and_eq_true, decide_eq_true_eq] at hfacts
  obtain ⟨⟨hquiet, hheld⟩, hnone⟩ := hfacts
  obtain ⟨hreach, hstarts, hruns, hturn, hnewer, -, hresume⟩ :=
    AbortRun.spec hrun hquiet (by decide) (by decide)
  have hown : run.failed.step .resume = some run.after := by
    obtain ⟨own, hown, hrest⟩ := Option.bind_eq_some_iff.mp hresume
    exact hown.trans hrest
  have hsame := (hall run.before run.started run.failed run.after _ evictedCall _ "tasks" _ _ _
    hreach hstarts (by decide) hruns hturn hnewer hown).1
  -- the held value of `tasks` is gone, against what the statement promises
  rw [hnone, hheld] at hsame
  cases hsame

end Runs

end FluxFast.Core
