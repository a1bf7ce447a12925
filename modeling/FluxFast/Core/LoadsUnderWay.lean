import FluxFast.Core.HeldValues
import Mathlib.Data.List.Nodup

/-!
# LoadsUnderWay — what the bumps tell about the loads that wait for an answer

A load that is placed, in the list of loads or in the rest of a synchronous call, was given its
number before the counter moved on, and the epochs that it captured are those of its own bumps.
Every bump has an epoch of its own, so a load at its captured epoch is the one that bumped last.
`accounted_reachable` says so of every reachable router, and that its store is sound.
-/

namespace FluxFast.Core

open FluxFast.Theory

set_option linter.unusedSectionVars false

variable {V P : Type} [DecidableEq V] [Patchable V P]

namespace Resources

/-! ## Every bump has its own epoch -/

/-- The newest bump comes first. -/
def Descending (r : Resources V) : Prop := r.bumps.Pairwise fun b c => c.epoch < b.epoch

theorem Descending.eq {r : Resources V} (h : r.Descending) {b c : Bump} (hb : b ∈ r.bumps)
    (hc : c ∈ r.bumps) (hepoch : b.epoch = c.epoch) : b = c := by
  have hnodup : (r.bumps.map (·.epoch)).Nodup := List.pairwise_map.mpr (h.imp fun hlt => hlt.ne')
  exact List.inj_on_of_nodup_map hnodup hb hc hepoch

theorem Grows.descending {causes : Cause → Prop} {r r' : Resources V}
    (h : Grows causes r r') (hr : r.Ledger)
    (hd : r.Descending) : r'.Descending := by
  induction h with
  | refl => exact hd
  | bump key cause _ hgrows ih =>
    refine List.pairwise_cons.mpr ⟨fun b hb => ?_, ih⟩
    exact Nat.lt_succ_of_le ((hgrows.ledger hr).epoch_le_counter hb)
  | write store _ ih => exact ih

theorem Grows.exact {causes : Cause → Prop} {r r' : Resources V}
    (h : Grows causes r r') (hr : r.Bounded → r.Exact)
    (hb : r'.Bounded) : r'.Exact := by
  induction h with
  | refl => exact hr hb
  | bump key cause _ _ ih => exact exact_bump (ih (hb.of_suffix (suffix_bump _ key cause))) hb
  | write store _ ih => exact ih hb

/-- A key that is not bumped stays at its epoch. -/
theorem Grows.currentEpoch {causes : Cause → Prop} {r r' : Resources V}
    (h : Grows causes r r') (hr : r.Bounded → r.Exact)
    (hb : r'.Bounded) (k : String) :
    (∃ b ∈ r'.bumps, b.key = k ∧ r.resourceEpochCounter < b.epoch) ∨
      r'.currentEpoch k = r.currentEpoch k := by
  induction h with
  | refl => exact .inr rfl
  | @bump r' key cause _ hgrows ih =>
    by_cases hk : k = key
    · exact .inl ⟨⟨key, r'.resourceEpochCounter + 1, cause⟩, List.mem_cons_self, hk.symm,
        Nat.lt_succ_of_le hgrows.counter_le⟩
    · have hb' := hb.of_suffix (suffix_bump r' key cause)
      rcases ih hb' with ⟨b, hmem, hrest⟩ | hsame
      · exact .inl ⟨b, List.mem_cons_of_mem _ hmem, hrest⟩
      · exact .inr ((currentEpoch_bump_ne (hgrows.exact hr hb') hb hk).trans hsame)
  | write store _ ih => exact ih hb

/-- The epoch of the last bump of a key. -/
def newest (r : Resources V) (k : String) : Option Nat :=
  (r.bumps.find? fun b => b.key == k).map (·.epoch)

theorem newest_bump_self (r : Resources V) (k : String) (cause : Cause) :
    (r.bumpResourceEpoch k cause).newest k = some (r.resourceEpochCounter + 1) := by
  simp [newest]

theorem newest_bump_ne (r : Resources V) {k key : String} (cause : Cause) (h : k ≠ key) :
    (r.bumpResourceEpoch key cause).newest k = r.newest k := by
  have hne : (key == k) = false := beq_eq_false_iff_ne.mpr h.symm
  simp [newest, hne]

/-- Within the bound the epoch map remembers the last bump of every key. -/
def Remembers (r : Resources V) : Prop := r.Bounded → ∀ k, r.currentEpoch k = r.newest k

theorem Grows.remembers {causes : Cause → Prop} {r r' : Resources V}
    (h : Grows causes r r') (hr : r.Bounded → r.Exact)
    (hm : r.Remembers) : r'.Remembers := by
  induction h with
  | refl => exact hm
  | @bump r' key cause _ hgrows ih =>
    intro hb k
    have hb' := hb.of_suffix (suffix_bump r' key cause)
    by_cases hk : k = key
    · subst hk
      rw [currentEpoch_bump_self, newest_bump_self]
    · rw [currentEpoch_bump_ne (hgrows.exact hr hb') hb hk, newest_bump_ne r' cause hk, ih hb' k]
  | write store _ ih => exact ih

/-- The last bump of a captured key is the one of the capture. -/
theorem newest_captureEpochs (r : Resources V) (id : Nat) (keys : List String) {k : String}
    (hk : k ∈ keys) : ∃ e, (r.captureEpochs id keys).2.get? k = some e ∧
      (r.captureEpochs id keys).1.newest k = some e := by
  unfold captureEpochs
  generalize (r, (OrderedMap.empty : OrderedMap String Nat)) = acc
  have hnext : k ∈ keys ∨ ∃ e, acc.2.get? k = some e ∧ acc.1.newest k = some e := .inl hk
  clear hk
  induction keys generalizing acc with
  | nil => exact hnext.resolve_left (List.not_mem_nil)
  | cons key keys ih =>
    refine ih (captureEpoch id acc key) ?_
    by_cases hkey : k = key
    · subst hkey
      exact .inr ⟨_, OrderedMap.get?_set_self .., newest_bump_self ..⟩
    · rcases hnext with hmem | ⟨e, hget, hnewest⟩
      · exact .inl ((List.mem_cons.mp hmem).resolve_left hkey)
      · exact .inr ⟨e, (OrderedMap.get?_set_ne _ _ hkey).trans hget,
          (newest_bump_ne acc.1 _ hkey).trans hnewest⟩

theorem exists_new_bump_bumpAll (r : Resources V) {keys : List String} (cause : Cause) {k : String}
    (hk : k ∈ keys) :
    ∃ b ∈ (r.bumpAll keys cause).bumps, b.key = k ∧ r.resourceEpochCounter < b.epoch := by
  unfold bumpAll
  induction keys generalizing r with
  | nil => cases hk
  | cons key keys ih =>
    rcases List.mem_cons.mp hk with rfl | hmem
    · have hgrows : Grows (· = cause) _ _ :=
        grows_bumpAll (r.bumpResourceEpoch k cause) keys cause rfl
      exact ⟨_, hgrows.suffix.subset
        List.mem_cons_self, rfl, Nat.lt_succ_self _⟩
    · obtain ⟨b, hb, hkey, hlt⟩ := ih (r.bumpResourceEpoch key cause) hmem
      exact ⟨b, hb, hkey, (Nat.lt_succ_self _).trans hlt⟩

/-- A captured epoch is that of the load's own bump. -/
theorem mem_bumps_captureEpochs (r : Resources V) (id : Nat) (keys : List String) {k : String}
    {e : Nat} (h : (r.captureEpochs id keys).2.get? k = some e) :
    ⟨k, e, .load id⟩ ∈ (r.captureEpochs id keys).1.bumps := by
  unfold captureEpochs at h ⊢
  generalize hacc : (r, (OrderedMap.empty : OrderedMap String Nat)) = acc at h
  have hmem : ∀ k e, acc.2.get? k = some e → ⟨k, e, .load id⟩ ∈ acc.1.bumps := by
    rw [← hacc]
    intro k e hk
    cases hk
  clear hacc
  induction keys generalizing acc with
  | nil => exact hmem k e h
  | cons key keys ih =>
    refine ih (captureEpoch id acc key) h fun j n hj => ?_
    by_cases hjk : j = key
    · subst hjk
      rw [captureEpoch, OrderedMap.get?_set_self] at hj
      cases hj
      exact List.mem_cons_self
    · rw [captureEpoch, OrderedMap.get?_set_ne _ _ hjk] at hj
      exact List.mem_cons_of_mem _ (hmem j n hj)

end Resources

/-! ## Placed loads -/

namespace Task

/-- The load that the task is a part of. -/
def load? : Task V P → Option LoadCall
  | .markLoading call _ | .settleLoad call _ _ _ | .rejectLoad call _ _ _ _ => some call
  | _ => none

theorem Follows.load?_eq {t t' : Task V P} (h : t.Follows t') : t'.load? = t.load? := by
  cases h <;> rfl

end Task

namespace Router

def HasLoad (r : Router V P) (call : LoadCall) : Prop :=
  call ∈ r.loads ∨ ∃ t ∈ r.turn, t.load? = some call

theorem hasLoad_of_mem {r : Router V P} {t : Task V P} {call : LoadCall} (ht : t ∈ r.turn)
    (h : t.load? = some call) : r.HasLoad call := .inr ⟨t, ht, h⟩

/-- A load that is under way after the step was so before it, or was started by it. -/
theorem hasLoad_step {r r' : Router V P} {a : Action V P} (h : r.step a = some r')
    {call : LoadCall} (hcall : r'.HasLoad call) :
    r.HasLoad call ∨ r'.Started call ∧ r.resourceLoadCounter < call.id := by
  -- A load is in the lanes or stands for a part of the turn.
  rcases hcall with hmem | ⟨t, ht, htask⟩
  · have hof : ∀ l, r'.lanes = l → call ∈ l.loads := fun l hl => hl ▸ hmem
    refine .inl ?_
    cases changes_step h with
    | load _ hturn _ hlanes =>
      rcases List.mem_append.mp (hof _ hlanes) with hold | hnew
      · exact .inl hold
      -- the new call was announced by the part that marked its keys
      · exact List.mem_singleton.mp hnew ▸ hasLoad_of_mem (hturn ▸ List.mem_cons_self) rfl
    | loaded index hlanes => exact .inl (List.mem_of_mem_eraseIdx (hof _ hlanes))
    | none hlanes | visit _ hlanes | hit hlanes | left hlanes | visited _ hlanes
      | prefetch _ hlanes | prefetched _ hlanes | cleared _ hlanes => exact .inl (hof _ hlanes)
  -- a part of the turn: it was there, or its predecessor had the same call, or the step began it
  · rcases mem_turn_step h ht with hold | hspawned
    · exact .inl (hasLoad_of_mem (mem_turn_of_mem_below hold) htask)
    · cases hspawned with
      | follows _ hturn hfollows =>
        exact .inl (hasLoad_of_mem (hturn ▸ List.mem_cons_self)
          (hfollows.load?_eq.symm.trans htask))
      | load hstarted hnew =>
        cases htask
        exact .inr ⟨hstarted, hnew⟩
      | answered _ hcall =>
        cases htask
        exact .inl (.inl (List.mem_of_getElem? hcall))
      | failed _ hcall =>
        cases htask
        exact .inl (.inl (List.mem_of_getElem? hcall))
      | _ => cases htask

/-! ## The load counter -/

theorem loadCounter_loadResources (r : Router V P) (keys : List String)
    (options : LoadResourcesOptions) :
    r.resourceLoadCounter ≤ (r.loadResources keys options).resourceLoadCounter := by
  unfold loadResources
  dsimp only
  split
  · exact le_refl _
  · exact Nat.le_succ _

theorem loadCounter_startDeferredBatch (r : Router V P) (keys : List String) (url : String) :
    r.resourceLoadCounter ≤ (r.startDeferredBatch keys url).resourceLoadCounter := by
  unfold startDeferredBatch
  refine le_trans ?_ (loadCounter_loadResources _ _ _)
  exact le_refl r.resourceLoadCounter

theorem loadCounter_startVisit (r : Router V P) (url : String) (options : VisitOptions)
    (redirected : Bool) :
    (r.startVisit url options redirected).resourceLoadCounter = r.resourceLoadCounter := by
  unfold startVisit
  dsimp only
  split
  · rfl
  · unfold requestPage
    dsimp only
    split <;> rfl

theorem loadCounter_beginNavigation (r : Router V P) (call : VisitCall)
    (envelope : PageEnvelope V) (origin : Origin) :
    (r.beginNavigation call envelope origin).resourceLoadCounter = r.resourceLoadCounter := by
  unfold beginNavigation
  split <;> rfl

theorem loadCounter_beginPrefetch (r : Router V P) (call : PrefetchCall V)
    (fetched : PrefetchedEnvelope V) :
    (r.beginPrefetch call fetched).resourceLoadCounter = r.resourceLoadCounter := by
  unfold beginPrefetch
  split <;> rfl

theorem loadCounter_restorePage (r : Router V P) (url : String) (cached : CachedPage V) :
    r.resourceLoadCounter ≤ (r.restorePage url cached).resourceLoadCounter := by
  unfold restorePage
  dsimp only
  split
  · exact le_refl _
  · split
    · exact le_refl _
    · refine le_trans ?_ (loadCounter_startDeferredBatch _ _ _)
      exact le_refl r.resourceLoadCounter

theorem loadCounter_queueLiveRefresh (r : Router V P) (keys : List String) (reason : LoadReason) :
    (r.queueLiveRefresh keys reason).resourceLoadCounter = r.resourceLoadCounter := by
  unfold queueLiveRefresh
  split <;> rfl

theorem loadCounter_part {r r' : Router V P} {t : Task V P} (h : r.Part t r') :
    r.resourceLoadCounter ≤ r'.resourceLoadCounter := by
  cases h with
  | navBegin => exact (loadCounter_beginNavigation _ _ _ _).ge
  | @followUpDeferred nav =>
    exact loadCounter_startDeferredBatch (r.push (.navMissing nav)) _ _
  | reloadMissing =>
    refine le_trans ?_ (loadCounter_loadResources _ _ _)
    exact le_refl r.resourceLoadCounter
  | redirect => exact (loadCounter_startVisit _ _ _ _).ge
  | reloadActive => exact loadCounter_loadResources _ _ _
  | patchedLive | invalidatedLive => exact (loadCounter_queueLiveRefresh _ _ _).ge
  | _ => exact le_refl _

theorem loadCounter_step {r r' : Router V P} {a : Action V P} (h : r.step a = some r') :
    r.resourceLoadCounter ≤ r'.resourceLoadCounter := by
  cases happens_step h with
  | visit | refreshPage => exact (loadCounter_startVisit _ _ _ _).ge
  | refreshKeys | loadResources => exact loadCounter_loadResources _ _ _
  | initialDeferred => exact loadCounter_startDeferredBatch { r with initialDeferredBatch := none } _ _
  | @part t rest _ _ hpart => exact loadCounter_part (r := { r with turn := rest }) hpart
  | @visitResponse index => exact (loadCounter_beginNavigation (r.dropVisit index) _ _ _).ge
  | @visitPrefetched index => exact (loadCounter_beginNavigation (r.dropVisit index) _ _ _).ge
  | @prefetchSettled index =>
    exact (loadCounter_beginPrefetch { r with prefetches := r.prefetches.eraseIdx index } _ _).ge
  | @restorePage url => exact loadCounter_restorePage (r.lookUpPage url) _ _
  | @revisitPage url => exact (loadCounter_startVisit (r.lookUpPage url) _ _ _).ge
  | refreshLive => exact loadCounter_loadResources r.cancelPendingLiveRefresh _ _
  | _ => exact le_refl _

/-! ## Every reachable state -/

structure Accounted (r : Router V P) : Prop where
  orderly : r.Orderly
  descending : r.resources.Descending
  exact : r.resources.Bounded → r.resources.Exact
  remembers : r.resources.Remembers
  sound : ∃ bound, ResourceStore.Sound bound r.store
  numbered : ∀ call, r.HasLoad call → call.id ≤ r.resourceLoadCounter
  begun : ∀ call, r.HasLoad call → call.lifecycleGeneration ≤ r.lifecycleGeneration
  /-- What a load of this lifecycle captured is the epoch of its own bump. -/
  owned : ∀ call, r.HasLoad call → call.lifecycleGeneration = r.lifecycleGeneration →
    ∀ k e, call.capturedEpochs.get? k = some e → ⟨k, e, .load call.id⟩ ∈ r.resources.bumps

theorem Started.owned {r : Router V P} {call : LoadCall} (h : r.Started call) {k : String} {e : Nat}
    (he : call.capturedEpochs.get? k = some e) : ⟨k, e, .load call.id⟩ ∈ r.resources.bumps := by
  obtain ⟨before, hresources, hcaptured⟩ := h.captured
  rw [hcaptured] at he
  rw [hresources]
  exact Resources.mem_bumps_captureEpochs before call.id call.requestedKeys he

theorem resources_clear (r : Router V P) :
    r.clear.resources.bumps = [] ∧ r.clear.resources.Exact ∧ r.clear.resources.Remembers :=
  ⟨rfl, ⟨rfl, fun k hk => by cases hk⟩, fun _ _ => rfl⟩

theorem accounted_step {r r' : Router V P} {a : Action V P} (hr : r.Accounted)
    (h : r.step a = some r') : r'.Accounted := by
  -- `clear` starts from nothing; every other step only appends bumps and evicts.
  have hgeneration := (changes_step h).counters_le.2
  have hgrows := fun hclear => grows_step h hclear
  refine { orderly := orderly_step hr.orderly h, descending := ?_, exact := ?_
           remembers := ?_, sound := ?_, numbered := fun call hcall => ?_, begun := fun call hcall => ?_
           owned := fun call hcall hsame k e he => ?_ }
  · by_cases hclear : a = .clear
    · subst hclear
      cases h
      rw [Resources.Descending, (resources_clear r).1]
      exact List.Pairwise.nil
    · exact (hgrows hclear).descending hr.orderly.ledger hr.descending
  · by_cases hclear : a = .clear
    · subst hclear
      cases h
      exact fun _ => (resources_clear r).2.1
    · exact (hgrows hclear).exact hr.exact
  · by_cases hclear : a = .clear
    · subst hclear
      cases h
      exact (resources_clear r).2.2
    · exact (hgrows hclear).remembers hr.exact hr.remembers
  · obtain ⟨bound, hs⟩ := hr.sound
    exact ⟨bound, storeSound_step h hs⟩
  · rcases hasLoad_step h hcall with hold | ⟨hstarted, -⟩
    · exact (hr.numbered call hold).trans (loadCounter_step h)
    · exact hstarted.id.le
  · rcases hasLoad_step h hcall with hold | ⟨hstarted, -⟩
    · exact (hr.begun call hold).trans hgeneration
    · exact hstarted.generation.le
  -- what a call captured is among the bumps, and they are only added to
  · rcases hasLoad_step h hcall with hold | ⟨hstarted, -⟩
    · have hbefore := (changes_step h).generation (hr.begun call hold) hsame
      by_cases hclear : a = .clear
      · subst hclear
        cases h
        -- a load from before `clear` is of an older generation
        have hnext : call.lifecycleGeneration = r.lifecycleGeneration + 1 := hsame
        omega
      · exact (hgrows hclear).suffix.subset (hr.owned call hold hbefore k e he)
    · exact hstarted.owned he

theorem accounted_initial {r : Router V P} (h : Initial r) : r.Accounted := by
  obtain ⟨options, hcreate⟩ := h
  have hnew := new_of_create hcreate
  have hnone : ∀ call, ¬r.HasLoad call := by
    rintro call (hmem | ⟨t, ht, -⟩)
    · rw [hnew.loads] at hmem
      cases hmem
    · rw [hnew.turn] at ht
      cases ht
  have hmax : options.maxResources ≠ 0 := fun hzero => by
    simp [create, hzero] at hcreate
  refine { orderly := (orderly_initial ⟨options, hcreate⟩).1, descending := ?_, exact := fun _ => ?_
           remembers := fun _ k => ?_, sound := ⟨options.maxResources, ?_⟩
           numbered := fun call hcall => absurd hcall (hnone call)
           begun := fun call hcall => absurd hcall (hnone call)
           owned := fun call hcall => absurd hcall (hnone call) }
  · rw [Resources.Descending, hnew.resources]
    exact List.Pairwise.nil
  · rw [hnew.resources]
    exact ⟨rfl, fun k hk => by cases hk⟩
  · rw [hnew.resources]
    rfl
  · rw [store, hnew.resources]
    exact sound_initialStore options hmax

theorem accounted_reachable {r : Router V P} (h : Reachable r) : r.Accounted :=
  ReachableUnder.invariant h (fun _ => accounted_initial) fun _ _ _ hr _ => accounted_step hr

end Router

end FluxFast.Core
