import FluxFast.Core.ResourceSteps
import FluxFast.Core.Steps

/-!
# Ledger — the history of bumps and what the epoch map remembers of it

Every step of the router but `clear` changes the resources by bumps and store writes only, so the
history of bumps grows, and each new bump is newer than everything before it.  What the bounded
epoch map answers is never older than the history: `Ledger` holds in every reachable state.
-/

namespace FluxFast.Core

open FluxFast.Theory

set_option linter.unusedSectionVars false

/-- The server time of a mutation or of a live event. -/
def Cause.servedAt : Cause → Option Nat
  | .mutation servedAt => some servedAt
  | .live servedAt => some servedAt
  | _ => none

/-- The router bumps of its own accord, not because the server published something. -/
def Cause.Unserved (cause : Cause) : Prop := cause.servedAt = none

namespace Resources

variable {V P : Type} [DecidableEq V] [Patchable V P]

/-- `r'` comes from `r` by store writes and by bumps for the given causes. -/
inductive Grows (causes : Cause → Prop) (r : Resources V) : Resources V → Prop
  | refl : Grows causes r r
  | bump {r' : Resources V} (key : String) (cause : Cause) (hcause : causes cause) :
    Grows causes r r' → Grows causes r (r'.bumpResourceEpoch key cause)
  | write {r' : Resources V} (store : ResourceStore V) :
    Grows causes r r' → Grows causes r (r'.withStore store)

section Operations

variable {causes : Cause → Prop}

theorem Grows.trans {r r' r'' : Resources V} (h₁ : Grows causes r r') (h₂ : Grows causes r' r'') :
    Grows causes r r'' := by
  induction h₂ with
  | refl => exact h₁
  | bump key cause hcause _ ih => exact ih.bump key cause hcause
  | write store _ ih => exact ih.write store

theorem Grows.mono {others : Cause → Prop} {r r' : Resources V} (h : Grows causes r r')
    (hcauses : ∀ cause, causes cause → others cause) : Grows others r r' := by
  induction h with
  | refl => exact .refl
  | bump key cause hcause _ ih => exact ih.bump key cause (hcauses cause hcause)
  | write store _ ih => exact ih.write store

theorem grows_bump (r : Resources V) (key : String) (cause : Cause) (hcause : causes cause) :
    Grows causes r (r.bumpResourceEpoch key cause) := Grows.refl.bump key cause hcause

theorem grows_withStore (r : Resources V) (store : ResourceStore V) :
    Grows causes r (r.withStore store) := Grows.refl.write store

theorem grows_bumpAll (r : Resources V) (keys : List String) (cause : Cause)
    (hcause : causes cause) : Grows causes r (r.bumpAll keys cause) :=
  foldl_relates (R := Grows causes) (fun _ => .refl) Grows.trans
    (fun s k => grows_bump s k cause hcause) keys r

end Operations

theorem grows_restore (r : Resources V) (now : Nat) (key : String) :
    Grows Cause.Unserved r (r.restore now key) := by
  unfold restore
  dsimp only
  split <;> exact .write _ (grows_bump r key .supersede rfl)

theorem grows_restoreCaptured (r : Resources V) (now : Nat) (captured : String → Option Nat)
    (keys : List String) : Grows Cause.Unserved r (r.restoreCaptured now captured keys) := by
  refine foldl_relates (R := Grows Cause.Unserved) (fun _ => .refl) Grows.trans (fun s k => ?_) keys r
  split
  · exact grows_restore s now k
  · exact .refl

theorem grows_batches (r : Resources V) (now : Nat)
    (batches : List (Nat × OrderedMap String Nat)) :
    Grows Cause.Unserved r
      (batches.foldl (fun r batch => r.restoreCaptured now batch.2.get? batch.2.keys) r) :=
  foldl_relates (R := Grows Cause.Unserved) (fun _ => .refl) Grows.trans
    (fun s _ => grows_restoreCaptured s now _ _) batches r

theorem grows_captureEpochs (r : Resources V) (id : Nat) (keys : List String) :
    Grows Cause.Unserved r (r.captureEpochs id keys).1 := by
  unfold captureEpochs
  generalize hacc : (r, (OrderedMap.empty : OrderedMap String Nat)) = acc
  have hr : Grows Cause.Unserved r acc.1 := hacc ▸ .refl
  clear hacc
  induction keys generalizing acc with
  | nil => exact hr
  | cons key keys ih => exact ih _ (hr.bump key (.load id) rfl)

namespace Grows

variable {causes : Cause → Prop} {r r' : Resources V}

theorem suffix (h : Grows causes r r') : r.bumps <:+ r'.bumps := by
  induction h with
  | refl => exact List.suffix_refl _
  | bump key cause _ _ ih => exact ih.trans (suffix_bump _ key cause)
  | write store _ ih => exact ih

theorem counter_le (h : Grows causes r r') : r.resourceEpochCounter ≤ r'.resourceEpochCounter := by
  induction h with
  | refl => exact le_refl _
  | bump key cause _ _ ih => exact ih.trans (Nat.le_succ _)
  | write store _ ih => exact ih

/-- A bump that was not there before is newer than everything that was. -/
theorem newer (h : Grows causes r r') {b : Bump} (hb : b ∈ r'.bumps) :
    b ∈ r.bumps ∨ (r.resourceEpochCounter < b.epoch ∧ causes b.cause) := by
  induction h with
  | refl => exact .inl hb
  | bump key cause hcause hgrows ih =>
    rcases List.mem_cons.mp hb with rfl | hb
    · exact .inr ⟨Nat.lt_succ_of_le hgrows.counter_le, hcause⟩
    · exact ih hb
  | write store _ ih => exact ih hb

end Grows

/-! ## What the epoch map remembers -/

structure Ledger (r : Resources V) : Prop where
  consistent : r.resourceEpochs.Consistent
  upTo : r.resourceEpochs.UpTo r.resourceEpochCounter
  epoch : ∀ b ∈ r.bumps, b.epoch ≤ r.epochOf b.key
  authority : ∀ b ∈ r.bumps, b.cause.authoritative = true → b.epoch ≤ r.authorityOf b.key

theorem Ledger.epoch_le_counter {r : Resources V} (h : r.Ledger) {b : Bump} (hb : b ∈ r.bumps) :
    b.epoch ≤ r.resourceEpochCounter :=
  (h.epoch b hb).trans (ResourceEpochMap.epochOf_le_of_upTo h.upTo b.key)

theorem ledger_bump {r : Resources V} (h : r.Ledger) (key : String) (cause : Cause) :
    (r.bumpResourceEpoch key cause).Ledger := by
  -- whatever the cause, the new value is at least as new as the remembered one
  obtain ⟨value, hset, hepoch, hle, hauth, hcause⟩ : ∃ value : ResourceEpoch,
      (r.bumpResourceEpoch key cause).resourceEpochs = r.resourceEpochs.set key value ∧
      value.epoch = r.resourceEpochCounter + 1 ∧ value.authoritativeEpoch ≤ value.epoch ∧
      r.authorityOf key ≤ value.authoritativeEpoch ∧
      (cause.authoritative = true → value.authoritativeEpoch = r.resourceEpochCounter + 1) := by
    have hbound : r.authorityOf key ≤ r.resourceEpochCounter :=
      (ResourceEpochMap.authorityOf_le_epochOf h.consistent key).trans
        (ResourceEpochMap.epochOf_le_of_upTo h.upTo key)
    by_cases hc : cause.authoritative = true
    · refine ⟨⟨r.resourceEpochCounter + 1, r.resourceEpochCounter + 1, false⟩, ?_, rfl, le_refl _,
        hbound.trans (Nat.le_succ _), fun _ => rfl⟩
      simp only [bumpResourceEpoch, hc, if_true]
    · refine ⟨⟨r.resourceEpochCounter + 1, r.authorityOf key,
        ((r.resourceEpochs.get key).map (·.conservative)).getD false⟩, ?_, rfl,
        hbound.trans (Nat.le_succ _), le_refl _, fun hauth => absurd hauth hc⟩
      simp only [bumpResourceEpoch, if_neg hc]
      rfl
  have hold : r.epochOf key ≤ value.epoch := by
    rw [hepoch]
    exact (ResourceEpochMap.epochOf_le_of_upTo h.upTo key).trans (Nat.le_succ _)
  have hext := ResourceEpochMap.extends_set h.consistent hold hauth hle
  rw [← hset] at hext
  have hself : (r.bumpResourceEpoch key cause).epochOf key = value.epoch := by
    rw [epochOf, hset, ResourceEpochMap.epochOf_set_self]
  have hselfAuth : (r.bumpResourceEpoch key cause).authorityOf key = value.authoritativeEpoch := by
    rw [authorityOf, hset, ResourceEpochMap.authorityOf_set_self]
  refine { consistent := hext.1, upTo := ?_, epoch := fun b hb => ?_, authority := fun b hb hc => ?_ }
  · rw [hset]
    exact ResourceEpochMap.upTo_set (h.upTo.mono (Nat.le_succ _)) (le_of_eq hepoch)
  · rcases List.mem_cons.mp hb with rfl | hb
    · exact (hself.trans hepoch).ge
    · exact (h.epoch b hb).trans (hext.2 b.key).1
  · rcases List.mem_cons.mp hb with rfl | hb
    · exact (hselfAuth.trans (hcause hc)).ge
    · exact (h.authority b hb hc).trans (hext.2 b.key).2

theorem Grows.ledger {causes : Cause → Prop} {r r' : Resources V} (h : Grows causes r r')
    (hr : r.Ledger) : r'.Ledger := by
  induction h with
  | refl => exact hr
  | bump key cause _ _ ih => exact ledger_bump ih key cause
  | write store _ ih => exact ⟨ih.consistent, ih.upTo, ih.epoch, ih.authority⟩

theorem ledger_new (store : ResourceStore V) (counter : Nat) :
    ({ resourceStore := store, resourceEpochCounter := counter } : Resources V).Ledger where
  consistent := ⟨le_refl _, fun k e hk => by cases hk⟩
  upTo := ⟨Nat.zero_le _, fun k e hk => by cases hk⟩
  epoch b hb := by cases hb
  authority b hb := by cases hb

end Resources

/-- The parts of a mutation or of a live event that bump a key. -/
def Task.publishes {V P : Type} : Task V P → Bool
  | .patchMutation _ (_ :: _) | .invalidateMutation _ (_ :: _) _ | .patchLive _ (_ :: _) _
  | .invalidateLive _ (_ :: _) _ _ => true
  | _ => false

namespace Router

variable {V P : Type} [DecidableEq V] [Patchable V P]

/-! ## Every step but `clear` -/

theorem grows_loadResources (r : Router V P) (keys : List String) (options : LoadResourcesOptions) :
    Resources.Grows Cause.Unserved r.resources (r.loadResources keys options).resources := by
  unfold loadResources
  dsimp only
  split
  · exact .refl
  · exact Resources.grows_captureEpochs _ _ _

theorem grows_abortActiveDeferred (r : Router V P) :
    Resources.Grows Cause.Unserved r.resources r.abortActiveDeferred.resources := by
  unfold abortActiveDeferred
  dsimp only
  split
  · exact Resources.grows_restoreCaptured _ _ _ _
  · exact .refl

theorem grows_suspendLive (r : Router V P) :
    Resources.Grows Cause.Unserved r.resources r.suspendLive.resources := by
  unfold suspendLive
  dsimp only
  split
  · exact Resources.grows_batches _ _ _
  · exact .refl

theorem grows_startDeferredBatch (r : Router V P) (keys : List String) (url : String) :
    Resources.Grows Cause.Unserved r.resources (r.startDeferredBatch keys url).resources := by
  unfold startDeferredBatch
  refine Resources.Grows.trans ?_ (grows_loadResources _ _ _)
  exact grows_abortActiveDeferred r

theorem grows_openVisit (r : Router V P) :
    Resources.Grows Cause.Unserved r.resources r.openVisit.resources :=
  (grows_abortActiveDeferred { r with visitCounter := r.visitCounter + 1 }).trans
    (grows_suspendLive (({ r with visitCounter := r.visitCounter + 1 } : Router V P
      ).abortActiveDeferred).abortActiveVisit)

theorem grows_startVisit (r : Router V P) (url : String) (options : VisitOptions)
    (redirected : Bool) :
    Resources.Grows Cause.Unserved r.resources (r.startVisit url options redirected).resources := by
  have h := grows_openVisit r
  unfold startVisit
  dsimp only
  split
  · exact h
  · unfold requestPage
    dsimp only
    split <;> exact h

theorem grows_beginNavigation (r : Router V P) (call : VisitCall) (envelope : PageEnvelope V)
    (origin : Origin) :
    Resources.Grows Cause.Unserved r.resources (r.beginNavigation call envelope origin).resources := by
  unfold beginNavigation
  split
  · exact Resources.grows_bumpAll _ _ _ rfl
  · exact .refl

theorem grows_beginPrefetch (r : Router V P) (call : PrefetchCall V)
    (fetched : PrefetchedEnvelope V) :
    Resources.Grows Cause.Unserved r.resources (r.beginPrefetch call fetched).resources := by
  unfold beginPrefetch
  split
  · exact .refl
  · exact Resources.grows_bumpAll _ _ _ rfl

theorem grows_restorePage (r : Router V P) (url : String) (cached : CachedPage V) :
    Resources.Grows Cause.Unserved r.resources (r.restorePage url cached).resources := by
  have hleft : Resources.Grows Cause.Unserved r.resources r.leavePage.resources :=
    (grows_suspendLive { r with visitCounter := r.visitCounter + 1 }).trans
      (grows_abortActiveDeferred (({ r with visitCounter := r.visitCounter + 1 } : Router V P
        ).suspendLive).cancelPendingLiveRefresh)
  unfold restorePage
  dsimp only
  split
  · exact hleft.write _
  · split
    · exact hleft.write _
    · refine Resources.Grows.trans ?_ (grows_startDeferredBatch _ _ _)
      exact hleft.write _

theorem grows_queueLiveRefresh (r : Router V P) (keys : List String) (reason : LoadReason) :
    Resources.Grows Cause.Unserved r.resources (r.queueLiveRefresh keys reason).resources := by
  unfold queueLiveRefresh
  split <;> exact .refl

theorem grows_part {r r' : Router V P} {t : Task V P} (h : r.Part t r') :
    Resources.Grows (fun cause => cause.Unserved ∨ t.publishes = true) r.resources r'.resources := by
  cases h with
  | markStopped | marked | captured | settleStopped | settleSkip | rejectStopped | rejectAborted
  | rejectSkip | navSuperseded | wroteResources | skipError | wroteErrors | wrotePending | showPage
  | refuseManifest | updateManifest | commit | followUp | prefetchStopped | rejectPrefetched
  | cachePrefetched | patched | leaveDocument | mutatedNothing => exact .refl
  | mark | settled | settle | rejected | rejectRewrite | reject | writeResource | writeError
  | writePending | finishPage | writePrefetched => exact Resources.grows_withStore _ _
  | patch | invalidateActive | invalidate | patchLive | invalidateLive =>
    exact .write _ (Resources.grows_bump _ _ _ (.inr rfl))
  | patchThrows | patchLiveThrows => exact Resources.grows_bump _ _ _ (.inr rfl)
  | navBegin => exact (grows_beginNavigation _ _ _ _).mono fun _ => .inl
  | followUpDeferred => exact (grows_startDeferredBatch (r.push _) _ _).mono fun _ => .inl
  | reloadMissing =>
    refine Resources.Grows.trans ?_ ((grows_loadResources _ _ _).mono fun _ => .inl)
    exact Resources.grows_withStore _ _
  | redirect => exact (grows_startVisit _ _ _ _).mono fun _ => .inl
  | reloadActive => exact (grows_loadResources _ _ _).mono fun _ => .inl
  | patchedLive | invalidatedLive => exact (grows_queueLiveRefresh _ _ _).mono fun _ => .inl

/-- What the server published is processed next. -/
def publishing (r : Router V P) : Action V P → Bool
  | .resume => r.turn.head?.any Task.publishes
  | _ => false

theorem grows_step {r r' : Router V P} {a : Action V P} (h : r.step a = some r')
    (hclear : a ≠ .clear) :
    Resources.Grows (fun cause => cause.Unserved ∨ r.publishing a = true) r.resources
      r'.resources := by
  -- Everything that opens a turn or closes a request leaves the epochs alone.
  cases happens_step h with
  | clear => exact absurd rfl hclear
  | prefetch | mutate | nothingDeferred | startLive | liveConnect | liveDisconnect | liveReconnect
  | abort | tick | loadResponse | loadFailure | visitFailure | visitNotPrefetched | prefetchResponse
  | prefetchFailure | prefetchFailed | mutateResponse | mutateOutlived | mutateFailure
  | deferredSettled | deferredReplaced | refreshNothing | reconnectTimer | networkFlag
  | networkOnline | networkOffline | connectFails | streamEvent | streamPatch | streamInvalidate
  | streamEnd | streamError => exact .refl
  | visit | refreshPage => exact (grows_startVisit _ _ _ _).mono fun _ => .inl
  | refreshKeys | loadResources => exact (grows_loadResources _ _ _).mono fun _ => .inl
  | initialDeferred =>
    exact (grows_startDeferredBatch { r with initialDeferredBatch := none } _ _).mono fun _ => .inl
  | stopLive => exact (Resources.grows_batches _ _ _).mono fun _ => .inl
  | subscribe | unsubscribe | read => exact Resources.grows_withStore _ _
  -- only a part of a mutation or of a live event bumps for a cause that the server served
  | @part t rest _ hturn h =>
    refine (grows_part (r := { r with turn := rest }) h).mono fun cause hcause => ?_
    rw [publishing, hturn]
    exact hcause
  | visitResponse | visitPrefetched =>
    exact (grows_beginNavigation (r.dropVisit _) _ _ _).mono fun _ => .inl
  | prefetchSettled =>
    exact (grows_beginPrefetch { r with prefetches := r.prefetches.eraseIdx _ } _ _).mono
      fun _ => .inl
  | @restorePage url =>
    exact (Resources.grows_withStore _ _).trans
      ((grows_restorePage (r.lookUpPage url) _ _).mono fun _ => .inl)
  | @revisitPage url =>
    exact (Resources.grows_withStore _ _).trans
      ((grows_startVisit (r.lookUpPage url) _ _ _).mono fun _ => .inl)
  | refreshLive =>
    exact (grows_loadResources r.cancelPendingLiveRefresh _ _).mono fun _ => .inl

end Router

end FluxFast.Core
