import FluxFast.Core.Ledger

/-!
# Turns — where the tasks on the stack come from

`Follows` is the control flow inside one synchronous call.  `Spawns` lists every way a task can get
on the stack: it follows the innermost one, or a load, a navigation, a prefetch, a mutation or a
live event begins.  `turn_step` says that a step does nothing else to the stack.
-/

namespace FluxFast.Core

open FluxFast.Theory

set_option linter.unusedSectionVars false

variable {V P : Type} [DecidableEq V] [Patchable V P]

/-- The second task is what a call that was at the first one does next. -/
inductive Task.Follows : Task V P → Task V P → Prop
  -- a loop goes on with the rest of its list
  | marked {call key rest} : Follows (.markLoading call (key :: rest)) (.markLoading call rest)
  | settled {call envelope key rest keys keys'} :
    Follows (.settleLoad call envelope (key :: rest) keys) (.settleLoad call envelope rest keys')
  | rejected {call failure aborted key rest keys keys'} :
    Follows (.rejectLoad call failure aborted (key :: rest) keys)
      (.rejectLoad call failure aborted rest keys')
  | wroteResource {nav e rest} : Follows (.navResources nav (e :: rest)) (.navResources nav rest)
  -- the parts of a page follow each other in this order
  | wroteResources {nav} :
    Follows (.navResources nav []) (.navErrors nav nav.envelope.errors.entries)
  | wroteError {nav e rest} : Follows (.navErrors nav (e :: rest)) (.navErrors nav rest)
  | wroteErrors {nav} : Follows (.navErrors nav []) (.navDeferred nav nav.applied.deferredKeys)
  | wrotePending {nav key rest} :
    Follows (.navDeferred nav (key :: rest)) (.navDeferred nav rest)
  | wroteDeferred {nav} : Follows (.navDeferred nav []) (.navShell nav)
  | shown {nav} : Follows (.navShell nav) (.navManifest nav)
  | connected {nav} : Follows (.navManifest nav) (.navCommit nav)
  | committed {nav} : Follows (.navCommit nav) (.navFollowUp nav)
  | followed {nav} : Follows (.navFollowUp nav) (.navMissing nav)
  -- the loops of a prefetch, of a mutation and of a live event
  | wrotePrefetched {call fetched e rest race} :
    Follows (.applyPrefetch call fetched (e :: rest) race) (.applyPrefetch call fetched rest race)
  | patched {mutation e rest} :
    Follows (.patchMutation mutation (e :: rest)) (.patchMutation mutation rest)
  | patchedAll {mutation} :
    Follows (.patchMutation mutation [])
      (.invalidateMutation mutation (mutation.payload.invalidate.getD []) [])
  | invalidated {mutation key rest active active'} :
    Follows (.invalidateMutation mutation (key :: rest) active)
      (.invalidateMutation mutation rest active')
  | patchedLive {keys e rest servedAt} :
    Follows (.patchLive keys (e :: rest) servedAt) (.patchLive keys rest servedAt)
  | invalidatedLive {keys key rest reason servedAt} :
    Follows (.invalidateLive keys (key :: rest) reason servedAt)
      (.invalidateLive keys rest reason servedAt)

namespace Router

/-- The load was started by the last operation on the resources. -/
structure Started (r : Router V P) (call : LoadCall) : Prop where
  generation : call.lifecycleGeneration = r.lifecycleGeneration
  id : call.id = r.resourceLoadCounter
  known : call.knownVersions = r.store.exportKnownVersions
  captured : ∃ before : Resources V,
    r.resources = (before.captureEpochs call.id call.requestedKeys).1 ∧
      call.capturedEpochs = (before.captureEpochs call.id call.requestedKeys).2
  distinct : call.requestedKeys.Nodup

/-- The step from `r` to `r'` puts the task on the stack. -/
inductive Spawns (r : Router V P) (a : Action V P) (r' : Router V P) : Task V P → Prop
  -- What a step may add to the turn, and where it comes from.
  | follows {t t' : Task V P} {rest} (ha : a = .resume) (hturn : r.turn = t :: rest)
    (h : t.Follows t') : Spawns r a r' t'
  | load {call} (hstarted : r'.Started call) (hnew : r.resourceLoadCounter < call.id) :
    Spawns r a r' (.markLoading call call.requestedKeys)
  | capture {keys} : Spawns r a r' (.captureDeferred keys)
  | answered {index call envelope view} (ha : a = .loadResponse index envelope view)
    (hcall : r.loads[index]? = some call) :
    Spawns r a r' (.settleLoad call envelope call.requestedKeys [])
  | failed {index call failure} (ha : a = .loadFailure index failure)
    (hcall : r.loads[index]? = some call) :
    Spawns r a r' (.rejectLoad call failure
      (r.signalAborted call.signal || failure.name = "AbortError") call.requestedKeys [])
  -- a visit answered from the cache: nothing was waited for
  | hit {call} {fetched : PrefetchedEnvelope V} (hopens : r.Opens a call.url)
    (hid : call.id = r'.visitCounter) (hcurrent : r'.currentVisitId = some call.id) (hnew : r.visitCounter < call.id)
    (hpending : call.pending = none)
    (hstarted : call.startedAtEpoch = r'.resources.resourceEpochCounter)
    (hknown : call.knownVersions = r.openVisit.store.exportKnownVersions)
    (hcached : (r.prefetchManager.getCached r.now call.url call.knownVersions).1 = some fetched) :
    Spawns r a r' (.navBegin call fetched.envelope
      (.prefetch fetched.sentAtEpoch fetched.producedAt))
  -- a page that arrives, its eligible keys just bumped
  | navigation {call envelope origin} (harrives : r.Arrives a call envelope origin)
    (hcurrent : r.isCurrent call = true)
    (hresources : r'.resources = r.resources.bumpAll
      (r.navigation call envelope origin).eligibleKeys (.navigation call.id)) :
    Spawns r a r' (.navResources (r.navigation call envelope origin)
      (r.navigation call envelope origin).applied.resources.entries)
  -- the safe records of a prefetch, just bumped
  | prefetched {call fetched} (hsettles : r.Settles a call fetched)
    (hgeneration : call.lifecycleGeneration = r.lifecycleGeneration)
    (hresources : r'.resources = r.resources.bumpAll
      (r.safeResources call fetched.envelope).keys (.prefetch fetched.request)) :
    Spawns r a r' (.applyPrefetch call fetched (r.safeResources call fetched.envelope).entries
      (r.hasResourceRace call fetched.envelope))
  -- what the server published
  | mutated {mutation : AppliedMutation P} :
    Spawns r a r' (.patchMutation mutation (mutation.payload.patches.getD .empty).entries)
  | patchedLive {keys patches servedAt} (hidle : r.turn = []) :
    Spawns r a r' (.patchLive keys patches servedAt)
  | invalidatedLive {keys reason servedAt} (hidle : r.turn = []) :
    Spawns r a r' (.invalidateLive keys keys reason servedAt)

/-- Spawned tasks were put on top of `base`. -/
def Pushes (r : Router V P) (a : Action V P) (base : List (Task V P)) (r' : Router V P) : Prop :=
  ∃ new, r'.turn = new ++ base ∧ ∀ t ∈ new, r.Spawns a r' t

theorem pushes_none {r r' : Router V P} {a : Action V P} {base : List (Task V P)}
    (h : r'.turn = base) : r.Pushes a base r' :=
  ⟨[], h, fun _ ht => by cases ht⟩

theorem pushes_one {r r' : Router V P} {a : Action V P} {base : List (Task V P)} {t : Task V P}
    (h : r'.turn = t :: base) (ht : r.Spawns a r' t) : r.Pushes a base r' :=
  ⟨[t], h, fun _ hs => List.mem_singleton.mp hs ▸ ht⟩

/-! ## The operations that push -/

theorem turn_loadResources (s : Router V P) (keys : List String) (options : LoadResourcesOptions) :
    (s.loadResources keys options).turn = s.turn ∨
      ∃ call, (s.loadResources keys options).turn = .markLoading call call.requestedKeys :: s.turn ∧
        (s.loadResources keys options).Started call ∧ s.resourceLoadCounter < call.id := by
  unfold loadResources
  dsimp only
  split
  · exact .inl rfl
  · refine .inr ⟨_, rfl, ⟨rfl, rfl, ?_, ⟨s.resources, rfl, rfl⟩, nodup_unique _⟩, Nat.lt_succ_self _⟩
    show s.store.exportKnownVersions = ResourceStore.exportKnownVersions _
    exact congrArg ResourceStore.exportKnownVersions
      (Resources.resourceStore_captureEpoch (s.resourceLoadCounter + 1) (s.resources, .empty)
        (unique (keys.filter (· ≠ "")))).symm

theorem pushes_loadResources {r s : Router V P} (a : Action V P)
    (hcounter : s.resourceLoadCounter = r.resourceLoadCounter) (keys : List String)
    (options : LoadResourcesOptions) : r.Pushes a s.turn (s.loadResources keys options) := by
  rcases turn_loadResources s keys options with h | ⟨call, h, hstarted, hnew⟩
  · exact pushes_none h
  · exact pushes_one h (.load hstarted (hcounter ▸ hnew))

theorem pushes_startDeferredBatch {r s : Router V P} (a : Action V P)
    (hcounter : s.resourceLoadCounter = r.resourceLoadCounter) (keys : List String)
    (url : String) : r.Pushes a s.turn (s.startDeferredBatch keys url) := by
  unfold startDeferredBatch
  dsimp only
  obtain ⟨new, hturn, hnew⟩ := pushes_loadResources (r := r)
    (s := ({ s.abortActiveDeferred with
      controllerCounter := s.abortActiveDeferred.controllerCounter + 1
      activeDeferredController := some (s.abortActiveDeferred.controllerCounter + 1)
      activeDeferredKeys := keys } : Router V P).push (.captureDeferred keys)) a hcounter keys
    { url := some url, reason := .deferred,
      signal := some (.deferred (s.abortActiveDeferred.controllerCounter + 1)) }
  refine ⟨new ++ [.captureDeferred keys], hturn.trans (List.append_cons ..), fun t ht => ?_⟩
  rcases List.mem_append.mp ht with ht | ht
  · exact hnew t ht
  · rw [List.mem_singleton.mp ht]
    exact .capture

theorem pushes_startVisit {r s : Router V P} (a : Action V P)
    (hcounter : s.visitCounter = r.visitCounter) (hprefetch : s.prefetchManager = r.prefetchManager)
    (hnow : s.now = r.now) (url : String) (options : VisitOptions) (redirected : Bool)
    (hopens : options.usePrefetch = true → options.only = [] →
      r.Opens a url ∧ s.openVisit.store = r.openVisit.store) :
    r.Pushes a s.turn (s.startVisit url options redirected) := by
  unfold startVisit
  dsimp only
  split
  · exact pushes_none rfl
  · next huse =>
    obtain ⟨huse, hwhole⟩ := not_or.mp huse
    obtain ⟨hopens, hstore⟩ := hopens (Bool.eq_true_of_not_eq_false huse) (not_not.mp hwhole)
    unfold requestPage
    dsimp only
    split
    · next fetched hcached =>
      refine pushes_one rfl (.hit hopens rfl rfl ?_ rfl rfl ?_ ?_)
      · exact hcounter ▸ Nat.lt_succ_self s.visitCounter
      · exact congrArg ResourceStore.exportKnownVersions hstore
      · rw [← hprefetch, ← hnow]
        exact hcached
    · exact pushes_none rfl

theorem pushes_beginNavigation {r s : Router V P} {a : Action V P} {call : VisitCall}
    {envelope : PageEnvelope V} {origin : Origin} (hresources : s.resources = r.resources)
    (hvisit : s.currentVisitId = r.currentVisitId)
    (harrives : r.Arrives a call envelope origin) :
    r.Pushes a s.turn (s.beginNavigation call envelope origin) := by
  have hnav : s.navigation call envelope origin = r.navigation call envelope origin := by
    simp only [navigation, eligibleKeys, hresources]
  have hcur : s.isCurrent call = r.isCurrent call := by rw [isCurrent, isCurrent, hvisit]
  unfold beginNavigation
  split
  · next hcurrent =>
    dsimp only
    rw [hnav, hresources]
    exact pushes_one rfl (.navigation harrives (hcur ▸ hcurrent) rfl)
  · exact pushes_none rfl

theorem pushes_beginPrefetch {r s : Router V P} {a : Action V P} {call : PrefetchCall V}
    {fetched : PrefetchedEnvelope V} (hresources : s.resources = r.resources)
    (hgen : s.lifecycleGeneration = r.lifecycleGeneration) (hsettles : r.Settles a call fetched) :
    r.Pushes a s.turn (s.beginPrefetch call fetched) := by
  have hsafe : s.isSafe call = r.isSafe call := by
    funext key
    simp only [isSafe, hresources]
  unfold beginPrefetch
  split
  · exact pushes_none rfl
  · next hgeneration =>
    have hresourcesEq : s.safeResources call fetched.envelope =
        r.safeResources call fetched.envelope := by simp only [safeResources, hsafe]
    have hrace : s.hasResourceRace call fetched.envelope =
        r.hasResourceRace call fetched.envelope := by simp only [hasResourceRace, hsafe]
    dsimp only
    rw [hresourcesEq, hrace, hresources]
    exact pushes_one rfl (.prefetched hsettles (hgen ▸ not_not.mp hgeneration) rfl)

theorem pushes_restorePage {r s : Router V P} (a : Action V P)
    (hcounter : s.resourceLoadCounter = r.resourceLoadCounter) (url : String)
    (cached : CachedPage V) : r.Pushes a s.turn (s.restorePage url cached) := by
  unfold restorePage
  dsimp only
  split
  · exact pushes_none rfl
  · split
    · exact pushes_none rfl
    · next manager _ _ =>
      exact pushes_startDeferredBatch (s :=
        { s.leavePage.withStore (s.leavePage.store.markPending cached.pendingDeferred) with
          pageStore := ⟨cached.component, cached.url, cached.pageMeta⟩
          liveManager := if s.leavePage.liveStarted then manager.connect else manager })
        a hcounter _ _

theorem turn_queueLiveRefresh (r : Router V P) (keys : List String) (reason : LoadReason) :
    (r.queueLiveRefresh keys reason).turn = r.turn := by
  unfold queueLiveRefresh
  split <;> rfl

/-! ## One step -/

theorem pushes_part {r r' : Router V P} {t : Task V P} {rest : List (Task V P)}
    (ht : r.turn = t :: rest) (h : ({ r with turn := rest } : Router V P).Part t r') :
    r.Pushes .resume rest r' := by
  have hone : ∀ {s : Router V P} {t' : Task V P}, s.turn = t' :: rest → t.Follows t' →
      r.Pushes .resume rest s := fun hs hf => pushes_one hs (.follows rfl ht hf)
  -- A part pushes at most what follows it; only those that begin something push a first part.
  cases h with
  | markStopped | marked | captured | settleStopped | settled | rejectStopped | rejectAborted
  | rejected | navSuperseded | refuseManifest | finishPage | prefetchStopped | rejectPrefetched
  | cachePrefetched | patchThrows | leaveDocument | mutatedNothing | patchLiveThrows =>
    exact pushes_none rfl
  | mark => exact hone rfl .marked
  | settle | settleSkip => exact hone rfl .settled
  | rejectRewrite | reject | rejectSkip => exact hone rfl .rejected
  | navBegin => exact pushes_beginNavigation rfl rfl (.held ht)
  | writeResource => exact hone rfl .wroteResource
  | wroteResources => exact hone rfl .wroteResources
  | writeError | skipError => exact hone rfl .wroteError
  | wroteErrors => exact hone rfl .wroteErrors
  | writePending => exact hone rfl .wrotePending
  | wrotePending => exact hone rfl .wroteDeferred
  | showPage => exact hone rfl .shown
  | updateManifest => exact hone rfl .connected
  | commit => exact hone rfl .committed
  | followUp => exact hone rfl .followed
  -- the batch goes on top of the part that it interrupts
  | @followUpDeferred nav =>
    obtain ⟨new, hturn, hnew⟩ := pushes_startDeferredBatch (r := r)
      (s := ({ r with turn := rest } : Router V P).push (.navMissing nav)) .resume rfl
      nav.applied.deferredKeys (orElse nav.envelope.page.url "/")
    refine ⟨new ++ [.navMissing nav], hturn.trans (List.append_cons ..), fun s hs => ?_⟩
    rcases List.mem_append.mp hs with hs | hs
    · exact hnew s hs
    · rw [List.mem_singleton.mp hs]
      exact .follows rfl ht .followed
  | @reloadMissing nav =>
    exact pushes_loadResources (r := r) (s := (({ r with turn := rest } : Router V P).withStore
      ((listedKeys nav.envelope).foldl (fun store key => store.touchState key) r.store)
      ).finishVisit nav.call) .resume rfl _ _
  | writePrefetched => exact hone rfl .wrotePrefetched
  | patch => exact hone rfl .patched
  | patched => exact hone rfl .patchedAll
  | invalidateActive | invalidate => exact hone rfl .invalidated
  | redirect hcan hexternal hredirect =>
    exact pushes_startVisit (r := r) (s := { r with turn := rest }) .resume rfl rfl rfl _ _ _
      fun _ _ => ⟨.redirect ht hcan hexternal hredirect, rfl⟩
  | reloadActive => exact pushes_loadResources (r := r) (s := { r with turn := rest }) .resume rfl _ _
  | patchLive => exact hone rfl .patchedLive
  | invalidateLive => exact hone rfl .invalidatedLive
  | patchedLive | invalidatedLive => exact pushes_none (turn_queueLiveRefresh _ _ _)

/-- What is left of the stack for the action to push on. -/
def below (r : Router V P) : Action V P → List (Task V P)
  | .resume => r.turn.tail
  | _ => r.turn

theorem turn_step {r r' : Router V P} {a : Action V P} (h : r.step a = some r') :
    r.Pushes a (r.below a) r' := by
  -- Every other step leaves the turn as it is.
  cases happens_step h with
  | prefetch | mutate | nothingDeferred | startLive | stopLive | clear | liveConnect
  | liveDisconnect | liveReconnect | subscribe | unsubscribe | read | abort | tick | visitFailure
  | visitNotPrefetched | prefetchResponse | prefetchFailure | prefetchFailed | mutateOutlived
  | mutateFailure | deferredSettled | deferredReplaced | refreshNothing | reconnectTimer
  | networkFlag | networkOnline | networkOffline | connectFails | streamEvent | streamEnd
  | streamError => exact pushes_none rfl
  | visit =>
    exact pushes_startVisit _ rfl rfl rfl _ _ _ fun huse hwhole => ⟨.visit huse hwhole, rfl⟩
  | refreshPage =>
    exact pushes_startVisit _ rfl rfl rfl _ _ _ fun huse => absurd huse Bool.false_ne_true
  | refreshKeys | loadResources => exact pushes_loadResources _ rfl _ _
  | initialDeferred =>
    exact pushes_startDeferredBatch (r := r) (s := { r with initialDeferredBatch := none }) _ rfl _ _
  -- the part itself is popped, so only what is below it counts as before
  | @part t rest r' hturn h =>
    rw [below, hturn]
    exact pushes_part hturn h
  | loadResponse _ hcall => exact pushes_one rfl (.answered rfl hcall)
  | loadFailure _ hcall => exact pushes_one rfl (.failed rfl hcall)
  | @visitResponse index _ _ _ hcall hpending =>
    exact pushes_beginNavigation (s := r.dropVisit index) rfl rfl (.transport hcall hpending)
  | @visitPrefetched index _ _ _ hcall houtcome =>
    exact pushes_beginNavigation (s := r.dropVisit index) rfl rfl (.pending hcall houtcome)
  | @prefetchSettled index _ _ _ hsettles =>
    exact pushes_beginPrefetch (s := { r with prefetches := r.prefetches.eraseIdx index }) rfl rfl
      hsettles
  | mutateResponse => exact pushes_one rfl .mutated
  -- a page from the history has no visit of its own: it pushes its deferred loads only
  | @restorePage url =>
    exact pushes_restorePage (r := r) (s := r.lookUpPage url) _ rfl _ _
  | @revisitPage url =>
    exact pushes_startVisit (r := r) (s := r.lookUpPage url) _ rfl rfl rfl _ _ _
      fun huse => absurd huse Bool.false_ne_true
  | refreshLive =>
    exact pushes_loadResources (r := r) (s := r.cancelPendingLiveRefresh) _ rfl _ _
  | streamPatch hidle => exact pushes_one rfl (.patchedLive hidle)
  | streamInvalidate hidle => exact pushes_one rfl (.invalidatedLive hidle)

end Router

/-! ## What a response or an event began is the bottom of the stack -/

/-- The calls that responses and events begin: nothing runs below them. -/
def Task.base : Task V P → Bool
  | .settleLoad .. | .rejectLoad .. | .applyPrefetch .. | .patchMutation ..
  | .invalidateMutation .. | .patchLive .. | .invalidateLive .. => true
  | _ => false

/-- A call that a response or an event began is the bottom of the stack. -/
def Layered : List (Task V P) → Prop
  | [] => True
  | t :: ts => (t.base = true → ts = []) ∧ Layered ts

theorem layered_above {t : Task V P} {ts : List (Task V P)} (ht : t.base = false)
    (h : Layered ts) : Layered (t :: ts) :=
  ⟨fun hbase => absurd (ht.symm.trans hbase) Bool.false_ne_true, h⟩

theorem layered_alone (t : Task V P) : Layered [t] := ⟨fun _ => rfl, trivial⟩

namespace Router

section Layers

variable {r : Router V P}

theorem layered_loadResources (h : Layered r.turn) (keys : List String)
    (options : LoadResourcesOptions) : Layered (r.loadResources keys options).turn := by
  rcases turn_loadResources r keys options with hturn | ⟨call, hturn, -⟩
  · rw [hturn]
    exact h
  · rw [hturn]
    exact layered_above rfl h

theorem layered_startDeferredBatch (h : Layered r.turn) (keys : List String) (url : String) :
    Layered (r.startDeferredBatch keys url).turn := by
  unfold startDeferredBatch
  exact layered_loadResources (layered_above rfl h) _ _

theorem layered_startVisit (h : Layered r.turn) (url : String) (options : VisitOptions)
    (redirected : Bool) : Layered (r.startVisit url options redirected).turn := by
  unfold startVisit
  dsimp only
  split
  · exact h
  · unfold requestPage
    dsimp only
    split
    · exact layered_above rfl h
    · exact h

theorem layered_beginNavigation (h : Layered r.turn) (call : VisitCall)
    (envelope : PageEnvelope V) (origin : Origin) :
    Layered (r.beginNavigation call envelope origin).turn := by
  unfold beginNavigation
  split
  · exact layered_above rfl h
  · exact h

theorem layered_beginPrefetch (h : r.turn = []) (call : PrefetchCall V)
    (fetched : PrefetchedEnvelope V) : Layered (r.beginPrefetch call fetched).turn := by
  unfold beginPrefetch
  split
  · exact h ▸ trivial
  · dsimp only [push]
    rw [h]
    exact layered_alone _

theorem layered_restorePage (h : Layered r.turn) (url : String) (cached : CachedPage V) :
    Layered (r.restorePage url cached).turn := by
  unfold restorePage
  dsimp only
  split
  · exact h
  · split
    · exact h
    · refine layered_startDeferredBatch ?_ _ _
      exact h

/-- A task follows one of its own kind, or one that a call of its own kind began. -/
theorem layered_part {r' : Router V P} {t : Task V P}
    (h : r.Part t r') (hturn : Layered (t :: r.turn)) : Layered r'.turn := by
  obtain ⟨hbase, hrest⟩ := hturn
  have hnext : ∀ t' : Task V P, (t'.base = true → t.base = true) → Layered (t' :: r.turn) :=
    fun t' ht => ⟨fun hb => hbase (ht hb), hrest⟩
  cases h with
  | markStopped | marked | captured | settleStopped | settled | rejectStopped | rejectAborted
  | rejected | navSuperseded | refuseManifest | finishPage | prefetchStopped | rejectPrefetched
  | cachePrefetched | patchThrows | leaveDocument | mutatedNothing | patchLiveThrows => exact hrest
  | mark | writeResource | wroteResources | writeError | skipError | wroteErrors | writePending
  | wrotePending | showPage | updateManifest | commit | followUp => exact layered_above rfl hrest
  | settle | settleSkip | rejectRewrite | reject | rejectSkip | writePrefetched | patch | patched
  | invalidateActive | invalidate | patchLive | invalidateLive => exact hnext _ fun _ => rfl
  | navBegin => exact layered_beginNavigation hrest _ _ _
  | followUpDeferred =>
    exact layered_startDeferredBatch (r := r.push _) (layered_above rfl hrest) _ _
  | reloadMissing =>
    refine layered_loadResources ?_ _ _
    exact hrest
  | redirect => exact layered_startVisit hrest _ _ _
  | reloadActive => exact layered_loadResources hrest _ _
  | patchedLive | invalidatedLive => exact (turn_queueLiveRefresh r _ _).symm ▸ hrest

theorem layered_step {r' : Router V P} {a : Action V P} (h : r.step a = some r')
    (hr : Layered r.turn) : Layered r'.turn := by
  have halone : r.turn = [] → ∀ t : Task V P, Layered (t :: r.turn) := fun hidle t => by
    rw [hidle]
    exact layered_alone t
  cases happens_step h with
  | prefetch | mutate | nothingDeferred | startLive | stopLive | clear | liveConnect
  | liveDisconnect | liveReconnect | subscribe | unsubscribe | read | abort | tick | visitFailure
  | visitNotPrefetched | prefetchResponse | prefetchFailure | prefetchFailed | mutateOutlived
  | mutateFailure | deferredSettled | deferredReplaced | refreshNothing | reconnectTimer
  | networkFlag | networkOnline | networkOffline | connectFails | streamEvent | streamEnd
  | streamError => exact hr
  | visit | refreshPage => exact layered_startVisit hr _ _ _
  | refreshKeys | loadResources => exact layered_loadResources hr _ _
  | initialDeferred =>
    exact layered_startDeferredBatch (r := { r with initialDeferredBatch := none }) hr _ _
  | @part t rest _ hturn hpart =>
    exact layered_part (r := { r with turn := rest }) hpart (hturn ▸ hr)
  | loadResponse hidle | loadFailure hidle | mutateResponse hidle | streamPatch hidle
  | streamInvalidate hidle => exact halone hidle _
  | @visitResponse index | @visitPrefetched index =>
    exact layered_beginNavigation (r := r.dropVisit index) hr _ _ _
  | @prefetchSettled index _ _ hidle =>
    exact layered_beginPrefetch (r := { r with prefetches := r.prefetches.eraseIdx index }) hidle _ _
  | @restorePage url => exact layered_restorePage (r := r.lookUpPage url) hr _ _
  | @revisitPage url => exact layered_startVisit (r := r.lookUpPage url) hr _ _ _
  | refreshLive => exact layered_loadResources (r := r.cancelPendingLiveRefresh) hr _ _

end Layers

end Router

end FluxFast.Core
