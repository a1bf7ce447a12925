import FluxFast.Core.System

/-!
# Steps — what one step of the router can do

`Part` lists what the next part of a synchronous call can make of the router, and `Happens` what a
step can make of it: for every branch of the program its guard, and the state it leads to in terms
of the router's operations.  What a step keeps is proved by cases over these lists.
-/

namespace FluxFast.Core

open FluxFast.Theory

set_option linter.unusedSectionVars false

variable {V P : Type} [DecidableEq V] [Patchable V P]

/-- The navigation that the task is a part of. -/
def Task.nav? : Task V P → Option (Navigation V)
  | .navResources nav _ | .navErrors nav _ | .navDeferred nav _ | .navShell nav | .navManifest nav
  | .navCommit nav | .navFollowUp nav | .navMissing nav => some nav
  | _ => none

namespace Router

/-- The envelope that a visit waited for is there. -/
inductive Arrives (r : Router V P) : Action V P → VisitCall → PageEnvelope V → Origin → Prop
  | transport {index call envelope} (hcall : r.visits[index]? = some call)
    (hpending : call.pending = none) :
    Arrives r (.visitResponse index envelope) call envelope .transport
  | pending {index call} {fetched : PrefetchedEnvelope V} (hcall : r.visits[index]? = some call)
    (houtcome : call.pending.bind r.prefetchOutcome = some (.ok fetched)) :
    Arrives r (.visitPrefetched index) call fetched.envelope
      (.prefetch fetched.sentAtEpoch fetched.producedAt)
  | held {call envelope origin rest} (hturn : r.turn = .navBegin call envelope origin :: rest) :
    Arrives r .resume call envelope origin

/-- The envelope of a `prefetch` call is there. -/
inductive Settles (r : Router V P) : Action V P → PrefetchCall V → PrefetchedEnvelope V → Prop
  | held {index call} {fetched : PrefetchedEnvelope V} (hcall : r.prefetches[index]? = some call)
    (hsource : call.source = .held fetched) : Settles r (.prefetchSettled index) call fetched
  | request {index call id} {fetched : PrefetchedEnvelope V}
    (hcall : r.prefetches[index]? = some call) (hsource : call.source = .request id)
    (houtcome : r.prefetchOutcome id = some (.ok fetched)) :
    Settles r (.prefetchSettled index) call fetched

/-- The step starts a visit that asks the prefetch cache for the page. -/
inductive Opens (r : Router V P) : Action V P → String → Prop
  | visit {url options} (huse : options.usePrefetch = true) (hwhole : options.only = []) :
    Opens r (.visit url options) url
  | redirect {mutation active rest url}
    (hturn : r.turn = .invalidateMutation mutation [] active :: rest)
    (hcan : mutation.call.visitCounter = r.visitCounter)
    (hexternal : truthy mutation.payload.externalRedirect = none)
    (hredirect : truthy mutation.payload.redirect = some url) : Opens r .resume url

/-! ## One part of a call -/

/-- `r` is the router with the task taken off the stack, `r'` what the task makes of it. -/
inductive Part (r : Router V P) : Task V P → Router V P → Prop
  -- a load
  | markStopped {call rest} (hgen : call.lifecycleGeneration ≠ r.lifecycleGeneration) :
    Part r (.markLoading call rest) r
  | marked {call} (hgen : call.lifecycleGeneration = r.lifecycleGeneration) :
    Part r (.markLoading call []) { r with loads := r.loads ++ [call] }
  | mark {call key rest} (hgen : call.lifecycleGeneration = r.lifecycleGeneration) :
    Part r (.markLoading call (key :: rest))
      ((r.withStore (r.store.markLoading [key])).push (.markLoading call rest))
  | captured {keys} : Part r (.captureDeferred keys) (r.captureDeferred keys)
  | settleStopped {call envelope rest settled}
    (hgen : call.lifecycleGeneration ≠ r.lifecycleGeneration) :
    Part r (.settleLoad call envelope rest settled) (r.finishLoad call)
  | settled {call envelope settled} (hgen : call.lifecycleGeneration = r.lifecycleGeneration) :
    Part r (.settleLoad call envelope [] settled) ((r.settlePage call.url settled).finishLoad call)
  | settle {call envelope key rest settled}
    (hgen : call.lifecycleGeneration = r.lifecycleGeneration)
    (hstill : r.resources.stillAt key (call.capturedEpochs.get? key) = true) :
    Part r (.settleLoad call envelope (key :: rest) settled)
      (((r.withStore (settleKey r.store r.now envelope key)).answer key).push
        (.settleLoad call envelope rest (settled ++ [key])))
  | settleSkip {call envelope key rest settled}
    (hgen : call.lifecycleGeneration = r.lifecycleGeneration)
    (hstill : r.resources.stillAt key (call.capturedEpochs.get? key) = false) :
    Part r (.settleLoad call envelope (key :: rest) settled)
      (r.push (.settleLoad call envelope rest settled))
  | rejectStopped {call failure aborted rest settled}
    (hgen : call.lifecycleGeneration ≠ r.lifecycleGeneration) :
    Part r (.rejectLoad call failure aborted rest settled) (r.finishLoad call)
  | rejectAborted {call failure settled} (hgen : call.lifecycleGeneration = r.lifecycleGeneration) :
    Part r (.rejectLoad call failure true [] settled) (r.finishLoad call)
  | rejected {call failure settled} (hgen : call.lifecycleGeneration = r.lifecycleGeneration) :
    Part r (.rejectLoad call failure false [] settled)
      ((r.settlePage call.url settled).finishLoad call)
  | rejectRewrite {call failure key rest settled}
    (hgen : call.lifecycleGeneration = r.lifecycleGeneration)
    (hstill : r.resources.stillAt key (call.capturedEpochs.get? key) = true) :
    Part r (.rejectLoad call failure true (key :: rest) settled)
      ((r.withStore (rewriteHeld r.store r.now key)).push
        (.rejectLoad call failure true rest settled))
  | reject {call failure key rest settled}
    (hgen : call.lifecycleGeneration = r.lifecycleGeneration)
    (hstill : r.resources.stillAt key (call.capturedEpochs.get? key) = true) :
    Part r (.rejectLoad call failure false (key :: rest) settled)
      (((r.withStore ((r.store.touchRecord key).setResourceError key (failureDetail failure))).answer
        key).push (.rejectLoad call failure false rest (settled ++ [key])))
  | rejectSkip {call failure aborted key rest settled}
    (hgen : call.lifecycleGeneration = r.lifecycleGeneration)
    (hstill : r.resources.stillAt key (call.capturedEpochs.get? key) = false) :
    Part r (.rejectLoad call failure aborted (key :: rest) settled)
      (r.push (.rejectLoad call failure aborted rest settled))
  -- a navigation
  | navBegin {call envelope origin} :
    Part r (.navBegin call envelope origin) (r.beginNavigation call envelope origin)
  | navSuperseded {t nav} (hnav : t.nav? = some nav) (hcurrent : r.isCurrent nav.call = false) :
    Part r t (r.finishVisit nav.call)
  | writeResource {nav e rest} (hcurrent : r.isCurrent nav.call = true) :
    Part r (.navResources nav (e :: rest))
      (((r.withStore (r.store.set r.now e.1 e.2.version e.2.value).1).answer e.1).push
        (.navResources nav rest))
  | wroteResources {nav} :
    Part r (.navResources nav []) (r.push (.navErrors nav nav.envelope.errors.entries))
  | writeError {nav e rest} (hcurrent : r.isCurrent nav.call = true)
    (heligible : e.1 ∈ nav.eligibleKeys) :
    Part r (.navErrors nav (e :: rest))
      (((r.withStore (r.store.setResourceError e.1 e.2)).answer e.1).push (.navErrors nav rest))
  | skipError {nav e rest} (hcurrent : r.isCurrent nav.call = true)
    (heligible : e.1 ∉ nav.eligibleKeys) :
    Part r (.navErrors nav (e :: rest)) (r.push (.navErrors nav rest))
  | wroteErrors {nav} :
    Part r (.navErrors nav []) (r.push (.navDeferred nav nav.applied.deferredKeys))
  | writePending {nav key rest} (hcurrent : r.isCurrent nav.call = true) :
    Part r (.navDeferred nav (key :: rest))
      ((r.withStore (r.store.markPending [key])).push (.navDeferred nav rest))
  | wrotePending {nav} : Part r (.navDeferred nav []) (r.push (.navShell nav))
  | showPage {nav} (hcurrent : r.isCurrent nav.call = true) :
    Part r (.navShell nav)
      (({ r with pageStore := .setPage nav.envelope.page }).push (.navManifest nav))
  | refuseManifest {nav message} (hcurrent : r.isCurrent nav.call = true)
    (hmanifest : r.liveManager.updateManifest (orElse nav.envelope.page.url "/")
      nav.envelope.liveKeys = .error message) :
    Part r (.navManifest nav) (r.failVisit nav.call ⟨"ProtocolError", message, none⟩)
  | updateManifest {nav manager} (hcurrent : r.isCurrent nav.call = true)
    (hmanifest : r.liveManager.updateManifest (orElse nav.envelope.page.url "/")
      nav.envelope.liveKeys = .ok manager) :
    Part r (.navManifest nav)
      (({ r with liveManager := if r.liveStarted then manager.connect else manager }).push
        (.navCommit nav))
  | commit {nav history} (hcurrent : r.isCurrent nav.call = true) :
    Part r (.navCommit nav)
      (({ r.cachePageEnvelope nav.applied with history := history }).push (.navFollowUp nav))
  | followUp {nav} (hcurrent : r.isCurrent nav.call = true) (hnone : nav.applied.deferredKeys = []) :
    Part r (.navFollowUp nav) (r.push (.navMissing nav))
  | followUpDeferred {nav} (hcurrent : r.isCurrent nav.call = true)
    (hsome : nav.applied.deferredKeys ≠ []) :
    Part r (.navFollowUp nav)
      ((r.push (.navMissing nav)).startDeferredBatch nav.applied.deferredKeys
        (orElse nav.envelope.page.url "/"))
  | finishPage {nav} :
    Part r (.navMissing nav)
      ((r.withStore ((listedKeys nav.envelope).foldl (fun store key => store.touchState key)
        r.store)).finishVisit nav.call)
  | reloadMissing {nav} (hcurrent : r.isCurrent nav.call = true) :
    Part r (.navMissing nav)
      (((r.withStore ((listedKeys nav.envelope).foldl (fun store key => store.touchState key)
        r.store)).finishVisit nav.call).loadResources
          ((listedKeys nav.envelope).filter (r.needsReload nav))
          { url := some (pageUrl nav), reason := .refresh })
  -- a prefetch
  | prefetchStopped {call fetched rest race}
    (hgen : call.lifecycleGeneration ≠ r.lifecycleGeneration) :
    Part r (.applyPrefetch call fetched rest race) r
  | rejectPrefetched {call fetched} (hgen : call.lifecycleGeneration = r.lifecycleGeneration) :
    Part r (.applyPrefetch call fetched [] true)
      { r with prefetchManager := r.prefetchManager.rejectPrefetchEnvelope fetched }
  | cachePrefetched {call fetched} (hgen : call.lifecycleGeneration = r.lifecycleGeneration) :
    Part r (.applyPrefetch call fetched [] false) (r.cachePageEnvelope fetched.envelope)
  | writePrefetched {call fetched e rest race}
    (hgen : call.lifecycleGeneration = r.lifecycleGeneration) :
    Part r (.applyPrefetch call fetched (e :: rest) race)
      (((r.withStore (r.store.set r.now e.1 e.2.version e.2.value).1).answer e.1).push
        (.applyPrefetch call fetched rest race))
  -- a mutation
  | patch {mutation e rest store} (hpatch : patchOrInvalidate r.store r.now e.1 e.2 = some store) :
    Part r (.patchMutation mutation (e :: rest))
      (((({ r with resources := r.resources.bumpResourceEpoch e.1 (.mutation mutation.servedAt) } :
        Router V P).withStore store).answer e.1).push (.patchMutation mutation rest))
  | patchThrows {mutation e rest} (hpatch : patchOrInvalidate r.store r.now e.1 e.2 = none) :
    Part r (.patchMutation mutation (e :: rest))
      { r with resources := r.resources.bumpResourceEpoch e.1 (.mutation mutation.servedAt) }
  | patched {mutation} :
    Part r (.patchMutation mutation [])
      (r.push (.invalidateMutation mutation (mutation.payload.invalidate.getD []) []))
  | invalidateActive {mutation key rest active} (hactive : r.store.hasSubscribers key = true) :
    Part r (.invalidateMutation mutation (key :: rest) active)
      ((({ r with resources := r.resources.bumpResourceEpoch key (.mutation mutation.servedAt) } :
        Router V P).withStore (r.store.markStale key)).push
          (.invalidateMutation mutation rest (active ++ [key])))
  | invalidate {mutation key rest active} (hactive : r.store.hasSubscribers key = false) :
    Part r (.invalidateMutation mutation (key :: rest) active)
      (((({ r with resources := r.resources.bumpResourceEpoch key (.mutation mutation.servedAt) } :
        Router V P).withStore (r.store.invalidate key)).answer key).push
          (.invalidateMutation mutation rest active))
  | leaveDocument {mutation active url} (hcan : mutation.call.visitCounter = r.visitCounter)
    (hexternal : truthy mutation.payload.externalRedirect = some url) :
    Part r (.invalidateMutation mutation [] active)
      { r with hardNavigations := r.hardNavigations ++ [url] }
  | redirect {mutation active url} (hcan : mutation.call.visitCounter = r.visitCounter)
    (hexternal : truthy mutation.payload.externalRedirect = none)
    (hredirect : truthy mutation.payload.redirect = some url) :
    Part r (.invalidateMutation mutation [] active) (r.startVisit url {} true)
  | mutatedNothing {mutation} : Part r (.invalidateMutation mutation [] []) r
  | reloadActive {mutation active} (hactive : active ≠ []) :
    Part r (.invalidateMutation mutation [] active)
      (r.loadResources active { url := some r.currentUrl, reason := .mutation })
  -- a live event
  | patchLive {keys e rest servedAt store}
    (hpatch : patchIfHeld r.store r.now e.1 e.2 = some store) :
    Part r (.patchLive keys (e :: rest) servedAt)
      ((({ r with resources := r.resources.bumpResourceEpoch e.1 (.live servedAt) } :
        Router V P).withStore store).push (.patchLive keys rest servedAt))
  | patchLiveThrows {keys e rest servedAt}
    (hpatch : patchIfHeld r.store r.now e.1 e.2 = none) :
    Part r (.patchLive keys (e :: rest) servedAt)
      { r with resources := r.resources.bumpResourceEpoch e.1 (.live servedAt) }
  | patchedLive {keys servedAt} :
    Part r (.patchLive keys [] servedAt) (r.queueLiveRefresh keys .live)
  | invalidateLive {keys key rest reason servedAt} :
    Part r (.invalidateLive keys (key :: rest) reason servedAt)
      ((({ r with resources := r.resources.bumpResourceEpoch key (.live servedAt) } :
        Router V P).withStore (r.store.markStale key)).push
          (.invalidateLive keys rest reason servedAt))
  | invalidatedLive {keys reason servedAt} :
    Part r (.invalidateLive keys [] reason servedAt) (r.queueLiveRefresh keys reason)

theorem part_finishMutation (r : Router V P) (mutation : AppliedMutation P)
    (active : List String) :
    r.Part (.invalidateMutation mutation [] active) (r.finishMutation mutation active) := by
  have hload : r.Part (.invalidateMutation mutation [] active)
      (if active = [] then r
        else r.loadResources active { url := some r.currentUrl, reason := .mutation }) := by
    split
    · next hnone => subst hnone; exact .mutatedNothing
    · next hactive => exact .reloadActive hactive
  unfold finishMutation
  dsimp only
  split
  · next hcan hexternal => exact .leaveDocument (beq_iff_eq.mp hcan) hexternal
  · next hcan hexternal hredirect => exact .redirect (beq_iff_eq.mp hcan) hexternal hredirect
  · exact hload

theorem part_runTask (r : Router V P) (t : Task V P) : r.Part t (r.runTask t) := by
  -- One constructor of `Part` for each branch of the part's function.
  cases t with
  | markLoading call rest =>
    cases rest <;> simp only [runTask, stepMarkLoading] <;> split
    · next h => exact .markStopped h
    · next h => exact .marked (not_not.mp h)
    · next h => exact .markStopped h
    · next h => exact .mark (not_not.mp h)
  | captureDeferred keys => exact .captured
  | settleLoad call envelope rest settled =>
    cases rest <;> simp only [runTask, stepSettleLoad] <;> split
    -- an answer after `clear` is dropped; otherwise each key is settled or skipped
    · next h => exact .settleStopped h
    · next h => exact .settled (not_not.mp h)
    · next h => exact .settleStopped h
    · next h =>
      split
      · next hstill => exact .settle (not_not.mp h) hstill
      · next hstill => exact .settleSkip (not_not.mp h) (Bool.eq_false_iff.mpr hstill)
  | rejectLoad call failure aborted rest settled =>
    cases rest with
    | nil =>
      simp only [runTask, stepRejectLoad]
      -- an abort ends the call without the failure being shown
      by_cases hgen : call.lifecycleGeneration = r.lifecycleGeneration
      · cases aborted with
        | true => rw [if_pos (.inr rfl)]; exact .rejectAborted hgen
        | false => rw [if_neg (by simp [hgen])]; exact .rejected hgen
      · rw [if_pos (.inl hgen)]
        exact .rejectStopped hgen
    | cons key rest =>
      simp only [runTask, stepRejectLoad]
      split
      · next h => exact .rejectStopped h
      · next h =>
        split
        · next hstill =>
          cases aborted with
          | true => exact .rejectRewrite (not_not.mp h) hstill
          | false => exact .reject (not_not.mp h) hstill
        · next hstill => exact .rejectSkip (not_not.mp h) (Bool.eq_false_iff.mpr hstill)
  | navBegin call envelope origin => exact .navBegin
  | navResources nav rest =>
    cases rest <;> simp only [runTask, stepNavResources]
    · exact .wroteResources
    · split
      · next h => exact .writeResource h
      · next h => exact .navSuperseded rfl (Bool.eq_false_iff.mpr h)
  | navErrors nav rest =>
    cases rest <;> simp only [runTask, stepNavErrors]
    · exact .wroteErrors
    -- every part of a page looks first whether the page is still the current one
    · split
      · next h =>
        split
        · next heligible => exact .writeError h heligible
        · next heligible => exact .skipError h heligible
      · next h => exact .navSuperseded rfl (Bool.eq_false_iff.mpr h)
  | navDeferred nav rest =>
    cases rest <;> simp only [runTask, stepNavDeferred]
    · exact .wrotePending
    · split
      · next h => exact .writePending h
      · next h => exact .navSuperseded rfl (Bool.eq_false_iff.mpr h)
  | navShell nav =>
    simp only [runTask, stepNavShell]
    split
    · next h => exact .showPage h
    · next h => exact .navSuperseded rfl (Bool.eq_false_iff.mpr h)
  | navManifest nav =>
    simp only [runTask, stepNavManifest]
    split
    · next h =>
      split
      · next hmanifest => exact .refuseManifest h hmanifest
      · next hmanifest => exact .updateManifest h hmanifest
    · next h => exact .navSuperseded rfl (Bool.eq_false_iff.mpr h)
  | navCommit nav =>
    simp only [runTask, stepNavCommit]
    split
    · next h => split <;> exact .commit h
    · next h => exact .navSuperseded rfl (Bool.eq_false_iff.mpr h)
  | navFollowUp nav =>
    simp only [runTask, stepNavFollowUp]
    split
    · next h =>
      split
      · next hnone => exact .followUp h hnone
      · next hsome => exact .followUpDeferred h hsome
    · next h => exact .navSuperseded rfl (Bool.eq_false_iff.mpr h)
  | navMissing nav =>
    simp only [runTask, stepNavMissing]
    split
    · next h => exact .reloadMissing (Bool.and_eq_true_iff.mp h).1
    · exact .finishPage
  | applyPrefetch call fetched rest race =>
    cases rest <;> simp only [runTask, stepApplyPrefetch] <;> split
    · next h => exact .prefetchStopped h
    · next h =>
      -- a race makes the envelope unusable for later, its safe records are written all the same
      cases race with
      | true => exact .rejectPrefetched (not_not.mp h)
      | false => exact .cachePrefetched (not_not.mp h)
    · next h => exact .prefetchStopped h
    · next h => exact .writePrefetched (not_not.mp h)
  | patchMutation mutation rest =>
    cases rest <;> simp only [runTask, stepPatchMutation]
    · exact .patched
    -- the loop ends where a patch throws
    · split
      · next hpatch => exact .patch hpatch
      · next hpatch => exact .patchThrows hpatch
  | invalidateMutation mutation rest active =>
    cases rest <;> simp only [runTask, stepInvalidateMutation]
    · exact part_finishMutation r mutation active
    · split
      · next hactive => exact .invalidateActive hactive
      · next hactive => exact .invalidate (Bool.eq_false_iff.mpr hactive)
  | patchLive keys rest servedAt =>
    cases rest <;> simp only [runTask, stepPatchLive]
    · exact .patchedLive
    · split
      · next hpatch => exact .patchLive hpatch
      · next hpatch => exact .patchLiveThrows hpatch
  | invalidateLive keys rest reason servedAt =>
    cases rest
    · exact .invalidatedLive
    · exact .invalidateLive

/-! ## One step -/

/-- `r'` is what the action makes of the router `r`.  Whatever is notified waits until no
synchronous call is under way. -/
inductive Happens (r : Router V P) : Action V P → Router V P → Prop
  -- the router's interface
  | visit {url options} : Happens r (.visit url options) (r.startVisit url options false)
  | refreshPage :
    Happens r (.refresh [])
      (r.startVisit r.currentUrl { preserveState := true, usePrefetch := false } false)
  | refreshKeys {only} (hsome : only ≠ []) :
    Happens r (.refresh only)
      (r.loadResources only { url := some r.currentUrl, reason := .refresh })
  | loadResources {keys url reason signal} :
    Happens r (.loadResources keys url reason signal)
      (r.loadResources keys { url := url, reason := reason, signal := signal.map .caller })
  | prefetch {url} : Happens r (.prefetch url) (r.prefetch url)
  | mutate {url} : Happens r (.mutate url) (r.mutate url)
  | nothingDeferred (hnone : r.initialDeferredBatch = none) : Happens r .startInitialDeferred r
  | initialDeferred {keys url} (hsome : r.initialDeferredBatch = some (keys, url)) :
    Happens r .startInitialDeferred
      (({ r with initialDeferredBatch := none }).startDeferredBatch keys url)
  | startLive : Happens r .startLive r.startLive
  | stopLive : Happens r .stopLive r.stopLive
  | clear : Happens r .clear r.clear
  | liveConnect : Happens r .liveConnect (r.withLive r.liveManager.connect)
  | liveDisconnect : Happens r .liveDisconnect (r.withLive r.liveManager.disconnect)
  | liveReconnect : Happens r .liveReconnect (r.withLive r.liveManager.reconnect)
  | subscribe {key} : Happens r (.subscribe key) (r.withStore (r.store.subscribe key))
  | unsubscribe {key} : Happens r (.unsubscribe key) (r.withStore (r.store.unsubscribe key))
  | read {key} : Happens r (.read key) (r.withStore (r.store.touchState key))
  | abort {signal} : Happens r (.abort signal) (r.abortSignal (.caller signal))
  | tick {milliseconds} : Happens r (.tick milliseconds) { r with now := r.now + milliseconds }
  | part {t rest r'} (hturn : r.turn = t :: rest)
    (h : ({ r with turn := rest } : Router V P).Part t r') : Happens r .resume r'
  -- responses and failures
  | loadResponse {index envelope view call} (hidle : r.turn = [])
    (hcall : r.loads[index]? = some call) :
    Happens r (.loadResponse index envelope view) (r.receiveLoad index call envelope)
  | loadFailure {index failure call} (hidle : r.turn = []) (hcall : r.loads[index]? = some call) :
    Happens r (.loadFailure index failure) (r.receiveLoadFailure index call failure)
  | visitResponse {index envelope call} (hidle : r.turn = [])
    (hcall : r.visits[index]? = some call) (hpending : call.pending = none) :
    Happens r (.visitResponse index envelope)
      ((r.dropVisit index).beginNavigation call envelope .transport)
  | visitFailure {index failure call} (hidle : r.turn = [])
    (hcall : r.visits[index]? = some call) (hpending : call.pending = none) :
    Happens r (.visitFailure index failure) ((r.dropVisit index).failVisit call failure)
  | visitPrefetched {index call} {fetched : PrefetchedEnvelope V} (hidle : r.turn = [])
    (hcall : r.visits[index]? = some call)
    (houtcome : call.pending.bind r.prefetchOutcome = some (.ok fetched)) :
    Happens r (.visitPrefetched index)
      ((r.dropVisit index).beginNavigation call fetched.envelope
        (.prefetch fetched.sentAtEpoch fetched.producedAt))
  | visitNotPrefetched {index call failure} (hidle : r.turn = [])
    (hcall : r.visits[index]? = some call)
    (houtcome : call.pending.bind r.prefetchOutcome = some (.error failure)) :
    Happens r (.visitPrefetched index) ((r.dropVisit index).failVisit call failure)
  | prefetchResponse {id envelope producedAt request} (hidle : r.turn = [])
    (hrequest : r.prefetchManager.requests.get? id = some request)
    (houtcome : request.outcome = none) :
    Happens r (.prefetchResponse id envelope producedAt)
      { r with prefetchManager := r.prefetchManager.respond r.now id request envelope producedAt }
  | prefetchFailure {id failure request} (hidle : r.turn = [])
    (hrequest : r.prefetchManager.requests.get? id = some request)
    (houtcome : request.outcome = none) :
    Happens r (.prefetchFailure id failure)
      { r with prefetchManager := r.prefetchManager.fail id request failure }
  | prefetchSettled {index call fetched} (hidle : r.turn = [])
    (hsettles : r.Settles (.prefetchSettled index) call fetched) :
    Happens r (.prefetchSettled index)
      (({ r with prefetches := r.prefetches.eraseIdx index } : Router V P).beginPrefetch call fetched)
  | prefetchFailed {index call} (hidle : r.turn = []) (hcall : r.prefetches[index]? = some call) :
    Happens r (.prefetchSettled index) { r with prefetches := r.prefetches.eraseIdx index }
  | mutateResponse {index payload servedAt call} (hidle : r.turn = [])
    (hcall : r.mutations[index]? = some call)
    (hgen : call.lifecycleGeneration = r.lifecycleGeneration) :
    Happens r (.mutateResponse index payload servedAt)
      (({ r with mutations := r.mutations.eraseIdx index } : Router V P).push
        (.patchMutation { call := call, payload := payload, servedAt := servedAt }
          (payload.patches.getD .empty).entries))
  | mutateOutlived {index payload servedAt call} (hidle : r.turn = [])
    (hcall : r.mutations[index]? = some call)
    (hgen : call.lifecycleGeneration ≠ r.lifecycleGeneration) :
    Happens r (.mutateResponse index payload servedAt)
      { r with mutations := r.mutations.eraseIdx index }
  | mutateFailure {index call} (hidle : r.turn = []) (hcall : r.mutations[index]? = some call) :
    Happens r (.mutateFailure index) { r with mutations := r.mutations.eraseIdx index }
  | deferredSettled {controller} (hidle : r.turn = [])
    (hloads : (r.loads.all fun call => call.signal ≠ some (.deferred controller)) = true)
    (hactive : r.activeDeferredController = some controller) :
    Happens r (.deferredSettled controller) r.forgetDeferred
  | deferredReplaced {controller} (hidle : r.turn = [])
    (hactive : r.activeDeferredController ≠ some controller) :
    Happens r (.deferredSettled controller) r
  -- the browser and the live stream
  | restorePage {url cached} (hidle : r.turn = [])
    (hcached : (r.pageCache.getValid url r.store).1 = some cached) :
    Happens r (.popState url) ((r.lookUpPage url).restorePage url cached)
  | revisitPage {url} (hidle : r.turn = [])
    (hcached : (r.pageCache.getValid url r.store).1 = none) :
    Happens r (.popState url)
      ((r.lookUpPage url).startVisit url
        { preserveState := true, replace := true, usePrefetch := false } false)
  | refreshNothing (hidle : r.turn = []) (htimer : r.liveRefreshTimer = true)
    (hnothing : r.liveManager.manifest = none ∨ r.liveStarted = false ∨
      r.pendingLiveRefreshKeys.filter (· ∈ r.activeLiveKeys) = []) :
    Happens r .liveRefreshTimer r.cancelPendingLiveRefresh
  | refreshLive {manifest} (hidle : r.turn = []) (htimer : r.liveRefreshTimer = true)
    (hmanifest : r.liveManager.manifest = some manifest) :
    Happens r .liveRefreshTimer
      (r.cancelPendingLiveRefresh.loadResources
        (Text.sort (r.pendingLiveRefreshKeys.filter (· ∈ r.activeLiveKeys)))
        { url := some manifest.url, reason := r.pendingLiveRefreshReason })
  | reconnectTimer {attempt} (hidle : r.turn = [])
    (htimer : r.liveManager.reconnectTimer = some attempt) :
    Happens r .reconnectTimer (r.withLive (r.liveManager.reconnectTimerFires attempt))
  | networkFlag {online} (hidle : r.turn = []) :
    Happens r (.networkFlag online) (r.withLive { r.liveManager with online := online })
  | networkOnline (hidle : r.turn = []) (hsubscribed : r.liveManager.networkSubscribed = true) :
    Happens r .networkOnline (r.withLive r.liveManager.handleOnline)
  | networkOffline (hidle : r.turn = []) (hsubscribed : r.liveManager.networkSubscribed = true) :
    Happens r .networkOffline (r.withLive r.liveManager.handleOffline)
  | connectFails {fails} (hidle : r.turn = []) :
    Happens r (.connectFails fails) (r.withLive { r.liveManager with connectFails := fails })
  | streamEvent {connection event servedAt} (hidle : r.turn = [])
    (hconnection : r.liveManager.connection = some connection) :
    Happens r (.streamEvent event servedAt)
      (r.withLive (r.liveManager.receive connection r.now event).1)
  | streamPatch {connection event servedAt} {patches : OrderedMap String (List P)}
    (hidle : r.turn = []) (hconnection : r.liveManager.connection = some connection) :
    Happens r (.streamEvent event servedAt)
      ((r.withLive (r.liveManager.receive connection r.now event).1).push
        (.patchLive patches.keys patches.entries servedAt))
  | streamInvalidate {connection event servedAt keys reason} (hidle : r.turn = [])
    (hconnection : r.liveManager.connection = some connection) :
    Happens r (.streamEvent event servedAt)
      ((r.withLive (r.liveManager.receive connection r.now event).1).push
        (.invalidateLive keys keys reason servedAt))
  | streamEnd {connection} (hidle : r.turn = [])
    (hconnection : r.liveManager.connection = some connection) :
    Happens r .streamEnd (r.withLive r.liveManager.streamEnds)
  | streamError {connection} (hidle : r.turn = [])
    (hconnection : r.liveManager.connection = some connection) :
    Happens r .streamError (r.withLive r.liveManager.handleConnectionError)

theorem happens_receiveStreamEvent {r : Router V P} (hidle : r.turn = [])
    {connection : LiveConnection} (hconnection : r.liveManager.connection = some connection)
    (event : LiveEvent P) (servedAt : Nat) :
    r.Happens (.streamEvent event servedAt) (r.receiveStreamEvent connection event servedAt) := by
  have hone : ∀ e, r.Happens (.streamEvent event servedAt)
      ((r.withLive (r.liveManager.receive connection r.now event).1).handleLiveEvent e servedAt) := by
    intro e
    unfold handleLiveEvent
    split
    · exact .streamEvent hidle hconnection
    · split
      · exact .streamEvent hidle hconnection
      · exact .streamPatch hidle hconnection
    · split
      · exact .streamEvent hidle hconnection
      · dsimp only
        split
        · exact .streamEvent hidle hconnection
        · exact .streamInvalidate hidle hconnection
    · dsimp only
      split
      · exact .streamEvent hidle hconnection
      · exact .streamInvalidate hidle hconnection
  cases event with
  | ready keys =>
    revert hone
    unfold receiveStreamEvent LiveManager.receive
    dsimp only
    -- `ready` itself does nothing; the event that may follow it is handled like any other
    split
    · next manifest _ =>
      split
      · exact fun hone => hone (.resync manifest.keys "reconnect")
      · exact fun hone => hone (.ready keys)
    · exact fun hone => hone (.ready keys)
  | invalidate keys origin => exact hone (.invalidate keys origin)
  | patch patches origin => exact hone (.patch patches origin)
  | resync keys reason => exact hone (.resync keys reason)

theorem happens_fireLiveRefresh {r : Router V P} (hidle : r.turn = [])
    (htimer : r.liveRefreshTimer = true) : r.Happens .liveRefreshTimer r.fireLiveRefresh := by
  unfold fireLiveRefresh
  dsimp only
  split
  · next hnone => exact .refreshNothing hidle htimer (.inl hnone)
  · next manifest hmanifest =>
    split
    · next hnothing =>
      refine .refreshNothing hidle htimer (.inr ?_)
      rcases hnothing with hpending | hstopped
      · refine .inr (List.eq_nil_iff_forall_not_mem.mpr fun k hk => ?_)
        have hsorted := Text.mem_sort.mpr hk
        rw [hpending] at hsorted
        cases hsorted
      · exact .inl hstopped
    · exact .refreshLive hidle htimer hmanifest

/-- A step does one of the things listed. -/
theorem happens_step {r r' : Router V P} {a : Action V P} (h : r.step a = some r') :
    r.Happens a r' := by
  -- The calls first: they are possible in every state.
  cases a <;> simp only [step, Option.some.injEq] at h
  case visit url options => exact h ▸ .visit
  case refresh only =>
    rw [← h]
    unfold refresh
    split
    · next hnone => subst hnone; exact .refreshPage
    · next hsome => exact .refreshKeys hsome
  case loadResources keys url reason signal => exact h ▸ .loadResources
  case prefetch url => exact h ▸ .prefetch
  case mutate url => exact h ▸ .mutate
  case startInitialDeferred =>
    rw [← h]
    unfold startInitialDeferred
    split
    · next hnone => exact .nothingDeferred hnone
    · next hsome => exact .initialDeferred hsome
  case startLive => exact h ▸ .startLive
  case stopLive => exact h ▸ .stopLive
  case clear => exact h ▸ .clear
  case liveConnect => exact h ▸ .liveConnect
  case liveDisconnect => exact h ▸ .liveDisconnect
  case liveReconnect => exact h ▸ .liveReconnect
  case subscribe key => exact h ▸ .subscribe
  case unsubscribe key => exact h ▸ .unsubscribe
  case read key => exact h ▸ .read
  case abort signal => exact h ▸ .abort
  case tick milliseconds => exact h ▸ .tick
  case resume =>
    unfold resume at h
    split at h
    · cases h
    · next t rest hturn =>
      cases h
      exact .part hturn (part_runTask _ t)
  -- Everything else is handled between two turns only, which `notified` asks.
  all_goals have hidle := (notified_eq_some h).1
  all_goals replace h := (notified_eq_some h).2
  case loadResponse index envelope view =>
    obtain ⟨call, hcall, rfl⟩ := Option.map_eq_some_iff.mp h
    exact .loadResponse hidle hcall
  case loadFailure index failure =>
    obtain ⟨call, hcall, rfl⟩ := Option.map_eq_some_iff.mp h
    exact .loadFailure hidle hcall
  case visitResponse index envelope =>
    obtain ⟨call, hcall, h⟩ := Option.bind_eq_some_iff.mp h
    -- a visit that waits for a prefetch has no request of its own
    split at h
    · next hpending => cases h; exact .visitResponse hidle hcall hpending
    · cases h
  case visitFailure index failure =>
    obtain ⟨call, hcall, h⟩ := Option.bind_eq_some_iff.mp h
    split at h
    · next hpending => cases h; exact .visitFailure hidle hcall hpending
    · cases h
  case visitPrefetched index =>
    obtain ⟨call, hcall, h⟩ := Option.bind_eq_some_iff.mp h
    unfold receiveVisitPrefetched at h
    split at h
    · cases h
    · next failure houtcome => cases h; exact .visitNotPrefetched hidle hcall houtcome
    · next fetched houtcome => cases h; exact .visitPrefetched hidle hcall houtcome
  case prefetchResponse id envelope producedAt =>
    obtain ⟨request, hrequest, h⟩ := Option.bind_eq_some_iff.mp h
    -- a request is answered once
    split at h
    · next hnone =>
      cases h
      exact .prefetchResponse hidle hrequest (Option.isNone_iff_eq_none.mp hnone)
    · cases h
  case prefetchFailure id failure =>
    obtain ⟨request, hrequest, h⟩ := Option.bind_eq_some_iff.mp h
    split at h
    · next hnone =>
      cases h
      exact .prefetchFailure hidle hrequest (Option.isNone_iff_eq_none.mp hnone)
    · cases h
  case prefetchSettled index =>
    obtain ⟨call, hcall, h⟩ := Option.bind_eq_some_iff.mp h
    unfold receivePrefetchSettled at h
    dsimp only at h
    split at h
    -- a held envelope is there already, a joined request has to have an outcome
    · next fetched hsource => cases h; exact .prefetchSettled hidle (.held hcall hsource)
    · next id hsource =>
      split at h
      · cases h
      · cases h; exact .prefetchFailed hidle hcall
      · next fetched houtcome =>
        cases h
        exact .prefetchSettled hidle (.request hcall hsource houtcome)
  case mutateResponse index payload servedAt =>
    obtain ⟨call, hcall, rfl⟩ := Option.map_eq_some_iff.mp h
    unfold beginMutation
    split
    -- a mutation's answer after `clear` is dropped
    · next hgen => exact .mutateOutlived hidle hcall hgen
    · next hgen => exact .mutateResponse hidle hcall (not_not.mp hgen)
  case mutateFailure index =>
    obtain ⟨call, hcall, rfl⟩ := Option.map_eq_some_iff.mp h
    exact .mutateFailure hidle hcall
  case deferredSettled controller =>
    split at h
    · next hloads =>
      cases h
      unfold receiveDeferredSettled
      split
      -- a batch that another one has replaced changes nothing when it settles
      · next hactive => exact .deferredSettled hidle hloads hactive
      · next hactive => exact .deferredReplaced hidle hactive
    · cases h
  case popState url =>
    cases h
    unfold popState
    split
    -- a cached page is restored, any other is visited
    · next cached hcached => exact .restorePage hidle hcached
    · next hcached => exact .revisitPage hidle hcached
  case liveRefreshTimer =>
    split at h
    · next htimer => cases h; exact happens_fireLiveRefresh hidle htimer
    · cases h
  case reconnectTimer =>
    obtain ⟨attempt, htimer, rfl⟩ := Option.map_eq_some_iff.mp h
    exact .reconnectTimer hidle htimer
  case networkFlag online => cases h; exact .networkFlag hidle
  case networkOnline =>
    split at h
    · next hsubscribed => cases h; exact .networkOnline hidle hsubscribed
    · cases h
  case networkOffline =>
    split at h
    · next hsubscribed => cases h; exact .networkOffline hidle hsubscribed
    · cases h
  case connectFails fails => cases h; exact .connectFails hidle
  case streamEvent event servedAt =>
    obtain ⟨connection, hconnection, rfl⟩ := Option.map_eq_some_iff.mp h
    exact happens_receiveStreamEvent hidle hconnection event servedAt
  case streamEnd =>
    obtain ⟨connection, hconnection, rfl⟩ := Option.map_eq_some_iff.mp h
    exact .streamEnd hidle hconnection
  case streamError =>
    obtain ⟨connection, hconnection, rfl⟩ := Option.map_eq_some_iff.mp h
    exact .streamError hidle hconnection

end Router

end FluxFast.Core
