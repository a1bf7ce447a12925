import FluxFast.Core.LiveManager
import FluxFast.Core.PageCache
import FluxFast.Core.Prefetch
import FluxFast.Core.Resources

/-!
# Router — the navigation engine's state and operations

`FluxRouter` with the operations it has started and not finished.  A method that runs
synchronously to its end is a function on the state.  Where the source writes the store key by
key, and a subscriber may call the router again between two writes, the rest of the loop is a
`Task` on the stack `turn`: the innermost unfinished call is its head.  Diagnostics and event
emission leave the state alone and are left out.
-/

namespace FluxFast.Core

open FluxFast.Theory

inductive LoadReason where
  | deferred | refresh | mutation | retry | live | liveReconnect
  deriving DecidableEq, Repr

/-- `reason === "live" || reason === "live-reconnect"`. -/
def LoadReason.isLive : LoadReason → Bool
  | .live => true
  | .liveReconnect => true
  | _ => false

/-- The identity of an abort signal: of a visit, of a deferred batch, or the caller's own. -/
inductive Signal where
  | visit (id : Nat)
  | deferred (controller : Nat)
  | caller (name : Nat)
  deriving DecidableEq

structure VisitOptions where
  replace : Bool := false
  preserveState : Bool := false
  usePrefetch : Bool := true
  only : List String := []
  deriving DecidableEq

structure LoadResourcesOptions where
  url : Option String := none
  reason : LoadReason
  signal : Option Signal := none

/-! ## Unfinished operations -/

structure LoadCall where
  id : Nat
  url : String
  reason : LoadReason
  requestedKeys : List String
  knownVersions : Versions
  capturedEpochs : OrderedMap String Nat
  lifecycleGeneration : Nat
  signal : Option Signal
  deriving DecidableEq

structure VisitCall where
  id : Nat
  url : String
  options : VisitOptions
  startedAtEpoch : Nat
  knownVersions : Versions
  /-- The prefetch request this visit waits for; `none` when it asked the transport. -/
  pending : Option Nat
  /-- A mutation's redirect falls back to a document navigation when the page is not found. -/
  redirected : Bool
  deriving DecidableEq

structure PrefetchCall (V : Type) where
  url : String
  lifecycleGeneration : Nat
  knownVersions : Versions
  startedAtEpoch : Nat
  source : PrefetchSource V

structure MutateCall where
  url : String
  lifecycleGeneration : Nat
  visitCounter : Nat
  deriving DecidableEq

/-- Where the envelope of a navigation came from. -/
inductive Origin where
  | transport
  | prefetch (sentAtEpoch producedAt : Nat)
  deriving DecidableEq

/-- A navigation whose envelope is being applied. -/
structure Navigation (V : Type) where
  call : VisitCall
  envelope : PageEnvelope V
  applied : PageEnvelope V
  eligibleKeys : List String
  origin : Origin

/-- A mutation whose payload is being applied. -/
structure AppliedMutation (P : Type) where
  call : MutateCall
  payload : MutationPayload P
  servedAt : Nat

/-- The rest of a synchronous call. -/
inductive Task (V P : Type) where
  -- loadResources: mark the keys, then its settlement, key by key
  | markLoading (call : LoadCall) (rest : List String)
  | captureDeferred (keys : List String)
  | settleLoad (call : LoadCall) (envelope : PageEnvelope V) (rest settled : List String)
  | rejectLoad (call : LoadCall) (failure : Failure) (aborted : Bool) (rest settled : List String)
  -- applyPageEnvelope: its writes in the order of the source, then the follow-up loads
  | navBegin (call : VisitCall) (envelope : PageEnvelope V) (origin : Origin)
  | navResources (nav : Navigation V) (rest : List (String × ResourceWireRecord V))
  | navErrors (nav : Navigation V) (rest : List (String × ResourceErrorDetail V))
  | navDeferred (nav : Navigation V) (rest : List String)
  | navShell (nav : Navigation V)
  | navManifest (nav : Navigation V)
  | navCommit (nav : Navigation V)
  | navFollowUp (nav : Navigation V)
  | navMissing (nav : Navigation V)
  -- prefetch: the safe records of the response
  | applyPrefetch (call : PrefetchCall V) (fetched : PrefetchedEnvelope V)
      (rest : List (String × ResourceWireRecord V)) (hasResourceRace : Bool)
  -- mutate: patches first, then invalidated keys
  | patchMutation (mutation : AppliedMutation P) (rest : List (String × List P))
  | invalidateMutation (mutation : AppliedMutation P) (rest active : List String)
  -- handleLiveEvent
  | patchLive (keys : List String) (rest : List (String × List P)) (servedAt : Nat)
  | invalidateLive (keys rest : List String) (reason : LoadReason) (servedAt : Nat)

inductive HistoryCall where
  | push (url : String)
  | replace (url : String)
  deriving DecidableEq

structure Router (V P : Type) where
  resources : Resources V := {}
  pageStore : PageState V := .blank
  history : List HistoryCall := []
  hardNavigations : List String := []
  prefetchManager : PrefetchManager V := {}
  pageCache : PageCache V := {}
  liveManager : LiveManager := {}
  currentVisitId : Option Nat := none
  activeController : Option Nat := none
  activeDeferredController : Option Nat := none
  activeDeferredKeys : List String := []
  activeDeferredEpochs : OrderedMap String Nat := .empty
  visitCounter : Nat := 0
  lifecycleGeneration : Nat := 0
  resourceLoadCounter : Nat := 0
  controllerCounter : Nat := 0
  abortedSignals : Finset Signal := ∅
  initialDeferredBatch : Option (List String × String) := none
  liveStarted : Bool := false
  pendingLiveRefreshKeys : List String := []
  pendingLiveRefreshReason : LoadReason := .live
  liveRefreshTimer : Bool := false
  activeLiveLoadEpochs : OrderedMap Nat (OrderedMap String Nat) := .empty
  -- requests whose response is outstanding
  loads : List LoadCall := []
  visits : List VisitCall := []
  prefetches : List (PrefetchCall V) := []
  mutations : List MutateCall := []
  -- what the running call has still to do, innermost part first
  turn : List (Task V P) := []
  now : Nat := 0
  /-- The keys that responses have settled, latest first; the program does not read it. -/
  answers : List String := []

namespace Router

variable {V P : Type} [DecidableEq V] [Patchable V P]

def store (r : Router V P) : ResourceStore V := r.resources.resourceStore

def withStore (r : Router V P) (store : ResourceStore V) : Router V P :=
  { r with resources := r.resources.withStore store }

def withPageCache (r : Router V P) (cache : PageCache V) : Router V P :=
  { r with pageCache := cache }

def withLive (r : Router V P) (manager : LiveManager) : Router V P :=
  { r with liveManager := manager }

def push (r : Router V P) (task : Task V P) : Router V P := { r with turn := task :: r.turn }

def answer (r : Router V P) (key : String) : Router V P := { r with answers := key :: r.answers }

def currentUrl (r : Router V P) : String := orElse r.pageStore.url "/"

def signalAborted (r : Router V P) (signal : Option Signal) : Bool :=
  match signal with
  | some s => s ∈ r.abortedSignals
  | none => false

def abortSignal (r : Router V P) (signal : Signal) : Router V P :=
  { r with abortedSignals := insert signal r.abortedSignals }

/-! ## Aborting -/

def forgetDeferred (r : Router V P) : Router V P :=
  { r with
    activeDeferredController := none
    activeDeferredKeys := []
    activeDeferredEpochs := .empty }

def abortActiveDeferred (r : Router V P) : Router V P :=
  let active := r.activeDeferredController.isSome
  { r with
    resources :=
      if active then
        r.resources.restoreCaptured r.now r.activeDeferredEpochs.get? r.activeDeferredKeys
      else r.resources
    abortedSignals :=
      r.activeDeferredController.elim r.abortedSignals fun controller =>
        insert (.deferred controller) r.abortedSignals
    activeDeferredController := none
    activeDeferredKeys := if active then [] else r.activeDeferredKeys
    activeDeferredEpochs := if active then .empty else r.activeDeferredEpochs }

def abortActiveVisit (r : Router V P) : Router V P :=
  { r with
    abortedSignals :=
      r.activeController.elim r.abortedSignals fun id => insert (.visit id) r.abortedSignals
    activeController := none
    currentVisitId := none }

/-- The resources after every live load under way was superseded. -/
def liveSuperseded (r : Router V P) : Resources V :=
  r.activeLiveLoadEpochs.entries.foldl (fun resources load =>
    resources.restoreCaptured r.now load.2.get? load.2.keys) r.resources

def supersedeLiveWork (r : Router V P) : Router V P :=
  { r with resources := r.liveSuperseded, activeLiveLoadEpochs := .empty }

/-- A navigation suspends live synchronization until its page is shown. -/
def suspendLive (r : Router V P) : Router V P :=
  { r with
    resources := if r.liveStarted then r.liveSuperseded else r.resources
    activeLiveLoadEpochs := if r.liveStarted then .empty else r.activeLiveLoadEpochs
    liveManager := if r.liveStarted then r.liveManager.disconnect else r.liveManager }

def cancelPendingLiveRefresh (r : Router V P) : Router V P :=
  { r with
    liveRefreshTimer := false
    pendingLiveRefreshKeys := []
    pendingLiveRefreshReason := .live }

/-! ## Loading -/

/-- `loadResources` up to its loop over `markLoading`. -/
def loadResources (r : Router V P) (keys : List String) (options : LoadResourcesOptions) :
    Router V P :=
  -- `captureEpochs` bumps every key before the request is sent
  let requestedKeys := unique (keys.filter (· ≠ ""))
  if requestedKeys = [] then r
  else
    let id := r.resourceLoadCounter + 1
    let knownVersions := r.store.exportKnownVersions
    let captured := r.resources.captureEpochs id requestedKeys
    let call : LoadCall :=
      { id := id
        url := options.url.getD r.currentUrl
        reason := options.reason
        requestedKeys := requestedKeys
        knownVersions := knownVersions
        capturedEpochs := captured.2
        lifecycleGeneration := r.lifecycleGeneration
        signal := options.signal }
    let started : Router V P :=
      { r with
        resources := captured.1
        resourceLoadCounter := id
        activeLiveLoadEpochs :=
          -- only live loads are remembered, for `stopLive` to put back
          if options.reason.isLive then r.activeLiveLoadEpochs.set id captured.2
          else r.activeLiveLoadEpochs }
    started.push (.markLoading call requestedKeys)

/-- `startDeferredBatch`; the epochs are captured when `loadResources` has returned. -/
def startDeferredBatch (r : Router V P) (keys : List String) (url : String) : Router V P :=
  let aborted := r.abortActiveDeferred
  let controller := aborted.controllerCounter + 1
  let started : Router V P :=
    { aborted with
      controllerCounter := controller
      activeDeferredController := some controller
      activeDeferredKeys := keys }
  (started.push (.captureDeferred keys)).loadResources keys
    { url := some url, reason := .deferred, signal := some (.deferred controller) }

def captureDeferred (r : Router V P) (keys : List String) : Router V P :=
  { r with
    activeDeferredEpochs := keys.foldl (fun m key => m.set key (r.resources.epochOf key)) .empty }

def startInitialDeferred (r : Router V P) : Router V P :=
  match r.initialDeferredBatch with
  | none => r
  | some (keys, url) => ({ r with initialDeferredBatch := none }).startDeferredBatch keys url

/-- The `finally` of `loadResources`. -/
def finishLoad (r : Router V P) (call : LoadCall) : Router V P :=
  { r with activeLiveLoadEpochs := r.activeLiveLoadEpochs.delete call.id }

/-- Write the held record again: it counts as confirmed; without one the key is missing. -/
def rewriteHeld (store : ResourceStore V) (now : Nat) (key : String) : ResourceStore V :=
  match store.records.get? key with
  | some record => ((store.touchRecord key).set now key record.version record.value).1
  | none => store.invalidate key

/-- Write what a response says about one requested key; a key that the server left out counts as
unchanged. -/
def settleKey (store : ResourceStore V) (now : Nat) (envelope : PageEnvelope V) (key : String) :
    ResourceStore V :=
  match envelope.resources.get? key with
  | some record => (store.set now key record.version record.value).1
  | none =>
    match envelope.errors.get? key with
    | some error => store.setResourceError key error
    | none => rewriteHeld store now key

def settlePage (r : Router V P) (url : String) (keys : List String) : Router V P :=
  let settled := r.pageCache.settleResources url keys r.store
  (r.withStore settled.2).withPageCache settled.1

def stepSettleLoad (r : Router V P) (call : LoadCall) (envelope : PageEnvelope V) :
    List String → List String → Router V P
  | [], settled =>
    if call.lifecycleGeneration ≠ r.lifecycleGeneration then r.finishLoad call
    else (r.settlePage call.url settled).finishLoad call
  | key :: rest, settled =>
    if call.lifecycleGeneration ≠ r.lifecycleGeneration then r.finishLoad call
    else if r.resources.stillAt key (call.capturedEpochs.get? key) then
      ((r.withStore (settleKey r.store r.now envelope key)).answer key).push
        (.settleLoad call envelope rest (settled ++ [key]))
    else r.push (.settleLoad call envelope rest settled)

def failureDetail (failure : Failure) : ResourceErrorDetail V :=
  { type := orElse failure.name "ResourceError", message := failure.message }

def stepRejectLoad (r : Router V P) (call : LoadCall) (failure : Failure) (aborted : Bool) :
    List String → List String → Router V P
  | [], settled =>
    if call.lifecycleGeneration ≠ r.lifecycleGeneration ∨ aborted = true then r.finishLoad call
    else (r.settlePage call.url settled).finishLoad call
  | key :: rest, settled =>
    if call.lifecycleGeneration ≠ r.lifecycleGeneration then r.finishLoad call
    else if r.resources.stillAt key (call.capturedEpochs.get? key) then
      if aborted then
        (r.withStore (rewriteHeld r.store r.now key)).push (.rejectLoad call failure aborted rest settled)
      else
        let record := r.withStore
          ((r.store.touchRecord key).setResourceError key (failureDetail failure))
        (record.answer key).push (.rejectLoad call failure aborted rest (settled ++ [key]))
    else r.push (.rejectLoad call failure aborted rest settled)

def stepMarkLoading (r : Router V P) (call : LoadCall) : List String → Router V P
  | [] =>
    if call.lifecycleGeneration ≠ r.lifecycleGeneration then r
    else { r with loads := r.loads ++ [call] }
  | key :: rest =>
    if call.lifecycleGeneration ≠ r.lifecycleGeneration then r
    else (r.withStore (r.store.markLoading [key])).push (.markLoading call rest)

/-! ## Navigation -/

def isCurrent (r : Router V P) (call : VisitCall) : Bool := r.currentVisitId = some call.id

/-- The `finally` of `visit`. -/
def finishVisit (r : Router V P) (call : VisitCall) : Router V P :=
  { r with
    activeController := if r.activeController = some call.id then none else r.activeController }

def eligibleKeys (r : Router V P) (envelope : PageEnvelope V) (startedAtEpoch : Nat) :
    List String :=
  envelope.envelopeKeys.filter fun key => r.resources.authorityOf key ≤ startedAtEpoch

def appliedEnvelope (envelope : PageEnvelope V) (eligible : List String) : PageEnvelope V :=
  { envelope with
    resources := envelope.resources.filter (· ∈ eligible)
    resourceErrors := envelope.resourceErrors.map fun errors => errors.filter (· ∈ eligible)
    deferred := envelope.deferred.map fun keys => keys.filter (· ∈ eligible) }

def navigation (r : Router V P) (call : VisitCall) (envelope : PageEnvelope V)
    (origin : Origin) : Navigation V :=
  let eligible := r.eligibleKeys envelope call.startedAtEpoch
  { call := call
    envelope := envelope
    applied := appliedEnvelope envelope eligible
    eligibleKeys := eligible
    origin := origin }

/-- The visit got its envelope: `applyPageEnvelope` up to its first write. -/
def beginNavigation (r : Router V P) (call : VisitCall) (envelope : PageEnvelope V)
    (origin : Origin) : Router V P :=
  if r.isCurrent call then
    let nav := r.navigation call envelope origin
    ({ r with resources := r.resources.bumpAll nav.eligibleKeys (.navigation call.id) }).push
      (.navResources nav nav.applied.resources.entries)
  else r.finishVisit call

/-- `visit` up to the point where it becomes the current visit. -/
def openVisit (r : Router V P) : Router V P :=
  let id := r.visitCounter + 1
  let aborted := (({ r with visitCounter := id }).abortActiveDeferred).abortActiveVisit
  { aborted.suspendLive.cancelPendingLiveRefresh with
    currentVisitId := some id
    activeController := some id }

def visitCall (r : Router V P) (url : String) (options : VisitOptions) (redirected : Bool) :
    VisitCall :=
  { id := r.visitCounter
    url := url
    options := options
    startedAtEpoch := r.resources.resourceEpochCounter
    knownVersions := r.store.exportKnownVersions
    pending := none
    redirected := redirected }

/-- Ask the prefetch cache first, then a prefetch in flight, then the transport. -/
def requestPage (r : Router V P) (call : VisitCall) : Router V P :=
  let cached := r.prefetchManager.getCached r.now call.url call.knownVersions
  let r := { r with prefetchManager := cached.2 }
  match cached.1 with
  | some fetched =>
    r.push (.navBegin call fetched.envelope (.prefetch fetched.sentAtEpoch fetched.producedAt))
  | none =>
    { r with
      visits := r.visits ++
        [{ call with pending := r.prefetchManager.getPending call.url call.knownVersions }] }

def startVisit (r : Router V P) (url : String) (options : VisitOptions) (redirected : Bool) :
    Router V P :=
  let opened := r.openVisit
  let call := opened.visitCall url options redirected
  if options.usePrefetch = false ∨ options.only ≠ [] then
    { opened with visits := opened.visits ++ [call] }
  else opened.requestPage call

/-- The error path of `visit`. -/
def failVisit (r : Router V P) (call : VisitCall) (failure : Failure) : Router V P :=
  let cancelled :=
    failure.name = "AbortError" || r.signalAborted (some (.visit call.id))
  { r.finishVisit call with
    liveManager :=
      if r.isCurrent call && r.liveStarted then r.liveManager.connect else r.liveManager
    hardNavigations :=
      if !cancelled && call.redirected && failure.status = some 404 then
        r.hardNavigations ++ [call.url]
      else r.hardNavigations }

/-- The versions that a page's listed keys are held at. -/
def pageVersions (known : Versions) (resourceKeys : List String) : Versions :=
  resourceKeys.foldl (fun versions key =>
    match known.get? key with
    | some version => versions.set key version
    | none => versions) .empty

def pageCacheWith (r : Router V P) (envelope : PageEnvelope V) : PageCache V :=
  let allKnownVersions := r.store.exportKnownVersions
  let liveKeys := unique envelope.liveKeys
  match envelope.resourceKeys with
  | none => r.pageCache.set envelope.page allKnownVersions (some ⟨allKnownVersions.keys, [], liveKeys⟩)
  | some keys =>
    let resourceKeys := unique keys
    let pendingDeferred := (unique envelope.deferredKeys).filter (· ∈ resourceKeys)
    r.pageCache.set envelope.page (pageVersions allKnownVersions resourceKeys)
      (some ⟨resourceKeys, pendingDeferred, liveKeys⟩)

def cachePageEnvelope (r : Router V P) (envelope : PageEnvelope V) : Router V P :=
  r.withPageCache (r.pageCacheWith envelope)

def pageUrl (nav : Navigation V) : String := orElse nav.envelope.page.url nav.call.url

def stepNavResources (r : Router V P) (nav : Navigation V) :
    List (String × ResourceWireRecord V) → Router V P
  | [] => r.push (.navErrors nav nav.envelope.errors.entries)
  | (key, record) :: rest =>
    if r.isCurrent nav.call then
      ((r.withStore (r.store.set r.now key record.version record.value).1).answer key).push
        (.navResources nav rest)
    else r.finishVisit nav.call

def stepNavErrors (r : Router V P) (nav : Navigation V) :
    List (String × ResourceErrorDetail V) → Router V P
  | [] => r.push (.navDeferred nav nav.applied.deferredKeys)
  | (key, error) :: rest =>
    if r.isCurrent nav.call then
      if key ∈ nav.eligibleKeys then
        ((r.withStore (r.store.setResourceError key error)).answer key).push (.navErrors nav rest)
      else r.push (.navErrors nav rest)
    else r.finishVisit nav.call

def stepNavDeferred (r : Router V P) (nav : Navigation V) : List String → Router V P
  | [] => r.push (.navShell nav)
  | key :: rest =>
    if r.isCurrent nav.call then
      (r.withStore (r.store.markPending [key])).push (.navDeferred nav rest)
    else r.finishVisit nav.call

def stepNavShell (r : Router V P) (nav : Navigation V) : Router V P :=
  if r.isCurrent nav.call then
    ({ r with pageStore := .setPage nav.envelope.page }).push (.navManifest nav)
  else r.finishVisit nav.call

/-- `updateManifest` and `connect`; a manifest that is refused fails the visit. -/
def stepNavManifest (r : Router V P) (nav : Navigation V) : Router V P :=
  if r.isCurrent nav.call then
    match r.liveManager.updateManifest (orElse nav.envelope.page.url "/") nav.envelope.liveKeys with
    | .error message => r.failVisit nav.call ⟨"ProtocolError", message, none⟩
    | .ok manager =>
      ({ r with
          liveManager := if r.liveStarted then manager.connect else manager }).push (.navCommit nav)
  else r.finishVisit nav.call

/-- `cachePageEnvelope` and the history entry. -/
def stepNavCommit (r : Router V P) (nav : Navigation V) : Router V P :=
  if r.isCurrent nav.call then
    let cached := r.cachePageEnvelope nav.applied
    let written : Router V P :=
      if nav.call.options.preserveState then cached
      else
        { cached with
          history := cached.history ++
            [if nav.call.options.replace then .replace (pageUrl nav) else .push (pageUrl nav)] }
    written.push (.navFollowUp nav)
  else r.finishVisit nav.call

def stepNavFollowUp (r : Router V P) (nav : Navigation V) : Router V P :=
  if r.isCurrent nav.call then
    let waiting := r.push (.navMissing nav)
    if nav.applied.deferredKeys = [] then waiting
    else waiting.startDeferredBatch nav.applied.deferredKeys (orElse nav.envelope.page.url "/")
  else r.finishVisit nav.call

/-- `envelope.resourceKeys`, or the keys that the envelope carries. -/
def listedKeys (envelope : PageEnvelope V) : List String :=
  envelope.resourceKeys.getD
    (envelope.resources.keys ++ envelope.errors.keys ++ envelope.deferredKeys)

/-- A listed key that must be loaded again: nothing is held, or its history was forgotten. -/
def needsReload (r : Router V P) (nav : Navigation V) (key : String) : Bool :=
  let status := (r.store.stateOf key).status
  let uncertain :=
    match r.resources.resourceEpochs.get key with
    | some e => e.conservative && nav.call.startedAtEpoch < e.authoritativeEpoch
    | none => false
  key ∉ nav.applied.deferredKeys &&
    (status = .missing || (uncertain && status ≠ .loading))

def stepNavMissing (r : Router V P) (nav : Navigation V) : Router V P :=
  let keys := listedKeys nav.envelope
  let missingKeys := keys.filter (r.needsReload nav)
  let touched := r.withStore (keys.foldl (fun store key => store.touchState key) r.store)
  if r.isCurrent nav.call && !missingKeys.isEmpty then
    (touched.finishVisit nav.call).loadResources missingKeys
      { url := some (pageUrl nav), reason := .refresh }
  else touched.finishVisit nav.call

/-! ## Prefetch -/

def prefetch (r : Router V P) (url : String) : Router V P :=
  let knownVersions := r.store.exportKnownVersions
  let startedAtEpoch := r.resources.resourceEpochCounter
  let fetch := r.prefetchManager.fetch r.now url knownVersions startedAtEpoch
  { r with
    prefetchManager := fetch.2
    prefetches := r.prefetches ++
      [{ url := url
         lifecycleGeneration := r.lifecycleGeneration
         knownVersions := knownVersions
         startedAtEpoch := startedAtEpoch
         source := fetch.1 }] }

/-- No operation has bumped the key since the prefetch was called. -/
def isSafe (r : Router V P) (call : PrefetchCall V) (key : String) : Bool :=
  r.resources.epochOf key ≤ call.startedAtEpoch

def safeResources (r : Router V P) (call : PrefetchCall V) (envelope : PageEnvelope V) :
    OrderedMap String (ResourceWireRecord V) :=
  envelope.resources.filter (r.isSafe call)

def hasResourceRace (r : Router V P) (call : PrefetchCall V) (envelope : PageEnvelope V) : Bool :=
  (envelope.resourceKeys.getD (call.knownVersions.keys ++ envelope.resources.keys)).any fun key =>
    !r.isSafe call key

/-- The prefetch got its envelope: the keys that no newer operation touched are bumped. -/
def beginPrefetch (r : Router V P) (call : PrefetchCall V) (fetched : PrefetchedEnvelope V) :
    Router V P :=
  if call.lifecycleGeneration ≠ r.lifecycleGeneration then r
  else
    let safe := r.safeResources call fetched.envelope
    ({ r with resources := r.resources.bumpAll safe.keys (.prefetch fetched.request) }).push
      (.applyPrefetch call fetched safe.entries (r.hasResourceRace call fetched.envelope))

def stepApplyPrefetch (r : Router V P) (call : PrefetchCall V) (fetched : PrefetchedEnvelope V)
    (hasResourceRace : Bool) : List (String × ResourceWireRecord V) → Router V P
  | [] =>
    if call.lifecycleGeneration ≠ r.lifecycleGeneration then r
    else if hasResourceRace then
      { r with prefetchManager := r.prefetchManager.rejectPrefetchEnvelope fetched }
    else r.cachePageEnvelope fetched.envelope
  | (key, record) :: rest =>
    if call.lifecycleGeneration ≠ r.lifecycleGeneration then r
    else
      ((r.withStore (r.store.set r.now key record.version record.value).1).answer key).push
        (.applyPrefetch call fetched rest hasResourceRace)

/-! ## Mutation -/

def mutate (r : Router V P) (url : String) : Router V P :=
  { r with
    mutations := r.mutations ++
      [{ url := url
         lifecycleGeneration := r.lifecycleGeneration
         visitCounter := r.visitCounter }] }

def beginMutation (r : Router V P) (mutation : AppliedMutation P) : Router V P :=
  if mutation.call.lifecycleGeneration ≠ r.lifecycleGeneration then r
  else r.push (.patchMutation mutation (mutation.payload.patches.getD .empty).entries)

/-- Patch a key for a mutation: a key without a record is dropped. -/
def patchOrInvalidate (store : ResourceStore V) (now : Nat) (key : String) (patches : List P) :
    Option (ResourceStore V) :=
  (store.patch now key patches).map fun patched =>
    if patched.2 then patched.1.touchRecord key else patched.1.invalidate key

def stepPatchMutation (r : Router V P) (mutation : AppliedMutation P) :
    List (String × List P) → Router V P
  | [] => r.push (.invalidateMutation mutation (mutation.payload.invalidate.getD []) [])
  | (key, patches) :: rest =>
    let bumped : Router V P :=
      { r with resources := r.resources.bumpResourceEpoch key (.mutation mutation.servedAt) }
    match patchOrInvalidate bumped.store r.now key patches with
    | some store => ((bumped.withStore store).answer key).push (.patchMutation mutation rest)
    -- the patch throws, and `mutate` is left
    | none => bumped

/-- What follows the invalidations of a mutation. -/
def finishMutation (r : Router V P) (mutation : AppliedMutation P) (active : List String) :
    Router V P :=
  let canRedirect := mutation.call.visitCounter == r.visitCounter
  match canRedirect, truthy mutation.payload.externalRedirect,
      truthy mutation.payload.redirect with
  | true, some url, _ => { r with hardNavigations := r.hardNavigations ++ [url] }
  | true, none, some url => r.startVisit url {} true
  | _, _, _ =>
    if active = [] then r
    else r.loadResources active { url := some r.currentUrl, reason := .mutation }

def stepInvalidateMutation (r : Router V P) (mutation : AppliedMutation P) :
    List String → List String → Router V P
  | [], active => r.finishMutation mutation active
  | key :: rest, active =>
    let bumped : Router V P :=
      { r with resources := r.resources.bumpResourceEpoch key (.mutation mutation.servedAt) }
    if bumped.store.hasSubscribers key then
      (bumped.withStore (bumped.store.markStale key)).push
        (.invalidateMutation mutation rest (active ++ [key]))
    else
      ((bumped.withStore (bumped.store.invalidate key)).answer key).push
        (.invalidateMutation mutation rest active)

/-! ## Live events -/

def queueLiveRefresh (r : Router V P) (keys : List String) (reason : LoadReason) : Router V P :=
  if keys = [] then r
  else
    { r with
      pendingLiveRefreshKeys := unique (r.pendingLiveRefreshKeys ++ keys)
      pendingLiveRefreshReason :=
        if reason = .liveReconnect then .liveReconnect else r.pendingLiveRefreshReason
      liveRefreshTimer := true }

def activeLiveKeys (r : Router V P) : List String :=
  match r.liveManager.manifest with
  | some manifest => manifest.keys
  | none => []

/-- `handleLiveEvent` up to its first write. -/
def handleLiveEvent (r : Router V P) (event : LiveEvent P) (servedAt : Nat) : Router V P :=
  match event with
  | .ready _ => r
  | .patch patches origin =>
    if origin = some r.liveManager.clientId then r
    else
      let active := patches.filter (· ∈ r.activeLiveKeys)
      r.push (.patchLive active.keys active.entries servedAt)
  | .invalidate keys origin =>
    if origin = some r.liveManager.clientId then r
    else
      let active := keys.filter (· ∈ r.activeLiveKeys)
      if active = [] then r else r.push (.invalidateLive active active .live servedAt)
  | .resync keys _ =>
    let active := keys.filter (· ∈ r.activeLiveKeys)
    if active = [] then r else r.push (.invalidateLive active active .liveReconnect servedAt)

/-- Patch a key for a live event: a key without a record is left alone. -/
def patchIfHeld (store : ResourceStore V) (now : Nat) (key : String) (patches : List P) :
    Option (ResourceStore V) :=
  (store.patch now key patches).map fun patched =>
    if patched.2 then patched.1.touchRecord key else patched.1

def stepPatchLive (r : Router V P) (keys : List String) (servedAt : Nat) :
    List (String × List P) → Router V P
  | [] => r.queueLiveRefresh keys .live
  | (key, patches) :: rest =>
    let bumped : Router V P :=
      { r with resources := r.resources.bumpResourceEpoch key (.live servedAt) }
    match patchIfHeld bumped.store r.now key patches with
    | some store => (bumped.withStore store).push (.patchLive keys rest servedAt)
    -- the patch throws, and the manager only reports it
    | none => bumped

def stepInvalidateLive (r : Router V P) (keys : List String) (reason : LoadReason)
    (servedAt : Nat) : List String → Router V P
  | [] => r.queueLiveRefresh keys reason
  | key :: rest =>
    let bumped : Router V P :=
      { r with resources := r.resources.bumpResourceEpoch key (.live servedAt) }
    (bumped.withStore (bumped.store.markStale key)).push
      (.invalidateLive keys rest reason servedAt)

/-- The refresh timer fires. -/
def fireLiveRefresh (r : Router V P) : Router V P :=
  let pending := Text.sort (r.pendingLiveRefreshKeys.filter (· ∈ r.activeLiveKeys))
  let reason := r.pendingLiveRefreshReason
  let cleared := r.cancelPendingLiveRefresh
  match r.liveManager.manifest with
  | none => cleared
  | some manifest =>
    if pending = [] ∨ r.liveStarted = false then cleared
    else cleared.loadResources pending { url := some manifest.url, reason := reason }

/-! ## Lifecycle -/

def startLive (r : Router V P) : Router V P :=
  { r with liveStarted := true, liveManager := r.liveManager.connect }

def stopLive (r : Router V P) : Router V P :=
  let superseded := (({ r with liveStarted := false }).supersedeLiveWork).cancelPendingLiveRefresh
  { superseded with liveManager := superseded.liveManager.disconnect }

def refresh (r : Router V P) (only : List String) : Router V P :=
  if only = [] then r.startVisit r.currentUrl { preserveState := true, usePrefetch := false } false
  else r.loadResources only { url := some r.currentUrl, reason := .refresh }

def clear (r : Router V P) : Router V P :=
  let aborted :=
    (({ r with lifecycleGeneration := r.lifecycleGeneration + 1 }).abortActiveDeferred).abortActiveVisit
  let stopped := (({ aborted with liveStarted := false }).supersedeLiveWork).cancelPendingLiveRefresh
  { stopped with
    liveManager := stopped.liveManager.clear
    resources := stopped.resources.clear
    pageStore := .blank
    pageCache := stopped.pageCache.clear
    prefetchManager := stopped.prefetchManager.clear }

/-- Back or Forward to a page that the page cache still holds: what is under way is dropped. -/
def leavePage (r : Router V P) : Router V P :=
  (((({ r with visitCounter := r.visitCounter + 1 }).suspendLive).cancelPendingLiveRefresh
    ).abortActiveDeferred).abortActiveVisit

def restorePage (r : Router V P) (url : String) (cached : CachedPage V) : Router V P :=
  let left := r.leavePage
  let shown : Router V P :=
    { left.withStore (left.store.markPending cached.pendingDeferred) with
      pageStore := ⟨cached.component, cached.url, cached.pageMeta⟩ }
  match shown.liveManager.updateManifest (orElse cached.url url) cached.liveKeys with
  | .error _ => shown
  | .ok manager =>
    let connected : Router V P :=
      { shown with liveManager := if shown.liveStarted then manager.connect else manager }
    if cached.pendingDeferred = [] then connected
    else connected.startDeferredBatch cached.pendingDeferred (orElse cached.url url)

/-- The state after `pageCache.getValid`. -/
def lookUpPage (r : Router V P) (url : String) : Router V P :=
  let valid := r.pageCache.getValid url r.store
  (r.withStore valid.2.2).withPageCache valid.2.1

def popState (r : Router V P) (url : String) : Router V P :=
  match (r.pageCache.getValid url r.store).1 with
  | some cached => (r.lookUpPage url).restorePage url cached
  | none =>
    (r.lookUpPage url).startVisit url
      { preserveState := true, replace := true, usePrefetch := false } false

/-! ## Construction -/

structure RuntimeOptions (V : Type) where
  initialEnvelope : Option (PageEnvelope V) := none
  initialPage : Option (PageDescriptor V) := none
  initialResources : Option (OrderedMap String (ResourceWireRecord V)) := none
  maxResources : Nat := 128
  maxPages : Nat := 32
  clientId : String := "client"
  now : Nat := 0

/-- The resource store that the constructor fills from its options. -/
def initialStore (options : RuntimeOptions V) : ResourceStore V :=
  let empty : ResourceStore V := { maxResources := options.maxResources }
  let resources := (options.initialEnvelope.map (·.resources)).or options.initialResources
  let filled := (empty.setMany options.now (resources.getD .empty)).1
  match options.initialEnvelope with
  | none => filled
  | some envelope =>
    let failed := envelope.errors.entries.foldl (fun store e => store.setResourceError e.1 e.2) filled
    failed.markPending envelope.deferredKeys

/-- The constructor; it throws on sizes that are not positive and on a refused manifest. -/
def create (options : RuntimeOptions V) : Option (Router V P) :=
  if options.maxResources = 0 ∨ options.maxPages = 0 then none
  else
    -- an envelope brings its own page, an initial page is shown without resources
    let page := (options.initialEnvelope.map (·.page)).or options.initialPage
    let blank : Router V P :=
      { resources := { resourceStore := initialStore options }
        pageStore := (page.map PageState.setPage).getD .blank
        pageCache := { maxPages := options.maxPages }
        liveManager := { clientId := options.clientId }
        now := options.now }
    match options.initialEnvelope with
    | some envelope =>
      let url := orElse envelope.page.url "/"
      let deferred := envelope.deferredKeys
      let cached :=
        ({ blank with
          initialDeferredBatch := if deferred = [] then none else some (deferred, url) }
          ).cachePageEnvelope envelope
      -- the runtime is not built when the manifest of the first page is refused
      match cached.liveManager.updateManifest url envelope.liveKeys with
      | .error _ => none
      | .ok manager => some { cached with liveManager := manager }
    | none =>
      match page with
      | none => some blank
      | some page =>
        some { blank with
          pageCache := blank.pageCache.set page blank.store.exportKnownVersions none }

end Router

end FluxFast.Core
