import FluxFast.Core.Router

/-!
# System — the router among its callers, its server and its browser

One `Action` is a call of the router's interface, a response or a failure that arrives, an event
of the browser or of the live stream, or `resume`, which runs the next part of the innermost
unfinished synchronous call.  Calls are enabled at any time: between two parts of a synchronous
call they are the calls of a subscriber.  Everything asynchronous waits until `turn` is empty.
-/

namespace FluxFast.Core

open FluxFast.Theory

set_option linter.unusedSectionVars false

/-- What the server knew when it answered a load: the keys that the page declares and their
versions at that moment.  The router sees neither. -/
structure ServerView where
  declared : List String
  current : Versions

inductive Action (V P : Type) where
  -- the router's interface
  | visit (url : String) (options : VisitOptions)
  | refresh (only : List String)
  | loadResources (keys : List String) (url : Option String) (reason : LoadReason)
      (signal : Option Nat)
  | prefetch (url : String)
  | mutate (url : String)
  | startInitialDeferred
  | startLive
  | stopLive
  | clear
  | liveConnect
  | liveDisconnect
  | liveReconnect
  | subscribe (key : String)
  | unsubscribe (key : String)
  | read (key : String)
  | abort (signal : Nat)
  -- the current synchronous call goes on
  | resume
  -- responses and failures
  | loadResponse (index : Nat) (envelope : PageEnvelope V) (view : ServerView)
  | loadFailure (index : Nat) (failure : Failure)
  | visitResponse (index : Nat) (envelope : PageEnvelope V)
  | visitFailure (index : Nat) (failure : Failure)
  | visitPrefetched (index : Nat)
  | prefetchResponse (request : Nat) (envelope : PageEnvelope V) (producedAt : Nat)
  | prefetchFailure (request : Nat) (failure : Failure)
  | prefetchSettled (index : Nat)
  | mutateResponse (index : Nat) (payload : MutationPayload P) (servedAt : Nat)
  | mutateFailure (index : Nat)
  | deferredSettled (controller : Nat)
  -- the browser and the live stream
  | popState (url : String)
  | tick (milliseconds : Nat)
  | liveRefreshTimer
  | reconnectTimer
  | networkFlag (online : Bool)
  | networkOnline
  | networkOffline
  | connectFails (fails : Bool)
  | streamEvent (event : LiveEvent P) (servedAt : Nat)
  | streamEnd
  | streamError

namespace Router

variable {V P : Type} [DecidableEq V] [Patchable V P]

def runTask (r : Router V P) : Task V P → Router V P
  -- one part of the running call; what it leaves to do it pushes again
  | .markLoading call rest => r.stepMarkLoading call rest
  | .captureDeferred keys => r.captureDeferred keys
  | .settleLoad call envelope rest settled => r.stepSettleLoad call envelope rest settled
  | .rejectLoad call failure aborted rest settled =>
    r.stepRejectLoad call failure aborted rest settled
  | .navBegin call envelope origin => r.beginNavigation call envelope origin
  | .navResources nav rest => r.stepNavResources nav rest
  | .navErrors nav rest => r.stepNavErrors nav rest
  | .navDeferred nav rest => r.stepNavDeferred nav rest
  | .navShell nav => r.stepNavShell nav
  | .navManifest nav => r.stepNavManifest nav
  | .navCommit nav => r.stepNavCommit nav
  | .navFollowUp nav => r.stepNavFollowUp nav
  | .navMissing nav => r.stepNavMissing nav
  | .applyPrefetch call fetched rest race => r.stepApplyPrefetch call fetched race rest
  | .patchMutation mutation rest => r.stepPatchMutation mutation rest
  | .invalidateMutation mutation rest active => r.stepInvalidateMutation mutation rest active
  | .patchLive keys rest servedAt => r.stepPatchLive keys servedAt rest
  | .invalidateLive keys rest reason servedAt => r.stepInvalidateLive keys reason servedAt rest

def resume (r : Router V P) : Option (Router V P) :=
  match r.turn with
  | [] => none
  | task :: rest => some (({ r with turn := rest }).runTask task)

/-- The keys a load requested are settled by its response. -/
def receiveLoad (r : Router V P) (index : Nat) (call : LoadCall) (envelope : PageEnvelope V) :
    Router V P :=
  ({ r with loads := r.loads.eraseIdx index }).push
    (.settleLoad call envelope call.requestedKeys [])

def receiveLoadFailure (r : Router V P) (index : Nat) (call : LoadCall) (failure : Failure) :
    Router V P :=
  let aborted := r.signalAborted call.signal || failure.name = "AbortError"
  ({ r with loads := r.loads.eraseIdx index }).push
    (.rejectLoad call failure aborted call.requestedKeys [])

def dropVisit (r : Router V P) (index : Nat) : Router V P :=
  { r with visits := r.visits.eraseIdx index }

/-- How a prefetch request has settled. -/
def prefetchOutcome (r : Router V P) (id : Nat) : Option (Except Failure (PrefetchedEnvelope V)) :=
  (r.prefetchManager.requests.get? id).bind (·.outcome)

/-- The promise of a prefetch that a visit waits for has settled. -/
def receiveVisitPrefetched (r : Router V P) (index : Nat) (call : VisitCall) :
    Option (Router V P) :=
  match call.pending.bind r.prefetchOutcome with
  | none => none
  | some (.error failure) => some ((r.dropVisit index).failVisit call failure)
  | some (.ok fetched) =>
    some ((r.dropVisit index).beginNavigation call fetched.envelope
      (.prefetch fetched.sentAtEpoch fetched.producedAt))

def receivePrefetchSettled (r : Router V P) (index : Nat) (call : PrefetchCall V) :
    Option (Router V P) :=
  let dropped : Router V P := { r with prefetches := r.prefetches.eraseIdx index }
  match call.source with
  | .held fetched => some (dropped.beginPrefetch call fetched)
  | .request id =>
    match r.prefetchOutcome id with
    | none => none
    | some (.error _) => some dropped
    | some (.ok fetched) => some (dropped.beginPrefetch call fetched)

def receiveStreamEvent (r : Router V P) (connection : LiveConnection) (event : LiveEvent P)
    (servedAt : Nat) : Router V P :=
  let received := r.liveManager.receive connection r.now event
  received.2.foldl (fun r e => r.handleLiveEvent e servedAt) (r.withLive received.1)

/-- The `finally` of a deferred batch. -/
def receiveDeferredSettled (r : Router V P) (controller : Nat) : Router V P :=
  if r.activeDeferredController = some controller then r.forgetDeferred else r

/-- An asynchronous notification: enabled between two synchronous calls. -/
def notified (r : Router V P) (next : Option (Router V P)) : Option (Router V P) :=
  match r.turn with
  | [] => next
  | _ :: _ => none

theorem notified_eq_some {r r' : Router V P} {next : Option (Router V P)}
    (h : r.notified next = some r') : r.turn = [] ∧ next = some r' := by
  unfold notified at h
  split at h
  · next hturn => exact ⟨hturn, h⟩
  · cases h

def step (r : Router V P) : Action V P → Option (Router V P)
  -- calls of the application
  | .visit url options => some (r.startVisit url options false)
  | .refresh only => some (r.refresh only)
  | .loadResources keys url reason signal =>
    some (r.loadResources keys { url := url, reason := reason, signal := signal.map .caller })
  | .prefetch url => some (r.prefetch url)
  | .mutate url => some (r.mutate url)
  | .startInitialDeferred => some r.startInitialDeferred
  | .startLive => some r.startLive
  | .stopLive => some r.stopLive
  | .clear => some r.clear
  -- the live connection, called directly
  | .liveConnect => some (r.withLive r.liveManager.connect)
  | .liveDisconnect => some (r.withLive r.liveManager.disconnect)
  | .liveReconnect => some (r.withLive r.liveManager.reconnect)
  -- reads and subscriptions of components
  | .subscribe key => some (r.withStore (r.store.subscribe key))
  | .unsubscribe key => some (r.withStore (r.store.unsubscribe key))
  | .read key => some (r.withStore (r.store.touchState key))
  | .abort signal => some (r.abortSignal (.caller signal))
  -- what remains of the running call goes on, so nothing else is handled before it is done
  | .resume => r.resume
  -- responses, each in any order and at any time between two calls
  | .loadResponse index envelope _ =>
    r.notified (r.loads[index]?.map fun call => r.receiveLoad index call envelope)
  | .loadFailure index failure =>
    r.notified (r.loads[index]?.map fun call => r.receiveLoadFailure index call failure)
  | .visitResponse index envelope =>
    r.notified (r.visits[index]?.bind fun call =>
      if call.pending = none then
        some ((r.dropVisit index).beginNavigation call envelope .transport)
      else none)
  | .visitFailure index failure =>
    r.notified (r.visits[index]?.bind fun call =>
      if call.pending = none then some ((r.dropVisit index).failVisit call failure) else none)
  | .visitPrefetched index =>
    r.notified (r.visits[index]?.bind fun call => r.receiveVisitPrefetched index call)
  | .prefetchResponse id envelope producedAt =>
    r.notified ((r.prefetchManager.requests.get? id).bind fun request =>
      if request.outcome.isNone then
        some { r with
          prefetchManager := r.prefetchManager.respond r.now id request envelope producedAt }
      else none)
  | .prefetchFailure id failure =>
    r.notified ((r.prefetchManager.requests.get? id).bind fun request =>
      if request.outcome.isNone then
        some { r with prefetchManager := r.prefetchManager.fail id request failure }
      else none)
  | .prefetchSettled index =>
    r.notified (r.prefetches[index]?.bind fun call => r.receivePrefetchSettled index call)
  | .mutateResponse index payload servedAt =>
    r.notified (r.mutations[index]?.map fun call =>
      ({ r with mutations := r.mutations.eraseIdx index }).beginMutation
        { call := call, payload := payload, servedAt := servedAt })
  | .mutateFailure index =>
    r.notified (r.mutations[index]?.map fun _ =>
      { r with mutations := r.mutations.eraseIdx index })
  -- the promise of a deferred batch settles once no load of it is outstanding
  | .deferredSettled controller =>
    r.notified
      (if r.loads.all fun call => call.signal ≠ some (.deferred controller) then
        some (r.receiveDeferredSettled controller)
      else none)
  -- history, time and timers
  | .popState url => r.notified (some (r.popState url))
  | .tick milliseconds => some { r with now := r.now + milliseconds }
  | .liveRefreshTimer => r.notified (if r.liveRefreshTimer then some r.fireLiveRefresh else none)
  | .reconnectTimer =>
    r.notified (r.liveManager.reconnectTimer.map fun attempt =>
      r.withLive (r.liveManager.reconnectTimerFires attempt))
  -- the network and the stream
  | .networkFlag online => r.notified (some (r.withLive { r.liveManager with online := online }))
  | .networkOnline =>
    r.notified
      (if r.liveManager.networkSubscribed then some (r.withLive r.liveManager.handleOnline)
      else none)
  | .networkOffline =>
    r.notified
      (if r.liveManager.networkSubscribed then some (r.withLive r.liveManager.handleOffline)
      else none)
  | .connectFails fails =>
    r.notified (some (r.withLive { r.liveManager with connectFails := fails }))
  | .streamEvent event servedAt =>
    r.notified (r.liveManager.connection.map fun connection =>
      r.receiveStreamEvent connection event servedAt)
  | .streamEnd =>
    r.notified (r.liveManager.connection.map fun _ => r.withLive r.liveManager.streamEnds)
  | .streamError =>
    r.notified (r.liveManager.connection.map fun _ => r.withLive r.liveManager.handleConnectionError)

/-! ## Runs -/

/-- A router that the constructor returned. -/
def Initial (r : Router V P) : Prop := ∃ options, create options = some r

/-- What the constructor sets up whatever it is given. -/
structure New (options : RuntimeOptions V) (r : Router V P) : Prop where
  resources : r.resources = { resourceStore := initialStore options }
  prefetchManager : r.prefetchManager = {}
  currentVisitId : r.currentVisitId = none
  loads : r.loads = []
  visits : r.visits = []
  prefetches : r.prefetches = []
  turn : r.turn = []

theorem new_of_create {options : RuntimeOptions V} {r : Router V P} (h : create options = some r) :
    New options r := by
  unfold create at h
  split at h
  · cases h
  · dsimp only at h
    split at h
    · split at h <;> cases h
      exact ⟨rfl, rfl, rfl, rfl, rfl, rfl, rfl⟩
    · split at h <;> cases h <;> exact ⟨rfl, rfl, rfl, rfl, rfl, rfl, rfl⟩

/-- States reached from a new router by steps that meet the condition. -/
def ReachableUnder (ok : Router V P → Action V P → Prop) (r : Router V P) : Prop :=
  ∃ r₀, Initial r₀ ∧ Run step ok r₀ r

def Reachable (r : Router V P) : Prop := ReachableUnder Always r

theorem ReachableUnder.invariant {ok : Router V P → Action V P → Prop} {I : Router V P → Prop}
    {r : Router V P} (h : ReachableUnder ok r) (hinit : ∀ r₀, Initial r₀ → I r₀)
    (hkeep : ∀ r a r', I r → ok r a → r.step a = some r' → I r') : I r := by
  obtain ⟨r₀, h₀, hrun⟩ := h
  exact hrun.invariant hkeep (hinit r₀ h₀)

/-- Construct a router and run actions that meet the condition. -/
def runUnder (ok : Router V P → Action V P → Prop) [∀ r a, Decidable (ok r a)]
    (options : RuntimeOptions V) (actions : List (Action V P)) : Option (Router V P) :=
  (create options).bind fun r => execUnder step ok r actions

theorem reachableUnder_of_runUnder {ok : Router V P → Action V P → Prop}
    [∀ r a, Decidable (ok r a)] {options : RuntimeOptions V} {actions : List (Action V P)}
    {r : Router V P} (h : runUnder ok options actions = some r) : ReachableUnder ok r := by
  obtain ⟨r₀, h₀, hrun⟩ := Option.bind_eq_some_iff.mp h
  exact ⟨r₀, ⟨options, h₀⟩, Run.of_execUnder hrun⟩

def run (options : RuntimeOptions V) (actions : List (Action V P)) : Option (Router V P) :=
  (create options).bind fun r => exec step r actions

theorem reachable_of_run {options : RuntimeOptions V} {actions : List (Action V P)}
    {r : Router V P} (h : run options actions = some r) : Reachable r := by
  obtain ⟨r₀, h₀, hrun⟩ := Option.bind_eq_some_iff.mp h
  exact ⟨r₀, ⟨options, h₀⟩, Run.of_exec hrun⟩

end Router

end FluxFast.Core
