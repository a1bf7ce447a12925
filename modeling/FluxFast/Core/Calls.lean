import FluxFast.Core.Turns

/-!
# Calls — the visits, loads and prefetches under way

`Lanes` collects who is waiting for what.  `Changes` lists every way a step can change it: a load,
a visit or a prefetch begins or gets its answer, a page is left or everything is cleared.
`changes_step` says that a step does nothing else to the lanes.
-/

namespace FluxFast.Core

open FluxFast.Theory

set_option linter.unusedSectionVars false

variable {V P : Type} [DecidableEq V] [Patchable V P]

structure Lanes (V : Type) where
  visitCounter : Nat
  currentVisitId : Option Nat
  lifecycleGeneration : Nat
  loads : List LoadCall
  visits : List VisitCall
  prefetches : List (PrefetchCall V)

/-- A new visit is the current one. -/
def Lanes.enter (l : Lanes V) (visits : List VisitCall) : Lanes V :=
  { l with
    visitCounter := l.visitCounter + 1
    currentVisitId := some (l.visitCounter + 1)
    visits := visits }

/-- The page is left for one that the page cache holds. -/
def Lanes.leave (l : Lanes V) : Lanes V :=
  { l with visitCounter := l.visitCounter + 1, currentVisitId := none }

def Lanes.clear (l : Lanes V) : Lanes V :=
  { l with currentVisitId := none, lifecycleGeneration := l.lifecycleGeneration + 1 }

namespace Router

def lanes (r : Router V P) : Lanes V :=
  { visitCounter := r.visitCounter
    currentVisitId := r.currentVisitId
    lifecycleGeneration := r.lifecycleGeneration
    loads := r.loads
    visits := r.visits
    prefetches := r.prefetches }

/-- The visit was started by the last operation. -/
structure StartedVisit (r : Router V P) (call : VisitCall) : Prop where
  id : call.id = r.visitCounter
  startedAtEpoch : call.startedAtEpoch = r.resources.resourceEpochCounter
  known : call.knownVersions = r.store.exportKnownVersions

/-- The prefetch was called in this state. -/
structure StartedPrefetch (r : Router V P) (call : PrefetchCall V) : Prop where
  generation : call.lifecycleGeneration = r.lifecycleGeneration
  startedAtEpoch : call.startedAtEpoch = r.resources.resourceEpochCounter
  known : call.knownVersions = r.store.exportKnownVersions

inductive Changes (r : Router V P) (a : Action V P) (r' : Router V P) : Prop
  | none (h : r'.lanes = r.lanes)
  | load {call rest} (ha : a = .resume) (hturn : r.turn = .markLoading call [] :: rest)
    (hgeneration : call.lifecycleGeneration = r.lifecycleGeneration)
    (h : r'.lanes = { r.lanes with loads := r.lanes.loads ++ [call] })
  | loaded (index : Nat) (h : r'.lanes = { r.lanes with loads := r.lanes.loads.eraseIdx index })
  | visit {call} (hstarted : r'.StartedVisit call)
    (h : r'.lanes = r.lanes.enter (r.lanes.visits ++ [call]))
  | hit (h : r'.lanes = r.lanes.enter r.lanes.visits)
  | left (h : r'.lanes = r.lanes.leave)
  | visited (index : Nat) (h : r'.lanes = { r.lanes with visits := r.lanes.visits.eraseIdx index })
  | prefetch {call} (hstarted : r.StartedPrefetch call)
    (h : r'.lanes = { r.lanes with prefetches := r.lanes.prefetches ++ [call] })
  | prefetched (index : Nat)
    (h : r'.lanes = { r.lanes with prefetches := r.lanes.prefetches.eraseIdx index })
  | cleared (ha : a = .clear) (h : r'.lanes = r.lanes.clear)

/-! ## Operations that keep the lanes -/

theorem lanes_loadResources (r : Router V P) (keys : List String) (options : LoadResourcesOptions) :
    (r.loadResources keys options).lanes = r.lanes := by
  unfold loadResources
  dsimp only
  split <;> rfl

theorem lanes_startDeferredBatch (r : Router V P) (keys : List String) (url : String) :
    (r.startDeferredBatch keys url).lanes = r.lanes :=
  lanes_loadResources _ _ _

theorem lanes_queueLiveRefresh (r : Router V P) (keys : List String) (reason : LoadReason) :
    (r.queueLiveRefresh keys reason).lanes = r.lanes := by
  unfold queueLiveRefresh
  split <;> rfl

theorem lanes_beginNavigation (r : Router V P) (call : VisitCall) (envelope : PageEnvelope V)
    (origin : Origin) : (r.beginNavigation call envelope origin).lanes = r.lanes := by
  unfold beginNavigation
  split <;> rfl

theorem lanes_beginPrefetch (r : Router V P) (call : PrefetchCall V)
    (fetched : PrefetchedEnvelope V) : (r.beginPrefetch call fetched).lanes = r.lanes := by
  unfold beginPrefetch
  split <;> rfl

/-! ## Operations that change them -/

theorem changes_startVisit {r s : Router V P} (a : Action V P) (hlanes : s.lanes = r.lanes)
    (url : String) (options : VisitOptions) (redirected : Bool) :
    r.Changes a (s.startVisit url options redirected) := by
  unfold startVisit
  dsimp only
  split
  · refine .visit (show StartedVisit _ (s.openVisit.visitCall url options redirected) from
      ⟨rfl, rfl, rfl⟩) ?_
    rw [← hlanes]
    rfl
  · unfold requestPage
    dsimp only
    split
    · refine .hit ?_
      rw [← hlanes]
      rfl
    · refine .visit (show StartedVisit _ { s.openVisit.visitCall url options redirected with
        pending := ((s.openVisit.prefetchManager.getCached s.openVisit.now url
          (s.openVisit.visitCall url options redirected).knownVersions).2).getPending url
          (s.openVisit.visitCall url options redirected).knownVersions } from ⟨rfl, rfl, rfl⟩) ?_
      rw [← hlanes]
      rfl

theorem changes_restorePage {r s : Router V P} (a : Action V P) (hlanes : s.lanes = r.lanes)
    (url : String) (cached : CachedPage V) : r.Changes a (s.restorePage url cached) := by
  have hleave : s.leavePage.lanes = r.lanes.leave := by
    rw [← hlanes]
    rfl
  unfold restorePage
  dsimp only
  split
  · exact .left hleave
  · split
    · exact .left hleave
    · exact .left ((lanes_startDeferredBatch _ _ _).trans hleave)

theorem changes_part {r r' : Router V P} {t : Task V P} {rest : List (Task V P)}
    (ht : r.turn = t :: rest) (h : ({ r with turn := rest } : Router V P).Part t r') :
    r.Changes .resume r' := by
  cases h with
  | marked hgen => exact .load rfl ht hgen rfl
  | markStopped | mark | captured | settleStopped | settled | settle | settleSkip | rejectStopped
  | rejectAborted | rejected | rejectRewrite | reject | rejectSkip | navSuperseded | writeResource
  | wroteResources | writeError | skipError | wroteErrors | writePending | wrotePending | showPage
  | refuseManifest | updateManifest | commit | followUp | finishPage | prefetchStopped
  | rejectPrefetched | cachePrefetched | writePrefetched | patch | patchThrows | patched
  | invalidateActive | invalidate | leaveDocument | mutatedNothing | patchLive | patchLiveThrows
  | invalidateLive => exact .none rfl
  | navBegin => exact .none (lanes_beginNavigation _ _ _ _)
  | followUpDeferred => exact .none (lanes_startDeferredBatch _ _ _)
  | reloadMissing => exact .none (lanes_loadResources _ _ _)
  | redirect => exact changes_startVisit (r := r) (s := { r with turn := rest }) .resume rfl _ _ _
  | reloadActive => exact .none (lanes_loadResources _ _ _)
  | patchedLive | invalidatedLive => exact .none (lanes_queueLiveRefresh _ _ _)

theorem changes_step {r r' : Router V P} {a : Action V P} (h : r.step a = some r') :
    r.Changes a r' := by
  cases happens_step h with
  | visit | refreshPage => exact changes_startVisit _ rfl _ _ _
  | refreshKeys | loadResources => exact .none (lanes_loadResources _ _ _)
  | prefetch => exact .prefetch ⟨rfl, rfl, rfl⟩ rfl
  | initialDeferred => exact .none (lanes_startDeferredBatch _ _ _)
  | clear => exact .cleared rfl rfl
  | part hturn h => exact changes_part hturn h
  | mutate | nothingDeferred | startLive | stopLive | liveConnect | liveDisconnect | liveReconnect
  | subscribe | unsubscribe | read | abort | tick | prefetchResponse | prefetchFailure
  | mutateResponse | mutateOutlived | mutateFailure | deferredSettled | deferredReplaced
  | refreshNothing | reconnectTimer | networkFlag | networkOnline | networkOffline | connectFails
  | streamEvent | streamPatch | streamInvalidate | streamEnd | streamError => exact .none rfl
  | @loadResponse index | @loadFailure index => exact .loaded index rfl
  | @visitResponse index | @visitPrefetched index =>
    exact .visited index (lanes_beginNavigation _ _ _ _)
  | @visitFailure index | @visitNotPrefetched index => exact .visited index rfl
  | @prefetchSettled index => exact .prefetched index (lanes_beginPrefetch _ _ _)
  | @prefetchFailed index => exact .prefetched index rfl
  | @restorePage url =>
    exact changes_restorePage (r := r) (s := r.lookUpPage url) _ rfl _ _
  | @revisitPage url =>
    exact changes_startVisit (r := r) (s := r.lookUpPage url) _ rfl _ _ _
  | refreshLive => exact .none (lanes_loadResources _ _ _)

end Router

end FluxFast.Core
