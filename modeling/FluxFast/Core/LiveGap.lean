import FluxFast.Core.LiveInvariant
import FluxFast.Core.Steps

/-!
# LiveGap — what happens after a live stream was interrupted

Every route by which the router closes a stream and opens one again for the same manifest.  The
manager stays sound in every run whose `connect()` calls never reopen a stream, and then the first
ready event of a resumed stream makes the router revalidate the whole manifest.
-/

namespace FluxFast.Core

open FluxFast.Theory

set_option linter.unusedSectionVars false

namespace Router

variable {V P : Type} [DecidableEq V] [Patchable V P]

/-! ## The operations that do not touch the manager -/

@[simp] theorem liveManager_loadResources (r : Router V P) (keys : List String)
    (options : LoadResourcesOptions) :
    (r.loadResources keys options).liveManager = r.liveManager := by
  unfold loadResources
  dsimp only
  split <;> rfl

@[simp] theorem liveManager_startDeferredBatch (r : Router V P) (keys : List String)
    (url : String) : (r.startDeferredBatch keys url).liveManager = r.liveManager := by
  unfold startDeferredBatch
  rw [liveManager_loadResources]
  rfl

@[simp] theorem liveManager_beginNavigation (r : Router V P) (call : VisitCall)
    (envelope : PageEnvelope V) (origin : Origin) :
    (r.beginNavigation call envelope origin).liveManager = r.liveManager := by
  unfold beginNavigation
  split <;> rfl

@[simp] theorem liveManager_requestPage (r : Router V P) (call : VisitCall) :
    (r.requestPage call).liveManager = r.liveManager := by
  unfold requestPage
  dsimp only
  split <;> rfl

theorem liveManager_startVisit (r : Router V P) (url : String) (options : VisitOptions)
    (redirected : Bool) :
    (r.startVisit url options redirected).liveManager =
      if r.liveStarted then r.liveManager.disconnect else r.liveManager := by
  unfold startVisit
  dsimp only
  split
  · rfl
  · rw [liveManager_requestPage]
    rfl

@[simp] theorem liveManager_beginPrefetch (r : Router V P) (call : PrefetchCall V)
    (fetched : PrefetchedEnvelope V) :
    (r.beginPrefetch call fetched).liveManager = r.liveManager := by
  unfold beginPrefetch
  split <;> rfl

@[simp] theorem liveManager_queueLiveRefresh (r : Router V P) (keys : List String)
    (reason : LoadReason) : (r.queueLiveRefresh keys reason).liveManager = r.liveManager := by
  unfold queueLiveRefresh
  split <;> rfl

/-! ## Soundness over a run -/

/-- The manager that a `connect()` call of this step finds. -/
def connectsOn (r : Router V P) : Action V P → Option LiveManager
  | .startLive => some r.liveManager
  | .liveConnect => some r.liveManager
  -- `failVisit` puts the page that is still shown back on the stream
  | .visitFailure index _ =>
    r.visits[index]?.bind fun call =>
      if r.isCurrent call && r.liveStarted then some r.liveManager else none
  | .visitPrefetched index =>
    r.visits[index]?.bind fun call =>
      match call.pending.bind r.prefetchOutcome with
      | some (.error _) => if r.isCurrent call && r.liveStarted then some r.liveManager else none
      | _ => none
  | .popState url =>
    -- a cached page brings its own manifest, and its stream is opened at once
    (r.pageCache.getValid url r.store).1.bind fun cached =>
      match r.liveManager.disconnect.updateManifest (orElse cached.url url) cached.liveKeys with
      | .ok manager => if r.liveStarted then some manager else none
      | .error _ => none
  | .resume =>
    match r.turn with
    -- a page that arrives connects with the manifest it names, or with the old one if that is
    -- refused
    | .navManifest nav :: _ =>
      if r.isCurrent nav.call && r.liveStarted then
        match r.liveManager.updateManifest (orElse nav.envelope.page.url "/")
          nav.envelope.liveKeys with
        | .ok manager => some manager
        | .error _ => some r.liveManager
      else none
    | _ => none
  | _ => none

/-- No `connect()` call of this step opens a stream again for a manifest that had one. -/
def NoReopen (r : Router V P) (a : Action V P) : Prop :=
  ∀ m ∈ r.connectsOn a, ¬m.Reopens

instance (r : Router V P) (a : Action V P) : Decidable (r.NoReopen a) :=
  inferInstanceAs (Decidable (∀ m ∈ r.connectsOn a, ¬m.Reopens))

theorem sound_failVisit {r : Router V P} (hs : r.liveManager.Sound) (call : VisitCall)
    (failure : Failure)
    (hok : r.isCurrent call && r.liveStarted → ¬r.liveManager.Reopens) :
    (r.failVisit call failure).liveManager.Sound := by
  unfold failVisit
  dsimp only
  split_ifs with h
  · exact hs.connect (hok h)
  · exact hs

theorem sound_startVisit {r : Router V P} (hs : r.liveManager.Sound) (url : String)
    (options : VisitOptions) (redirected : Bool) :
    (r.startVisit url options redirected).liveManager.Sound := by
  rw [liveManager_startVisit]
  split
  · exact hs.disconnect
  · exact hs

theorem sound_restorePage {r : Router V P} (hs : r.liveManager.Sound) (url : String)
    (cached : CachedPage V)
    (hok : ∀ m, r.liveManager.disconnect.updateManifest (orElse cached.url url) cached.liveKeys =
      .ok m → r.liveStarted = true → ¬m.Reopens) :
    (r.restorePage url cached).liveManager.Sound := by
  unfold restorePage
  dsimp only
  have hleft : r.leavePage.liveManager =
      if r.liveStarted then r.liveManager.disconnect else r.liveManager := rfl
  have hlive : r.leavePage.liveStarted = r.liveStarted := rfl
  -- leaving the page closes its stream first, so what is reopened is reopened by `connect`
  have hsound : r.leavePage.liveManager.Sound := by
    rw [hleft]
    split
    · exact hs.disconnect
    · exact hs
  split
  · exact hsound
  · next manager hupdate =>
    have hmanager : manager.Sound := LiveManager.sound_updateManifest hsound hupdate
    have hconnected : (if r.liveStarted then manager.connect else manager).Sound := by
      split
      · next h =>
        refine hmanager.connect (hok manager ?_ h)
        rw [← hupdate]
        show _ = r.leavePage.liveManager.updateManifest _ _
        rw [hleft, if_pos h]
      · exact hmanager
    split
    · exact hconnected
    · rw [liveManager_startDeferredBatch]
      exact hconnected

theorem sound_part {r r' : Router V P} {t : Task V P} {rest : List (Task V P)}
    (hs : r.liveManager.Sound) (hok : r.NoReopen .resume) (ht : r.turn = t :: rest)
    (h : ({ r with turn := rest } : Router V P).Part t r') : r'.liveManager.Sound := by
  -- Only the parts that hand a manifest over, or end a visit, come near the stream.
  cases h with
  | markStopped | marked | mark | captured | settleStopped | settled | settle | settleSkip
  | rejectStopped | rejectAborted | rejected | rejectRewrite | reject | rejectSkip | navSuperseded
  | writeResource | wroteResources | writeError | skipError | wroteErrors | writePending
  | wrotePending | showPage | commit | followUp | finishPage | prefetchStopped | rejectPrefetched
  | cachePrefetched | writePrefetched | patch | patchThrows | patched | invalidateActive
  | invalidate | leaveDocument | mutatedNothing | patchLive | patchLiveThrows | invalidateLive =>
    exact hs
  | navBegin =>
    rw [liveManager_beginNavigation]
    exact hs
  | refuseManifest hcurrent hmanifest =>
    -- a refused manifest ends the visit, which may connect the old one again
    refine sound_failVisit (r := { r with turn := rest }) hs _ _ fun h => hok _ ?_
    have hlive : (r.isCurrent _ && r.liveStarted) = true := h
    simp only [connectsOn, ht, hlive, if_true]
    dsimp only at hmanifest
    rw [hmanifest]
    rfl
  | @updateManifest nav manager hcurrent hmanifest =>
    have hcurrent : r.isCurrent nav.call = true := hcurrent
    have hmanager := LiveManager.sound_updateManifest hs hmanifest
    show (if r.liveStarted then manager.connect else manager).Sound
    -- the page is connected before the commit, with `connectsOn` naming the manifest
    split
    · next hlive =>
      refine hmanager.connect (hok _ ?_)
      simp only [connectsOn, ht, hcurrent, hlive, Bool.and_self, if_true]
      dsimp only at hmanifest
      rw [hmanifest]
      rfl
    · exact hmanager
  | followUpDeferred =>
    rw [liveManager_startDeferredBatch]
    exact hs
  | reloadMissing | reloadActive =>
    rw [liveManager_loadResources]
    exact hs
  | redirect => exact sound_startVisit (r := { r with turn := rest }) hs ..
  | patchedLive | invalidatedLive =>
    rw [liveManager_queueLiveRefresh]
    exact hs

theorem sound_step {r r' : Router V P} {a : Action V P} (hs : r.liveManager.Sound)
    (hok : r.NoReopen a) (h : r.step a = some r') : r'.liveManager.Sound := by
  -- The steps that may connect are those that `connectsOn` lists; they carry the hypothesis.
  cases happens_step h with
  | prefetch | mutate | nothingDeferred | subscribe | unsubscribe | read | abort | tick
  | loadResponse | loadFailure | prefetchResponse | prefetchFailure | prefetchFailed
  | mutateResponse | mutateOutlived | mutateFailure | deferredSettled | deferredReplaced
  | refreshNothing => exact hs
  | visit | refreshPage => exact sound_startVisit hs ..
  | refreshKeys | loadResources | refreshLive =>
    rw [liveManager_loadResources]
    exact hs
  | initialDeferred =>
    rw [liveManager_startDeferredBatch]
    exact hs
  | startLive | liveConnect => exact hs.connect (hok _ rfl)
  | stopLive | liveDisconnect => exact hs.disconnect
  | clear => exact LiveManager.sound_clear hs
  | liveReconnect => exact hs.reconnect
  | part hturn h => exact sound_part hs hok hturn h
  | visitResponse | visitPrefetched =>
    rw [liveManager_beginNavigation]
    exact hs
  | @visitFailure index failure call hidle hcall =>
    refine sound_failVisit (r := r.dropVisit index) hs _ _ fun hcurrent => hok _ ?_
    rw [connectsOn, hcall, Option.bind_some]
    exact if_pos hcurrent
  | @visitNotPrefetched index call failure hidle hcall houtcome =>
    refine sound_failVisit (r := r.dropVisit index) hs _ _ fun hcurrent => hok _ ?_
    have hcurrent : (r.isCurrent call && r.liveStarted) = true := hcurrent
    rw [connectsOn, hcall, Option.bind_some, houtcome]
    exact if_pos hcurrent
  | prefetchSettled =>
    rw [liveManager_beginPrefetch]
    exact hs
  | @restorePage url cached hidle hcached =>
    refine sound_restorePage (r := r.lookUpPage url) hs url cached fun m hm hlive => hok m ?_
    have hm : r.liveManager.disconnect.updateManifest (orElse cached.url url) cached.liveKeys =
      .ok m := hm
    have hlive : r.liveStarted = true := hlive
    simp [connectsOn, hcached, hm, hlive]
  | @revisitPage url => exact sound_startVisit (r := r.lookUpPage url) hs ..
  | reconnectTimer hidle hattempt => exact hs.reconnectTimerFires (hs.timer_attempt _ hattempt)
  | networkFlag | connectFails => exact hs.congr rfl rfl rfl
  | networkOnline => exact hs.handleOnline
  | networkOffline => exact hs.handleOffline
  | streamEvent | streamPatch | streamInvalidate => exact hs.receive ..
  | streamEnd => exact hs.streamEnds
  | streamError => exact hs.handleConnectionError

theorem sound_create {options : RuntimeOptions V} {r : Router V P}
    (h : create options = some r) : r.liveManager.Sound := by
  have hnew : ∀ id, ({ clientId := id } : LiveManager).Sound := fun id =>
    LiveManager.sound_default.congr rfl rfl rfl
  unfold create at h
  split at h
  · cases h
  · dsimp only at h
    split at h
    · split at h
      · cases h
      · next manager hupdate =>
        cases h
        exact LiveManager.sound_updateManifest (hnew _) hupdate
    · split at h <;> cases h <;> exact hnew _

theorem sound_reachable {r : Router V P} (h : ReachableUnder NoReopen r) : r.liveManager.Sound :=
  h.invariant (fun _ ⟨_, h₀⟩ => sound_create h₀) fun _ _ _ hs hok hstep => sound_step hs hok hstep

/-! ## The resync -/

/-- The keys are queued for a refresh, and what is held of them is stale. -/
def Revalidating (r : Router V P) (keys : List String) : Prop :=
  r.liveRefreshTimer = true ∧
    ∀ k ∈ keys, k ∈ r.pendingLiveRefreshKeys ∧
      ((r.store.entry k).record = none ∨ (r.store.entry k).stale = true)

theorem unconfirmed_markStale (s : ResourceStore V) (j : String) {k : String}
    (h : j = k ∨ (s.entry k).record = none ∨ (s.entry k).stale = true) :
    ((s.markStale j).entry k).record = none ∨ ((s.markStale j).entry k).stale = true := by
  by_cases hjk : k = j
  · subst hjk
    rcases s.entry_markStale_self k with ⟨hsame, hun⟩ | hmarked | hevicted
    · rw [hsame]
      exact hun
    · rw [hmarked]
      exact .inr rfl
    · rw [hevicted]
      exact .inl rfl
  · have h := h.resolve_left (fun e => hjk e.symm)
    rcases s.kept_markStale hjk with hsame | hevicted
    · rw [hsame]
      exact h
    · rw [hevicted]
      exact .inl rfl

theorem revalidating_queueLiveRefresh {r : Router V P} {keys : List String} {reason : LoadReason}
    (hkeys : keys ≠ [])
    (hun : ∀ k ∈ keys, (r.store.entry k).record = none ∨ (r.store.entry k).stale = true) :
    Revalidating (r.queueLiveRefresh keys reason) keys := by
  unfold queueLiveRefresh
  rw [if_neg hkeys]
  refine ⟨rfl, fun k hk => ⟨?_, hun k hk⟩⟩
  simp [hk]

/-- Running the loop of an invalidation to its end revalidates its keys. -/
theorem exec_invalidateLive (keys rest : List String) (reason : LoadReason) (servedAt : Nat)
    (r : Router V P) (hkeys : keys ≠ []) (hturn : r.turn = [.invalidateLive keys rest reason servedAt])
    (hun : ∀ k ∈ keys, k ∈ rest ∨ (r.store.entry k).record = none ∨
      (r.store.entry k).stale = true) :
    -- Induction on the keys that are left: the head is marked, the others stay as they are.
    ∃ s, exec step r (List.replicate (rest.length + 1) .resume) = some s ∧ s.turn = [] ∧
      Revalidating s keys := by
  induction rest generalizing r with
  | nil =>
    refine ⟨({ r with turn := [] }).queueLiveRefresh keys reason, ?_, ?_, ?_⟩
    · simp [exec, step, resume, hturn, runTask, stepInvalidateLive]
    · unfold queueLiveRefresh
      rw [if_neg hkeys]
    -- a key that was confirmed nowhere stays so when another key is marked
    · exact revalidating_queueLiveRefresh hkeys fun k hk => (hun k hk).resolve_left (by simp)
  | cons key rest ih =>
    set next := ({ r with turn := [] }).runTask
      (.invalidateLive keys (key :: rest) reason servedAt) with hnext
    have hstep : r.step .resume = some next := by simp [step, resume, hturn, hnext]
    have hstore : next.store = r.store.markStale key := rfl
    obtain ⟨s, hexec, hs⟩ := ih next rfl fun k hk => by
      by_cases hrest : k ∈ rest
      · exact .inl hrest
      · refine .inr ?_
        rw [hstore]
        refine unconfirmed_markStale _ _ ?_
        rcases hun k hk with hmem | hun
        · rcases List.mem_cons.mp hmem with rfl | hmem
          · exact .inl rfl
          · exact absurd hmem hrest
        · exact .inr hun
    refine ⟨s, ?_, hs⟩
    rw [List.length_cons, List.replicate_succ, exec, hstep]
    exact hexec

theorem turn_resync (r : Router V P) (manifest : LiveManifest) (reason : String) (servedAt : Nat)
    (hmanifest : r.liveManager.manifest = some manifest) (hkeys : manifest.keys ≠ [])
    (hidle : r.turn = []) :
    (r.handleLiveEvent (.resync manifest.keys reason) servedAt).turn =
      [.invalidateLive manifest.keys manifest.keys .liveReconnect servedAt] := by
  have hactive : manifest.keys.filter (· ∈ r.activeLiveKeys) = manifest.keys := by
    simp [activeLiveKeys, hmanifest]
  simp only [handleLiveEvent, hactive, if_neg hkeys, push, hidle]

/-- In a run whose `connect()` calls never reopen a stream, the first ready event of a stream that
was opened again for an unchanged manifest dispatches a resync of the whole manifest, after which
every key of it is queued for a refresh and whatever is held of it is stale. -/
theorem ready_resumed_revalidates {r r' : Router V P} {c : LiveConnection} {keys : List String}
    {servedAt : Nat} (hr : ReachableUnder NoReopen r) (hc : r.liveManager.connection = some c)
    (hresumed : c.resumed = true)
    (hready : r.step (.streamEvent (.ready keys) servedAt) = some r') :
    ∃ manifest, r.liveManager.manifest = some manifest ∧
      r'.turn = [.invalidateLive manifest.keys manifest.keys .liveReconnect servedAt] ∧
      ∃ s, exec step r' (List.replicate (manifest.keys.length + 1) .resume) = some s ∧
        s.turn = [] ∧ Revalidating s manifest.keys := by
  have hsound := sound_reachable hr
  have hattempt := hsound.resumed_attempt c hc hresumed
  obtain ⟨manifest, hmanifest⟩ := Option.ne_none_iff_exists'.mp (hsound.connection_manifest c hc)
  have hkeys := hsound.manifest_keys manifest hmanifest
  obtain ⟨hidle, hready⟩ := notified_eq_some hready
  rw [hc, Option.map_some, Option.some.injEq] at hready
  have hturn : r'.turn = [.invalidateLive manifest.keys manifest.keys .liveReconnect servedAt] := by
    have hreceive : (r.liveManager.receive c r.now (.ready keys : LiveEvent P)).2 =
        [.ready keys, .resync manifest.keys "reconnect"] := by
      simp [LiveManager.receive, hmanifest, hattempt]
    rw [← hready, receiveStreamEvent, hreceive]
    refine turn_resync (r.withLive _) manifest "reconnect" servedAt ?_ hkeys hidle
    simp [withLive, LiveManager.receive, hmanifest, hattempt]
  refine ⟨manifest, hmanifest, hturn, ?_⟩
  exact exec_invalidateLive manifest.keys manifest.keys _ servedAt r' hkeys hturn
    fun k hk => .inl hk

end Router

/-! ## Two runs -/

section Runs

/-- A page with one live key. -/
def livePage : PageEnvelope Nat :=
  { page := { component := "Board", url := "/board" }
    resources := .ofList [("tasks", ⟨"v1", 1⟩)]
    resourceKeys := some ["tasks"]
    live := some ["tasks"] }

/-- The stream breaks and the reconnect timer opens it again. -/
def brokenStream : List (Action Nat Nat) :=
  [.startLive, .streamEvent (.ready ["tasks"]) 0, .streamError, .reconnectTimer]

/-- A navigation fails, and its error path opens the stream again. -/
def failedNavigation : List (Action Nat Nat) :=
  [.startLive, .streamEvent (.ready ["tasks"]) 0, .visit "/other" {},
    .visitFailure 0 { name := "TransportError", message := "offline" }]

theorem ready_resumed_revalidates_brokenStream :
    ∃ r s : Router Nat Nat, Router.ReachableUnder Router.NoReopen r ∧
      Router.Revalidating s ["tasks"] := by
  obtain ⟨r, hr⟩ : ∃ r, Router.runUnder Router.NoReopen { initialEnvelope := some livePage }
      brokenStream = some r := Option.isSome_iff_exists.mp (by decide)
  have hc : (Router.runUnder Router.NoReopen { initialEnvelope := some livePage }
      brokenStream).bind (·.liveManager.connection) = some ⟨1, true⟩ := by decide
  have hm : (Router.runUnder Router.NoReopen { initialEnvelope := some livePage }
      brokenStream).bind (·.liveManager.manifest) = some ⟨"/board", ["tasks"]⟩ := by decide
  have hready : ((Router.runUnder Router.NoReopen { initialEnvelope := some livePage }
      brokenStream).bind fun r => r.step (.streamEvent (.ready ["tasks"]) 1)).isSome := by decide
  rw [hr, Option.bind_some] at hc hm hready
  obtain ⟨r', hstep⟩ := Option.isSome_iff_exists.mp hready
  obtain ⟨manifest, hmanifest, -, s, -, -, hs⟩ :=
    Router.ready_resumed_revalidates (Router.reachableUnder_of_runUnder hr) hc rfl hstep
  rw [hm, Option.some.injEq] at hmanifest
  subst hmanifest
  exact ⟨r, s, Router.reachableUnder_of_runUnder hr, hs⟩

/-- After a failed navigation the resumed stream becomes ready and nothing is revalidated: no
resync is dispatched, no refresh is queued, and the held value still counts as current. -/
theorem ready_resumed_without_resync :
    ¬∀ (r r' : Router Nat Nat) (c : LiveConnection) (keys : List String) (servedAt : Nat),
      Router.Reachable r → r.liveManager.connection = some c → c.resumed = true →
      r.step (.streamEvent (.ready keys) servedAt) = some r' →
      ∃ manifest, r.liveManager.manifest = some manifest ∧
        r'.turn = [.invalidateLive manifest.keys manifest.keys .liveReconnect servedAt] := by
  intro hall
  obtain ⟨r, hr⟩ : ∃ r, Router.run { initialEnvelope := some livePage } failedNavigation = some r :=
    Option.isSome_iff_exists.mp (by decide)
  have hc : (Router.run { initialEnvelope := some livePage } failedNavigation).bind
      (·.liveManager.connection) = some ⟨0, true⟩ := by decide
  have hidle : (Router.run { initialEnvelope := some livePage } failedNavigation).bind (fun r =>
      (r.step (.streamEvent (.ready ["tasks"]) 1)).map fun r' => r'.turn.isEmpty) = some true := by
    decide
  rw [hr, Option.bind_some] at hc hidle
  obtain ⟨r', hstep, hturn⟩ := Option.map_eq_some_iff.mp hidle
  obtain ⟨manifest, -, hresync⟩ := hall r r' _ _ _ (Router.reachable_of_run hr) hc rfl hstep
  rw [hresync] at hturn
  cases hturn

end Runs

end FluxFast.Core
