import FluxFast.Core.CoverageStarts
import FluxFast.Core.LiveGap
import FluxFast.Core.Steps

/-!
# Orphans — no key is left loading with nothing under way

`KeepsCovers` says of a step, by the state before it, that it takes no key's last cover away.  In
every run whose steps all meet it, every key that is shown as loading between two turns has an
unfinished load that captured its current epoch, or waits in the live refresh queue.
-/

namespace FluxFast.Core

open FluxFast.Theory

set_option linter.unusedSectionVars false

namespace Router

variable {V P : Type} [DecidableEq V] [Patchable V P]

/-! ## The condition -/

/-- The refresh timer loads the key. -/
def Refreshed (r : Router V P) (k : String) : Prop :=
  r.liveManager.manifest.isSome = true ∧ r.liveStarted = true ∧ k ∈ r.pendingLiveRefreshKeys ∧
    k ∈ r.activeLiveKeys

/-- An open load at the key's epoch, or a call that is being applied, settles the key. -/
def Held (r : Router V P) (k : String) : Prop := r.InLoad k ∨ r.Pledged k

/-- Leaving a page drops the live refresh queue and the navigation that is being applied, and
restores what the deferred batch and the live loads captured.  No key waits for one of the first
two alone, and none of the last is about to be marked again. -/
structure LeavesNone (r : Router V P) : Prop where
  queued : ∀ k, r.Queued k → r.Needs k → r.Held k ∨ r.LeftBehind k
  shown : ∀ k, r.Shown k → r.Loading k → r.Held k ∨ r.LeftBehind k
  starting : ∀ k, r.Marked k → r.LeftBehind k → r.Pledged k

/-- Stopping live synchronization drops the queue and restores what the live loads captured. -/
structure StopsNone (r : Router V P) : Prop where
  queued : ∀ k, r.Queued k → r.Needs k →
    r.Held k ∨ r.LiveHeld k ∨ (r.Shown k ∧ ¬r.Marked k)
  starting : ∀ k, r.Marked k → r.LiveHeld k → r.Pledged k

/-- Starting a deferred batch restores what the batch before it captured. -/
def DefersNone (r : Router V P) (keys : List String) : Prop :=
  ∀ k, r.Marked k → r.DeferredHeld k → k ∈ keys ∨ r.Queued k ∨ r.Pledged k

/-- Applying a page response bumps every eligible key and writes those that it carries. -/
structure NavigatesNone (r : Router V P) (call : VisitCall) (envelope : PageEnvelope V) : Prop where
  carried : r.isCurrent call = true → ∀ k ∈ r.eligibleKeys envelope call.startedAtEpoch,
    r.Loading k → Carried envelope k ∨ r.Queued k ∨ r.Pledged k ∨ r.Shown k
  starting : r.isCurrent call = true → ∀ k ∈ r.eligibleKeys envelope call.startedAtEpoch,
    r.Marked k → r.Queued k ∨ r.Pledged k

/-- A redirect drops the load of the keys that the mutation invalidated. -/
def MutatesNone (r : Router V P) (mutation : AppliedMutation P) (active : List String) : Prop :=
  match mutation.call.visitCounter == r.visitCounter, truthy mutation.payload.externalRedirect,
      truthy mutation.payload.redirect with
  | true, some _, _ => ∀ k ∈ active, r.Loading k → r.InLoad k ∨ r.Queued k
  | true, none, some _ =>
    r.LeavesNone ∧ ∀ k ∈ active, r.Loading k → r.InLoad k ∨ r.LeftBehind k
  | _, _, _ => True

def TaskKeepsCovers (r : Router V P) : Task V P → Prop
  | .navBegin call envelope _ => r.NavigatesNone call envelope
  | .navFollowUp nav =>
    r.isCurrent nav.call = true → nav.applied.deferredKeys ≠ [] →
      r.DefersNone nav.applied.deferredKeys
  | .patchMutation _ patches =>
    -- a patch that throws leaves its key bumped, and ends the call
    ∀ e ∈ patches.head?, patchOrInvalidate r.store r.now e.1 e.2 = none →
      r.Loading e.1 → r.Queued e.1
  | .invalidateMutation mutation [] active => r.MutatesNone mutation active
  | .patchLive keys patches _ =>
    ∀ e ∈ patches.head?, patchIfHeld r.store r.now e.1 e.2 = none →
      ∀ k ∈ keys, r.Loading k → r.Queued k ∨ (k ≠ e.1 ∧ r.InLoad k)
  | _ => True

/-- The step does not take away the last thing that a loading key, or one about to be marked so,
waits for. -/
def KeepsCovers (r : Router V P) : Action V P → Prop
  | .visit _ _ => r.LeavesNone
  | .refresh only => only = [] → r.LeavesNone
  | .popState url =>
    match (r.pageCache.getValid url r.store).1 with
    | some cached =>
      -- the queue is dropped, but the cached page brings keys of its own
      ∀ k, r.Queued k → r.Loading k → k ∈ cached.pendingDeferred ∨ r.InLoad k ∨ r.LeftBehind k
    | none => r.LeavesNone
  | .stopLive => r.StopsNone
  | .startInitialDeferred => ∀ batch ∈ r.initialDeferredBatch, r.DefersNone batch.1
  -- the timer drops what the manifest does not name
  | .liveRefreshTimer => ∀ k, r.Queued k → r.Loading k → r.Refreshed k ∨ r.InLoad k
  | .visitResponse index envelope => ∀ call ∈ r.visits[index]?, r.NavigatesNone call envelope
  | .visitPrefetched index =>
    ∀ call ∈ r.visits[index]?, ∀ fetched : PrefetchedEnvelope V,
      call.pending.bind r.prefetchOutcome = some (.ok fetched) →
        r.NavigatesNone call fetched.envelope
  | .resume =>
    match r.turn with
    | t :: rest => ({ r with turn := rest } : Router V P).TaskKeepsCovers t
    | [] => True
  | _ => True

/-! ## What the condition leaves to every key -/

section Surviving

variable {r : Router V P} {k : String} {E : String → Prop}

theorem survives_of_restored {bumped : String → Prop} {queueKept navigationKept : Prop}
    (hstarting : r.Marked k → bumped k → r.Pledged k) (h : bumped k) :
    r.Survives bumped bumped queueKept navigationKept k := by
  by_cases hm : r.Marked k
  · exact .inl (hstarting hm h)
  · exact .inr (.inr (.inr ⟨hm, .inl h⟩))

theorem survives_of_held {bumped : String → Prop} {queueKept navigationKept : Prop}
    (hstarting : r.Marked k → bumped k → r.Pledged k) (h : r.Held k) :
    r.Survives bumped bumped queueKept navigationKept k := by
  rcases h with hin | hp
  · by_cases hk : bumped k
    · exact survives_of_restored hstarting hk
    · exact .inr (.inr (.inl ⟨hk, hin⟩))
  · exact .inl hp

theorem LeavesNone.survives (h : r.LeavesNone) (hr : r.CoveredBut E) (hb : r.resources.Bounded)
    (hE : ¬E k) (hk : r.Needs k) : r.Survives r.LeftBehind r.LeftBehind False False k := by
  have hone : r.Held k ∨ r.LeftBehind k →
      r.Survives r.LeftBehind r.LeftBehind False False k := fun hk =>
    hk.elim (survives_of_held (h.starting k)) (survives_of_restored (h.starting k))
  have hsecured : r.Secured k → r.Survives r.LeftBehind r.LeftBehind False False k := by
    rintro (hin | hq | hp)
    · exact hone (.inl (.inl hin))
    · exact hone (h.queued k hq hk)
    · exact .inl hp
  by_cases hm : r.Marked k
  · exact hsecured (hr.marked hb k hE hm)
  · have hloading := hk.resolve_right hm
    rcases hr.loading hb k hE hloading with hs | hs
    · exact hsecured hs
    · exact hone (h.shown k hs hloading)

theorem StopsNone.survives (h : r.StopsNone) (hr : r.AllCovered) (hb : r.resources.Bounded)
    (hk : r.Needs k) : r.Survives r.LiveHeld r.LiveHeld False True k := by
  have hsecured : r.Secured k → r.Survives r.LiveHeld r.LiveHeld False True k := by
    rintro (hin | hq | hp)
    · exact survives_of_held (h.starting k) (.inl hin)
    · rcases h.queued k hq hk with hheld | hlive | ⟨hs, hm⟩
      · exact survives_of_held (h.starting k) hheld
      · exact survives_of_restored (h.starting k) hlive
      · exact .inr (.inr (.inr ⟨hm, .inr ⟨trivial, hs⟩⟩))
    · exact .inl hp
  by_cases hm : r.Marked k
  · exact hsecured (hr.marked hb k id hm)
  · rcases hr.loading hb k id (hk.resolve_right hm) with hs | hs
    · exact hsecured hs
    · exact .inr (.inr (.inr ⟨hm, .inr ⟨trivial, hs⟩⟩))

theorem DefersNone.survives {keys : List String} (h : r.DefersNone keys) (hr : r.AllCovered)
    (hb : r.resources.Bounded) (hk : r.Needs k) :
    (k ∈ keys ∧ k ≠ "") ∨ r.Survives r.DeferredHeld r.DeferredHeld True True k := by
  by_cases hd : r.DeferredHeld k
  · by_cases hm : r.Marked k
    · rcases h k hm hd with hkeys | hq | hp
      · exact .inl ⟨hkeys, hr.nonempty_of_marked hm⟩
      · exact .inr (.inr (.inl ⟨trivial, hq⟩))
      · exact .inr (.inl hp)
    · exact .inr (.inr (.inr (.inr ⟨hm, .inl hd⟩)))
  · exact .inr (survives_of_covered hr hb hk hd)

theorem NavigatesNone.survives {call : VisitCall} {envelope : PageEnvelope V}
    (h : r.NavigatesNone call envelope) (hcurrent : r.isCurrent call = true)
    (hk : k ∈ r.eligibleKeys envelope call.startedAtEpoch) (hneeds : r.Needs k) :
    r.Survives (· ∈ r.eligibleKeys envelope call.startedAtEpoch) (Carried envelope) True True k := by
  by_cases hm : r.Marked k
  · rcases h.starting hcurrent k hk hm with hq | hp
    · exact .inr (.inl ⟨trivial, hq⟩)
    · exact .inl hp
  · rcases h.carried hcurrent k hk (hneeds.resolve_right hm) with hc | hq | hp | hs
    · exact .inr (.inr (.inr ⟨hm, .inl hc⟩))
    · exact .inr (.inl ⟨trivial, hq⟩)
    · exact .inl hp
    · exact .inr (.inr (.inr ⟨hm, .inr ⟨trivial, hs⟩⟩))

end Surviving

/-! ## The remaining operations -/

theorem covered_beginPrefetch {r : Router V P} (hr : r.AllCovered) (hidle : r.turn = [])
    (call : PrefetchCall V) (fetched : PrefetchedEnvelope V) :
    (r.beginPrefetch call fetched).AllCovered := by
  -- An outlived call changes nothing; otherwise the safe keys are bumped and pledged at once.
  unfold beginPrefetch
  split
  · exact hr
  · next hgen =>
    dsimp only
    set safe := r.safeResources call fetched.envelope with hsafe
    set t : Task V P := .applyPrefetch call fetched safe.entries _ with ht
    set r' := ({ r with resources := r.resources.bumpAll safe.keys (.prefetch fetched.request) } : Router V P).push t
      with hr'
    have h : Advance (· ∈ safe.keys) [] [t] r r' :=
      { turn := ⟨r.turn, rfl, rfl⟩
        generation := rfl
        visit := rfl
        loads := fun _ h => .inl h
        queue := fun _ hq => hq
        outside := Resources.outside_bumpAll _ _ _ }
    have hnomark : ∀ k, ∀ s ∈ [t], s.Marks r' k → False := by
      intro k s hs hm
      rw [List.mem_singleton] at hs
      subst hs
      exact hm
    have hloading : ∀ k, r'.Loading k → r.Loading k := by
      intro k hl
      have hentry : r'.resources.entry k = r.resources.entry k := by
        show ResourceStore.entry _ k = ResourceStore.entry _ k
        rw [show r'.resources.resourceStore = r.resources.resourceStore from
          Resources.resourceStore_bumpAll _ _ _]
      rwa [Loading, hentry] at hl
    have hb : r'.resources.Bounded → r.resources.Bounded := fun hb =>
      hb.of_suffix h.outside.suffix
    -- a key that is bumped here is one that the new part will write
    refine h.coveredBut hr (fun rest hrest _ => ?_) (fun _ s hs => ?_)
      (fun hb' k _ hl => hr.named (hb hb') k (hloading k hl)) (fun _ _ _ s hs => by cases hs)
      (fun _ _ s hs => by cases hs) (fun k _ s hs hm => (hnomark k s hs hm).elim)
      (fun _ hE => .inl hE)
      (fun _ k _ hk _ => .inl (.inr (.inr ⟨t, List.mem_cons_self .., not_not.mp hgen, hk⟩)))
      (fun _ k _ _ hm => ?_)
    · have hrest : rest = [] := by simpa [hidle] using hrest.symm
      rw [hrest]
      exact ⟨fun _ => rfl, trivial⟩
    · rw [List.mem_singleton] at hs
      subst hs
      trivial
    -- nothing is marked between two turns
    · exact absurd (h.marked (fun s hs hm => (hnomark k s hs hm).elim) hm)
        (not_marked_of_idle hidle k)

theorem covered_finishMutation {r : Router V P} {active : List String}
    (hr : r.CoveredBut (· ∈ active)) (mutation : AppliedMutation P)
    (hok : r.MutatesNone mutation active) (hidle : r.turn = []) :
    (r.finishMutation mutation active).AllCovered := by
  -- The reload of the active keys covers them in every branch that stays on the page.
  have hload : (if active = [] then r
      else r.loadResources active { url := some r.currentUrl, reason := .mutation }).AllCovered := by
    split
    · next hnone => exact hr.mono fun k hk => by simp [hnone] at hk
    · exact coveredBut_loadResources (hr.nonempty.mono fun k hk => .inr hk) _
  unfold finishMutation
  unfold MutatesNone at hok
  dsimp only
  generalize (mutation.call.visitCounter == r.visitCounter) = canRedirect at hok ⊢
  generalize truthy mutation.payload.externalRedirect = external at hok ⊢
  generalize truthy mutation.payload.redirect = redirect at hok ⊢
  cases canRedirect with
  -- a visit has begun since the call: no redirect
  | false => exact hload
  | true =>
    cases external with
    -- the document is left: what the mutation invalidated has to be covered otherwise
    | some url =>
      have hcovered : ∀ k, r.resources.Bounded → r.Loading k → r.Covered k := by
        intro k hb hl
        by_cases hk : k ∈ active
        · rcases hok k hk hl with hin | hq
          · exact .inl (.inl hin)
          · exact .inl (.inr (.inl hq))
        · exact hr.loading hb k hk hl
      have hrest : ({ r with hardNavigations := r.hardNavigations ++ [url] } : Router V P
          ).AllCovered := by
        refine CoveredBut.congr (r := r) ?_ rfl rfl rfl rfl rfl rfl (.refl _ _)
        exact { layered := hr.layered, formed := hr.formed, named := hr.named, exact := hr.exact
                loading := fun hb k _ hl => hcovered k hb hl
                marked := fun _ k _ hm => absurd hm (not_marked_of_idle hidle k) }
      exact hrest
    | none =>
      cases redirect with
      -- a redirect leaves the page, so what it drops must be held or restored
      | some url =>
        obtain ⟨hleaves, hactive⟩ := hok
        refine covered_startVisit hr _ _ _ fun hb k hn => ?_
        by_cases hk : k ∈ active
        · have hloading := hn.resolve_right (not_marked_of_idle hidle k)
          rcases hactive k hk hloading with hin | hleft
          · exact survives_of_held (hleaves.starting k) (.inl hin)
          · exact survives_of_restored (hleaves.starting k) hleft
        · exact hleaves.survives hr hb hk hn
      | none => exact hload

theorem covered_stopLive {r : Router V P} (hr : r.AllCovered) (hok : r.StopsNone) :
    r.stopLive.AllCovered := by
  have hsuperseded : Resources.Restores r.LiveHeld r.resources r.stopLive.resources :=
    Resources.restores_batches _ _ _
  exact coveredBut_survive hr rfl rfl rfl hsuperseded False.elim (fun _ => rfl)
    fun hb k _ hn => hok.survives hr hb hn

/-- The timer drops the queue, and loads those of its keys that the live page still names. -/
theorem covered_cancelPendingLiveRefresh {r : Router V P} (hr : r.AllCovered) (hidle : r.turn = [])
    (hok : ∀ k, r.Queued k → r.Loading k → r.Refreshed k ∨ r.InLoad k) :
    r.cancelPendingLiveRefresh.CoveredBut r.Refreshed := by
  refine coveredBut_survive hr rfl rfl rfl (Resources.Restores.refl _) False.elim
    (fun _ : True => rfl) fun hb k hk hn => ?_
  have hloading := hn.resolve_right (not_marked_of_idle hidle k)
  rcases hr.loading hb k id hloading with (hin | hq | ⟨t, ht, -⟩) | ⟨t, ht, -⟩
  · exact .inr (.inr (.inl ⟨id, hin⟩))
  · exact .inr (.inr (.inl ⟨id, (hok k hq hloading).resolve_left hk⟩))
  · rw [hidle] at ht
    cases ht
  · rw [hidle] at ht
    cases ht

theorem covered_refreshNothing {r : Router V P} (hr : r.AllCovered) (hidle : r.turn = [])
    (hok : ∀ k, r.Queued k → r.Loading k → r.Refreshed k ∨ r.InLoad k)
    (hnothing : r.liveManager.manifest = none ∨ r.liveStarted = false ∨
      r.pendingLiveRefreshKeys.filter (· ∈ r.activeLiveKeys) = []) :
    r.cancelPendingLiveRefresh.AllCovered := by
  refine (covered_cancelPendingLiveRefresh hr hidle hok).mono ?_
  rintro k ⟨hmanifest, hstarted, hkey, hactive⟩
  rcases hnothing with hnone | hstopped | hnone
  · simp [hnone] at hmanifest
  · rw [hstopped] at hstarted
    cases hstarted
  · have hmem : k ∈ r.pendingLiveRefreshKeys.filter (· ∈ r.activeLiveKeys) := by simp [hkey, hactive]
    rw [hnone] at hmem
    cases hmem

theorem covered_refreshLive {r : Router V P} (hr : r.AllCovered) (hidle : r.turn = [])
    (hok : ∀ k, r.Queued k → r.Loading k → r.Refreshed k ∨ r.InLoad k)
    (options : LoadResourcesOptions) :
    (r.cancelPendingLiveRefresh.loadResources
      (Text.sort (r.pendingLiveRefreshKeys.filter (· ∈ r.activeLiveKeys))) options).AllCovered := by
  have hcleared := covered_cancelPendingLiveRefresh hr hidle hok
  refine coveredBut_loadResources (hcleared.nonempty.mono fun k hk => .inr ?_) _
  obtain ⟨⟨-, -, hkey, hactive⟩, hne⟩ := hk
  exact ⟨by simp [hkey, hactive], hne⟩

/-- Clearing leaves no key, and its new lifecycle drops every load that is starting. -/
theorem covered_clear {r : Router V P} (hr : r.AllCovered) : r.clear.AllCovered := by
  have hgen : r.clear.lifecycleGeneration = r.lifecycleGeneration + 1 := rfl
  have hturn : r.clear.turn = r.turn := rfl
  have hnot : ∀ k, ¬r.clear.Loading k := by
    intro k hl
    have hentry : r.clear.resources.entry k = .evicted := ResourceStore.entry_clear _ k
    rw [Loading, hentry] at hl
    cases hl
  refine { layered := hr.layered, formed := fun t ht => ?_, named := fun _ k hl => absurd hl (hnot k)
           exact := fun _ => ⟨rfl, fun k hk => by cases hk⟩
           loading := fun _ k _ hl => absurd hl (hnot k), marked := fun _ k _ hm => ?_ }
  · have hf := hr.formed t ht
    cases t with
    | markLoading call rest => exact ⟨hf.1.trans (Nat.le_succ _), hf.2⟩
    | _ => exact hf
  · obtain ⟨t, ht, hmark⟩ := hm
    have hf := hr.formed t ht
    cases t with
    | markLoading call rest =>
      have hlt : call.lifecycleGeneration ≤ r.lifecycleGeneration := hf.1
      have heq : call.lifecycleGeneration = r.lifecycleGeneration + 1 := hmark.1
      omega
    | _ => exact hmark.elim

theorem markPending_entries (store : ResourceStore V) (keys : List String) :
    (∀ k ∉ keys, ResourceStore.Kept store (store.markPending keys) k) ∧
      ∀ k ∈ keys, ((store.markPending keys).entry k).status ≠ .loading := by
  induction keys generalizing store with
  | nil => exact ⟨fun k _ => .refl _ k, fun k hk => by cases hk⟩
  | cons key keys ih =>
    obtain ⟨hkept, hmem⟩ := ih (store.markPending [key])
    have hfirst : ∀ k, k ≠ key → ResourceStore.Kept store (store.markPending [key]) k :=
      fun k hk => ResourceStore.kept_showUnsettled _ _ _ hk
    refine ⟨fun k hk => ?_, fun k hk => ?_⟩
    · simp only [List.mem_cons, not_or] at hk
      exact (hfirst k hk.1).trans (hkept k hk.2)
    · by_cases hin : k ∈ keys
      · exact hmem k hin
      · have hkey := (List.mem_cons.mp hk).resolve_right hin
        subst hkey
        rcases hkept k hin with hsame | hevicted
        · rw [show (store.markPending (k :: keys)) = (store.markPending [k]).markPending keys from
            rfl, hsame]
          exact ResourceStore.status_markPending_ne_loading _ _
        · rw [show (store.markPending (k :: keys)) = (store.markPending [k]).markPending keys from
            rfl, hevicted]
          simp

theorem covered_restorePage {r : Router V P} (hr : r.AllCovered) (hidle : r.turn = [])
    (url : String) (cached : CachedPage V)
    (hsurvive : r.resources.Bounded → ∀ k, r.Needs k → k ∈ cached.pendingDeferred ∨
      r.Survives r.LeftBehind r.LeftBehind False False k) :
    (r.restorePage url cached).AllCovered := by
  -- Leaving covers all but the page's own pending keys; showing the page settles these.
  have hleft : r.leavePage.CoveredBut (· ∈ cached.pendingDeferred) :=
    coveredBut_survive hr rfl rfl rfl (restores_leavePage r) False.elim False.elim
      fun hb k hk hn => (hsurvive hb k hn).resolve_left hk
  have hentries := markPending_entries r.leavePage.store cached.pendingDeferred
  set shown : Router V P :=
    { r.leavePage.withStore (r.leavePage.store.markPending cached.pendingDeferred) with
      pageStore := ⟨cached.component, cached.url, cached.pageMeta⟩ } with hshown
  have hshownIdle : shown.turn = [] := hidle
  have hpending : shown.AllCovered := by
    have h : Advance (· ∈ cached.pendingDeferred) [] [] r.leavePage shown :=
      { turn := ⟨r.leavePage.turn, rfl, rfl⟩
        generation := rfl
        visit := rfl
        -- the pending keys are shown as such, so none of them loads
        loads := fun _ h => .inl h
        queue := fun _ hq => hq
        outside := Resources.outside_withStore _ hentries.1 }
    exact h.coveredBut hleft (fun _ _ hl => hl) (fun _ t ht => by cases ht)
      (fun _ k hk hl => absurd hl (hentries.2 k hk)) (fun _ _ _ t ht => by cases ht)
      (fun _ _ t ht => by cases ht) (fun _ _ t ht => by cases ht) (fun _ hE => .inr hE)
      (fun _ k _ hk hl => absurd hl (hentries.2 k hk))
      (fun _ k _ _ hm => absurd hm (not_marked_of_idle hshownIdle k))
  -- a manifest that is refused leaves the page without a stream
  unfold restorePage
  dsimp only
  split
  · exact hpending
  · next manager hupdate =>
    have hconnected : ({ shown with
        liveManager := if shown.liveStarted then manager.connect else manager } :
          -- the deferred batch of the cached page starts last, from what is covered by then
          Router V P).AllCovered :=
      hpending.congr rfl rfl rfl rfl rfl rfl (.refl _ _)
    split
    · exact hconnected
    · refine covered_startDeferredBatch hconnected _ _ fun hb k hn => .inr ?_
      refine survives_of_covered hconnected hb hn fun hk => ?_
      cases hk.1

-- A part that promises nothing is simply popped.
/-! ## Every step -/

theorem covered_runTask {r : Router V P} {t : Task V P} {rest : List (Task V P)}
    (hr : r.AllCovered) (ht : r.turn = t :: rest)
    (hok : ({ r with turn := rest } : Router V P).TaskKeepsCovers t) :
    (({ r with turn := rest } : Router V P).runTask t).AllCovered := by
  have hsilent : (∀ k, ¬r.Promises t k) → ({ r with turn := rest } : Router V P).AllCovered :=
    covered_pop hr ht
  cases t with
  | markLoading call keys => exact covered_stepMarkLoading hr ht
  | captureDeferred keys =>
    exact (hsilent fun k hk => hk.elim id (Or.elim · id id)).congr rfl rfl rfl rfl rfl rfl
      (.refl _ _)
  | settleLoad call envelope keys settled => exact covered_stepSettleLoad hr ht
  | rejectLoad call failure aborted keys settled => exact covered_stepRejectLoad hr ht
  | navBegin call envelope origin =>
    exact covered_beginNavigation (hsilent fun k hk => hk.elim id (Or.elim · id id)) _ _ _
      fun hcurrent _ _ => hok.survives hcurrent
  -- what a navigation still writes it shows; a part of it passes the rest on
  | navResources nav records => exact covered_stepNavResources hr ht
  | navErrors nav errors => exact covered_stepNavErrors hr ht
  | navDeferred nav keys => exact covered_stepNavDeferred hr ht
  | navShell nav => exact covered_stepNavShell hr ht
  | navManifest nav => exact covered_stepNavManifest hr ht
  | navCommit nav => exact covered_stepNavCommit hr ht
  | navFollowUp nav =>
    -- the deferred batch starts below the part that looks for missing keys
    have hpop := hsilent fun k hk => hk.elim id (Or.elim · id id)
    have hwaiting : (({ r with turn := rest } : Router V P).push (.navMissing nav)).AllCovered :=
      coveredBut_push hpop nofun trivial fun _ => id
    simp only [runTask, stepNavFollowUp]
    split
    · next hcurrent =>
      split
      · exact hwaiting
      · next hdeferred =>
        refine covered_startDeferredBatch hwaiting _ _ fun hb k hn => ?_
        exact ((hok hcurrent hdeferred).survives hpop hb (needs_of_push id hn)).imp_right
          (survives_push id)
    · exact covered_finishVisit hpop nav.call
  | navMissing nav =>
    have hpop := hsilent fun k hk => hk.elim id (Or.elim · id id)
    have htouched : ∀ keys : List String, (({ r with turn := rest } : Router V P).withStore
        (keys.foldl (fun store key => store.touchState key) r.store)).AllCovered := fun keys =>
      hpop.congr rfl rfl rfl rfl rfl rfl
        (Resources.outside_withStore _ fun k _ => .of_eq (ResourceStore.entry_touchAll _ keys k))
    simp only [runTask, stepNavMissing]
    split
    · exact covered_loadResources (covered_finishVisit (htouched _) _) _ _
    · exact covered_finishVisit (htouched _) _
  | applyPrefetch call fetched records race => exact covered_stepApplyPrefetch hr ht
  | patchMutation mutation patches => exact covered_stepPatchMutation hr ht hok
  | invalidateMutation mutation keys active =>
    cases keys with
    | nil =>
      refine covered_finishMutation ((coveredBut_pop hr ht).mono fun k hk => ?_) mutation hok
        (layered_tail hr ht rfl)
      exact hk.elim False.elim (Or.elim · False.elim (Or.elim · id False.elim))
    | cons key keys => exact covered_stepInvalidateMutation_cons hr ht
  | patchLive keys patches servedAt => exact covered_stepPatchLive hr ht hok
  | invalidateLive keys names reason servedAt => exact covered_stepInvalidateLive hr ht

theorem covered_lookUpPage {r : Router V P} (hr : r.AllCovered) (url : String) :
    (r.lookUpPage url).AllCovered ∧ ∀ k, (r.lookUpPage url).Loading k → r.Loading k := by
  have hentry : ∀ k, (r.lookUpPage url).resources.entry k = r.resources.entry k := fun k =>
    PageCache.entry_getValid _ _ _ k
  refine ⟨hr.congr rfl rfl rfl rfl rfl rfl
    (Resources.outside_withStore _ fun k _ => .of_eq (hentry k)), fun k hl => ?_⟩
  rwa [Loading, hentry] at hl

theorem covered_step {r r' : Router V P} {a : Action V P} (hr : r.AllCovered)
    (hok : r.KeepsCovers a) (h : r.step a = some r') : r'.AllCovered := by
  -- What only hands the stream over changes no resource.
  have hlive : ∀ manager, (r.withLive manager).AllCovered := fun manager =>
    hr.congr rfl rfl rfl rfl rfl rfl (.refl _ _)
  -- The condition speaks of the steps that leave a page or drop work; the others need none of it.
  cases happens_step h with
  | visit => exact covered_startVisit hr _ _ _ fun hb _ hn => hok.survives hr hb id hn
  | refreshPage => exact covered_startVisit hr _ _ _ fun hb _ hn => (hok rfl).survives hr hb id hn
  | refreshKeys | loadResources => exact covered_loadResources hr _ _
  | initialDeferred hsome =>
    -- the batch is taken out before it is started
    refine covered_startDeferredBatch (r := { r with initialDeferredBatch := none })
      (hr.congr rfl rfl rfl rfl rfl rfl (.refl _ _)) _ _ fun hb _ hn => ?_
    exact (hok _ hsome).survives hr hb hn
  | stopLive => exact covered_stopLive hr hok
  | clear => exact covered_clear hr
  | @subscribe key =>
    exact hr.congr rfl rfl rfl rfl rfl rfl
      (Resources.outside_withStore _ fun k _ => .of_eq (ResourceStore.entry_subscribe _ key k))
  | @unsubscribe key =>
    exact hr.congr rfl rfl rfl rfl rfl rfl
      (Resources.outside_withStore _ fun k _ => .of_eq (ResourceStore.entry_unsubscribe _ key k))
  | @read key =>
    exact hr.congr rfl rfl rfl rfl rfl rfl
      (Resources.outside_withStore _ fun k _ => .of_eq (ResourceStore.entry_touchState _ key k))
  -- the part is popped first, and `runTask` runs without it
  | @part t rest _ hturn _ =>
    simp only [KeepsCovers, hturn] at hok
    simp only [step, resume, hturn, Option.some.injEq] at h
    exact h ▸ covered_runTask hr hturn hok
  | loadResponse hidle hcall =>
    exact covered_receive hr hidle hcall trivial (fun _ => id) fun k hk => ⟨hk, hk.2.1⟩
  | loadFailure hidle hcall =>
    exact covered_receive hr hidle hcall trivial (fun _ => id) fun k hk => ⟨hk, hk.2.1⟩
  | @visitResponse index _ _ _ hcall =>
    exact covered_beginNavigation (r := r.dropVisit index) (hr.congr rfl rfl rfl rfl rfl rfl
      (.refl _ _)) _ _ _ fun hcurrent _ _ => (hok _ hcall).survives hcurrent
  | @visitPrefetched index _ _ _ hcall houtcome =>
    exact covered_beginNavigation (r := r.dropVisit index) (hr.congr rfl rfl rfl rfl rfl rfl
      (.refl _ _)) _ _ _ fun hcurrent _ _ => (hok _ hcall _ houtcome).survives hcurrent
  | @visitFailure index | @visitNotPrefetched index =>
    exact covered_failVisit (r := r.dropVisit index) (hr.congr rfl rfl rfl rfl rfl rfl (.refl _ _)) _ _
  | @prefetchSettled index _ _ hidle =>
    exact covered_beginPrefetch (r := { r with prefetches := r.prefetches.eraseIdx index })
      (hr.congr rfl rfl rfl rfl rfl rfl (.refl _ _)) hidle _ _
  | @mutateResponse index _ _ _ hidle =>
    exact coveredBut_push (r := { r with mutations := r.mutations.eraseIdx index })
      (hr.congr rfl rfl rfl rfl rfl rfl (.refl _ _)) (fun _ => hidle) trivial fun _ => id
  -- the lookup touches keys only, so what waits for them waits on
  | @restorePage url cached hidle hcached =>
    simp only [KeepsCovers, hcached] at hok
    obtain ⟨hlooked, hloading⟩ := covered_lookUpPage hr url
    refine covered_restorePage hlooked hidle url cached fun hb k hn => ?_
    have hl := hn.resolve_right (not_marked_of_idle hidle k)
    -- between two turns a key waits for a load or in the queue; a page that shows it needs a part
    rcases hlooked.loading hb k id hl with (hin | hq | ⟨t, ht, -⟩) | ⟨t, ht, -⟩
    · exact .inr (survives_of_held (fun hm => absurd hm (not_marked_of_idle hidle k)) (.inl hin))
    · refine (hok k hq (hloading k hl)).imp_right fun hkept => ?_
      rcases hkept with hin | hleft
      · exact survives_of_held (fun hm => absurd hm (not_marked_of_idle hidle k)) (.inl hin)
      · exact survives_of_restored (fun hm => absurd hm (not_marked_of_idle hidle k)) hleft
    · rw [show (r.lookUpPage url).turn = [] from hidle] at ht
      cases ht
    · rw [show (r.lookUpPage url).turn = [] from hidle] at ht
      cases ht
  | @revisitPage url hidle hcached =>
    simp only [KeepsCovers, hcached] at hok
    obtain ⟨hlooked, hloading⟩ := covered_lookUpPage hr url
    exact covered_startVisit hlooked _ _ _ fun hb k hn =>
      hok.survives hr hb id (hn.imp_left (hloading k))
  | refreshNothing hidle _ hnothing => exact covered_refreshNothing hr hidle hok hnothing
  | refreshLive hidle => exact covered_refreshLive hr hidle hok _
  -- an event of the stream opens a turn whose part pledges its keys
  | @streamPatch _ _ _ patches hidle =>
    exact coveredBut_push (hlive _) (fun _ => hidle) (fun e he => List.mem_map_of_mem he)
      fun _ => id
  | streamInvalidate hidle =>
    exact coveredBut_push (hlive _) (fun _ => hidle) (fun _ hk => hk) fun _ => id
  | liveConnect | liveDisconnect | liveReconnect | reconnectTimer | networkFlag | networkOnline
    | networkOffline | connectFails | streamEvent | streamEnd | streamError => exact hlive _
  | nothingDeferred | deferredReplaced => exact hr
  | _ => exact hr.congr rfl rfl rfl rfl rfl rfl (.refl _ _)

/-! ## Every run -/

/-- No key of the store is shown as loading. -/
def NoneLoading (store : ResourceStore V) : Prop := ∀ k, (store.entry k).status ≠ .loading

theorem NoneLoading.write {store store' : ResourceStore V} (h : NoneLoading store) (key : String)
    (hkept : ∀ k, k ≠ key → ResourceStore.Kept store store' k)
    (hkey : (store'.entry key).status ≠ .loading) : NoneLoading store' := by
  intro k
  by_cases hk : k = key
  · exact hk ▸ hkey
  · rcases hkept k hk with hsame | hevicted
    · rw [hsame]
      exact h k
    · rw [hevicted]
      simp

theorem noneLoading_setMany (store : ResourceStore V) (now : Nat)
    (resources : OrderedMap String (ResourceWireRecord V)) (h : NoneLoading store) :
    NoneLoading (store.setMany now resources).1 := by
  unfold ResourceStore.setMany
  generalize hacc : (store, ([] : List String)) = acc
  replace h : NoneLoading acc.1 := hacc ▸ h
  clear hacc
  induction resources.entries generalizing acc with
  | nil => exact h
  | cons e entries ih =>
    refine ih _ ?_
    exact h.write e.1 (fun k hk => ResourceStore.kept_set _ _ _ _ hk)
      (ResourceStore.status_set_ne_loading _ _ _ _ _)

theorem noneLoading_errors (errors : List (String × ResourceErrorDetail V))
    (store : ResourceStore V) (h : NoneLoading store) :
    NoneLoading (errors.foldl (fun store e => store.setResourceError e.1 e.2) store) := by
  induction errors generalizing store with
  | nil => exact h
  | cons e errors ih =>
    exact ih _ (h.write e.1 (fun k hk => ResourceStore.kept_showUnsettled _ _ _ hk)
      (ResourceStore.status_setResourceError_ne_loading _ _ _))

theorem noneLoading_markPending (store : ResourceStore V) (keys : List String)
    (h : NoneLoading store) : NoneLoading (store.markPending keys) := by
  intro k
  obtain ⟨hkept, hmem⟩ := markPending_entries store keys
  by_cases hk : k ∈ keys
  · exact hmem k hk
  · rcases hkept k hk with hsame | hevicted
    · rw [hsame]
      exact h k
    · rw [hevicted]
      simp

theorem noneLoading_initialStore (options : RuntimeOptions V) :
    NoneLoading (initialStore options) := by
  have hempty : NoneLoading ({ maxResources := options.maxResources } : ResourceStore V) := by
    intro k
    simp [ResourceStore.entry, ResourceEntry.status, missingResourceState]
  unfold initialStore
  dsimp only
  split
  · exact noneLoading_setMany _ _ _ hempty
  · exact noneLoading_markPending _ _ (noneLoading_errors _ _ (noneLoading_setMany _ _ _ hempty))

/-- A new router has no key loading and nothing under way. -/
theorem covered_initial {r : Router V P} (h : Initial r) : r.AllCovered := by
  obtain ⟨options, h⟩ := h
  have hnew : ∀ r' : Router V P, r'.turn = [] →
      r'.resources = { resourceStore := initialStore options } → r'.AllCovered := by
    intro r' hturn hres
    have hnot : ∀ k, ¬r'.Loading k := by
      intro k hl
      rw [Loading, hres] at hl
      exact noneLoading_initialStore options k hl
    refine { layered := by rw [hturn]; trivial, formed := fun t ht => ?_
             named := fun _ k hl => absurd hl (hnot k), exact := fun _ => ?_
             loading := fun _ k _ hl => absurd hl (hnot k)
             marked := fun _ k _ hm => absurd hm (not_marked_of_idle hturn k) }
    · rw [hturn] at ht
      cases ht
    · rw [hres]
      exact ⟨rfl, fun k hk => by cases hk⟩
  unfold create at h
  split at h
  · cases h
  · dsimp only at h
    split at h
    · split at h
      · cases h
      · cases h
        exact hnew _ rfl rfl
    · split at h <;> cases h <;> exact hnew _ rfl rfl

theorem covered_reachable {r : Router V P} (h : ReachableUnder KeepsCovers r) : r.AllCovered :=
  h.invariant (fun _ => covered_initial) fun _ _ _ hr hok hstep => covered_step hr hok hstep

/-- An unfinished load that captured the key's current epoch, or the queued live refresh. -/
def UnderWay (r : Router V P) (k : String) : Prop :=
  (∃ call ∈ r.loads, k ∈ call.requestedKeys ∧
      ∃ e, call.capturedEpochs.get? k = some e ∧
        (r.resources.resourceEpochs.get k).map (·.epoch) = some e) ∨
    (k ∈ r.pendingLiveRefreshKeys ∧ r.liveRefreshTimer = true)

theorem underWay_of_covered {r : Router V P} {k : String} (hidle : r.turn = [])
    (h : r.Covered k) : r.UnderWay k := by
  rcases h with ((⟨call, hcall, -, hk, he⟩ | ⟨t, ht, -⟩) | hq | ⟨t, ht, -⟩) | ⟨t, ht, -⟩
  · exact .inl ⟨call, hcall, hk, he⟩
  · rw [hidle] at ht
    cases ht
  · exact .inr hq
  · rw [hidle] at ht
    cases ht
  · rw [hidle] at ht
    cases ht

end Router

/-! ## Two runs -/

section Runs

/-- Steps that take nothing away from any key. -/
def quiet (r : Router Nat Nat) : Action Nat Nat → Bool
  | .loadResources .. | .startLive | .streamEvent .. => true
  | .resume =>
    match r.turn with
    | .markLoading .. :: _ | .invalidateLive .. :: _ => true
    | _ => false
  | _ => false

theorem keepsCovers_of_quiet {r : Router Nat Nat} {a : Action Nat Nat} (h : quiet r a = true) :
    r.KeepsCovers a := by
  cases a with
  | resume =>
    unfold quiet at h
    dsimp only at h
    unfold Router.KeepsCovers
    split at h
    · next call rest heq => simp only [heq, Router.TaskKeepsCovers]
    · next keys rest heq => simp only [heq, Router.TaskKeepsCovers]
    · cases h
  | loadResources => trivial
  | startLive => trivial
  | streamEvent => trivial
  | _ => cases h

/-- A refresh of a key is under way when a live event invalidates it. -/
def invalidatedLoad : List (Action Nat Nat) :=
  [.startLive, .loadResources ["tasks"] none .refresh none, .resume, .resume,
    .streamEvent (.invalidate ["tasks"] none) 1, .resume, .resume]

/-- Then live synchronization stops, and the refresh is answered. -/
def stoppedRefresh : List (Action Nat Nat) :=
  invalidatedLoad ++ [.stopLive, .loadResponse 0 livePage ⟨["tasks"], .empty⟩, .resume, .resume]

end Runs

end FluxFast.Core
