import FluxFast.Core.Authority
import FluxFast.Core.CoverageSteps
import FluxFast.Core.StoreInvariant

/-!
# HeldValues — which steps can change the value held under a key

`held` is the version and the value of a key's record.  A step of the router leaves them as they
are, loses them to an eviction, bumps the key, or writes a record that a response carries: `Passes`
collects the first three, and `writesRecord` names the keys of the last.  The same pass over the
steps shows that the store of a reachable router is sound.
-/

namespace FluxFast.Core

open FluxFast.Theory

set_option linter.unusedSectionVars false

variable {V P : Type} [DecidableEq V] [Patchable V P]

namespace ResourceStore

/-- What is held under a key, whenever it was written. -/
def held (s : ResourceStore V) (k : String) : Option (String × V) :=
  (s.records.get? k).map fun r => (r.version, r.value)

/-- The version and the value are as before, or the key was evicted. -/
def HeldKept (k : String) (s t : ResourceStore V) : Prop := t.held k = s.held k ∨ t.held k = none

theorem HeldKept.refl (k : String) (s : ResourceStore V) : HeldKept k s s := .inl rfl

theorem HeldKept.trans {k : String} {s t u : ResourceStore V} (h₁ : HeldKept k s t)
    (h₂ : HeldKept k t u) : HeldKept k s u := by
  rcases h₂ with h₂ | h₂
  · rcases h₁ with h₁ | h₁
    · exact .inl (h₂.trans h₁)
    · exact .inr (h₂.trans h₁)
  · exact .inr h₂

theorem held_of_entry {k : String} {s : ResourceStore V} {e : ResourceEntry V}
    (h : s.entry k = e) : s.held k = e.record.map fun r => (r.version, r.value) := by
  rw [← h]
  rfl

theorem HeldKept.of_record {k : String} {s t : ResourceStore V}
    (h : (t.entry k).record = (s.entry k).record ∨ t.entry k = .evicted) : HeldKept k s t := by
  rcases h with hsame | hevicted
  · exact .inl (congrArg (Option.map fun r : ResourceRecord V => (r.version, r.value)) hsame)
  · exact .inr (held_of_entry hevicted)

theorem HeldKept.of_kept {k : String} {s t : ResourceStore V} (h : Kept s t k) : HeldKept k s t :=
  .of_record (h.imp_left (congrArg ResourceEntry.record))

theorem heldKept_showUnsettled (s : ResourceStore V) (j k : String) {status : ResourceStatus}
    (error : Option (ResourceErrorDetail V)) (h : status ≠ .missing) :
    HeldKept j s (s.showUnsettled k status error) := by
  by_cases hj : j = k
  · subst hj
    exact .of_record ((entry_showUnsettled_self s j error h).imp_left fun hentry => by rw [hentry]; rfl)
  · exact .of_kept (kept_showUnsettled s status error hj)

/-- Writing the held record again keeps version and value. -/
theorem heldKept_rewrite (s : ResourceStore V) (now : Nat) (j : String) {k : String}
    {r : ResourceRecord V} (hr : s.records.get? k = some r) :
    HeldKept j s ((s.touchRecord k).set now k r.version r.value).1 := by
  have htouched : ∀ i, (s.touchRecord k).entry i = s.entry i := fun i => entry_touchRecord s k i
  by_cases hj : j = k
  · subst hj
    cases hsettled : (s.touchRecord j).settledAt j r.version with
    | true =>
      refine .of_record (.inl ?_)
      rw [entry_set_settledAt now r.value hsettled, htouched]
    | false =>
      rcases entry_set_self (s.touchRecord j) now j r.version r.value hsettled with hset | hevicted
      · refine .inl ?_
        rw [held_of_entry hset, held, hr]
        rfl
      · exact .of_record (.inr hevicted)
  · exact .of_kept ((Kept.of_eq (htouched j)).trans (kept_set _ now _ _ hj))

end ResourceStore

namespace Resources

open ResourceStore

/-- From `r` to `r'` by bumps and writes, under which the store stays sound and `k` is bumped or
keeps what it holds. -/
structure Passes (k : String) (r r' : Resources V) : Prop where
  grows : Grows (fun _ => True) r r'
  sound : ∀ bound, Sound bound r.resourceStore → Sound bound r'.resourceStore
  held : (∃ b ∈ r'.bumps, b.key = k ∧ r.resourceEpochCounter < b.epoch) ∨
    HeldKept k r.resourceStore r'.resourceStore

namespace Passes

variable {k : String} {r r' r'' : Resources V}

theorem refl (k : String) (r : Resources V) : Passes k r r :=
  ⟨.refl, fun _ h => h, .inr (.refl k _)⟩

theorem trans (h₁ : Passes k r r') (h₂ : Passes k r' r'') : Passes k r r'' := by
  refine ⟨h₁.grows.trans h₂.grows, fun bound h => h₂.sound bound (h₁.sound bound h), ?_⟩
  rcases h₁.held with ⟨b, hb, hkey, hnew⟩ | hkept
  · exact .inl ⟨b, h₂.grows.suffix.subset hb, hkey, hnew⟩
  · rcases h₂.held with ⟨b, hb, hkey, hnew⟩ | hkept'
    · exact .inl ⟨b, hb, hkey, h₁.grows.counter_le.trans_lt hnew⟩
    · exact .inr (hkept.trans hkept')

theorem write (h : Passes k r r') {store : ResourceStore V}
    (hsound : ∀ bound, Sound bound r'.resourceStore → Sound bound store)
    (hheld : HeldKept k r'.resourceStore store) : Passes k r (r'.withStore store) :=
  h.trans ⟨grows_withStore r' store, hsound, .inr hheld⟩

end Passes

section Operations

variable (k : String) (r : Resources V)

theorem passes_bump (key : String) (cause : Cause) :
    Passes k r (r.bumpResourceEpoch key cause) where
  grows := grows_bump r key cause trivial
  sound _ h := h
  held := .inr (.refl k _)

/-- The key is bumped and then written. -/
theorem passes_bumpWrite (key : String) (cause : Cause) {store : ResourceStore V}
    (hsound : ∀ bound, Sound bound r.resourceStore → Sound bound store)
    (hother : k ≠ key → Kept r.resourceStore store k) :
    Passes k r ((r.bumpResourceEpoch key cause).withStore store) where
  grows := (grows_bump r key cause trivial).write store
  sound := hsound
  held := by
    by_cases hk : k = key
    · exact .inl ⟨⟨key, r.resourceEpochCounter + 1, cause⟩, List.mem_cons_self, hk.symm,
        Nat.lt_succ_self _⟩
    · exact .inr (.of_kept (hother hk))

theorem passes_bumpAll (keys : List String) (cause : Cause) :
    Passes k r (r.bumpAll keys cause) :=
  foldl_relates (Passes.refl k) Passes.trans (fun s key => passes_bump k s key cause) keys r

theorem passes_restore (now : Nat) (key : String) : Passes k r (r.restore now key) := by
  unfold restore
  dsimp only
  split
  · refine passes_bumpWrite k r key .supersede (fun bound h => ?_) fun hk => ?_
    · exact sound_markStale (sound_set (h.touchRecord key) now key _ _) key
    · exact (Kept.of_eq (entry_touchRecord _ key k)).trans
        ((kept_set _ now _ _ hk).trans (kept_markStale _ hk))
  · exact passes_bumpWrite k r key .supersede (fun bound h => sound_invalidate h key) fun hk =>
      .of_eq (entry_invalidate_ne _ hk)

theorem passes_restoreCaptured (now : Nat) (captured : String → Option Nat)
    (keys : List String) : Passes k r (r.restoreCaptured now captured keys) := by
  refine foldl_relates (Passes.refl k) Passes.trans (fun s key => ?_) keys r
  split
  · exact passes_restore k s now key
  · exact .refl k s

theorem passes_batches (now : Nat) (batches : List (Nat × OrderedMap String Nat)) :
    Passes k r
      (batches.foldl (fun r batch => r.restoreCaptured now batch.2.get? batch.2.keys) r) :=
  foldl_relates (Passes.refl k) Passes.trans
    (fun s _ => passes_restoreCaptured k s now _ _) batches r

theorem passes_captureEpochs (id : Nat) (keys : List String) :
    Passes k r (r.captureEpochs id keys).1 := by
  have hstore : (r.captureEpochs id keys).1.resourceStore = r.resourceStore :=
    resourceStore_captureEpoch id (r, .empty) keys
  refine ⟨(grows_captureEpochs r id keys).mono fun _ _ => trivial, fun bound h => hstore ▸ h, .inr (.inl ?_)⟩
  rw [hstore]

theorem passes_touch {store : ResourceStore V} (hentry : ∀ j, store.entry j = r.resourceStore.entry j)
    (hsound : ∀ bound, Sound bound r.resourceStore → Sound bound store) :
    Passes k r (r.withStore store) :=
  (Passes.refl k r).write hsound (.of_kept (.of_eq (hentry k)))

end Operations

end Resources

namespace PageCache

open ResourceStore

theorem sound_agrees {bound : Nat} (entry : CachedPage V) (keys : List String)
    {store : ResourceStore V} (h : ResourceStore.Sound bound store) :
    ResourceStore.Sound bound (agrees entry keys store).2 := by
  induction keys generalizing store with
  | nil => exact h
  | cons key keys ih =>
    unfold agrees
    split
    · exact ih h
    · split
      · split
        · split
          · exact ih (h.touchRecord key)
          · exact h.touchRecord key
        · exact h
      · split
        · exact ih (h.touchState key)
        · exact h.touchState key

theorem sound_getValid {bound : Nat} (c : PageCache V) (url : String) {store : ResourceStore V}
    (h : ResourceStore.Sound bound store) :
    ResourceStore.Sound bound (c.getValid url store).2.2 := by
  unfold getValid
  split
  · exact h
  · dsimp only
    split <;> exact sound_agrees _ _ h

theorem sound_settleKeys {bound : Nat} (owned keys : List String) (versions : Versions)
    (pending : List String) {store : ResourceStore V} (h : ResourceStore.Sound bound store) :
    ResourceStore.Sound bound (settleKeys owned keys versions pending store).2 := by
  induction keys generalizing versions pending store with
  | nil => exact h
  | cons key keys ih =>
    have htouched := (h.touchState key).touchRecord key
    unfold settleKeys
    split
    · exact ih _ _ h
    · dsimp only
      split
      · exact ih _ _ htouched
      · split
        · exact ih _ _ htouched
        · exact ih _ _ htouched
        · exact ih _ _ htouched
        · exact htouched

theorem sound_settleStore {bound : Nat} (c : PageCache V) (url : String) (keys : List String)
    {store : ResourceStore V} (h : ResourceStore.Sound bound store) :
    ResourceStore.Sound bound (c.settleResources url keys store).2 := by
  unfold settleResources
  split
  · exact h
  · dsimp only
    split <;> exact sound_settleKeys _ _ _ _ h

end PageCache

namespace Task

/-- The key whose record the task's next part takes from a response. -/
def writesRecord (r : Router V P) : Task V P → Option String
  | .settleLoad call _ (key :: _) _ =>
    if call.lifecycleGeneration = r.lifecycleGeneration ∧
      r.resources.stillAt key (call.capturedEpochs.get? key) = true then some key else none
  | .navResources nav ((key, _) :: _) => if r.isCurrent nav.call then some key else none
  | .applyPrefetch call _ ((key, _) :: _) _ =>
    if call.lifecycleGeneration = r.lifecycleGeneration then some key else none
  | _ => none

end Task

namespace Router

open ResourceStore Resources

section Stores

variable {bound : Nat} {store : ResourceStore V}

theorem sound_rewriteHeld (h : ResourceStore.Sound bound store) (now : Nat) (key : String) :
    ResourceStore.Sound bound (rewriteHeld store now key) := by
  unfold rewriteHeld
  split
  · exact sound_set (h.touchRecord key) now key _ _
  · exact sound_invalidate h key

theorem heldKept_rewriteHeld (k : String) (store : ResourceStore V) (now : Nat) (key : String) :
    HeldKept k store (rewriteHeld store now key) := by
  unfold rewriteHeld
  split
  · rename_i record hrecord
    exact heldKept_rewrite store now k hrecord
  · exact .of_kept (kept_invalidate store k key)

theorem sound_settleKey (h : ResourceStore.Sound bound store) (now : Nat)
    (envelope : PageEnvelope V) (key : String) :
    ResourceStore.Sound bound (settleKey store now envelope key) := by
  unfold settleKey
  split
  · exact sound_set h now key _ _
  · split
    · exact sound_showUnsettled h key _ (by decide)
    · exact sound_rewriteHeld h now key

theorem sound_patchOrInvalidate (h : ResourceStore.Sound bound store) {now : Nat} {key : String}
    {patches : List P} {patched : ResourceStore V}
    (hpatch : patchOrInvalidate store now key patches = some patched) :
    ResourceStore.Sound bound patched := by
  obtain ⟨result, hresult, rfl⟩ := Option.map_eq_some_iff.mp hpatch
  split
  · exact (sound_patch h hresult).touchRecord key
  · exact sound_invalidate (sound_patch h hresult) key

theorem sound_patchIfHeld (h : ResourceStore.Sound bound store) {now : Nat} {key : String}
    {patches : List P} {patched : ResourceStore V}
    (hpatch : patchIfHeld store now key patches = some patched) :
    ResourceStore.Sound bound patched := by
  obtain ⟨result, hresult, rfl⟩ := Option.map_eq_some_iff.mp hpatch
  split
  · exact (sound_patch h hresult).touchRecord key
  · exact sound_patch h hresult

theorem sound_markPending (h : ResourceStore.Sound bound store) (keys : List String) :
    ResourceStore.Sound bound (store.markPending keys) :=
  foldl_invariant (I := ResourceStore.Sound bound)
    (f := fun s key => s.showUnsettled key .pending none) keys
    (fun _ key _ hs => sound_showUnsettled hs key none (by decide)) h

theorem heldKept_markPending (k : String) (store : ResourceStore V) (keys : List String) :
    HeldKept k store (store.markPending keys) :=
  foldl_relates (R := HeldKept k) (f := fun s key => s.showUnsettled key .pending none)
    (HeldKept.refl k) HeldKept.trans
    (fun s key => heldKept_showUnsettled s k key none (by decide)) keys store

theorem sound_touchAll (h : ResourceStore.Sound bound store) (keys : List String) :
    ResourceStore.Sound bound (keys.foldl (fun s key => s.touchState key) store) :=
  foldl_invariant (I := ResourceStore.Sound bound) keys (fun _ key _ hs => hs.touchState key) h

end Stores

/-! ## Every step but `clear` -/

theorem passes_loadResources (k : String) (r : Router V P) (keys : List String)
    (options : LoadResourcesOptions) :
    Passes k r.resources (r.loadResources keys options).resources := by
  unfold loadResources
  dsimp only
  split
  · exact .refl k _
  · exact passes_captureEpochs k _ _ _

theorem passes_abortActiveDeferred (k : String) (r : Router V P) :
    Passes k r.resources r.abortActiveDeferred.resources := by
  unfold abortActiveDeferred
  dsimp only
  split
  · exact passes_restoreCaptured k _ _ _ _
  · exact .refl k _

theorem passes_suspendLive (k : String) (r : Router V P) :
    Passes k r.resources r.suspendLive.resources := by
  unfold suspendLive
  dsimp only
  split
  · exact passes_batches k _ _ _
  · exact .refl k _

theorem passes_startDeferredBatch (k : String) (r : Router V P) (keys : List String)
    (url : String) : Passes k r.resources (r.startDeferredBatch keys url).resources := by
  unfold startDeferredBatch
  refine Passes.trans ?_ (passes_loadResources k _ _ _)
  exact passes_abortActiveDeferred k r

theorem passes_openVisit (k : String) (r : Router V P) :
    Passes k r.resources r.openVisit.resources :=
  (passes_abortActiveDeferred k { r with visitCounter := r.visitCounter + 1 }).trans
    (passes_suspendLive k (({ r with visitCounter := r.visitCounter + 1 } : Router V P
      ).abortActiveDeferred).abortActiveVisit)

theorem passes_startVisit (k : String) (r : Router V P) (url : String) (options : VisitOptions)
    (redirected : Bool) :
    Passes k r.resources (r.startVisit url options redirected).resources := by
  have h := passes_openVisit k r
  unfold startVisit
  dsimp only
  split
  · exact h
  · unfold requestPage
    dsimp only
    split <;> exact h

theorem passes_beginNavigation (k : String) (r : Router V P) (call : VisitCall)
    (envelope : PageEnvelope V) (origin : Origin) :
    Passes k r.resources (r.beginNavigation call envelope origin).resources := by
  unfold beginNavigation
  split
  · exact passes_bumpAll k _ _ _
  · exact .refl k _

theorem passes_beginPrefetch (k : String) (r : Router V P) (call : PrefetchCall V)
    (fetched : PrefetchedEnvelope V) :
    Passes k r.resources (r.beginPrefetch call fetched).resources := by
  unfold beginPrefetch
  split
  · exact .refl k _
  · exact passes_bumpAll k _ _ _

theorem passes_restorePage (k : String) (r : Router V P) (url : String) (cached : CachedPage V) :
    Passes k r.resources (r.restorePage url cached).resources := by
  have hleft : Passes k r.resources r.leavePage.resources :=
    (passes_suspendLive k { r with visitCounter := r.visitCounter + 1 }).trans
      (passes_abortActiveDeferred k (({ r with visitCounter := r.visitCounter + 1 } : Router V P
        ).suspendLive).cancelPendingLiveRefresh)
  have hpending : Passes k r.resources
      (r.leavePage.resources.withStore (r.leavePage.store.markPending cached.pendingDeferred)) :=
    hleft.write (fun _ h => sound_markPending h _) (heldKept_markPending k _ _)
  unfold restorePage
  dsimp only
  split
  · exact hpending
  · split
    · exact hpending
    · refine Passes.trans ?_ (passes_startDeferredBatch k _ _ _)
      exact hpending

theorem passes_queueLiveRefresh (k : String) (r : Router V P) (keys : List String)
    (reason : LoadReason) : Passes k r.resources (r.queueLiveRefresh keys reason).resources := by
  unfold queueLiveRefresh
  split <;> exact .refl k _

theorem passes_settlePage (k : String) (r : Router V P) (url : String) (keys : List String) :
    Passes k r.resources (r.settlePage url keys).resources :=
  passes_touch k r.resources (fun j => PageCache.entry_settleResources _ _ _ _ j)
    fun _ h => PageCache.sound_settleStore _ _ _ h

theorem passes_part {k : String} {r r' : Router V P} {t : Task V P} (h : r.Part t r')
    (hno : t.writesRecord r ≠ some k) : Passes k r.resources r'.resources := by
  -- One case for each part.  A part either writes another key, or shows the key without a new
  -- value, or is one that `hno` excludes.
  cases h with
  | mark | writePending =>
    exact (Passes.refl k _).write (fun _ h => sound_showUnsettled h _ _ (by decide))
      (heldKept_showUnsettled _ k _ none (by decide))
  | settled | rejected => exact passes_settlePage k r _ _
  | @settle call envelope key rest settled hgen hstill =>
    -- the answer writes its own key, and that would be a record
    have hk : k ≠ key := fun he => by
      subst he
      exact hno (if_pos ⟨hgen, hstill⟩)
    exact (Passes.refl k _).write (fun _ h => sound_settleKey h _ _ _)
      (.of_kept (kept_settleKey _ _ _ hk))
  | rejectRewrite =>
    exact (Passes.refl k _).write (fun _ h => sound_rewriteHeld h _ _) (heldKept_rewriteHeld k _ _ _)
  | @reject call failure key rest settled hgen hstill =>
    -- a failure is shown beside the value that is held
    refine (Passes.refl k _).write
      (fun _ h => sound_showUnsettled (h.touchRecord key) _ _ (by decide)) ?_
    exact (HeldKept.of_kept (.of_eq (entry_touchRecord _ key k))).trans
      (heldKept_showUnsettled _ k _ _ (by decide))
  | navBegin => exact passes_beginNavigation k r _ _ _
  | @writeResource nav e rest hcurrent =>
    -- the page writes the key of its head record
    have hk : k ≠ e.1 := fun he => hno (he ▸ if_pos hcurrent)
    exact (Passes.refl k _).write (fun _ h => sound_set h _ _ _ _) (.of_kept (kept_set _ _ _ _ hk))
  | writeError =>
    exact (Passes.refl k _).write (fun _ h => sound_showUnsettled h _ _ (by decide))
      (heldKept_showUnsettled _ k _ _ (by decide))
  | @followUpDeferred nav => exact passes_startDeferredBatch k (r.push (.navMissing nav)) _ _
  | @finishPage nav =>
    exact passes_touch k r.resources (fun j => entry_touchAll r.store _ j) fun _ h => sound_touchAll h _
  | @reloadMissing nav =>
    refine Passes.trans ?_ (passes_loadResources k _ _ _)
    exact passes_touch k r.resources (fun j => entry_touchAll r.store _ j) fun _ h => sound_touchAll h _
  | @writePrefetched call fetched e rest race hgen =>
    have hk : k ≠ e.1 := fun he => hno (he ▸ if_pos hgen)
    exact (Passes.refl k _).write (fun _ h => sound_set h _ _ _ _) (.of_kept (kept_set _ _ _ _ hk))
  -- a patch writes a value, but it has bumped the key first
  | @patch mutation e rest store hpatch =>
    exact passes_bumpWrite k r.resources e.1 _ (fun _ h => sound_patchOrInvalidate h hpatch)
      fun hk => kept_patchOrInvalidate hpatch hk
  | @patchLive keys e rest servedAt store hpatch =>
    exact passes_bumpWrite k r.resources e.1 _ (fun _ h => sound_patchIfHeld h hpatch)
      fun hk => kept_patchIfHeld hpatch hk
  -- the bump stays when the patch throws
  | patchThrows | patchLiveThrows => exact passes_bump k r.resources _ _
  | @invalidateActive mutation key | @invalidateLive keys key =>
    exact passes_bumpWrite k r.resources key _ (fun _ h => sound_markStale h _)
      fun hk => kept_markStale _ hk
  | @invalidate mutation key =>
    exact passes_bumpWrite k r.resources key _ (fun _ h => sound_invalidate h _)
      fun hk => .of_eq (entry_invalidate_ne _ hk)
  | redirect => exact passes_startVisit k _ _ _ _
  | reloadActive => exact passes_loadResources k _ _ _
  | patchedLive | invalidatedLive => exact passes_queueLiveRefresh k r _ _
  | _ => exact .refl k _

/-- No part of a call that writes the key from a response runs next. -/
def Sparing (k : String) (r : Router V P) (a : Action V P) : Prop :=
  a ≠ .clear ∧ ∀ t rest, a = .resume → r.turn = t :: rest → t.writesRecord r ≠ some k

theorem passes_step {k : String} {r r' : Router V P} {a : Action V P} (h : r.step a = some r')
    (hspares : Sparing k r a) : Passes k r.resources r'.resources := by
  -- Parts go through `passes_part`; what is left are calls and events, which write no record.
  cases happens_step h with
  | clear => exact absurd rfl hspares.1
  | visit | refreshPage => exact passes_startVisit k _ _ _ _
  | refreshKeys | loadResources => exact passes_loadResources k _ _ _
  | initialDeferred =>
    exact passes_startDeferredBatch k { r with initialDeferredBatch := none } _ _
  | stopLive => exact passes_batches k _ _ _
  | @subscribe key =>
    exact passes_touch k _ (fun j => entry_subscribe _ key j)
      fun _ hs => sound_run (P := P) hs (.subscribe key)
  | @unsubscribe key =>
    exact passes_touch k _ (fun j => entry_unsubscribe _ key j)
      fun _ hs => sound_run (P := P) hs (.unsubscribe key)
  | @read key => exact passes_touch k _ (fun j => entry_touchState _ key j) fun _ hs => hs.touchState key
  | @part t rest _ hturn hpart =>
    have hno := hspares.2 t rest rfl hturn
    refine passes_part (r := { r with turn := rest }) hpart ?_
    -- popping the turn changes nothing that `writesRecord` reads
    rwa [show t.writesRecord { r with turn := rest } = t.writesRecord r by cases t <;> rfl]
  | @visitResponse index => exact passes_beginNavigation k (r.dropVisit index) _ _ _
  | @visitPrefetched index => exact passes_beginNavigation k (r.dropVisit index) _ _ _
  | @prefetchSettled index =>
    exact passes_beginPrefetch k { r with prefetches := r.prefetches.eraseIdx index } _ _
  | @restorePage url | @revisitPage url =>
    -- looking a page up only touches keys
    have hlook : Passes k r.resources (r.lookUpPage url).resources :=
      passes_touch k _ (fun j => PageCache.entry_getValid _ url _ j)
        fun _ hs => PageCache.sound_getValid _ url hs
    first
    | exact hlook.trans (passes_restorePage k (r.lookUpPage url) _ _)
    | exact hlook.trans (passes_startVisit k (r.lookUpPage url) _ _ _)
  | refreshLive => exact passes_loadResources k r.cancelPendingLiveRefresh _ _
  | _ => exact .refl k _

/-! ## The store of a reachable router -/

/-- The step spares every key but the one that it writes. -/
theorem exists_sparing (r : Router V P) {a : Action V P} (hclear : a ≠ .clear) :
    ∃ k, Sparing k r a := by
  cases hturn : r.turn with
  | nil => exact ⟨"", hclear, fun t rest _ h => by rw [hturn] at h; cases h⟩
  | cons t rest =>
    cases hwrites : t.writesRecord r with
    | none =>
      refine ⟨"", hclear, fun t' rest' _ h => ?_⟩
      rw [hturn] at h
      cases h
      simp [hwrites]
    | some k =>
      refine ⟨k ++ "'", hclear, fun t' rest' _ h he => ?_⟩
      rw [hturn] at h
      cases h
      rw [hwrites] at he
      have hlength := congrArg String.length (Option.some.inj he)
      simp at hlength

theorem storeSound_step {bound : Nat} {r r' : Router V P} {a : Action V P} (h : r.step a = some r')
    (hs : ResourceStore.Sound bound r.store) : ResourceStore.Sound bound r'.store := by
  by_cases hclear : a = .clear
  · subst hclear
    cases h
    refine sound_clear ?_
    have haborted := passes_abortActiveDeferred ""
      { r with lifecycleGeneration := r.lifecycleGeneration + 1 }
    exact (passes_batches "" _ r.now _).sound bound (haborted.sound bound hs)
  · obtain ⟨k, hk⟩ := exists_sparing r hclear
    exact (passes_step h hk).sound bound hs

theorem sound_initialStore (options : RuntimeOptions V) (h : options.maxResources ≠ 0) :
    ResourceStore.Sound options.maxResources (initialStore options) := by
  have hfilled := sound_setMany (sound_new (V := V) (Nat.one_le_iff_ne_zero.mpr h)) options.now
    (((options.initialEnvelope.map (·.resources)).or options.initialResources).getD .empty)
  unfold initialStore
  dsimp only
  split
  · exact hfilled
  · refine sound_markPending ?_ _
    exact foldl_invariant (I := ResourceStore.Sound options.maxResources) _
      (fun _ e _ hs => sound_showUnsettled hs e.1 (some e.2) (by decide)) hfilled

end Router

end FluxFast.Core
