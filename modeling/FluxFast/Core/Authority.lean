import FluxFast.Core.Calls
import FluxFast.Core.LiveGap

/-!
# Authority — a stale response overwrites nothing newer

A response may write a key only while no newer authoritative bump of it is known.  Loads compare
the key's epoch with the one they captured, navigations its authoritative epoch with the start of
the visit, prefetches its epoch with the start of the call.  `Guarded` is what a navigation or a
prefetch that is being applied has secured about a key by its own bump: whatever bumped the key
since its request was sent is newer than that.
-/

namespace FluxFast.Core

open FluxFast.Theory

set_option linter.unusedSectionVars false

variable {V P : Type} [DecidableEq V] [Patchable V P]

/-! ## Bumps around an application -/

namespace Resources

/-- The key was bumped for `own`, and every late bump of it is `own` or newer. -/
def Guarded (r : Resources V) (own : Cause) (late : Bump → Prop) (k : String) : Prop :=
  (∃ o ∈ r.bumps, o.key = k ∧ o.cause = own) ∧
    ∀ b ∈ r.bumps, b.key = k → late b →
      b.cause = own ∨ ∃ o ∈ r.bumps, o.key = k ∧ o.cause = own ∧ o.epoch < b.epoch

/-- Nothing of the kind has bumped the key since it was bumped for `own`. -/
def Undisturbed (r : Resources V) (own : Cause) (kind : Cause → Prop) (k : String) : Prop :=
  ∀ b ∈ r.bumps, b.key = k → kind b.cause → b.cause ≠ own →
    ∀ o ∈ r.bumps, o.key = k → o.cause = own → b.epoch < o.epoch

theorem Guarded.grows {causes : Cause → Prop} {r r' : Resources V} {own : Cause}
    {late : Bump → Prop} {k : String} (h : r.Guarded own late k) (hr : r.Ledger)
    (hgrows : Grows causes r r') : r'.Guarded own late k := by
  obtain ⟨⟨o, ho, hkey, hcause⟩, hlate⟩ := h
  refine ⟨⟨o, hgrows.suffix.subset ho, hkey, hcause⟩, fun b hb hbk hblate => ?_⟩
  rcases hgrows.newer hb with hold | ⟨hnew, -⟩
  · rcases hlate b hold hbk hblate with hown | ⟨o', ho', hrest⟩
    · exact .inl hown
    · exact .inr ⟨o', hgrows.suffix.subset ho', hrest⟩
  · exact .inr ⟨o, hgrows.suffix.subset ho, hkey, hcause, (hr.epoch_le_counter ho).trans_lt hnew⟩

/-- A guarded key that was left undisturbed has no late bump but its own. -/
theorem Guarded.not_late {r : Resources V} {own : Cause} {late : Bump → Prop} {k : String}
    (h : r.Guarded own late k) {kind : Cause → Prop} (hquiet : r.Undisturbed own kind k)
    {b : Bump} (hb : b ∈ r.bumps) (hkey : b.key = k) (hkind : kind b.cause) (hlate : late b) :
    b.cause = own := by
  by_contra hown
  rcases h.2 b hb hkey hlate with hsame | ⟨o, ho, hok, hocause, hlt⟩
  · exact hown hsame
  · exact absurd (hquiet b hb hkey hkind hown o ho hok hocause) (Nat.lt_asymm hlt)

theorem mem_bumps_bumpAll {r : Resources V} {keys : List String} {cause : Cause} {b : Bump}
    (hb : b ∈ (r.bumpAll keys cause).bumps) : b ∈ r.bumps ∨ b.cause = cause := by
  unfold bumpAll at hb
  induction keys generalizing r with
  | nil => exact .inl hb
  | cons key keys ih =>
    rcases ih hb with hold | hown
    · rcases List.mem_cons.mp hold with rfl | hold
      · exact .inr rfl
      · exact .inl hold
    · exact .inr hown

theorem exists_bump_bumpAll (r : Resources V) {keys : List String} (cause : Cause) {k : String}
    (hk : k ∈ keys) : ∃ o ∈ (r.bumpAll keys cause).bumps, o.key = k ∧ o.cause = cause := by
  unfold bumpAll
  induction keys generalizing r with
  | nil => cases hk
  | cons key keys ih =>
    by_cases hmem : k ∈ keys
    · exact ih _ hmem
    · obtain rfl := (List.mem_cons.mp hk).resolve_right hmem
      have hgrows : Grows (· = cause) _ _ := grows_bumpAll (r.bumpResourceEpoch k cause) keys cause rfl
      exact ⟨_, hgrows.suffix.subset
        (List.mem_cons_self ..), rfl, rfl⟩

/-- Bumping the keys guards each of them that had no late bump. -/
theorem guarded_bumpAll {r : Resources V} {keys : List String} {own : Cause} {late : Bump → Prop}
    {k : String} (hk : k ∈ keys) (hlate : ∀ b ∈ r.bumps, b.key = k → ¬late b) :
    (r.bumpAll keys own).Guarded own late k := by
  refine ⟨exists_bump_bumpAll r own hk, fun b hb hbk hblate => ?_⟩
  rcases mem_bumps_bumpAll hb with hold | hown
  · exact absurd hblate (hlate b hold hbk)
  · exact .inl hown

end Resources

/-! ## Responses and what they have still to write -/

/-- The request whose response is applied. -/
inductive Request where
  | load (call : LoadCall)
  | visit (call : VisitCall) (sentAtEpoch : Nat)
  | prefetch (id sentAtEpoch : Nat)
  deriving DecidableEq

namespace Request

/-- The epoch of the key that the response may know of. -/
def knows : Request → String → Nat
  | .load call, key => (call.capturedEpochs.get? key).getD 0
  | .visit _ sentAtEpoch, _ => sentAtEpoch
  | .prefetch _ sentAtEpoch, _ => sentAtEpoch

/-- The cause that the application of the response bumps with. -/
def own : Request → Option Cause
  | .load _ => none
  | .visit call _ => some (.navigation call.id)
  | .prefetch id _ => some (.prefetch id)

end Request

/-- The causes that overrule what was asked for before.  A key that is only given back what it held
is bumped as well, but nothing was decided about it. -/
def Cause.overrules : Cause → Bool
  | .mutation _ | .live _ | .load _ | .navigation _ => true
  | .prefetch _ | .supersede => false

theorem Cause.authoritative_of_overrules {cause : Cause} (h : cause.overrules = true) :
    cause.authoritative = true := by
  cases cause with
  | prefetch => cases h
  | _ => rfl

/-- The request of a navigation; a visit answered from the prefetch cache has none. -/
def Navigation.request (nav : Navigation V) : Option Request :=
  match nav.origin with
  | .transport => some (.visit nav.call nav.call.startedAtEpoch)
  | .prefetch sentAtEpoch _ =>
    if nav.call.pending.isSome then some (.visit nav.call sentAtEpoch) else none

namespace Task

def request? : Task V P → Option Request
  | .settleLoad call _ _ _ => some (.load call)
  | .rejectLoad call _ _ _ _ => some (.load call)
  | .applyPrefetch _ fetched _ _ => some (.prefetch fetched.request fetched.sentAtEpoch)
  | t => t.nav?.bind Navigation.request

/-- The visit whose answer is applied. -/
def visit? : Task V P → Option VisitCall
  | .navBegin call _ _ => some call
  | t => t.nav?.map (·.call)

/-- The keys that the application of a page or of a prefetch has still to write. -/
def toWrite : Task V P → List String
  | .navResources nav rest =>
    rest.map Prod.fst ++ nav.envelope.errors.keys.filter (· ∈ nav.eligibleKeys) ++
      nav.applied.deferredKeys
  | .navErrors nav rest =>
    (rest.map Prod.fst).filter (· ∈ nav.eligibleKeys) ++ nav.applied.deferredKeys
  | .navDeferred _ rest => rest
  | .applyPrefetch _ _ rest _ => rest.map Prod.fst
  | _ => []

/-- The application still goes on. -/
def live (r : Router V P) : Task V P → Bool
  | .applyPrefetch call _ _ _ => call.lifecycleGeneration = r.lifecycleGeneration
  | t => t.visit?.all r.isCurrent

/-- The visit or the lifecycle that the task belongs to has begun. -/
def Known (r : Router V P) : Task V P → Prop
  | .applyPrefetch call _ _ _ => call.lifecycleGeneration ≤ r.lifecycleGeneration
  | .navBegin call _ _ => call.id ≤ r.visitCounter ∧ call.pending = none
  | t => ∀ nav ∈ t.nav?, nav.call.id ≤ r.visitCounter

/-- The key that the response's next part writes. -/
def writes (r : Router V P) : Task V P → Option String
  | .settleLoad call _ (key :: _) _ | .rejectLoad call _ _ (key :: _) _ =>
    if call.lifecycleGeneration = r.lifecycleGeneration ∧
      r.resources.stillAt key (call.capturedEpochs.get? key) = true then some key else none
  | .navResources nav ((key, _) :: _) => if r.isCurrent nav.call then some key else none
  | .navErrors nav ((key, _) :: _) =>
    if r.isCurrent nav.call ∧ key ∈ nav.eligibleKeys then some key else none
  | .navDeferred nav (key :: _) => if r.isCurrent nav.call then some key else none
  | .applyPrefetch call _ ((key, _) :: _) _ =>
    if call.lifecycleGeneration = r.lifecycleGeneration then some key else none
  | _ => none

theorem Follows.request?_eq {t t' : Task V P} (h : t.Follows t') : t'.request? = t.request? := by
  cases h <;> rfl

theorem Follows.live_eq {t t' : Task V P} (h : t.Follows t') (r : Router V P) :
    t'.live r = t.live r := by
  cases h <;> rfl

theorem Follows.known {t t' : Task V P} (h : t.Follows t') {r : Router V P} (ht : t.Known r) :
    t'.Known r := by
  cases h <;> exact ht

theorem Follows.toWrite_subset {t t' : Task V P} (h : t.Follows t') {k : String}
    (hk : k ∈ t'.toWrite) : k ∈ t.toWrite := by
  cases h with
  | wroteResource => exact List.mem_cons_of_mem _ hk
  | wroteResources => exact hk
  | wroteError =>
    rcases List.mem_append.mp hk with hrest | hdeferred
    · obtain ⟨hrest, heligible⟩ := List.mem_filter.mp hrest
      exact List.mem_append_left _
        (List.mem_filter.mpr ⟨List.mem_cons_of_mem _ hrest, heligible⟩)
    · exact List.mem_append_right _ hdeferred
  | wroteErrors => exact hk
  | wrotePending => exact List.mem_cons_of_mem _ hk
  | wrotePrefetched => exact List.mem_cons_of_mem _ hk
  | _ => cases hk

/-- What is written next is among what has still to be written. -/
theorem mem_toWrite_of_writes {t : Task V P} {r : Router V P} {k : String} {own : Cause}
    {request : Request} (hrequest : t.request? = some request) (hown : request.own = some own)
    (h : t.writes r = some k) : k ∈ t.toWrite ∧ t.live r = true := by
  unfold writes at h
  split at h
  · cases hrequest; cases hown
  · cases hrequest; cases hown
  · split at h <;> cases h
    exact ⟨List.mem_append_left _ (List.mem_append_left _ (List.mem_cons_self ..)), ‹_›⟩
  · split at h <;> cases h
    next hcond =>
    refine ⟨List.mem_append_left _ (List.mem_filter.mpr ⟨List.mem_cons_self .., ?_⟩), hcond.1⟩
    exact decide_eq_true hcond.2
  · split at h <;> cases h
    exact ⟨List.mem_cons_self .., ‹_›⟩
  · split at h <;> cases h
    exact ⟨List.mem_cons_self .., decide_eq_true ‹_›⟩
  · cases h

theorem request_eq_visit {nav : Navigation V} {request : Request}
    (h : nav.request = some request) : ∃ sentAt, request = .visit nav.call sentAt := by
  unfold Navigation.request at h
  split at h
  · exact ⟨_, (Option.some.inj h).symm⟩
  · split at h <;> cases h
    exact ⟨_, rfl⟩

/-- A load writes a key only while it is at the epoch that the load captured. -/
theorem stillAt_of_writes {t : Task V P} {r : Router V P} {k : String} {call : LoadCall}
    (hrequest : t.request? = some (.load call)) (h : t.writes r = some k) :
    r.resources.stillAt k (call.capturedEpochs.get? k) = true := by
  unfold writes at h
  split at h
  · cases hrequest
    split at h <;> cases h
    next hcond => exact hcond.2
  · cases hrequest
    split at h <;> cases h
    next hcond => exact hcond.2
  · obtain ⟨_, hvisit⟩ := request_eq_visit hrequest
    cases hvisit
  · obtain ⟨_, hvisit⟩ := request_eq_visit hrequest
    cases hvisit
  · obtain ⟨_, hvisit⟩ := request_eq_visit hrequest
    cases hvisit
  · cases hrequest
  · cases h

end Task

namespace Router

/-! ## The condition -/

/-- Every bump that overrules the key was there when the request was sent. -/
def KnownAt (r : Router V P) (sentAtEpoch : Nat) (k : String) : Prop :=
  ∀ b ∈ r.resources.bumps, b.key = k → b.cause.overrules = true → b.epoch ≤ sentAtEpoch

/-- Between the sending of the request and the start of the call that is given its response, no
bump has overruled the key. -/
def NoneBetween (r : Router V P) (sentAtEpoch startedAtEpoch : Nat) (k : String) : Prop :=
  ∀ b ∈ r.resources.bumps, b.key = k → b.cause.overrules = true →
    b.epoch ≤ startedAtEpoch → b.epoch ≤ sentAtEpoch

/-- The envelope that a `prefetch` call gets. -/
def prefetchedEnvelope (r : Router V P) (call : PrefetchCall V) : Option (PrefetchedEnvelope V) :=
  match call.source with
  | .held fetched => some fetched
  | .request id => (r.prefetchOutcome id).bind Except.toOption

/-- No key of the active deferred batch is still at the epoch it was captured at. -/
def NoBatch (r : Router V P) : Prop :=
  r.activeDeferredController = none ∨
    ∀ k ∈ r.activeDeferredKeys, r.resources.stillAt k (r.activeDeferredEpochs.get? k) = false

/-- The response's next part finds room for the key it writes, no callback has bumped that key
since the application did, and a deferred batch that it starts aborts no other one. -/
structure TaskInOrder (r : Router V P) (t : Task V P) (request : Request) : Prop where
  room : ∀ k ∈ t.writes r, r.store.HasRoom k
  undisturbed : ∀ k ∈ t.writes r, ∀ own ∈ request.own,
    r.resources.Undisturbed own (·.overrules = true) k
  batch : ∀ nav, t = .navFollowUp nav → r.isCurrent nav.call = true →
    nav.applied.deferredKeys ≠ [] → r.NoBatch

/-- Where a call of `prefetch` or a visit is given the response of a request that was sent before
the call, none of the carried keys was overruled in the meantime; and every part of a response
runs in order. -/
def InOrder (r : Router V P) : Action V P → Prop
  | .prefetchSettled index =>
    ∀ call ∈ r.prefetches[index]?, ∀ fetched ∈ r.prefetchedEnvelope call,
      ∀ k ∈ fetched.envelope.resources.keys,
        r.NoneBetween fetched.sentAtEpoch call.startedAtEpoch k
  | .visitPrefetched index =>
    ∀ call ∈ r.visits[index]?, ∀ fetched ∈ (call.pending.bind r.prefetchOutcome).bind Except.toOption,
      ∀ k, k ∈ fetched.envelope.resources.keys ∨ k ∈ fetched.envelope.errors.keys ∨
          k ∈ fetched.envelope.deferredKeys →
        r.NoneBetween fetched.sentAtEpoch call.startedAtEpoch k
  | .resume => ∀ t ∈ r.turn.head?, ∀ request ∈ t.request?, r.TaskInOrder t request
  | _ => True

/-! ## What one part of a response writes -/

theorem entry_rewriteHeld_ne {store : ResourceStore V} {key j : String} (hroom : store.HasRoom key)
    (hj : j ≠ key) (now : Nat) : (rewriteHeld store now key).entry j = store.entry j := by
  unfold rewriteHeld
  split
  · have hroom' : (store.touchRecord key).HasRoom key := by
      unfold ResourceStore.touchRecord
      split <;> exact hroom
    rw [ResourceStore.entry_set_ne hroom' hj, ResourceStore.entry_touchRecord]
  · exact ResourceStore.entry_invalidate_ne store hj

theorem entry_setResourceError_ne {store : ResourceStore V} {key j : String}
    (hroom : store.HasRoom key) (hj : j ≠ key) (error : ResourceErrorDetail V) :
    (store.setResourceError key error).entry j = store.entry j :=
  ResourceStore.entry_showUnsettled_ne hroom hj .error (some error)

theorem entry_settleKey_ne {store : ResourceStore V} {key j : String} (hroom : store.HasRoom key)
    (hj : j ≠ key) (now : Nat) (envelope : PageEnvelope V) :
    (settleKey store now envelope key).entry j = store.entry j := by
  unfold settleKey
  split
  · exact ResourceStore.entry_set_ne hroom hj _ _ _
  · split
    · exact entry_setResourceError_ne hroom hj _
    · exact entry_rewriteHeld_ne hroom hj now

theorem resources_abortActiveDeferred_of_noBatch {r : Router V P} (h : r.NoBatch) :
    r.abortActiveDeferred.resources = r.resources := by
  unfold abortActiveDeferred
  dsimp only
  rcases h with hnone | hstill
  · rw [hnone]
    rfl
  · split
    · generalize hkeys : r.activeDeferredKeys = keys at hstill
      clear hkeys
      unfold Resources.restoreCaptured
      induction keys with
      | nil => rfl
      | cons key keys ih =>
        rw [List.foldl_cons, if_neg (by simp [hstill key (List.mem_cons_self ..)])]
        exact ih fun k hk => hstill k (List.mem_cons_of_mem _ hk)
    · rfl

theorem entry_loadResources (r : Router V P) (keys : List String) (options : LoadResourcesOptions)
    (k : String) : (r.loadResources keys options).resources.entry k = r.resources.entry k := by
  unfold loadResources
  dsimp only
  split
  · rfl
  · exact congrArg (·.entry k) (Resources.resourceStore_captureEpoch (r.resourceLoadCounter + 1)
      (r.resources, .empty) (unique (keys.filter (· ≠ ""))))

/-- One part of a response changes the key that it writes and no other. -/
theorem entry_runTask_of_not_writes {r : Router V P} {t : Task V P} {request : Request}
    (hrequest : t.request? = some request) (hok : r.TaskInOrder t request) {k : String}
    (hk : t.writes r ≠ some k) : (r.runTask t).resources.entry k = r.resources.entry k := by
  have hne : ∀ {key}, t.writes r = some key → k ≠ key := fun hwrites h =>
    hk (hwrites.trans (congrArg some h.symm))
  -- One case for each part of a turn that stands for a request.  Where the part writes a key, the
  -- store's room for that key keeps every other entry in place.
  cases t with
  | settleLoad call envelope keys settled =>
    cases keys with
    | nil =>
      simp only [runTask, stepSettleLoad]
      split
      · rfl
      · exact PageCache.entry_settleResources ..
    | cons key rest =>
      simp only [runTask, stepSettleLoad]
      split
      · rfl
      · next hgen =>
        split
        -- the load still holds the key, so the part's own write is the one `writes` names
        · next hstill =>
          have hwrites : (Task.settleLoad call envelope (key :: rest) settled).writes r = some key :=
            if_pos ⟨not_not.mp hgen, hstill⟩
          exact entry_settleKey_ne (hok.room key hwrites) (hne hwrites) _ _
        · rfl
  | rejectLoad call failure aborted keys settled =>
    cases keys with
    | nil =>
      simp only [runTask, stepRejectLoad]
      split
      · rfl
      · exact PageCache.entry_settleResources ..
    | cons key rest =>
      simp only [runTask, stepRejectLoad]
      split
      · rfl
      · next hgen =>
        split
        · next hstill =>
          have hwrites : (Task.rejectLoad call failure aborted (key :: rest) settled).writes r =
              -- a rejected load either gives the held value back or shows the error: two writes of
              -- one key
              some key := if_pos ⟨not_not.mp hgen, hstill⟩
          have hroom := hok.room key hwrites
          split
          · exact entry_rewriteHeld_ne hroom (hne hwrites) _
          · have hroom' : (r.store.touchRecord key).HasRoom key := by
              unfold ResourceStore.touchRecord
              split <;> exact hroom
            exact (entry_setResourceError_ne hroom' (hne hwrites) _).trans
              (ResourceStore.entry_touchRecord ..)
        · rfl
  | navResources nav records =>
    cases records with
    | nil => rfl
    | cons e rest =>
      simp only [runTask, stepNavResources]
      split
      · next hcurrent =>
        have hwrites : (Task.navResources nav (e :: rest) : Task V P).writes r = some e.1 :=
          if_pos hcurrent
        exact ResourceStore.entry_set_ne (hok.room e.1 hwrites) (hne hwrites) _ _ _
      · rfl
  | navErrors nav errors =>
    cases errors with
    | nil => rfl
    | cons e rest =>
      simp only [runTask, stepNavErrors]
      split
      · next hcurrent =>
        split
        · next heligible =>
          have hwrites : (Task.navErrors nav (e :: rest) : Task V P).writes r = some e.1 :=
            if_pos ⟨hcurrent, heligible⟩
          exact entry_setResourceError_ne (hok.room e.1 hwrites) (hne hwrites) _
        · rfl
      · rfl
  | navDeferred nav keys =>
    cases keys with
    | nil => rfl
    | cons key rest =>
      simp only [runTask, stepNavDeferred]
      split
      · next hcurrent =>
        have hwrites : (Task.navDeferred nav (key :: rest) : Task V P).writes r = some key :=
          if_pos hcurrent
        exact ResourceStore.entry_showUnsettled_ne (hok.room key hwrites)
          (hne hwrites) .pending none
      · rfl
  -- what shows, names or records the page writes no resource
  | navShell nav => simp only [runTask, stepNavShell]; split <;> rfl
  | navManifest nav =>
    simp only [runTask, stepNavManifest]
    split
    · split <;> rfl
    · rfl
  | navCommit nav =>
    simp only [runTask, stepNavCommit]
    split
    · split <;> rfl
    · rfl
  | navFollowUp nav =>
    simp only [runTask, stepNavFollowUp]
    split
    · next hcurrent =>
      split
      · rfl
      · next hkeys =>
        refine (entry_loadResources _ _ _ k).trans ?_
        exact congrArg (·.entry k)
          (resources_abortActiveDeferred_of_noBatch (r := r.push (.navMissing nav))
            (hok.batch nav rfl hcurrent hkeys))
    · rfl
  -- the batch that the follow-up aborts has no key left to restore
  | navMissing nav =>
    simp only [runTask, stepNavMissing]
    split
    · exact (entry_loadResources _ _ _ k).trans (ResourceStore.entry_touchAll _ _ k)
    · exact ResourceStore.entry_touchAll _ _ k
  | applyPrefetch call fetched records race =>
    cases records with
    | nil =>
      simp only [runTask, stepApplyPrefetch]
      split
      · rfl
      · split <;> rfl
    | cons e rest =>
      simp only [runTask, stepApplyPrefetch]
      split
      · rfl
      · next hgen =>
        have hwrites : (Task.applyPrefetch call fetched (e :: rest) race : Task V P).writes r =
            some e.1 := if_pos (not_not.mp hgen)
        exact ResourceStore.entry_set_ne (hok.room e.1 hwrites) (hne hwrites) _ _ _
  | _ => cases hrequest

/-! ## What is known about the calls under way -/

structure Orderly (r : Router V P) : Prop where
  ledger : r.resources.Ledger
  current : ∀ id, r.currentVisitId = some id → id = r.visitCounter
  visits : ∀ call ∈ r.visits, call.id ≤ r.visitCounter
  prefetches : ∀ call ∈ r.prefetches, call.lifecycleGeneration ≤ r.lifecycleGeneration
  tasks : ∀ t ∈ r.turn, t.Known r

theorem Changes.counters_le {r r' : Router V P} {a : Action V P} (h : r.Changes a r') :
    r.visitCounter ≤ r'.visitCounter ∧ r.lifecycleGeneration ≤ r'.lifecycleGeneration := by
  have hof : ∀ l, r'.lanes = l → r'.visitCounter = l.visitCounter ∧
      r'.lifecycleGeneration = l.lifecycleGeneration := fun l hl => hl ▸ ⟨rfl, rfl⟩
  cases h <;> rename_i h <;> obtain ⟨hv, hg⟩ := hof _ h <;> rw [hv, hg] <;>
    simp [lanes, Lanes.enter, Lanes.leave, Lanes.clear]

/-- A visit that is the current one was so before, unless it has just begun. -/
theorem Changes.isCurrent {r r' : Router V P} {a : Action V P} (h : r.Changes a r')
    {call : VisitCall} (hid : call.id ≤ r.visitCounter) (hcurrent : r'.isCurrent call = true) :
    r.isCurrent call = true := by
  have hof : ∀ l, r'.lanes = l → l.currentVisitId = some call.id := fun l hl =>
    hl ▸ of_decide_eq_true hcurrent
  refine decide_eq_true ?_
  cases h with
  | visit _ h | hit h =>
    have hsame := Option.some.inj (hof _ h)
    simp only [lanes] at hsame
    omega
  | left h | cleared _ h => exact absurd (hof _ h) (by simp [Lanes.leave, Lanes.clear])
  | none h | load _ _ _ h | loaded _ h | visited _ h | prefetch _ h | prefetched _ h =>
    exact hof _ h

theorem Changes.generation {r r' : Router V P} {a : Action V P} (h : r.Changes a r')
    {generation : Nat} (hle : generation ≤ r.lifecycleGeneration)
    (hsame : generation = r'.lifecycleGeneration) : generation = r.lifecycleGeneration :=
  Nat.le_antisymm hle (hsame ▸ h.counters_le.2)

theorem known_mono {r r' : Router V P} {a : Action V P} (h : r.Changes a r') {t : Task V P}
    (ht : t.Known r) : t.Known r' := by
  obtain ⟨hv, hg⟩ := h.counters_le
  cases t with
  | applyPrefetch => exact le_trans ht hg
  | navBegin => exact ⟨ht.1.trans hv, ht.2⟩
  | _ => exact fun nav hnav => (ht nav hnav).trans hv

theorem mem_turn_of_mem_below {r : Router V P} {a : Action V P} {t : Task V P}
    (h : t ∈ r.below a) : t ∈ r.turn := by
  cases a with
  | resume => exact List.mem_of_mem_tail h
  | _ => exact h

/-- The tasks of a new state are those of the old one that are left, and the spawned ones. -/
theorem mem_turn_step {r r' : Router V P} {a : Action V P} (h : r.step a = some r') {t : Task V P}
    (ht : t ∈ r'.turn) : t ∈ r.below a ∨ r.Spawns a r' t := by
  obtain ⟨new, hturn, hnew⟩ := turn_step h
  rw [hturn] at ht
  exact (List.mem_append.mp ht).symm.imp id (hnew t)

theorem Arrives.known {r : Router V P} (hr : r.Orderly) {a : Action V P} {call : VisitCall}
    {envelope : PageEnvelope V} {origin : Origin} (h : r.Arrives a call envelope origin) :
    call.id ≤ r.visitCounter := by
  cases h with
  | transport hcall _ => exact hr.visits call (List.mem_of_getElem? hcall)
  | pending hcall _ => exact hr.visits call (List.mem_of_getElem? hcall)
  | held hturn =>
    have hknown : (Task.navBegin call envelope origin : Task V P).Known r :=
      hr.tasks _ (hturn ▸ List.mem_cons_self ..)
    exact hknown.1

theorem Spawns.known {r r' : Router V P} {a : Action V P} (hr : r.Orderly) (hc : r.Changes a r')
    {t : Task V P} (h : r.Spawns a r' t) : t.Known r' := by
  cases h with
  | follows _ hturn hfollows =>
    exact hfollows.known (known_mono hc (hr.tasks _ (hturn ▸ List.mem_cons_self ..)))
  | hit _ hid _ _ hpending => exact ⟨hid.le, hpending⟩
  | navigation harrives _ _ =>
    intro nav hnav
    cases hnav
    exact (harrives.known hr).trans hc.counters_le.1
  | prefetched _ hgeneration _ => exact hgeneration.le.trans hc.counters_le.2
  | _ => intro nav hnav; cases hnav

theorem orderly_step {r r' : Router V P} {a : Action V P} (hr : r.Orderly)
    (h : r.step a = some r') : r'.Orderly := by
  have hc := changes_step h
  -- a visit that is open now was open before, or is the one that this step has started
  have hcall : ∀ call ∈ r'.visits, call ∈ r.visits ∨ call.id = r'.visitCounter := by
    intro call hmem
    have hof : ∀ l, r'.lanes = l → call ∈ l.visits := fun l hl => hl ▸ hmem
    cases hc with
    | visit hstarted h =>
      rcases List.mem_append.mp (hof _ h) with hold | hnew
      · exact .inl hold
      · exact .inr (List.mem_singleton.mp hnew ▸ hstarted.id)
    | visited index h => exact .inl (List.mem_of_mem_eraseIdx (hof _ h))
    | none h | load _ _ _ h | loaded _ h | hit h | left h | prefetch _ h | prefetched _ h
      | cleared _ h => exact .inl (hof _ h)
  have hprefetch : ∀ call ∈ r'.prefetches, call ∈ r.prefetches ∨
      call.lifecycleGeneration = r.lifecycleGeneration := by
    intro call hmem
    have hof : ∀ l, r'.lanes = l → call ∈ l.prefetches := fun l hl => hl ▸ hmem
    cases hc with
    | prefetch hstarted h =>
      rcases List.mem_append.mp (hof _ h) with hold | hnew
      · exact .inl hold
      · exact .inr (List.mem_singleton.mp hnew ▸ hstarted.generation)
    | prefetched index h => exact .inl (List.mem_of_mem_eraseIdx (hof _ h))
    | none h | load _ _ _ h | loaded _ h | visit _ h | hit h | left h | visited _ h
      | cleared _ h => exact .inl (hof _ h)
  -- Each field looks only at the lanes that the step may have changed.
  refine { ledger := ?_, current := fun id hid => ?_, visits := fun call hmem => ?_
           prefetches := fun call hmem => ?_, tasks := fun t ht => ?_ }
  · by_cases hclear : a = .clear
    · subst hclear
      cases h
      exact Resources.ledger_new _ _
    · exact (grows_step h hclear).ledger hr.ledger
  · have hof : ∀ l, r'.lanes = l → l.currentVisitId = some id ∧ r'.visitCounter = l.visitCounter :=
      fun l hl => hl ▸ ⟨hid, rfl⟩
    cases hc with
    | visit _ h | hit h =>
      obtain ⟨hcur, hv⟩ := hof _ h
      exact (Option.some.inj hcur).symm.trans hv.symm
    | left h | cleared _ h => exact absurd (hof _ h).1 (by simp [Lanes.leave, Lanes.clear])
    | none h | load _ _ _ h | loaded _ h | visited _ h | prefetch _ h | prefetched _ h =>
      obtain ⟨hcur, hv⟩ := hof _ h
      exact (hr.current id hcur).trans hv.symm
  · rcases hcall call hmem with hold | hnew
    · exact (hr.visits call hold).trans hc.counters_le.1
    · exact hnew.le
  · rcases hprefetch call hmem with hold | hnew
    · exact (hr.prefetches call hold).trans hc.counters_le.2
    · exact hnew.le.trans hc.counters_le.2
  · rcases mem_turn_step h ht with hold | hspawned
    · exact known_mono hc (hr.tasks t (mem_turn_of_mem_below hold))
    · exact hspawned.known hr hc

theorem not_isCurrent_clear (r : Router V P) (call : VisitCall) : r.clear.isCurrent call = false :=
  rfl

/-- An application that goes on after the step went on before it, and nothing was cleared. -/
theorem live_of_step {r r' : Router V P} {a : Action V P} (h : r.step a = some r')
    {t : Task V P} (ht : t.Known r) {k : String} (hk : k ∈ t.toWrite) (hlive : t.live r' = true) :
    t.live r = true ∧ a ≠ .clear := by
  have hc := changes_step h
  have hcleared : ∀ call, r'.isCurrent call = true → a ≠ .clear := by
    rintro call hcurrent rfl
    cases h
    rw [not_isCurrent_clear] at hcurrent
    cases hcurrent
  cases t with
  | navResources nav | navErrors nav | navDeferred nav =>
    exact ⟨hc.isCurrent (ht nav rfl) hlive, hcleared _ hlive⟩
  | applyPrefetch call =>
    have hsame : call.lifecycleGeneration = r'.lifecycleGeneration := of_decide_eq_true hlive
    refine ⟨decide_eq_true (hc.generation ht hsame), ?_⟩
    rintro rfl
    cases h
    have hle : call.lifecycleGeneration ≤ r.lifecycleGeneration := ht
    have hnew : call.lifecycleGeneration = r.lifecycleGeneration + 1 := hsame
    omega
  | _ => cases hk

/-! ## Applications guard the keys they have still to write -/

/-- A bump that overrules the request and that it cannot know of. -/
def late (request : Request) (k : String) (b : Bump) : Prop :=
  b.cause.overrules = true ∧ request.knows k < b.epoch

def AllGuarded (r : Router V P) : Prop :=
  ∀ t ∈ r.turn, t.live r = true → ∀ k ∈ t.toWrite, ∀ request ∈ t.request?, ∀ own ∈ request.own,
    r.resources.Guarded own (late request k) k

/-- A navigation writes eligible keys that its envelope carries. -/
theorem mem_toWrite_navigation {r : Router V P} {call : VisitCall} {envelope : PageEnvelope V}
    {origin : Origin} {k : String}
    (hk : k ∈ (Task.navResources (r.navigation call envelope origin)
      (r.navigation call envelope origin).applied.resources.entries : Task V P).toWrite) :
    k ∈ r.eligibleKeys envelope call.startedAtEpoch ∧
      (k ∈ envelope.resources.keys ∨ k ∈ envelope.errors.keys ∨ k ∈ envelope.deferredKeys) := by
  rcases List.mem_append.mp hk with hk | hdeferred
  · rcases List.mem_append.mp hk with hresource | herror
    · obtain ⟨hmem, heligible⟩ := OrderedMap.mem_keys_filter.mp hresource
      exact ⟨of_decide_eq_true heligible, .inl hmem⟩
    · obtain ⟨hmem, heligible⟩ := List.mem_filter.mp herror
      exact ⟨of_decide_eq_true heligible, .inr (.inl hmem)⟩
  · simp only [navigation, appliedEnvelope, PageEnvelope.deferredKeys] at hdeferred ⊢
    cases hd : envelope.deferred with
    | none =>
      rw [hd] at hdeferred
      cases hdeferred
    | some keys =>
      rw [hd] at hdeferred
      obtain ⟨hmem, heligible⟩ := List.mem_filter.mp hdeferred
      exact ⟨of_decide_eq_true heligible, .inr (.inr hmem)⟩

/-- The start of the visit is behind every authoritative bump of an eligible key. -/
theorem knownAt_of_eligible {r : Router V P} (hr : r.resources.Ledger) {envelope : PageEnvelope V}
    {epoch : Nat} {k : String} (hk : k ∈ r.eligibleKeys envelope epoch) : r.KnownAt epoch k := by
  intro b hb hkey hcause
  have hle := of_decide_eq_true (List.mem_filter.mp hk).2
  have hauth := hr.authority b hb (Cause.authoritative_of_overrules hcause)
  exact (hkey ▸ hauth).trans hle

/-- The start of the call is behind every bump of a key that it finds safe. -/
theorem knownAt_of_safe {r : Router V P} (hr : r.resources.Ledger) {call : PrefetchCall V}
    {envelope : PageEnvelope V} {k : String} (hk : k ∈ (r.safeResources call envelope).keys) :
    k ∈ envelope.resources.keys ∧ r.KnownAt call.startedAtEpoch k := by
  obtain ⟨hmem, hsafe⟩ := OrderedMap.mem_keys_filter.mp hk
  refine ⟨hmem, fun b hb hkey _ => ?_⟩
  exact (hkey ▸ hr.epoch b hb).trans (of_decide_eq_true hsafe)

/-- What the start of the call knows of, the request knew of already. -/
theorem KnownAt.sentBefore {r : Router V P} {sentAtEpoch startedAtEpoch : Nat} {k : String}
    (h : r.KnownAt startedAtEpoch k) (hbetween : r.NoneBetween sentAtEpoch startedAtEpoch k) :
    r.KnownAt sentAtEpoch k := by
  intro b hb hkey hcause
  exact hbetween b hb hkey hcause (h b hb hkey hcause)

theorem guarded_navigation {r r' : Router V P} {a : Action V P} (hr : r.Orderly)
    (hok : r.InOrder a) {call : VisitCall} {envelope : PageEnvelope V} {origin : Origin}
    (harrives : r.Arrives a call envelope origin)
    (hresources : r'.resources = r.resources.bumpAll
      (r.navigation call envelope origin).eligibleKeys (.navigation call.id)) {k : String}
    (hk : k ∈ (Task.navResources (r.navigation call envelope origin)
      (r.navigation call envelope origin).applied.resources.entries : Task V P).toWrite)
    {request : Request} (hrequest : (r.navigation call envelope origin).request = some request)
    {own : Cause} (hown : request.own = some own) :
    r'.resources.Guarded own (late request k) k := by
  obtain ⟨heligible, hcarried⟩ := mem_toWrite_navigation hk
  obtain ⟨sentAt, rfl, hknown⟩ : ∃ sentAt, request = .visit call sentAt ∧ r.KnownAt sentAt k := by
    -- The step of arrival: what was known when the request was sent bounds every bump of the key.
    cases origin with
    | transport =>
      exact ⟨_, (Option.some.inj hrequest).symm, knownAt_of_eligible hr.ledger heligible⟩
    | prefetch sentAt producedAt =>
      have hif : (if call.pending.isSome then some (Request.visit call sentAt) else none) =
        some request := hrequest
      by_cases hpending : call.pending.isSome = true
      · rw [if_pos hpending] at hif
        refine ⟨sentAt, (Option.some.inj hif).symm, ?_⟩
        cases harrives with
        | @pending index _ fetched hcall houtcome =>
          have hfetched : (call.pending.bind r.prefetchOutcome).bind Except.toOption =
              some fetched := by
            rw [houtcome]
            rfl
          -- a joined prefetch is older than the visit: nothing was bumped between the two
          apply (knownAt_of_eligible hr.ledger heligible).sentBefore
          exact hok call hcall fetched hfetched k hcarried
        | held hturn =>
          have hbegin : (Task.navBegin call envelope (.prefetch sentAt producedAt) :
            Task V P).Known r := hr.tasks _ (hturn ▸ List.mem_cons_self ..)
          rw [hbegin.2] at hpending
          cases hpending
      -- a visit answered from the cache stands for no request
      · rw [if_neg hpending] at hif
        cases hif
  cases hown
  rw [hresources]
  refine Resources.guarded_bumpAll heligible fun b hb hkey hlate => ?_
  -- the page's own bump comes last and has its own cause
  exact absurd (hknown b hb hkey hlate.1) (not_le_of_gt hlate.2)

theorem guarded_prefetch {r r' : Router V P} {a : Action V P} (hr : r.Orderly) (hok : r.InOrder a)
    {call : PrefetchCall V} {fetched : PrefetchedEnvelope V} (hsettles : r.Settles a call fetched)
    (hresources : r'.resources = r.resources.bumpAll
      (r.safeResources call fetched.envelope).keys (.prefetch fetched.request)) {k : String}
    (hk : k ∈ (r.safeResources call fetched.envelope).keys) :
    r'.resources.Guarded (.prefetch fetched.request)
      (late (.prefetch fetched.request fetched.sentAtEpoch) k) k := by
  obtain ⟨hcarried, hstarted⟩ := knownAt_of_safe hr.ledger hk
  have hbetween : r.NoneBetween fetched.sentAtEpoch call.startedAtEpoch k := by
    cases hsettles with
    | held hcall hsource =>
      refine hok call hcall fetched ?_ k hcarried
      rw [prefetchedEnvelope, hsource]
      rfl
    | request hcall hsource houtcome =>
      refine hok call hcall fetched ?_ k hcarried
      rw [prefetchedEnvelope, hsource]
      simp only [houtcome]
      rfl
  have hknown := hstarted.sentBefore hbetween
  rw [hresources]
  refine Resources.guarded_bumpAll hk fun b hb hkey hlate => ?_
  exact absurd (hknown b hb hkey hlate.1) (not_le_of_gt hlate.2)

theorem allGuarded_step {r r' : Router V P} {a : Action V P} (hr : r.Orderly)
    (hg : r.AllGuarded) (hok : r.InOrder a) (h : r.step a = some r') : r'.AllGuarded := by
  intro t ht hlive k hk request hrequest own hown
  have hold : ∀ t₀ ∈ r.turn, t₀.live r' = true → k ∈ t₀.toWrite → t₀.request? = some request →
      r'.resources.Guarded own (late request k) k := fun t₀ ht₀ hlive₀ hk₀ hrequest₀ => by
    obtain ⟨hbefore, hclear⟩ := live_of_step h (hr.tasks t₀ ht₀) hk₀ hlive₀
    exact (hg t₀ ht₀ hbefore k hk₀ request hrequest₀ own hown).grows hr.ledger (grows_step h hclear)
  rcases mem_turn_step h ht with hmem | hspawned
  · exact hold t (mem_turn_of_mem_below hmem) hlive hk hrequest
  · cases hspawned with
    | follows _ hturn hfollows =>
      exact hold _ (hturn ▸ List.mem_cons_self ..) ((hfollows.live_eq r').symm.trans hlive)
        (hfollows.toWrite_subset hk) (hfollows.request?_eq.symm.trans hrequest)
    | navigation harrives _ hresources =>
      exact guarded_navigation hr hok harrives hresources hk hrequest hown
    | prefetched hsettles _ hresources =>
      cases hrequest
      cases hown
      exact guarded_prefetch hr hok hsettles hresources hk
    | _ => cases hk

theorem orderly_initial {r : Router V P} (h : Initial r) : r.Orderly ∧ r.AllGuarded := by
  obtain ⟨options, h⟩ := h
  have hnew := new_of_create h
  refine ⟨{ ledger := ?_, current := fun id hid => ?_, visits := fun call hmem => ?_
            prefetches := fun call hmem => ?_, tasks := fun t ht => ?_ }, fun t ht => ?_⟩
  · rw [hnew.resources]
    exact Resources.ledger_new _ _
  · rw [hnew.currentVisitId] at hid
    cases hid
  · rw [hnew.visits] at hmem
    cases hmem
  · rw [hnew.prefetches] at hmem
    cases hmem
  · rw [hnew.turn] at ht
    cases ht
  · rw [hnew.turn] at ht
    cases ht

theorem orderly_reachable {r : Router V P} (h : ReachableUnder InOrder r) :
    r.Orderly ∧ r.AllGuarded :=
  h.invariant (I := fun r => r.Orderly ∧ r.AllGuarded) (fun _ => orderly_initial)
    fun _ _ _ hr hok hstep => ⟨orderly_step hr.1 hstep, allGuarded_step hr.1 hr.2 hok hstep⟩

/-! ## Stale responses -/

/-- The request whose response the step is about. -/
def handles (r : Router V P) : Action V P → Option Request
  -- a part that is resumed answers for the request that its turn began with
  | .resume => r.turn.head?.bind Task.request?
  | .loadResponse index _ _ => r.loads[index]?.map .load
  | .loadFailure index _ => r.loads[index]?.map .load
  | .visitResponse index _ => r.visits[index]?.map fun call => .visit call call.startedAtEpoch
  | .visitFailure index _ => r.visits[index]?.map fun call => .visit call call.startedAtEpoch
  | .visitPrefetched index =>
    -- the visit is answered by the request it waits for
    r.visits[index]?.bind fun call =>
      (call.pending.bind r.prefetchManager.requests.get?).map fun request =>
        .visit call request.sentAtEpoch
  | .prefetchResponse id _ _ =>
    (r.prefetchManager.requests.get? id).map fun request => .prefetch id request.sentAtEpoch
  | .prefetchFailure id _ =>
    (r.prefetchManager.requests.get? id).map fun request => .prefetch id request.sentAtEpoch
  | .prefetchSettled index =>
    (r.prefetches[index]?.bind r.prefetchedEnvelope).map fun fetched =>
      .prefetch fetched.request fetched.sentAtEpoch
  | _ => none

/-- The visit whose answer the step is about. -/
def handlesVisit (r : Router V P) : Action V P → Option VisitCall
  | .resume => r.turn.head?.bind Task.visit?
  | .visitResponse index _ => r.visits[index]?
  | .visitFailure index _ => r.visits[index]?
  | .visitPrefetched index => r.visits[index]?
  | _ => none

/-- The request was started before the last bump that overrules the key and is not its own. -/
def Outdated (r : Router V P) (request : Request) (k : String) : Prop :=
  ∃ b ∈ r.resources.bumps, b.key = k ∧ late request k b ∧ some b.cause ≠ request.own

/-- A key that a response writes is not outdated. -/
theorem not_outdated_of_writes {r : Router V P} (hr : r.Orderly) (hg : r.AllGuarded)
    {t : Task V P} (ht : t ∈ r.turn) {request : Request} (hrequest : t.request? = some request)
    (hok : r.TaskInOrder t request) {k : String} (hwrites : t.writes r = some k) :
    ¬r.Outdated request k := by
  rintro ⟨b, hb, hkey, hlate, hforeign⟩
  cases hown : request.own with
  | some own =>
    obtain ⟨hk, hlive⟩ := Task.mem_toWrite_of_writes hrequest hown hwrites
    have hguarded := hg t ht hlive k hk request hrequest own hown
    have hsame := hguarded.not_late (hok.undisturbed k hwrites own hown) hb hkey hlate.1 hlate
    exact hforeign (hown.symm ▸ congrArg some hsame)
  | none =>
    -- a load: the key is still at the epoch it captured, and that is behind every bump
    obtain ⟨call, rfl⟩ : ∃ call, request = .load call := by
      cases request with
      | load call => exact ⟨call, rfl⟩
      | visit | prefetch => cases hown
    have hstill := Task.stillAt_of_writes hrequest hwrites
    have hle : b.epoch ≤ (call.capturedEpochs.get? k).getD 0 := by
      rw [← of_decide_eq_true hstill]
      exact hkey ▸ hr.ledger.epoch b hb
    exact absurd hle (not_le_of_gt hlate.2)

/-- A part of an answer to a superseded visit leaves the page alone. -/
theorem page_runTask_of_not_isCurrent {r : Router V P} {t : Task V P} {call : VisitCall}
    (hvisit : t.visit? = some call) (h : r.isCurrent call = false) :
    (r.runTask t).pageStore = r.pageStore ∧ (r.runTask t).history = r.history ∧
      (r.runTask t).liveManager = r.liveManager := by
  cases t with
  | navBegin =>
    cases hvisit
    simp only [runTask, beginNavigation, h, Bool.false_eq_true, if_false]
    exact ⟨rfl, rfl, rfl⟩
  | navResources nav records =>
    cases hvisit
    cases records <;> simp only [runTask, stepNavResources, h, Bool.false_eq_true, if_false] <;>
      exact ⟨rfl, rfl, rfl⟩
  | navErrors nav errors =>
    cases hvisit
    cases errors <;> simp only [runTask, stepNavErrors, h, Bool.false_eq_true, if_false] <;>
      exact ⟨rfl, rfl, rfl⟩
  | navDeferred nav keys =>
    cases hvisit
    cases keys <;> simp only [runTask, stepNavDeferred, h, Bool.false_eq_true, if_false] <;>
      exact ⟨rfl, rfl, rfl⟩
  | navShell | navManifest | navCommit | navFollowUp | navMissing =>
    cases hvisit
    simp only [runTask, stepNavShell, stepNavManifest, stepNavCommit, stepNavFollowUp,
      stepNavMissing, h, Bool.false_eq_true, Bool.false_and, if_false]
    exact ⟨rfl, rfl, rfl⟩
  | _ => cases hvisit

theorem store_beginNavigation (r : Router V P) (call : VisitCall) (envelope : PageEnvelope V)
    (origin : Origin) : (r.beginNavigation call envelope origin).store = r.store := by
  unfold beginNavigation
  split
  · exact Resources.resourceStore_bumpAll ..
  · rfl

theorem store_beginPrefetch (r : Router V P) (call : PrefetchCall V)
    (fetched : PrefetchedEnvelope V) : (r.beginPrefetch call fetched).store = r.store := by
  unfold beginPrefetch
  split
  · rfl
  · exact Resources.resourceStore_bumpAll ..

/-- The arrival of a response writes nothing yet. -/
theorem store_of_arrival {r r' : Router V P} {a : Action V P} (h : r.step a = some r')
    (ha : a ≠ .resume) {request : Request} (hhandles : r.handles a = some request) :
    r'.store = r.store := by
  -- An arrival opens a turn and writes nothing; every write is a part of that turn.
  cases a <;> simp only [step] at h <;> try cases hhandles
  case resume => exact absurd rfl ha
  all_goals replace h := (notified_eq_some h).2
  case loadResponse index envelope view =>
    obtain ⟨call, -, rfl⟩ := Option.map_eq_some_iff.mp h
    rfl
  case loadFailure index failure =>
    obtain ⟨call, -, rfl⟩ := Option.map_eq_some_iff.mp h
    rfl
  case visitResponse index envelope =>
    obtain ⟨call, -, h⟩ := Option.bind_eq_some_iff.mp h
    split at h <;> cases h
    exact store_beginNavigation ..
  case visitFailure index failure =>
    obtain ⟨call, -, h⟩ := Option.bind_eq_some_iff.mp h
    split at h <;> cases h
    rfl
  case visitPrefetched index =>
    obtain ⟨call, -, h⟩ := Option.bind_eq_some_iff.mp h
    unfold receiveVisitPrefetched at h
    split at h <;> cases h
    · rfl
    · exact store_beginNavigation ..
  case prefetchResponse id envelope producedAt =>
    obtain ⟨request, -, h⟩ := Option.bind_eq_some_iff.mp h
    split at h <;> cases h
    rfl
  case prefetchFailure id failure =>
    obtain ⟨request, -, h⟩ := Option.bind_eq_some_iff.mp h
    split at h <;> cases h
    rfl
  case prefetchSettled index =>
    obtain ⟨call, -, h⟩ := Option.bind_eq_some_iff.mp h
    unfold receivePrefetchSettled at h
    dsimp only at h
    split at h
    · cases h
      exact store_beginPrefetch ..
    · split at h <;> cases h
      · rfl
      · exact store_beginPrefetch ..

/-- The answer to a superseded visit arrives: the page is left alone. -/
theorem page_of_arrival {r r' : Router V P} {a : Action V P} (h : r.step a = some r')
    (ha : a ≠ .resume) {call : VisitCall} (hhandles : r.handlesVisit a = some call)
    (hcurrent : r.isCurrent call = false) :
    r'.pageStore = r.pageStore ∧ r'.history = r.history ∧ r'.liveManager = r.liveManager := by
  cases a <;> simp only [step] at h <;> try cases hhandles
  case resume => exact absurd rfl ha
  all_goals replace h := (notified_eq_some h).2
  all_goals
    obtain ⟨call', hcall, h⟩ := Option.bind_eq_some_iff.mp h
    obtain rfl : call' = call := Option.some.inj (hcall.symm.trans hhandles)
    have hdropped : ∀ index, (r.dropVisit index).isCurrent call' = false := fun _ => hcurrent
  case visitResponse =>
    split at h <;> cases h
    simp only [beginNavigation, hdropped, Bool.false_eq_true, if_false]
    exact ⟨rfl, rfl, rfl⟩
  case visitFailure =>
    split at h <;> cases h
    simp only [failVisit, hdropped, Bool.false_and, Bool.false_eq_true, if_false]
    exact ⟨rfl, rfl, rfl⟩
  case visitPrefetched =>
    unfold receiveVisitPrefetched at h
    split at h <;> cases h
    · simp only [failVisit, hdropped, Bool.false_and, Bool.false_eq_true, if_false]
      exact ⟨rfl, rfl, rfl⟩
    · simp only [beginNavigation, hdropped, Bool.false_eq_true, if_false]
      exact ⟨rfl, rfl, rfl⟩

/-- In a run whose steps are all in order, no step of a response changes the entry of a key that a
mutation, a live event, a load or an applied navigation bumped after its request was started, and
no answer to a superseded visit changes the page, the history or the live manifest. -/
theorem stale_response_is_ignored {r r' : Router V P} {a : Action V P}
    (hr : ReachableUnder InOrder r) (hok : r.InOrder a) (hstep : r.step a = some r') :
    (∀ request k, r.handles a = some request → r.Outdated request k →
        r'.store.entry k = r.store.entry k) ∧
      ∀ call, r.handlesVisit a = some call → call.id < r.visitCounter →
        r'.pageStore = r.pageStore ∧ r'.history = r.history ∧
          r'.liveManager.manifest = r.liveManager.manifest := by
  obtain ⟨horderly, hguarded⟩ := orderly_reachable hr
  refine ⟨fun request k hhandles houtdated => ?_, fun call hhandles hsuperseded => ?_⟩
  -- Responses are written part by part, so the resumed part is the only step that may write.
  · by_cases ha : a = .resume
    · subst ha
      obtain ⟨t, hhead, hrequest⟩ := Option.bind_eq_some_iff.mp hhandles
      obtain ⟨rest, hturn⟩ := List.head?_eq_some_iff.mp hhead
      have hresume : r.resume = some r' := hstep
      rw [resume, hturn] at hresume
      cases hresume
      have htask : r.TaskInOrder t request := hok t hhead request hrequest
      have hpopped : ({ r with turn := rest } : Router V P).TaskInOrder t request := by
        refine ⟨fun k hk => ?_, fun k hk => ?_, htask.batch⟩
        · exact htask.room k hk
        · exact htask.undisturbed k hk
      -- only the key that the part writes can change, and that one is not outdated
      refine entry_runTask_of_not_writes hrequest hpopped fun hwrites => ?_
      exact not_outdated_of_writes horderly hguarded (hturn ▸ List.mem_cons_self ..) hrequest htask
        hwrites houtdated
    · rw [store_of_arrival hstep ha hhandles]
  · have hcurrent : r.isCurrent call = false := by
      refine decide_eq_false fun hid => ?_
      exact absurd (horderly.current call.id hid) (Nat.ne_of_lt hsuperseded)
    by_cases ha : a = .resume
    · subst ha
      obtain ⟨t, hhead, hvisit⟩ := Option.bind_eq_some_iff.mp hhandles
      obtain ⟨rest, hturn⟩ := List.head?_eq_some_iff.mp hhead
      have hresume : r.resume = some r' := hstep
      rw [resume, hturn] at hresume
      cases hresume
      obtain ⟨hpage, hhistory, hlive⟩ :=
        page_runTask_of_not_isCurrent (r := { r with turn := rest }) hvisit hcurrent
      exact ⟨hpage, hhistory, congrArg LiveManager.manifest hlive⟩
    · obtain ⟨hpage, hhistory, hlive⟩ := page_of_arrival hstep ha hhandles hcurrent
      exact ⟨hpage, hhistory, congrArg LiveManager.manifest hlive⟩

/-! ## Two runs -/

/-- Steps that are in order whatever the envelope and the tasks hold: a prefetch whose carried keys
no bump came in between for, and parts of a response that write nothing. -/
def plain (r : Router V P) : Action V P → Bool
  | .prefetchSettled index =>
    r.prefetches[index]?.all fun call => (r.prefetchedEnvelope call).all fun fetched =>
      r.resources.bumps.all fun b => !fetched.envelope.resources.keys.contains b.key ||
        decide (call.startedAtEpoch < b.epoch) || decide (b.epoch ≤ fetched.sentAtEpoch)
  | .visitPrefetched _ => false
  | .resume =>
    r.turn.head?.all fun t => (t.writes r).isNone && t.nav?.isNone
  | _ => true

theorem inOrder_of_plain {r : Router V P} {a : Action V P} (h : r.plain a = true) :
    r.InOrder a := by
  cases a with
  | prefetchSettled index =>
    intro call hcall fetched hfetched k hk b hb hkey _ hle
    simp only [plain, Option.mem_def.mp hcall, Option.all_some, Option.mem_def.mp hfetched] at h
    have hbump := List.all_eq_true.mp h b hb
    simp only [Bool.or_eq_true, Bool.not_eq_true', decide_eq_true_eq] at hbump
    rcases hbump with (hcarried | hlater) | hknown
    · rw [hkey, List.contains_iff_mem.mpr hk] at hcarried
      cases hcarried
    · omega
    · exact hknown
  | visitPrefetched => cases h
  | resume =>
    intro t ht request hrequest
    simp only [plain, Option.mem_def.mp ht, Option.all_some, Bool.and_eq_true,
      Option.isNone_iff_eq_none] at h
    obtain ⟨hwrites, hnav⟩ := h
    refine ⟨fun k hk => ?_, fun k hk => ?_, ?_⟩
    · rw [hwrites] at hk
      cases hk
    · rw [hwrites] at hk
      cases hk
    · rintro nav rfl
      cases hnav
  | _ => trivial

end Router

section Runs

def otherPage : PageEnvelope Nat :=
  { page := { component := "Other", url := "/other" }
    resources := .ofList [("k", ⟨"v1", 1⟩)]
    resourceKeys := some ["k"] }

/-- A second call of `prefetch` joins the request in flight after another key was invalidated; then
a mutation invalidates the key that the response carries. -/
def overtakenPrefetch : List (Action Nat Nat) :=
  [.prefetch "/other", .mutate "/mutate", .mutateResponse 0 { invalidate := some ["z"] } 4,
    .resume, .resume, .resume, .prefetch "/other", .mutate "/mutate",
    .mutateResponse 0 { invalidate := some ["k"] } 5, .resume, .resume, .resume,
    .prefetchResponse 1 otherPage 3, .prefetchSettled 1]

theorem stale_response_is_ignored_overtakenPrefetch :
    ∃ r r' : Router Nat Nat, r.handles .resume = some (.prefetch 1 0) ∧
      r.Outdated (.prefetch 1 0) "k" ∧ r'.store.entry "k" = r.store.entry "k" := by
  obtain ⟨r, hr⟩ : ∃ r, Router.runUnder (fun r a => r.plain a = true)
      { initialEnvelope := some livePage } overtakenPrefetch = some r :=
    Option.isSome_iff_exists.mp (by decide)
  have hstate : ((Router.runUnder (fun r a => r.plain a = true)
      { initialEnvelope := some livePage } overtakenPrefetch).map fun r =>
        (r.handles .resume, r.plain .resume, (r.step .resume).isSome,
          decide (⟨"k", 2, .mutation 5⟩ ∈ r.resources.bumps))) =
      some (some (.prefetch 1 0), true, true, true) := by decide
  rw [hr, Option.map_some, Option.some.injEq, Prod.mk.injEq, Prod.mk.injEq, Prod.mk.injEq,
    decide_eq_true_iff] at hstate
  obtain ⟨hhandles, hplain, hsome, hbump⟩ := hstate
  obtain ⟨r', hstep⟩ := Option.isSome_iff_exists.mp hsome
  obtain ⟨r₀, h₀, hrun⟩ := Router.reachableUnder_of_runUnder hr
  have hreach : Router.ReachableUnder Router.InOrder r :=
    ⟨r₀, h₀, hrun.mono fun _ _ => Router.inOrder_of_plain⟩
  have houtdated : r.Outdated (.prefetch 1 0) "k" :=
    ⟨_, hbump, rfl, ⟨rfl, by decide⟩, by decide⟩
  exact ⟨r, r', hhandles, houtdated, (Router.stale_response_is_ignored hreach
    (Router.inOrder_of_plain hplain) hstep).1 _ "k" hhandles houtdated⟩

/-- A mutation invalidates a key that the client does not hold while a prefetch is in flight; a
second call of `prefetch` joins the request and is the first to get its answer. -/
def joinedPrefetch : List (Action Nat Nat) :=
  [.prefetch "/other", .mutate "/mutate", .mutateResponse 0 { invalidate := some ["k"] } 5,
    .resume, .resume, .resume, .prefetch "/other", .prefetchResponse 1 otherPage 3,
    .prefetchSettled 1]

/-- The second call writes the answer of a request that was sent before the mutation. -/
theorem stale_response_overwrites :
    ¬∀ (r r' : Router Nat Nat) (a : Action Nat Nat) (request : Request) (k : String),
      Router.Reachable r → r.step a = some r' → r.handles a = some request →
        r.Outdated request k → r'.store.entry k = r.store.entry k := by
  intro hall
  obtain ⟨r, hr⟩ : ∃ r, Router.run { initialEnvelope := some livePage } joinedPrefetch = some r :=
    Option.isSome_iff_exists.mp (by decide)
  have hstate : ((Router.run { initialEnvelope := some livePage } joinedPrefetch).map fun r =>
      (r.handles .resume, decide (⟨"k", 1, .mutation 5⟩ ∈ r.resources.bumps),
        (r.store.entry "k").record.isSome,
        (r.step .resume).map fun r' => (r'.store.entry "k").record.isSome)) =
      some (some (.prefetch 1 0), true, false, some true) := by decide
  rw [hr, Option.map_some, Option.some.injEq] at hstate
  simp only [Prod.mk.injEq, decide_eq_true_iff] at hstate
  obtain ⟨hhandles, hbump, hbefore, hafter⟩ := hstate
  obtain ⟨r', hstep, hwritten⟩ := Option.map_eq_some_iff.mp hafter
  have hsame := hall r r' .resume _ "k" (Router.reachable_of_run hr) hstep hhandles
    ⟨_, hbump, rfl, ⟨rfl, by decide⟩, by decide⟩
  rw [hsame, hbefore] at hwritten
  cases hwritten

end Runs

end FluxFast.Core
