import FluxFast.Core.Authority

/-!
# Serving — visits answered from a prefetch

A visit may be answered by an envelope that a prefetch fetched earlier.  `Overridden` says that a
mutation or a live event which the router has processed since that prefetch was sent took effect
on the server after the envelope's values were produced.  Two guards of the visit see that: a
cached envelope is used only while the versions it rests on are held, and a key that something was
published about after the visit began is left out of the page.  `Served` is the condition that a
key they do not see is none that the envelope carries.
-/

namespace FluxFast.Core

open FluxFast.Theory

set_option linter.unusedSectionVars false

variable {V P : Type} [DecidableEq V] [Patchable V P]

theorem Cause.overrules_of_servedAt {cause : Cause} {servedAt : Nat}
    (h : servedAt ∈ cause.servedAt) : cause.overrules = true := by
  cases cause with
  | mutation | live => rfl
  | load | navigation | prefetch | supersede => cases h

/-- The bump came after the request was sent and overrides what had been produced by then. -/
def Bump.Overrides (sentAtEpoch producedAt : Nat) (b : Bump) : Prop :=
  sentAtEpoch < b.epoch ∧ ∃ servedAt ∈ b.cause.servedAt, producedAt < servedAt

/-! ## Writes that confirm nothing -/

namespace ResourceStore

/-- What is fresh in `t` was so in `s`. -/
def Calm (s t : ResourceStore V) : Prop := ∀ k, (t.entry k).fresh → t.entry k = s.entry k

omit [DecidableEq V] in
theorem Calm.refl (s : ResourceStore V) : Calm s s := fun _ _ => rfl

omit [DecidableEq V] in
theorem Calm.trans {s t u : ResourceStore V} (h₁ : Calm s t) (h₂ : Calm t u) : Calm s u := by
  intro k hk
  have hsame := h₂ k hk
  exact hsame.trans (h₁ k (hsame ▸ hk))

omit [DecidableEq V] in
theorem not_fresh_evicted : ¬(ResourceEntry.evicted : ResourceEntry V).fresh := fun h => by
  simp [ResourceEntry.fresh] at h

/-- Writing one key confirms nothing if that key is not fresh afterwards. -/
theorem calm_of_kept {s t : ResourceStore V} {key : String} (hkept : ∀ k, k ≠ key → Kept s t k)
    (hself : ¬(t.entry key).fresh) : Calm s t := by
  intro k hk
  by_cases hkey : k = key
  · exact absurd (hkey ▸ hk) hself
  · rcases hkept k hkey with hsame | hevicted
    · exact hsame
    · exact absurd (hevicted ▸ hk) not_fresh_evicted

theorem calm_showUnsettled (s : ResourceStore V) (key : String) {status : ResourceStatus}
    (error : Option (ResourceErrorDetail V)) (h : status ≠ .missing) :
    Calm s (s.showUnsettled key status error) := by
  refine calm_of_kept (fun k hk => kept_showUnsettled s status error hk) ?_
  rcases entry_showUnsettled_self s key error h with hshown | hevicted
  · rw [hshown]
    rintro ⟨hsome, hstale⟩
    simp only [ResourceEntry.unsettled] at hsome hstale
    rw [hsome] at hstale
    cases hstale
  · rw [hevicted]
    exact not_fresh_evicted

end ResourceStore

namespace Resources

theorem calm_restoreCaptured (r : Resources V) (now : Nat) (captured : String → Option Nat)
    (keys : List String) :
    ResourceStore.Calm r.resourceStore (r.restoreCaptured now captured keys).resourceStore := by
  refine foldl_relates (R := fun s t : Resources V =>
    ResourceStore.Calm s.resourceStore t.resourceStore) (fun s => .refl s.resourceStore)
    ResourceStore.Calm.trans (fun s key => ?_) keys r
  split
  · exact ResourceStore.calm_of_kept (fun k hk => (outside_restore s now key).kept k hk)
      (entry_restore_self s now key).2
  · exact .refl s.resourceStore

def Overridden (r : Resources V) (sentAtEpoch producedAt : Nat) (k : String) : Prop :=
  ∃ b ∈ r.bumps, b.key = k ∧ b.Overrides sentAtEpoch producedAt

/-- Some of it was known when the visit began. -/
def OverriddenBy (r : Resources V) (startedAtEpoch sentAtEpoch producedAt : Nat) (k : String) :
    Prop :=
  ∃ b ∈ r.bumps, b.key = k ∧ b.Overrides sentAtEpoch producedAt ∧ b.epoch ≤ startedAtEpoch

/-- What the router does of its own accord overrides nothing. -/
theorem Overridden.of_grows {r r' : Resources V} {sentAtEpoch producedAt : Nat} {k : String}
    (h : r'.Overridden sentAtEpoch producedAt k) (hgrows : Grows Cause.Unserved r r') :
    r.Overridden sentAtEpoch producedAt k := by
  obtain ⟨b, hb, hkey, hsent, servedAt, hserved, hlt⟩ := h
  rcases hgrows.newer hb with hold | ⟨-, hnone⟩
  · exact ⟨b, hold, hkey, hsent, servedAt, hserved, hlt⟩
  · rw [hnone] at hserved
    cases hserved

end Resources

namespace Router

/-! ## The condition -/

/-- Where a visit finds a usable envelope in the prefetch cache, every overridden key that it
carries is one that the router held a version of when the prefetch was sent, or holds one of now.
Where it waited for a prefetch in flight, every key that was overridden before it began is one that
it knew at exactly the carried version; and a key known so is still confirmed when it is written. -/
structure Served (r : Router V P) (a : Action V P) : Prop where
  -- where `versionsStillAvailable` has nothing to compare
  cached : ∀ url entry, r.Opens a url → r.prefetchManager.cache.get? url = some entry →
    r.prefetchManager.usable r.now r.openVisit.store.exportKnownVersions entry = true →
      ∀ k ∈ entry.fetched.envelope.resources.keys,
        r.resources.Overridden entry.fetched.sentAtEpoch entry.fetched.producedAt k →
          k ∈ entry.basedOnVersions.keys ∨ k ∈ r.openVisit.store.exportKnownVersions.keys
  -- where the visit's own start hides the bump
  pending : ∀ index call, ∀ fetched : PrefetchedEnvelope V, a = .visitPrefetched index →
    r.visits[index]? = some call → r.isCurrent call = true →
      call.pending.bind r.prefetchOutcome = some (.ok fetched) →
        ∀ k record, fetched.envelope.resources.get? k = some record →
          r.resources.OverriddenBy call.startedAtEpoch fetched.sentAtEpoch fetched.producedAt k →
            call.knownVersions.get? k = some record.version
  -- where the write is no early return of `set`
  confirmed : ∀ nav e rest tasks sentAtEpoch producedAt, a = .resume →
    r.turn = .navResources nav (e :: rest) :: tasks → r.isCurrent nav.call = true →
      nav.origin = .prefetch sentAtEpoch producedAt →
        nav.call.knownVersions.get? e.1 = some e.2.version →
          r.resources.Overridden sentAtEpoch producedAt e.1 →
            r.store.settledAt e.1 e.2.version = true

/-! ## What is still to be written -/

end Router

/-- Every overridden key that the page has still to write is one that the visit knew at exactly the
carried version when it began. -/
def Task.Backed (r : Resources V) : Task V P → Prop
  | .navBegin call envelope (.prefetch sentAtEpoch producedAt) =>
    ∀ k record, envelope.resources.get? k = some record →
      r.Overridden sentAtEpoch producedAt k → call.knownVersions.get? k = some record.version
  | .navResources nav rest => ∀ sentAtEpoch producedAt, nav.origin = .prefetch sentAtEpoch producedAt →
    ∀ e ∈ rest, r.Overridden sentAtEpoch producedAt e.1 →
      nav.call.knownVersions.get? e.1 = some e.2.version
  | _ => True

theorem Task.Backed.of_overridden {r r' : Resources V} {t : Task V P} (h : t.Backed r)
    (hover : ∀ sentAtEpoch producedAt k, r'.Overridden sentAtEpoch producedAt k →
      r.Overridden sentAtEpoch producedAt k) : t.Backed r' := by
  cases t with
  | navBegin call envelope origin =>
    cases origin with
    | transport => trivial
    | prefetch sentAtEpoch producedAt =>
      exact fun k record hget hk => h k record hget (hover _ _ k hk)
  | navResources nav rest =>
    exact fun sentAtEpoch producedAt horigin e he hk =>
      h sentAtEpoch producedAt horigin e he (hover _ _ e.1 hk)
  | _ => trivial

/-- Where a prefetched envelope may be used, its versions are those that are held. -/
theorem version_of_available {basedOn current : Versions} {envelope : PageEnvelope V}
    (h : versionsStillAvailable basedOn current envelope = true) {k : String}
    {record : ResourceWireRecord V} (hget : envelope.resources.get? k = some record)
    (hk : k ∈ basedOn.keys ∨ k ∈ current.keys) : current.get? k = some record.version := by
  obtain ⟨hbased, hcarried⟩ := Bool.and_eq_true_iff.mp h
  rcases hk with hk | hk
  · obtain ⟨version, hversion⟩ := OrderedMap.mem_keys_iff.mp hk
    have hsame := List.all_eq_true.mp hbased _ (OrderedMap.get?_eq_some_iff.mp hversion)
    simpa [hget] using hsame
  · obtain ⟨version, hversion⟩ := OrderedMap.mem_keys_iff.mp hk
    have hsame := List.all_eq_true.mp hcarried _ (OrderedMap.get?_eq_some_iff.mp hget)
    simpa [hversion] using hsame

namespace Router

def AllBacked (r : Router V P) : Prop := ∀ t ∈ r.turn, t.Backed r.resources

/-- While a page is applied, nothing that the server published is processed. -/
theorem not_publishing_of_below {r : Router V P} {a : Action V P} (hlayered : Layered r.turn)
    {t : Task V P} (ht : t ∈ r.below a) : r.publishing a = false := by
  cases a with
  | resume =>
    rw [below] at ht
    rw [publishing]
    cases hturn : r.turn with
    | nil => rfl
    | cons head rest =>
      rw [hturn] at ht hlayered
      -- a part of a mutation or of a live event has nothing below it
      cases head with
      | patchMutation | invalidateMutation | patchLive | invalidateLive =>
        have hrest : rest = [] := hlayered.1 rfl
        rw [hrest] at ht
        cases ht
      | _ => rfl
  | _ => rfl

theorem not_publishing_of_opens {r : Router V P} {a : Action V P} {url : String}
    (h : r.Opens a url) : r.publishing a = false := by
  cases h with
  | visit => rfl
  | redirect hturn =>
    rw [publishing, hturn]
    rfl

theorem overridden_of_step {r r' : Router V P} {a : Action V P} (h : r.step a = some r')
    (hclear : a ≠ .clear) (hpublishing : r.publishing a = false) {sentAtEpoch producedAt : Nat}
    {k : String} (hk : r'.resources.Overridden sentAtEpoch producedAt k) :
    r.resources.Overridden sentAtEpoch producedAt k := by
  refine hk.of_grows ((grows_step h hclear).mono fun cause hcause => hcause.resolve_right ?_)
  rw [hpublishing]
  exact Bool.false_ne_true

/-- The cached envelope is one that the cache holds and the version check has passed. -/
theorem usable_of_getCached {m : PrefetchManager V} {now : Nat} {url : String} {known : Versions}
    {fetched : PrefetchedEnvelope V} (h : (m.getCached now url known).1 = some fetched) :
    ∃ entry, m.cache.get? url = some entry ∧ m.usable now known entry = true ∧
      entry.fetched = fetched := by
  unfold PrefetchManager.getCached at h
  split at h
  · cases h
  · next entry hentry =>
    split at h
    · next husable => exact ⟨entry, hentry, husable, Option.some.inj h⟩
    · cases h

theorem backed_hit {r : Router V P} {a : Action V P} (hok : r.Served a) {call : VisitCall}
    {fetched : PrefetchedEnvelope V} (hopens : r.Opens a call.url)
    (hknown : call.knownVersions = r.openVisit.store.exportKnownVersions)
    (hcached : (r.prefetchManager.getCached r.now call.url call.knownVersions).1 = some fetched) :
    (Task.navBegin call fetched.envelope (.prefetch fetched.sentAtEpoch fetched.producedAt) :
      Task V P).Backed r.resources := by
  intro k record hget hover
  obtain ⟨entry, hentry, husable, rfl⟩ := usable_of_getCached hcached
  rw [hknown] at husable ⊢
  have hheld := hok.cached call.url entry hopens hentry husable k
    (OrderedMap.mem_keys_iff.mpr ⟨record, hget⟩) hover
  exact version_of_available (Bool.and_eq_true_iff.mp husable).2 hget hheld

theorem backed_navigation {r : Router V P} {a : Action V P} (hr : r.Orderly) (hb : r.AllBacked)
    (hok : r.Served a) {call : VisitCall} {envelope : PageEnvelope V} {origin : Origin}
    (harrives : r.Arrives a call envelope origin) (hcurrent : r.isCurrent call = true) :
    (Task.navResources (r.navigation call envelope origin)
      (r.navigation call envelope origin).applied.resources.entries : Task V P).Backed
        r.resources := by
  intro sentAtEpoch producedAt horigin e he hover
  obtain rfl : origin = .prefetch sentAtEpoch producedAt := horigin
  obtain ⟨hcarried, heligible⟩ := OrderedMap.get?_filter_eq_some_iff.mp
    (OrderedMap.get?_eq_some_iff.mpr (show (e.1, e.2) ∈ _ from he))
  cases harrives with
  | @pending index _ fetched hcall houtcome =>
    -- an eligible key was not published about after the visit began
    obtain ⟨b, hbump, hkey, hoverrides⟩ := hover
    obtain ⟨servedAt, hserved, -⟩ := hoverrides.2
    have hbefore : b.epoch ≤ call.startedAtEpoch :=
      knownAt_of_eligible hr.ledger (of_decide_eq_true heligible) b hbump hkey
        (Cause.overrules_of_servedAt hserved)
    exact hok.pending index call fetched rfl hcall hcurrent houtcome e.1 e.2 hcarried
      ⟨b, hbump, hkey, hoverrides, hbefore⟩
  | held hturn =>
    have hbegin := hb _ (hturn ▸ List.mem_cons_self ..)
    exact hbegin e.1 e.2 hcarried hover

theorem allBacked_step {r r' : Router V P} {a : Action V P} (hr : r.Orderly)
    (hlayered : Layered r.turn) (hb : r.AllBacked) (hok : r.Served a) (h : r.step a = some r') :
    r'.AllBacked := by
  intro t ht
  by_cases hclear : a = .clear
  -- after `clear` there are no bumps, so nothing is overridden
  · subst hclear
    cases h
    refine (hb t ht).of_overridden fun _ _ k hk => ?_
    obtain ⟨b, hbump, -⟩ := hk
    cases hbump
  · have hkept : r.publishing a = false → t.Backed r.resources → t.Backed r'.resources :=
      fun hpublishing hback => hback.of_overridden fun _ _ _ hk =>
        overridden_of_step h hclear hpublishing hk
    -- What is still to be written was there before, or this step has put it there.
    rcases mem_turn_step h ht with hmem | hspawned
    · exact hkept (not_publishing_of_below hlayered hmem) (hb t (mem_turn_of_mem_below hmem))
    · cases hspawned with
      | follows ha hturn hfollows =>
        -- the record that was written is taken off, the others are as they were
        cases hfollows with
        | @wroteResource nav e rest =>
          refine hkept ?_ fun sentAtEpoch producedAt horigin e' he' => ?_
          · rw [ha, publishing, hturn]
            rfl
          · have hhead := hb _ (hturn ▸ List.mem_cons_self ..)
            exact hhead sentAtEpoch producedAt horigin e' (List.mem_cons_of_mem _ he')
        | _ => trivial
      | hit hopens _ _ _ _ _ hknown hcached =>
        exact hkept (not_publishing_of_opens hopens) (backed_hit hok hopens hknown hcached)
      -- the page's own bumps are served by nobody, so they override nothing
      | @navigation call envelope origin harrives hcurrent hresources =>
        have hback := backed_navigation hr hb hok harrives hcurrent
        refine hback.of_overridden fun _ _ k hk => ?_
        rw [hresources] at hk
        exact hk.of_grows (Resources.grows_bumpAll _ _ _ rfl)
      | _ => trivial

theorem allBacked_reachable {r : Router V P} (h : ReachableUnder Served r) : r.AllBacked := by
  have hall : r.Orderly ∧ Layered r.turn ∧ r.AllBacked := by
    refine h.invariant (I := fun r => r.Orderly ∧ Layered r.turn ∧ r.AllBacked) (fun r₀ h₀ => ?_)
      fun _ _ _ hr hok hstep => ⟨orderly_step hr.1 hstep, layered_step hstep hr.2.1,
        allBacked_step hr.1 hr.2.1 hr.2.2 hok hstep⟩
    have horderly := (orderly_initial h₀).1
    obtain ⟨options, h₀⟩ := h₀
    rw [AllBacked, (new_of_create h₀).turn]
    exact ⟨horderly, trivial, fun t ht => by cases ht⟩
  exact hall.2.2

theorem store_stepNavResources {r : Router V P} {nav : Navigation V}
    {e : String × ResourceWireRecord V} {rest : List (String × ResourceWireRecord V)}
    (h : r.isCurrent nav.call = true) :
    (r.stepNavResources nav (e :: rest)).store =
      (r.store.set r.now e.1 e.2.version e.2.value).1 := by
  simp only [stepNavResources]
  rw [if_pos h]
  rfl

/-! ## What a served visit installs -/

/-- The step serves a visit from an envelope that was prefetched. -/
inductive Serves (r : Router V P) (a : Action V P) (sentAtEpoch producedAt : Nat) : Prop
  | arrival {call envelope} (h : r.Arrives a call envelope (.prefetch sentAtEpoch producedAt))
  | part {t nav rest} (ha : a = .resume) (hturn : r.turn = t :: rest) (hnav : t.nav? = some nav)
    (horigin : nav.origin = .prefetch sentAtEpoch producedAt)

theorem store_loadResources (r : Router V P) (keys : List String) (options : LoadResourcesOptions) :
    (r.loadResources keys options).store = r.store := by
  unfold loadResources
  dsimp only
  split
  · rfl
  · exact Resources.resourceStore_captureEpoch (r.resourceLoadCounter + 1)
      (r.resources, .empty) (unique (keys.filter (· ≠ "")))

/-- A part of a page other than the write of a record confirms nothing. -/
theorem calm_part {r r' : Router V P} {t : Task V P} {nav : Navigation V} (h : r.Part t r')
    (hnav : t.nav? = some nav) (ht : ∀ e rest, t ≠ .navResources nav (e :: rest)) :
    ResourceStore.Calm r.store r'.store := by
  have htouched : ∀ keys : List String,
      ResourceStore.Calm r.store (keys.foldl (fun store key => store.touchState key) r.store) :=
    fun keys k _ => ResourceStore.entry_touchAll r.store keys k
  cases h with
  | @writeResource _ e rest =>
    -- `ht` leaves this part to the caller: it is the one that may confirm
    cases hnav
    exact absurd rfl (ht e rest)
  | writeError => exact ResourceStore.calm_showUnsettled r.store _ _ (by decide)
  | writePending => exact ResourceStore.calm_showUnsettled r.store _ none (by decide)
  -- the batch that is aborted gets its old values back, and they are not fresh
  | @followUpDeferred nav' =>
    unfold startDeferredBatch
    rw [store_loadResources]
    show ResourceStore.Calm r.store (r.push (.navMissing nav')).abortActiveDeferred.store
    unfold abortActiveDeferred
    dsimp only [store]
    split
    · exact Resources.calm_restoreCaptured r.resources r.now _ _
    · exact .refl r.store
  | finishPage => exact htouched _
  | reloadMissing =>
    rw [store_loadResources]
    exact htouched _
  -- what is left of a page's parts does not touch the store
  | navSuperseded | wroteResources | skipError | wroteErrors | wrotePending | showPage
  | refuseManifest | updateManifest | commit | followUp => exact .refl r.store
  | _ => cases hnav

/-- In a run that meets the condition, no step of a visit that is served from a prefetched envelope
makes a key fresh that a mutation or a live event has overridden: one that the router processed
after the prefetch was sent and that took effect after the envelope's values were produced. -/
theorem served_visit_installs_current {r r' : Router V P} {a : Action V P}
    (hr : ReachableUnder Served r) (hok : r.Served a) (hstep : r.step a = some r')
    {sentAtEpoch producedAt : Nat} (hserves : r.Serves a sentAtEpoch producedAt) {k : String}
    (hfresh : (r'.store.entry k).fresh) (hnew : r'.store.entry k ≠ r.store.entry k) :
    ¬r.resources.Overridden sentAtEpoch producedAt k := by
  have hbacked := allBacked_reachable hr
  cases hserves with
  | arrival harrives =>
    have hsame : r'.store = r.store := by
      cases harrives with
      | @pending index _ fetched hcall houtcome =>
        have h := (notified_eq_some hstep).2
        rw [hcall, Option.bind_some, receiveVisitPrefetched, houtcome] at h
        cases h
        exact store_beginNavigation ..
      | held hturn =>
        have hresume : r.resume = some r' := hstep
        rw [resume, hturn] at hresume
        cases hresume
        exact store_beginNavigation ..
    exact absurd (hsame ▸ rfl) hnew
  | @part t nav rest ha hturn hnav horigin =>
    subst ha
    have hresume : r.resume = some r' := hstep
    rw [resume, hturn] at hresume
    cases hresume
    by_cases ht : ∀ e records, t ≠ .navResources nav (e :: records)
    · have hcalm := calm_part (part_runTask { r with turn := rest } t) hnav ht
      exact absurd (hcalm k hfresh) hnew
    · push Not at ht
      obtain ⟨e, records, rfl⟩ := ht
      cases hnav
      have hmem : .navResources nav (e :: records) ∈ r.turn := hturn ▸ List.mem_cons_self ..
      by_cases hcurrent : r.isCurrent nav.call = true
      · have hstore : (({ r with turn := rest } : Router V P).stepNavResources nav
            (e :: records)).store = (r.store.set r.now e.1 e.2.version e.2.value).1 :=
          store_stepNavResources hcurrent
        simp only [runTask] at hfresh hnew
        rw [hstore] at hfresh hnew
        by_cases hkey : k = e.1
        · subst hkey
          -- the version was confirmed before the visit began, so the write changes nothing
          intro hover
          have hknown := hbacked _ hmem _ _ horigin e (List.mem_cons_self ..) hover
          have hsettled := hok.confirmed nav e records rest _ _ rfl hturn hcurrent horigin hknown hover
          exact hnew (ResourceStore.entry_set_settledAt r.now e.2.value hsettled e.1)
        · rcases ResourceStore.kept_set r.store r.now e.2.version e.2.value hkey
            with hsame | hevicted
          · exact absurd hsame hnew
          · exact absurd (hevicted ▸ hfresh) ResourceStore.not_fresh_evicted
      · have hstore : (({ r with turn := rest } : Router V P).runTask
            (.navResources nav (e :: records))).store = r.store := by
          simp only [runTask, stepNavResources]
          split
          · next h => exact absurd h hcurrent
          · rfl
        exact absurd (hstore ▸ rfl) hnew

end Router

/-! ## Two runs -/

section Runs

namespace Router

/-- Steps that meet the condition whatever was published: a visit finds nothing in the prefetch
cache, one that waited is given no key that was overridden before it began, and a record is written
that the visit knew at another version or at none. -/
def seen (r : Router Nat Nat) : Action Nat Nat → Bool
  | .visit url _ => (r.prefetchManager.cache.get? url).isNone
  | .visitPrefetched index =>
    r.visits[index]?.all fun call => (call.pending.bind r.prefetchOutcome).all fun outcome =>
      outcome.toOption.all fun fetched => r.resources.bumps.all fun b =>
        !fetched.envelope.resources.keys.contains b.key || decide (call.startedAtEpoch < b.epoch) ||
          b.cause.servedAt.all fun servedAt => decide (servedAt ≤ fetched.producedAt)
  | .resume =>
    match r.turn with
    | .invalidateMutation mutation [] _ :: _ => (truthy mutation.payload.redirect).isNone
    | .navResources nav (e :: _) :: _ => nav.call.knownVersions.get? e.1 != some e.2.version
    | _ => true
  | _ => true

theorem served_of_seen {r : Router Nat Nat} {a : Action Nat Nat} (h : r.seen a = true) :
    r.Served a := by
  refine { cached := ?_, pending := ?_, confirmed := ?_ }
  · intro url entry hopens hentry
    cases hopens with
    | visit =>
      simp only [seen, hentry] at h
      cases h
    | redirect hturn _ _ hredirect =>
      simp only [seen, hturn, hredirect] at h
      cases h
  · rintro index call fetched rfl hcall _ houtcome k record hget ⟨b, hb, hkey, hover, hbefore⟩
    obtain ⟨servedAt, hserved, hlt⟩ := hover.2
    have hcarried : k ∈ fetched.envelope.resources.keys := OrderedMap.mem_keys_iff.mpr ⟨record, hget⟩
    simp only [seen, hcall, Option.all_some, houtcome, Except.toOption] at h
    have hbump := List.all_eq_true.mp h b hb
    rw [Option.mem_def.mp hserved, Option.all_some, Bool.or_eq_true, Bool.or_eq_true,
      Bool.not_eq_true', decide_eq_true_eq, decide_eq_true_eq] at hbump
    rcases hbump with (hother | hlater) | hearlier
    · rw [hkey, List.contains_iff_mem.mpr hcarried] at hother
      cases hother
    · omega
    · omega
  · rintro nav e rest tasks sentAtEpoch producedAt rfl hturn _ _ hknown
    simp only [seen, hturn, hknown, bne_self_eq_false] at h
    cases h

end Router

/-- The page that is prefetched carries two keys. -/
def sharedPage : PageEnvelope Nat :=
  { page := { component := "Other", url := "/other" }
    resources := .ofList [("k", ⟨"v1", 1⟩), ("j", ⟨"v1", 1⟩)]
    resourceKeys := some ["k", "j"] }

/-- While the prefetch is in flight a mutation invalidates "j", which the response knows of
already; a visit waits for the response, and then a mutation invalidates "k", which it does not. -/
def joinedVisit : List (Action Nat Nat) :=
  [.prefetch "/other", .mutate "/mutate", .mutateResponse 0 { invalidate := some ["j"] } 2,
    .resume, .resume, .resume, .visit "/other" {}, .mutate "/mutate",
    .mutateResponse 0 { invalidate := some ["k"] } 5, .resume, .resume, .resume,
    .prefetchResponse 1 sharedPage 3, .visitPrefetched 0]

theorem served_visit_installs_current_joinedVisit :
    ∃ r r' : Router Nat Nat, r.step .resume = some r' ∧ r.resources.Overridden 0 3 "k" ∧
      (r'.store.entry "j").fresh ∧ ¬r.resources.Overridden 0 3 "j" := by
  obtain ⟨r, hr⟩ : ∃ r, Router.runUnder (fun r a => r.seen a = true)
      { initialEnvelope := some livePage } joinedVisit = some r :=
    Option.isSome_iff_exists.mp (by decide)
  have hstate : ((Router.runUnder (fun r a => r.seen a = true)
      { initialEnvelope := some livePage } joinedVisit).map fun r =>
        (r.seen .resume && decide (⟨"k", 2, .mutation 5⟩ ∈ r.resources.bumps),
          (r.turn.head?.bind Task.nav?).map (·.origin), (r.store.entry "j").record.isSome,
          (r.step .resume).map fun r' =>
            ((r'.store.entry "j").record.isSome, (r'.store.entry "j").stale))) =
      some (true, some (.prefetch 0 3), false, some (true, false)) := by decide
  -- `j` is not overridden and becomes fresh, while `k` is overridden and is not written
  rw [hr, Option.map_some, Option.some.injEq] at hstate
  simp only [Prod.mk.injEq, Bool.and_eq_true, decide_eq_true_iff] at hstate
  obtain ⟨⟨hseen, hbump⟩, hhead, hbefore, hafter⟩ := hstate
  obtain ⟨r', hstep, hentry⟩ := Option.map_eq_some_iff.mp hafter
  rw [Prod.mk.injEq] at hentry
  obtain ⟨nav, hnav, horigin⟩ := Option.map_eq_some_iff.mp hhead
  obtain ⟨t, ht, hnav⟩ := Option.bind_eq_some_iff.mp hnav
  obtain ⟨rest, hturn⟩ := List.head?_eq_some_iff.mp ht
  obtain ⟨r₀, h₀, hrun⟩ := Router.reachableUnder_of_runUnder hr
  have hreach : Router.ReachableUnder Router.Served r :=
    ⟨r₀, h₀, hrun.mono fun _ _ => Router.served_of_seen⟩
  -- the entry had no record before the step
  have hnew : r'.store.entry "j" ≠ r.store.entry "j" := by
    intro hsame
    rw [hsame, hbefore] at hentry
    cases hentry.1
  exact ⟨r, r', hstep, ⟨_, hbump, rfl, by decide, 5, rfl, by decide⟩, hentry,
    Router.served_visit_installs_current hreach (Router.served_of_seen hseen) hstep
      (.part rfl hturn hnav horigin) hentry hnew⟩

/-- A mutation invalidates a key that the client does not hold while the prefetch is in flight. -/
def overtakenVisit : List (Action Nat Nat) :=
  [.prefetch "/other", .mutate "/mutate", .mutateResponse 0 { invalidate := some ["k"] } 5,
    .resume, .resume, .resume, .visit "/other" {}, .prefetchResponse 1 otherPage 3,
    .prefetchSettled 0, .resume, .visitPrefetched 0]

/-- The prefetch rejects the envelope, but the visit that waits for it installs the value that the
mutation has overridden. -/
theorem served_visit_installs_overridden :
    ¬∀ (r r' : Router Nat Nat) (a : Action Nat Nat) (sentAtEpoch producedAt : Nat) (k : String),
      Router.Reachable r → r.step a = some r' → r.Serves a sentAtEpoch producedAt →
        (r'.store.entry k).fresh → r'.store.entry k ≠ r.store.entry k →
          ¬r.resources.Overridden sentAtEpoch producedAt k := by
  intro hall
  obtain ⟨r, hr⟩ : ∃ r, Router.run { initialEnvelope := some livePage } overtakenVisit = some r :=
    Option.isSome_iff_exists.mp (by decide)
  have hstate : ((Router.run { initialEnvelope := some livePage } overtakenVisit).map fun r =>
      (decide (⟨"k", 1, .mutation 5⟩ ∈ r.resources.bumps),
        (r.turn.head?.bind Task.nav?).map (·.origin), (r.store.entry "k").record.isSome,
        (r.step .resume).map fun r' =>
          ((r'.store.entry "k").record.isSome, (r'.store.entry "k").stale))) =
      some (true, some (.prefetch 0 3), false, some (true, false)) := by decide
  rw [hr, Option.map_some, Option.some.injEq] at hstate
  simp only [Prod.mk.injEq, decide_eq_true_iff] at hstate
  obtain ⟨hbump, hhead, hbefore, hafter⟩ := hstate
  obtain ⟨r', hstep, hentry⟩ := Option.map_eq_some_iff.mp hafter
  rw [Prod.mk.injEq] at hentry
  obtain ⟨nav, hnav, horigin⟩ := Option.map_eq_some_iff.mp hhead
  obtain ⟨t, ht, hnav⟩ := Option.bind_eq_some_iff.mp hnav
  obtain ⟨rest, hturn⟩ := List.head?_eq_some_iff.mp ht
  -- the same reading of the run, but here the key that becomes fresh is the overridden one
  have hnew : r'.store.entry "k" ≠ r.store.entry "k" := by
    intro hsame
    rw [hsame, hbefore] at hentry
    cases hentry.1
  exact hall r r' .resume 0 3 "k" (Router.reachable_of_run hr) hstep
    (.part rfl hturn hnav horigin) hentry hnew
    ⟨_, hbump, rfl, by decide, 5, rfl, by decide⟩

end Runs

end FluxFast.Core
