import FluxFast.Core.Prefetch
import FluxFast.Theory.Runs
import Mathlib.Data.Finset.Dedup

/-!
# PrefetchRuns — the prefetch manager under every interleaving

The calls of `PrefetchManager` in any order, with the two callbacks of a request as steps of their
own: `then` runs when the transport has answered, `finally` some time after it.  A request whose
`then` has run, or whose failure has passed it by, has an outcome; its promise carries that outcome
from `finally` on.

`removed` lists the requests that `clear` or an eviction took out of the in-flight table, and
`withdrawn` those of them that had no outcome yet.  The program keeps neither list.
-/

namespace FluxFast.Core

open FluxFast.Theory

variable {V : Type}

namespace PrefetchManager

/-- The `then` callback of a request that was sent with the time to live `ttlMs`. -/
def onEnvelope (m : PrefetchManager V) (now ttlMs id : Nat) (request : PrefetchRequest V)
    (envelope : PageEnvelope V) (producedAt : Nat) : PrefetchManager V :=
  -- the first turn of the answer; releasing the request is the promise's `finally`, a later turn
  if request.generation ≠ m.generation ∨ request.aborted = true then
    m.record id request (.error prefetchCancellation)
  else
    let fetched : PrefetchedEnvelope V :=
      { envelope := envelope
        request := id
        sentAtEpoch := request.sentAtEpoch
        producedAt := producedAt }
    let pruned := (m.acceptPrefetchEnvelope fetched).pruneExpired now
    let entry : PrefetchEntry V :=
      { fetched := fetched
        expiresAt := now + ttlMs
        basedOnVersions := request.knownVersions }
    let cached : PrefetchManager V :=
      { pruned with cache := (pruned.cache.delete request.url).set request.url entry }
    (evictOldest cached.cache.size cached).record id request (.ok fetched)

/-- The requests the in-flight table names. -/
def inFlightIds (m : PrefetchManager V) : Finset Nat := (m.inFlight.entries.map Prod.snd).toFinset

def outcomeOf (m : PrefetchManager V) (id : Nat) : Option (Except Failure (PrefetchedEnvelope V)) :=
  (m.requests.get? id).bind (·.outcome)

end PrefetchManager

structure PrefetchRun (V : Type) where
  manager : PrefetchManager V := {}
  ttlMs : Nat → Nat := fun _ => 0
  finished : Finset Nat := ∅
  removed : Finset Nat := ∅
  withdrawn : Finset Nat := ∅

inductive PrefetchAction (V : Type) where
  | fetch (now : Nat) (url : String) (knownVersions : Versions) (ttlMs sentAt : Nat)
  | getCached (now : Nat) (url : String) (currentVersions : Versions)
  | getPending (url : String) (knownVersions : Versions)
  | reject (fetched : PrefetchedEnvelope V)
  | clear
  | envelope (now id : Nat) (envelope : PageEnvelope V) (producedAt : Nat)
  | failure (id : Nat) (failure : Failure)
  | finish (id : Nat)

namespace PrefetchRun

open PrefetchManager

/-- Continue with the manager of a call that may have taken requests out of the table. -/
def takeOut (s : PrefetchRun V) (m : PrefetchManager V) : PrefetchRun V :=
  let out := s.manager.inFlightIds \ m.inFlightIds
  { s with
    manager := m
    removed := s.removed ∪ out
    withdrawn := s.withdrawn ∪ out.filter fun id => (m.outcomeOf id).isNone }

def step (s : PrefetchRun V) : PrefetchAction V → Option (PrefetchRun V)
  | .fetch now url knownVersions ttlMs sentAt =>
    -- the lifetime is the call's own, kept until its answer
    some { s.takeOut (s.manager.fetch now url knownVersions sentAt).2 with
      ttlMs := Function.update s.ttlMs (s.manager.requestCounter + 1) ttlMs }
  | .getCached now url currentVersions =>
    some { s with manager := (s.manager.getCached now url currentVersions).2 }
  | .getPending _ _ => some s
  | .reject fetched => some { s with manager := s.manager.rejectPrefetchEnvelope fetched }
  | .clear => some (s.takeOut s.manager.clear)
  | .envelope now id envelope producedAt =>
    (s.manager.requests.get? id).bind fun request =>
      if request.outcome.isNone then
        some { s with
          manager := s.manager.onEnvelope now (s.ttlMs id) id request envelope producedAt }
      else none
  | .failure id failure =>
    (s.manager.requests.get? id).bind fun request =>
      if request.outcome.isNone then
        some { s with manager := s.manager.record id request (.error failure) }
      else none
  | .finish id =>
    -- only a request that has settled is released, and only once
    (s.manager.requests.get? id).bind fun request =>
      if request.outcome.isSome ∧ id ∉ s.finished then
        some { s with
          manager := s.manager.release id request.fingerprint
          finished := insert id s.finished }
      else none

/-- The state of a manager that was just constructed. -/
def start (defaultTtlMs : Nat) : PrefetchRun V := { manager := { defaultTtlMs := defaultTtlMs } }

end PrefetchRun

/-! ## What the operations keep -/

namespace PrefetchManager

variable {m m' : PrefetchManager V} {id : Nat} {key : Fingerprint}

/-- The same requests with the same outcomes, of which some more may have been aborted. -/
structure Aborts (m m' : PrefetchManager V) : Prop where
  requests : ∀ id r, m.requests.get? id = some r →
    ∃ r', m'.requests.get? id = some r' ∧ r'.fingerprint = r.fingerprint ∧
      r'.outcome = r.outcome ∧ (r.aborted = true → r'.aborted = true)
  known : ∀ id r', m'.requests.get? id = some r' → ∃ r, m.requests.get? id = some r
  requestCounter : m'.requestCounter = m.requestCounter

theorem Aborts.refl (m : PrefetchManager V) : m.Aborts m where
  requests := fun _ r hr => ⟨r, hr, rfl, rfl, id⟩
  known := fun _ r hr => ⟨r, hr⟩
  requestCounter := rfl

theorem Aborts.trans {m'' : PrefetchManager V} (h : m.Aborts m') (h' : m'.Aborts m'') :
    m.Aborts m'' where
  requests := by
    intro id r hr
    obtain ⟨r', hr', hfp', hout', hab'⟩ := h.requests id r hr
    obtain ⟨r'', hr'', hfp'', hout'', hab''⟩ := h'.requests id r' hr'
    exact ⟨r'', hr'', hfp''.trans hfp', hout''.trans hout', fun hab => hab'' (hab' hab)⟩
  known := by
    intro id r'' hr''
    obtain ⟨r', hr'⟩ := h'.known id r'' hr''
    exact h.known id r' hr'
  requestCounter := h'.requestCounter.trans h.requestCounter

theorem aborts_abort (m : PrefetchManager V) (id : Nat) : m.Aborts (m.abort id) := by
  unfold abort
  cases hid : m.requests.get? id with
  | none => exact .refl m
  | some request =>
    constructor
    case requestCounter => rfl
    case requests =>
      intro j r hr
      by_cases hj : j = id
      · subst hj
        rw [hid, Option.some.injEq] at hr
        subst hr
        exact ⟨_, OrderedMap.get?_set_self _ _ _, rfl, rfl, fun _ => rfl⟩
      · exact ⟨r, (OrderedMap.get?_set_ne _ _ hj).trans hr, rfl, rfl, fun hab => hab⟩
    case known =>
      intro j r hr
      by_cases hj : j = id
      · exact ⟨request, hj ▸ hid⟩
      · exact ⟨r, (OrderedMap.get?_set_ne _ _ hj).symm.trans hr⟩

/-- A request the manager knows is aborted by `abort`. -/
theorem aborted_abort {r : PrefetchRequest V} (h : m.requests.get? id = some r) :
    ∃ r', (m.abort id).requests.get? id = some r' ∧ r'.aborted = true := by
  simp only [abort, h]
  exact ⟨_, OrderedMap.get?_set_self _ _ _, rfl⟩

@[simp] theorem inFlight_abort : (m.abort id).inFlight = m.inFlight := by
  unfold abort
  split
  · rfl
  · rfl

@[simp] theorem controllers_abort : (m.abort id).controllers = m.controllers := by
  unfold abort
  split
  · rfl
  · rfl

@[simp] theorem cache_abort : (m.abort id).cache = m.cache := by
  unfold abort
  split
  · rfl
  · rfl

/-! ## The tables and the requests -/

/-- Both tables name the same requests under their fingerprints, and the cache holds what a request
fetched. -/
structure Linked (m : PrefetchManager V) : Prop where
  controllers : m.controllers = m.inFlight
  fresh : ∀ id r, m.requests.get? id = some r → id ≤ m.requestCounter
  tracked : ∀ k id, m.inFlight.get? k = some id →
    ∃ r, m.requests.get? id = some r ∧ r.fingerprint = k
  cached : ∀ url e, m.cache.get? url = some e →
    m.outcomeOf e.fetched.request = some (.ok e.fetched)

/-- The linked tables within their bounds. -/
structure Tracked (m : PrefetchManager V) : Prop extends Linked m where
  inFlight_le : m.inFlight.size ≤ maxPrefetchEntries
  cache_le : m.cache.size ≤ maxPrefetchEntries

/-- A request that was aborted and has brought nothing. -/
def Withdrawn (m : PrefetchManager V) (id : Nat) : Prop :=
  ∃ r, m.requests.get? id = some r ∧ r.aborted = true ∧ ∀ fetched, r.outcome ≠ some (.ok fetched)

theorem Aborts.outcomeOf (h : m.Aborts m') {outcome : Except Failure (PrefetchedEnvelope V)}
    (hid : m.outcomeOf id = some outcome) : m'.outcomeOf id = some outcome := by
  obtain ⟨r, hr, hout⟩ := Option.bind_eq_some_iff.mp hid
  obtain ⟨r', hr', -, hout', -⟩ := h.requests id r hr
  exact Option.bind_eq_some_iff.mpr ⟨r', hr', hout'.trans hout⟩

/-- The table of `m'` is a part of the table of `m`, and what it lacks has been aborted. -/
structure Withdraws (m m' : PrefetchManager V) : Prop extends Aborts m m' where
  controllers : m'.controllers = m'.inFlight
  cache : m'.cache = m.cache
  kept : ∀ k id, m'.inFlight.get? k = some id → m.inFlight.get? k = some id
  out : ∀ k id, m.inFlight.get? k = some id → m'.inFlight.get? k = some id ∨
    ∃ r, m'.requests.get? id = some r ∧ r.aborted = true

theorem Withdraws.linked (h : m.Withdraws m') (hm : m.Linked) : m'.Linked where
  controllers := h.controllers
  fresh := by
    intro id r hr
    obtain ⟨r', hr'⟩ := h.known id r hr
    rw [h.requestCounter]
    exact hm.fresh id r' hr'
  tracked := by
    intro k id hk
    obtain ⟨r, hr, hfp⟩ := hm.tracked k id (h.kept k id hk)
    obtain ⟨r', hr', hfp', -⟩ := h.requests id r hr
    exact ⟨r', hr', hfp'.trans hfp⟩
  cached := by
    intro url e he
    rw [h.cache] at he
    exact h.toAborts.outcomeOf (hm.cached url e he)

/-- Evicting the oldest request aborts it and leaves the others in the tables. -/
theorem withdraws_evict (hm : m.Linked) {oldest : Fingerprint}
    (hid : m.inFlight.get? oldest = some id) :
    m.Withdraws
      { m.abort id with
        controllers := (m.abort id).controllers.delete oldest
        inFlight := (m.abort id).inFlight.delete oldest } := by
  obtain ⟨r, hr, -⟩ := hm.tracked oldest id hid
  have haborts := aborts_abort m id
  constructor
  -- Aborting takes the request out of both tables under one key.
  case toAborts => exact ⟨haborts.requests, haborts.known, haborts.requestCounter⟩
  case controllers =>
    show (m.abort id).controllers.delete oldest = (m.abort id).inFlight.delete oldest
    rw [controllers_abort, inFlight_abort, hm.controllers]
  case cache => exact cache_abort
  case kept =>
    intro k j hk
    rw [inFlight_abort, OrderedMap.get?_delete] at hk
    split at hk
    · cases hk
    · exact hk
  case out =>
    intro k j hk
    -- the oldest key goes out with its request aborted, every other key keeps its own
    by_cases hko : k = oldest
    · subst hko
      rw [hid, Option.some.injEq] at hk
      exact .inr (hk ▸ aborted_abort hr)
    · left
      rw [inFlight_abort, OrderedMap.get?_delete_ne _ hko]
      exact hk

theorem Withdraws.trans {m'' : PrefetchManager V} (h : m.Withdraws m') (h' : m'.Withdraws m'') :
    m.Withdraws m'' where
  toAborts := h.toAborts.trans h'.toAborts
  controllers := h'.controllers
  cache := h'.cache.trans h.cache
  kept := fun k id hk => h.kept k id (h'.kept k id hk)
  out := by
    intro k id hk
    rcases h.out k id hk with hk' | ⟨r, hr, hab⟩
    · exact h'.out k id hk'
    · obtain ⟨r', hr', -, -, hab'⟩ := h'.requests id r hr
      exact .inr ⟨r', hr', hab' hab⟩

theorem Withdraws.refl (hm : m.Linked) : m.Withdraws m where
  toAborts := .refl m
  controllers := hm.controllers
  cache := rfl
  kept := fun _ _ hk => hk
  out := fun _ _ hk => .inl hk

/-- `evictInFlight` takes the oldest requests out until the table is within its bound. -/
theorem withdraws_evictInFlight (fuel : Nat) (hm : m.Linked)
    (hfuel : m.inFlight.size ≤ maxPrefetchEntries + fuel) :
    m.Withdraws (evictInFlight fuel m) ∧
      (evictInFlight fuel m).inFlight.size ≤ maxPrefetchEntries := by
  induction fuel generalizing m with
  | zero => exact ⟨.refl hm, hfuel⟩
  | succ fuel ih =>
    unfold evictInFlight
    split
    · next hover =>
      cases hkeys : m.inFlight.keys with
      | nil =>
        rw [OrderedMap.size_eq_length_keys, hkeys] at hover
        exact absurd hover (by decide)
      | cons oldest rest =>
        have hmem : oldest ∈ m.inFlight.keys := by rw [hkeys]; exact List.mem_cons_self ..
        obtain ⟨id, hid⟩ := OrderedMap.mem_keys_iff.mp hmem
        have hcontroller : m.controllers.get? oldest = some id := hm.controllers ▸ hid
        simp only [hcontroller]
        have hone := withdraws_evict hm hid
        have hsize := OrderedMap.size_delete_of_mem hmem
        have hrest := ih (hone.linked hm) (by
          show ((m.abort id).inFlight.delete oldest).size ≤ _
          rw [inFlight_abort]
          omega)
        exact ⟨hone.trans hrest.1, hrest.2⟩
    · next hunder => exact ⟨.refl hm, Nat.le_of_not_lt hunder⟩

/-- Aborting every request of a list. -/
theorem aborts_foldl (ids : List (Fingerprint × Nat)) (m : PrefetchManager V) :
    m.Aborts (ids.foldl (fun m e => m.abort e.2) m) :=
  foldl_relates (R := Aborts) Aborts.refl Aborts.trans (fun m e => aborts_abort m e.2) ids m

theorem aborted_foldl {ids : List (Fingerprint × Nat)} {e : Fingerprint × Nat} (he : e ∈ ids)
    {r : PrefetchRequest V} (hr : m.requests.get? e.2 = some r) :
    ∃ r', (ids.foldl (fun m e => m.abort e.2) m).requests.get? e.2 = some r' ∧
      r'.aborted = true := by
  induction ids generalizing m r with
  | nil => cases he
  | cons x ids ih =>
    rw [List.foldl_cons]
    rcases List.mem_cons.mp he with rfl | he
    · obtain ⟨r', hr', hab⟩ := aborted_abort hr
      obtain ⟨r'', hr'', -, -, hab'⟩ := (aborts_foldl ids (m.abort e.2)).requests _ _ hr'
      exact ⟨r'', hr'', hab' hab⟩
    · obtain ⟨r', hr', -⟩ := (aborts_abort m x.2).requests _ _ hr
      exact ih he hr'

/-! ## One operation at a time -/

/-- `clear` aborts what is in flight and empties the tables. -/
theorem clear_spec (hm : m.Linked) :
    m.clear.Tracked ∧ m.Aborts m.clear ∧
      ∀ k id, m.inFlight.get? k = some id →
        ∃ r, m.clear.requests.get? id = some r ∧ r.aborted = true := by
  have haborts := aborts_foldl m.controllers.entries m
  have hclear : m.Aborts m.clear := ⟨haborts.requests, haborts.known, haborts.requestCounter⟩
  refine ⟨⟨⟨rfl, fun id r hr => ?_, fun _ _ hk => ?_, fun _ _ hk => ?_⟩, Nat.zero_le _,
    Nat.zero_le _⟩, hclear, fun k id hk => ?_⟩
  · obtain ⟨r', hr'⟩ := hclear.known id r hr
    rw [hclear.requestCounter]
    exact hm.fresh id r' hr'
  · exact absurd hk (by simp [clear])
  · exact absurd hk (by simp [clear])
  · obtain ⟨r, hr, -⟩ := hm.tracked k id hk
    have hmem : (k, id) ∈ m.controllers.entries :=
      OrderedMap.get?_eq_some_iff.mp (hm.controllers ▸ hk)
    exact aborted_foldl hmem hr

/-- Reading the cache moves an entry to its end or drops it. -/
theorem getCached_spec (m : PrefetchManager V) (now : Nat) (url : String) (versions : Versions) :
    ∃ cache, (m.getCached now url versions).2 = { m with cache := cache } ∧
      cache.size ≤ m.cache.size ∧ ∀ k e, cache.get? k = some e → m.cache.get? k = some e := by
  unfold getCached
  cases hurl : m.cache.get? url with
  | none => exact ⟨m.cache, rfl, le_refl _, fun _ _ h => h⟩
  | some entry =>
    have hdeleted : ∀ k e, (m.cache.delete url).get? k = some e → m.cache.get? k = some e := by
      intro k e hk
      rw [OrderedMap.get?_delete] at hk
      split at hk
      · cases hk
      · exact hk
    by_cases husable : m.usable now versions entry = true
    · refine ⟨(m.cache.delete url).set url entry, by simp [husable], ?_, fun k e hk => ?_⟩
      · have hmem := OrderedMap.mem_keys_of_get? hurl
        have hsize := OrderedMap.size_delete_of_mem hmem
        have hset := OrderedMap.size_set_of_not_mem (m := m.cache.delete url) (k := url) entry
          (fun h => (OrderedMap.mem_keys_delete.mp h).1 rfl)
        omega
      · by_cases hk' : k = url
        · subst hk'
          rw [OrderedMap.get?_set_self] at hk
          rw [hurl, hk]
        · rw [OrderedMap.get?_set_ne _ _ hk'] at hk
          exact hdeleted k e hk
    · exact ⟨m.cache.delete url, by simp [husable], OrderedMap.size_delete_le _ _, hdeleted⟩

/-- Enter a new request into the tables. -/
def sent (m : PrefetchManager V) (request : PrefetchRequest V) : PrefetchManager V :=
  { m with
    requestCounter := m.requestCounter + 1
    requests := m.requests.set (m.requestCounter + 1) request
    inFlight := m.inFlight.set request.fingerprint (m.requestCounter + 1)
    controllers := m.controllers.set request.fingerprint (m.requestCounter + 1) }

/-- `fetch` reads the cache and then, unless it finds something or the request is pending, sends
one and evicts. -/
theorem fetch_cases (m : PrefetchManager V) (now : Nat) (url : String) (knownVersions : Versions)
    (sentAt : Nat) :
    let m₁ := (m.getCached now url knownVersions).2
    (m.fetch now url knownVersions sentAt).2 = m₁ ∨
      ∃ request : PrefetchRequest V, m₁.inFlight.get? request.fingerprint = none ∧
        (m.fetch now url knownVersions sentAt).2 =
          evictInFlight (m₁.sent request).inFlight.size (m₁.sent request) := by
  rcases hcached : m.getCached now url knownVersions with ⟨_ | fetched, m₁⟩
  · cases hpending : m₁.getPending url knownVersions with
    | some id =>
      left
      simp only [fetch, hcached, hpending]
    | none =>
      right
      refine ⟨{ url := url
                fingerprint := fingerprint url knownVersions
                knownVersions := knownVersions
                generation := m₁.generation
                sentAtEpoch := sentAt }, hpending, ?_⟩
      simp only [fetch, hcached, hpending]
      rfl
  · left
    simp only [fetch, hcached]

theorem sent_spec (hm : m.Linked) {request : PrefetchRequest V}
    (hkey : m.inFlight.get? request.fingerprint = none) :
    (m.sent request).Linked ∧
      (∀ id r, m.requests.get? id = some r → (m.sent request).requests.get? id = some r) ∧
      ∀ k id, m.inFlight.get? k = some id → (m.sent request).inFlight.get? k = some id := by
  -- The counter's next number was never given out.
  have hnew : m.requests.get? (m.requestCounter + 1) = none := by
    cases hr : m.requests.get? (m.requestCounter + 1) with
    | none => rfl
    | some r => exact absurd (hm.fresh _ r hr) (by omega)
  have hold : ∀ id r, m.requests.get? id = some r →
      (m.requests.set (m.requestCounter + 1) request).get? id = some r := by
    intro id r hr
    have hid : id ≠ m.requestCounter + 1 := fun heq => by simp [heq, hnew] at hr
    rw [OrderedMap.get?_set_ne _ _ hid]
    exact hr
  refine ⟨?_, hold, fun k id hk => ?_⟩
  · constructor
    -- the two tables are written under the same key
    case controllers =>
      show m.controllers.set _ _ = m.inFlight.set _ _
      rw [hm.controllers]
    case fresh =>
      intro id r hr
      by_cases hid : id = m.requestCounter + 1
      · exact hid ▸ le_refl _
      · exact (hm.fresh id r ((OrderedMap.get?_set_ne _ _ hid).symm.trans hr)).trans (Nat.le_succ _)
    case tracked =>
      intro k id hk
      by_cases hkey' : k = request.fingerprint
      · subst hkey'
        have hid : m.requestCounter + 1 = id :=
          Option.some.inj ((OrderedMap.get?_set_self m.inFlight _ _).symm.trans hk)
        exact ⟨request, hid ▸ OrderedMap.get?_set_self _ _ _, rfl⟩
      · obtain ⟨r, hr, hfp⟩ :=
          hm.tracked k id ((OrderedMap.get?_set_ne m.inFlight _ hkey').symm.trans hk)
        exact ⟨r, hold id r hr, hfp⟩
    case cached =>
      intro url e he
      obtain ⟨r, hr, hout⟩ := Option.bind_eq_some_iff.mp (hm.cached url e he)
      exact Option.bind_eq_some_iff.mpr ⟨r, hold _ r hr, hout⟩
  · have hne : k ≠ request.fingerprint := fun heq => by simp [← heq, hk] at hkey
    exact (OrderedMap.get?_set_ne m.inFlight _ hne).trans hk

/-- The `then` callback or a failure settles a request. -/
theorem Tracked.settle (hm : m.Tracked) {request : PrefetchRequest V}
    (hid : m.requests.get? id = some request) (hnone : request.outcome = none)
    {cache : OrderedMap String (PrefetchEntry V)} {rejected : Finset Nat}
    {outcome : Except Failure (PrefetchedEnvelope V)} (hsize : cache.size ≤ maxPrefetchEntries)
    (hcache : ∀ url e, cache.get? url = some e → (∃ url', m.cache.get? url' = some e) ∨
      (e.fetched.request = id ∧ outcome = .ok e.fetched)) :
    (record { m with cache := cache, rejected := rejected } id request outcome).Tracked := by
  set settled : PrefetchRequest V := { request with outcome := some outcome } with hsettled
  have hself : (m.requests.set id settled).get? id = some settled := OrderedMap.get?_set_self _ _ _
  have hother : ∀ j, j ≠ id → (m.requests.set id settled).get? j = m.requests.get? j :=
    fun j hj => OrderedMap.get?_set_ne _ _ hj
  constructor
  case inFlight_le => exact hm.inFlight_le
  case cache_le => exact hsize
  constructor
  case controllers => exact hm.controllers
  case fresh =>
    intro j r hr
    by_cases hj : j = id
    · exact hj ▸ hm.fresh id request hid
    · exact hm.fresh j r ((hother j hj).symm.trans hr)
  case tracked =>
    intro k j hk
    obtain ⟨r, hr, hfp⟩ := hm.tracked k j hk
    by_cases hj : j = id
    · subst hj
      rw [hid, Option.some.injEq] at hr
      exact ⟨settled, hself, (congrArg PrefetchRequest.fingerprint hr).trans hfp⟩
    · exact ⟨r, (hother j hj).trans hr, hfp⟩
  case cached =>
    intro url e he
    show ((m.requests.set id settled).get? e.fetched.request).bind (·.outcome) = _
    rcases hcache url e he with ⟨url', hurl'⟩ | ⟨hreq, hout⟩
    · obtain ⟨r, hr, hout⟩ := Option.bind_eq_some_iff.mp (hm.cached url' e hurl')
      -- a cached envelope was fetched by a request that is already settled
      have hne : e.fetched.request ≠ id := by
        rintro rfl
        rw [hid, Option.some.injEq] at hr
        rw [← hr, hnone] at hout
        cases hout
      rw [hother _ hne, hr]
      exact hout
    · rw [hreq, hself]
      exact congrArg some hout

theorem Tracked.release (hm : m.Tracked) (id : Nat) (key : Fingerprint) :
    (m.release id key).Tracked := by
  have hkept : ∀ k j, (m.release id key).inFlight.get? k = some j → m.inFlight.get? k = some j := by
    intro k j hk
    rw [PrefetchManager.release] at hk
    dsimp only at hk
    split at hk
    · rw [OrderedMap.get?_delete] at hk
      split at hk
      · cases hk
      · exact hk
    · exact hk
  constructor
  case inFlight_le =>
    refine le_trans ?_ hm.inFlight_le
    rw [PrefetchManager.release]
    dsimp only
    split
    · exact OrderedMap.size_delete_le _ _
    · exact le_refl _
  case cache_le => exact hm.cache_le
  constructor
  case controllers =>
    simp only [PrefetchManager.release, hm.controllers]
  case fresh => exact hm.fresh
  case tracked => exact fun k j hk => hm.tracked k j (hkept k j hk)
  case cached => exact hm.cached

theorem pruneExpired_spec (m : PrefetchManager V) (now : Nat) :
    ∃ cache, m.pruneExpired now = { m with cache := cache } ∧
      ∀ k e, cache.get? k = some e → m.cache.get? k = some e := by
  refine foldl_invariant (I := fun m' : PrefetchManager V =>
    ∃ cache, m' = { m with cache := cache } ∧
      ∀ k e, cache.get? k = some e → m.cache.get? k = some e) m.cache.entries
    (fun m' x _ h => ?_) ⟨m.cache, rfl, fun _ _ hk => hk⟩
  obtain ⟨cache, rfl, hsub⟩ := h
  split
  · refine ⟨cache.delete x.1, rfl, fun k e hk => ?_⟩
    rw [OrderedMap.get?_delete] at hk
    split at hk
    · cases hk
    · exact hsub k e hk
  · exact ⟨cache, rfl, hsub⟩

theorem evictOldest_spec (fuel : Nat) (m : PrefetchManager V)
    (hfuel : m.cache.size ≤ maxPrefetchEntries + fuel) :
    ∃ cache, evictOldest fuel m = { m with cache := cache } ∧
      cache.size ≤ maxPrefetchEntries ∧
      ∀ k e, cache.get? k = some e → m.cache.get? k = some e := by
  induction fuel generalizing m with
  | zero => exact ⟨m.cache, rfl, hfuel, fun _ _ hk => hk⟩
  | succ fuel ih =>
    unfold evictOldest
    split
    · next hover =>
      cases hkeys : m.cache.keys with
      | nil =>
        rw [OrderedMap.size_eq_length_keys, hkeys] at hover
        exact absurd hover (by decide)
      | cons oldest rest =>
        have hmem : oldest ∈ m.cache.keys := by rw [hkeys]; exact List.mem_cons_self ..
        have hsize := OrderedMap.size_delete_of_mem hmem
        obtain ⟨cache, heq, hle, hsub⟩ := ih { m with cache := m.cache.delete oldest } (by
          show (m.cache.delete oldest).size ≤ _
          omega)
        refine ⟨cache, heq, hle, fun k e hk => ?_⟩
        have hdeleted := hsub k e hk
        rw [OrderedMap.get?_delete] at hdeleted
        split at hdeleted
        · cases hdeleted
        · exact hdeleted
    · next hunder => exact ⟨m.cache, rfl, Nat.le_of_not_lt hunder, fun _ _ hk => hk⟩

theorem fetch_spec (hm : m.Tracked) (now : Nat) (url : String) (knownVersions : Versions)
    (sentAt : Nat) :
    let m' := (m.fetch now url knownVersions sentAt).2
    m'.Tracked ∧
      (∀ id r, m.requests.get? id = some r → ∃ r', m'.requests.get? id = some r' ∧
        r'.outcome = r.outcome ∧ (r.aborted = true → r'.aborted = true)) ∧
      ∀ k id, m.inFlight.get? k = some id → m'.inFlight.get? k = some id ∨
        ∃ r, m'.requests.get? id = some r ∧ r.aborted = true := by
  obtain ⟨cache, hread, hsize, hsub⟩ := getCached_spec m now url knownVersions
  have hread' : ({ m with cache := cache } : PrefetchManager V).Tracked :=
    { toLinked :=
        { controllers := hm.controllers
          fresh := hm.fresh
          tracked := hm.tracked
          cached := fun k e he => hm.cached k e (hsub k e he) }
      inFlight_le := hm.inFlight_le
      cache_le := hsize.trans hm.cache_le }
  have hcases := fetch_cases m now url knownVersions sentAt
  rw [hread] at hcases
  rcases hcases with heq | ⟨request, hkey, heq⟩
  · rw [heq]
    exact ⟨hread', fun id r hr => ⟨r, hr, rfl, fun hab => hab⟩, fun k id hk => .inl hk⟩
  · rw [heq]
    obtain ⟨hlinked, hrequests, hinFlight⟩ := sent_spec hread'.toLinked hkey
    obtain ⟨hevict, hle⟩ := withdraws_evictInFlight _ hlinked (Nat.le_add_left _ _)
    refine ⟨⟨hevict.linked hlinked, hle, ?_⟩, fun id r hr => ?_, fun k id hk => ?_⟩
    · rw [hevict.cache]
      exact hsize.trans hm.cache_le
    · obtain ⟨r', hr', -, hout, hab⟩ := hevict.requests id r (hrequests id r hr)
      exact ⟨r', hr', hout, hab⟩
    · exact hevict.out k id (hinFlight k id hk)

/-- What the `then` callback does to the cache, and what becomes of the promise. -/
theorem onEnvelope_spec (hm : m.Tracked) {request : PrefetchRequest V}
    (hid : m.requests.get? id = some request) (hnone : request.outcome = none)
    (now ttlMs : Nat) (envelope : PageEnvelope V) (producedAt : Nat) :
    ∃ cache rejected outcome,
      m.onEnvelope now ttlMs id request envelope producedAt =
        record { m with cache := cache, rejected := rejected } id request outcome ∧
      (record { m with cache := cache, rejected := rejected } id request outcome).Tracked ∧
      (request.aborted = true → cache = m.cache ∧ outcome = .error prefetchCancellation) := by
  unfold onEnvelope
  split
  -- withdrawn: the answer only settles the call
  · exact ⟨m.cache, m.rejected, _, rfl,
      hm.settle hid hnone hm.cache_le fun url e he => .inl ⟨url, he⟩, fun _ => ⟨rfl, rfl⟩⟩
  -- kept: first room is made, then the URL moves to the end of the order
  · next hvalid =>
    set fetched : PrefetchedEnvelope V :=
      { envelope := envelope
        request := id
        sentAtEpoch := request.sentAtEpoch
        producedAt := producedAt } with hfetched
    obtain ⟨pruned, hprune, hpruned⟩ := pruneExpired_spec (m.acceptPrefetchEnvelope fetched) now
    dsimp only
    rw [hprune]
    set entry : PrefetchEntry V :=
      { fetched := fetched
        expiresAt := now + ttlMs
        basedOnVersions := request.knownVersions } with hentry
    obtain ⟨cache, hevict, hle, hsub⟩ := evictOldest_spec
      ((pruned.delete request.url).set request.url entry).size
      { m.acceptPrefetchEnvelope fetched with
        cache := (pruned.delete request.url).set request.url entry } (Nat.le_add_left _ _)
    refine ⟨cache, m.rejected.erase id, .ok fetched, ?_, ?_, fun hab => absurd (.inr hab) hvalid⟩
    · exact congrArg (fun m => m.record id request (.ok fetched)) hevict
    · apply hm.settle hid hnone hle
      intro url e he
      have hset := hsub url e he
      -- an entry of another URL was there before, this one comes from the request
      by_cases hurl : url = request.url
      · subst hurl
        have heq : entry = e :=
          Option.some.inj ((OrderedMap.get?_set_self _ _ _).symm.trans hset)
        exact .inr (heq ▸ ⟨rfl, rfl⟩)
      · left
        have hold : pruned.get? url = some e := by
          rw [← OrderedMap.get?_delete_ne pruned hurl]
          exact (OrderedMap.get?_set_ne _ _ hurl).symm.trans hset
        exact ⟨url, hpruned url e hold⟩

theorem mem_inFlightIds : id ∈ m.inFlightIds ↔ ∃ k, m.inFlight.get? k = some id := by
  simp only [inFlightIds, List.mem_toFinset, List.mem_map]
  constructor
  · rintro ⟨⟨k, j⟩, hmem, rfl⟩
    exact ⟨k, OrderedMap.get?_eq_some_iff.mpr hmem⟩
  · rintro ⟨k, hk⟩
    exact ⟨(k, id), OrderedMap.get?_eq_some_iff.mp hk, rfl⟩

/-- Settling a request keeps the others withdrawn, and the request itself if it brings nothing. -/
theorem Withdrawn.record {cache : OrderedMap String (PrefetchEntry V)} {rejected : Finset Nat}
    {request : PrefetchRequest V} {outcome : Except Failure (PrefetchedEnvelope V)} {j : Nat}
    (hj : m.Withdrawn j) (hid : m.requests.get? id = some request)
    (hout : request.aborted = true → ∃ failure, outcome = .error failure) :
    (PrefetchManager.record { m with cache := cache, rejected := rejected } id request
      outcome).Withdrawn j := by
  obtain ⟨r, hr, hab, hnone⟩ := hj
  by_cases hji : j = id
  · subst hji
    rw [hid, Option.some.injEq] at hr
    subst hr
    obtain ⟨failure, rfl⟩ := hout hab
    exact ⟨_, OrderedMap.get?_set_self _ _ _, hab, fun _ => by simp⟩
  · exact ⟨r, (OrderedMap.get?_set_ne _ _ hji).trans hr, hab, hnone⟩

/-- `finally` leaves every entry of another request where it is, and none of its own. -/
theorem release_spec (hm : m.Linked) {request : PrefetchRequest V}
    (hid : m.requests.get? id = some request) (k : Fingerprint) :
    (m.release id request.fingerprint).inFlight.get? k =
      if m.inFlight.get? k = some id then none else m.inFlight.get? k := by
  have hown : m.inFlight.get? k = some id → k = request.fingerprint := by
    intro hk
    obtain ⟨r, hr, hfp⟩ := hm.tracked k id hk
    rw [hid, Option.some.injEq] at hr
    rw [← hfp, hr]
  rw [release]
  dsimp only
  split
  · next hheld =>
    rw [OrderedMap.get?_delete]
    by_cases hk : k = request.fingerprint
    · rw [if_pos hk, hk, if_pos hheld]
    · rw [if_neg hk, if_neg fun h => hk (hown h)]
  · next hother =>
    rw [if_neg]
    intro h
    exact hother (hown h ▸ h)

end PrefetchManager

/-! ## Every interleaving -/

namespace PrefetchRun

open PrefetchManager

variable {s s' : PrefetchRun V}

def Kept (s : PrefetchRun V) : Prop :=
  s.manager.Tracked ∧ ∀ id ∈ s.withdrawn, s.manager.Withdrawn id

theorem kept_start (defaultTtlMs : Nat) : Kept (start defaultTtlMs : PrefetchRun V) :=
  ⟨⟨⟨rfl, fun _ _ h => absurd h (by simp [start]), fun _ _ h => absurd h (by simp [start]),
    fun _ _ h => absurd h (by simp [start])⟩, Nat.zero_le _, Nat.zero_le _⟩,
    fun _ h => absurd h (Finset.notMem_empty _)⟩

/-- A call that aborts what it takes out of the in-flight table. -/
theorem Kept.takeOut (hs : s.Kept) {m : PrefetchManager V} (hm : m.Tracked)
    (hrequests : ∀ id r, s.manager.requests.get? id = some r → ∃ r', m.requests.get? id = some r' ∧
      r'.outcome = r.outcome ∧ (r.aborted = true → r'.aborted = true))
    (hout : ∀ k id, s.manager.inFlight.get? k = some id → m.inFlight.get? k = some id ∨
      ∃ r, m.requests.get? id = some r ∧ r.aborted = true) : (s.takeOut m).Kept := by
  refine ⟨hm, fun id hid => ?_⟩
  rcases Finset.mem_union.mp hid with hold | hnew
  · obtain ⟨r, hr, hab, hnone⟩ := hs.2 id hold
    obtain ⟨r', hr', hout', hab'⟩ := hrequests id r hr
    exact ⟨r', hr', hab' hab, fun fetched => hout' ▸ hnone fetched⟩
  · obtain ⟨hleft, hnone⟩ := Finset.mem_filter.mp hnew
    obtain ⟨hbefore, hafter⟩ := Finset.mem_sdiff.mp hleft
    obtain ⟨k, hk⟩ := mem_inFlightIds.mp hbefore
    rcases hout k id hk with hk' | ⟨r, hr, hab⟩
    · exact absurd (mem_inFlightIds.mpr ⟨k, hk'⟩) hafter
    · refine ⟨r, hr, hab, fun fetched hfetched => ?_⟩
      simp [outcomeOf, hr, hfetched] at hnone

theorem step_envelope {now id producedAt : Nat} {envelope : PageEnvelope V}
    (h : s.step (.envelope now id envelope producedAt) = some s') :
    ∃ request, s.manager.requests.get? id = some request ∧ request.outcome = none ∧
      s' = { s with
        manager := s.manager.onEnvelope now (s.ttlMs id) id request envelope producedAt } := by
  obtain ⟨request, hid, hrest⟩ := Option.bind_eq_some_iff.mp h
  split at hrest
  · next hnone =>
    have hnone' := Option.isNone_iff_eq_none.mp hnone
    exact ⟨request, hid, hnone', (Option.some.inj hrest).symm⟩
  · cases hrest

theorem step_failure {id : Nat} {failure : Failure} (h : s.step (.failure id failure) = some s') :
    ∃ request, s.manager.requests.get? id = some request ∧ request.outcome = none ∧
      s' = { s with manager := s.manager.record id request (.error failure) } := by
  obtain ⟨request, hid, hrest⟩ := Option.bind_eq_some_iff.mp h
  split at hrest
  · next hnone =>
    have hnone' := Option.isNone_iff_eq_none.mp hnone
    exact ⟨request, hid, hnone', (Option.some.inj hrest).symm⟩
  · cases hrest

theorem step_finish {id : Nat} (h : s.step (.finish id) = some s') :
    ∃ request, s.manager.requests.get? id = some request ∧
      s' = { s with
        manager := s.manager.release id request.fingerprint
        finished := insert id s.finished } := by
  obtain ⟨request, hid, hrest⟩ := Option.bind_eq_some_iff.mp h
  split at hrest
  · exact ⟨request, hid, (Option.some.inj hrest).symm⟩
  · cases hrest

theorem Kept.next (hs : s.Kept) {a : PrefetchAction V} (h : s.step a = some s') : s'.Kept := by
  obtain ⟨hm, hw⟩ := hs
  -- One case for each action; what is withdrawn stays withdrawn.
  cases a with
  | fetch now url knownVersions ttlMs sentAt =>
    obtain ⟨hm', hrequests, hout⟩ := fetch_spec hm now url knownVersions sentAt
    have hkept : (s.takeOut _).Kept := Kept.takeOut ⟨hm, hw⟩ hm' hrequests hout
    rw [← Option.some.inj h]
    exact hkept
  | getCached now url currentVersions =>
    obtain ⟨cache, hread, hsize, hsub⟩ := getCached_spec s.manager now url currentVersions
    rw [← Option.some.inj h]
    show Kept { s with manager := (s.manager.getCached now url currentVersions).2 }
    rw [hread]
    -- reading may drop an expired or a rejected entry, never add one
    exact ⟨⟨⟨hm.controllers, hm.fresh, hm.tracked, fun k e he => hm.cached k e (hsub k e he)⟩,
      hm.inFlight_le, hsize.trans hm.cache_le⟩, hw⟩
  | getPending url knownVersions =>
    rw [← Option.some.inj h]
    exact ⟨hm, hw⟩
  | reject fetched =>
    rw [← Option.some.inj h]
    exact ⟨⟨⟨hm.controllers, hm.fresh, hm.tracked, hm.cached⟩, hm.inFlight_le, hm.cache_le⟩, hw⟩
  | clear =>
    obtain ⟨hm', haborts, hout⟩ := clear_spec hm.toLinked
    rw [← Option.some.inj h]
    -- `clear` aborts every request, so each of them is withdrawn
    refine Kept.takeOut ⟨hm, hw⟩ hm' (fun id r hr => ?_) fun k id hk => .inr (hout k id hk)
    obtain ⟨r', hr', -, hout', hab⟩ := haborts.requests id r hr
    exact ⟨r', hr', hout', hab⟩
  | envelope now id envelope producedAt =>
    obtain ⟨request, hid, hnone, rfl⟩ := step_envelope h
    obtain ⟨cache, rejected, outcome, heq, hm', habort⟩ :=
      onEnvelope_spec hm hid hnone now (s.ttlMs id) envelope producedAt
    rw [heq]
    -- an answer to a withdrawn request leaves the cache as it is
    exact ⟨hm', fun j hj => (hw j hj).record hid fun hab => ⟨_, (habort hab).2⟩⟩
  | failure id failure =>
    obtain ⟨request, hid, hnone, rfl⟩ := step_failure h
    exact ⟨hm.settle hid hnone hm.cache_le fun url e he => .inl ⟨url, he⟩,
      fun j hj => (hw j hj).record hid fun _ => ⟨failure, rfl⟩⟩
  | finish id =>
    obtain ⟨request, hid, rfl⟩ := step_finish h
    exact ⟨hm.release id request.fingerprint, hw⟩

theorem Kept.run (hs : s.Kept) (h : Run step Always s s') : s'.Kept :=
  h.invariant (fun _ _ _ hkept _ hstep => hkept.next hstep) hs

/-- The bounds and the tables of a manager, and what becomes of the requests that `clear` or an
eviction took out of the in-flight table before they had an outcome. -/
theorem prefetch_tables {defaultTtlMs : Nat} (h : Run step Always (start defaultTtlMs) s) :
    s.manager.inFlight.size ≤ maxPrefetchEntries ∧ s.manager.cache.size ≤ maxPrefetchEntries ∧
      s.manager.controllers.keys = s.manager.inFlight.keys ∧
      (∀ id ∈ s.withdrawn,
        (∀ url e, s.manager.cache.get? url = some e → e.fetched.request ≠ id) ∧
        (∀ fetched, s.manager.outcomeOf id ≠ some (.ok fetched)) ∧
        (∀ now envelope producedAt s', s.step (.envelope now id envelope producedAt) = some s' →
          s'.manager.cache = s.manager.cache ∧
            s'.manager.outcomeOf id = some (.error prefetchCancellation)) ∧
        ∀ failure s', s.step (.failure id failure) = some s' →
          s'.manager.cache = s.manager.cache ∧ s'.manager.outcomeOf id = some (.error failure)) ∧
      ∀ id s', s.step (.finish id) = some s' → s'.manager.cache = s.manager.cache ∧
        ∀ k, s'.manager.inFlight.get? k =
            (if s.manager.inFlight.get? k = some id then none else s.manager.inFlight.get? k) ∧
          s'.manager.controllers.get? k = s'.manager.inFlight.get? k := by
  have hs : s.Kept := (kept_start defaultTtlMs).run h
  obtain ⟨hm, hw⟩ := hs
  refine ⟨hm.inFlight_le, hm.cache_le, by rw [hm.controllers], fun id hid => ?_,
    fun id s' hstep => ?_⟩
  -- a withdrawn request is aborted and has not succeeded
  · obtain ⟨r, hr, hab, hnone⟩ := hw id hid
    have hout : ∀ fetched, s.manager.outcomeOf id ≠ some (.ok fetched) := fun fetched heq =>
      hnone fetched (by simpa [outcomeOf, hr] using heq)
    refine ⟨fun url e he heq => ?_, hout, fun now envelope producedAt s' hstep => ?_,
      fun failure s' hstep => ?_⟩
    · exact hout e.fetched (heq ▸ hm.cached url e he)
    · obtain ⟨request, hid', hnone', rfl⟩ := step_envelope hstep
      obtain ⟨cache, rejected, outcome, heq, -, habort⟩ :=
        onEnvelope_spec hm hid' hnone' now (s.ttlMs id) envelope producedAt
      rw [hid', Option.some.injEq] at hr
      obtain ⟨rfl, rfl⟩ := habort (hr ▸ hab)
      rw [heq]
      exact ⟨rfl, by simp [outcomeOf, record]⟩
    · obtain ⟨request, hid', -, rfl⟩ := step_failure hstep
      exact ⟨rfl, by simp [outcomeOf, record]⟩
  -- releasing takes out the one key that still names this request
  · have hm' : s'.manager.Tracked := (Kept.next ⟨hm, hw⟩ hstep).1
    obtain ⟨request, hid, rfl⟩ := step_finish hstep
    refine ⟨rfl, fun k => ⟨release_spec hm.toLinked hid k, ?_⟩⟩
    rw [hm'.controllers]

/-- One page is fetched, and the manager is cleared before its request fails. -/
def failedAfterClear : List (PrefetchAction Nat) :=
  [.fetch 0 "/a" .empty 10000 0, .clear, .failure 1 { name := "TransportError", message := "" },
    .finish 1]

theorem prefetch_tables_after_failure :
    ∃ s : PrefetchRun Nat, exec step (start 10000) failedAfterClear = some s ∧
      s.manager.inFlight.size ≤ maxPrefetchEntries := by
  have hsome : (exec step (start 10000) failedAfterClear).isSome = true := by decide
  obtain ⟨s, hs⟩ := Option.isSome_iff_exists.mp hsome
  exact ⟨s, hs, (prefetch_tables (Run.of_exec hs)).1⟩

/-- A request that was cleared before it failed rejects with its failure and not with a
cancellation. -/
theorem cleared_request_fails :
    ¬ ∀ s : PrefetchRun Nat, Run step Always (start 10000) s → ∀ id ∈ s.removed, id ∈ s.finished →
      ∃ failure, s.manager.outcomeOf id = some (.error failure) ∧ failure.name = "AbortError" := by
  intro hall
  have hend : (exec step (start 10000) failedAfterClear).any (fun s =>
      decide (1 ∈ s.removed) && decide (1 ∈ s.finished) &&
        decide ((s.manager.outcomeOf 1).map (fun outcome =>
          match outcome with
          | .error failure => failure.name
          | .ok _ => "") = some "TransportError")) = true := by decide
  obtain ⟨s, hs, hcheck⟩ := (Option.any_eq_true _ _).mp hend
  simp only [Bool.and_eq_true, decide_eq_true_eq] at hcheck
  obtain ⟨⟨hremoved, hfinished⟩, hname⟩ := hcheck
  obtain ⟨failure, hfailure, habort⟩ := hall s (Run.of_exec hs) 1 hremoved hfinished
  rw [hfailure, Option.map_some, Option.some.injEq] at hname
  have hname' : failure.name = "TransportError" := hname
  rw [habort] at hname'
  exact absurd hname' (by decide)

end PrefetchRun

end FluxFast.Core
