import FluxFast.Server.LiveIsolation

/-!
# BrokerDelivery — what a subscription of the broker is given

The broker by itself: any accepted event published on any topic, any set of topics subscribed.  What
a step does to one subscription is said once, by `Moves`, and to one publication by `Advances`; the
runs of the broker are followed through these two.
-/

namespace FluxFast.Server

open FluxFast.Theory
open FluxFast.Core (LiveEvent)

variable {P : Type}

/-! ## Accepted events -/

/-- `LIVE_RESYNC_REASONS`. -/
def liveResyncReasons : List String := ["overflow", "reconnect", "broker-recovery", "server"]

/-- `_validate_resource_keys`. -/
def validResourceKeys (keys : List String) : Bool :=
  keys.length ≤ maxLiveEventKeys && keys.all safeResourceKey

def maxLiveClientIdLength : Nat := 64

/-- `_validate_origin_client_id`. -/
def validOriginClientId : Option String → Bool
  | none => true
  | some value =>
    value ≠ "" && value.length ≤ maxLiveClientIdLength &&
      value.toList.all fun c => 33 ≤ c.toNat && c.toNat ≤ 126

/-- What the event models check, the patches themselves apart. -/
def acceptedEvent : LiveEvent P → Bool
  | .ready keys => validResourceKeys keys
  | .invalidate keys origin => validResourceKeys keys && validOriginClientId origin
  | .patch patches origin => validResourceKeys patches.keys && validOriginClientId origin
  | .resync keys reason => validResourceKeys keys && liveResyncReasons.contains reason

theorem validResourceKeys_of_accepted {event : LiveEvent P} (h : acceptedEvent event = true) :
    validResourceKeys (eventKeys event) = true := by
  cases event with
  | ready keys => exact h
  | invalidate keys origin => exact (Bool.and_eq_true_iff.mp h).1
  | patch patches origin => exact (Bool.and_eq_true_iff.mp h).1
  | resync keys reason => exact (Bool.and_eq_true_iff.mp h).1

def isResync : LiveEvent P → Bool
  | .resync _ _ => true
  | _ => false

/-! ## One offer -/

namespace Subscriber

variable {maxQueueSize : Nat} {s : Subscriber P} {event : LiveEvent P}

def full (maxQueueSize : Nat) (s : Subscriber P) : Bool := maxQueueSize ≤ s.events.length

/-- The keys that an overflow gathers. -/
def gathered (s : Subscriber P) (event : LiveEvent P) : List String :=
  unique (eventKeys event ++ s.events.flatMap eventKeys)

theorem offer_closed (h : s.closed = true) : s.offer maxQueueSize event = s := by
  rw [offer, if_pos h]

/-- An open queue takes the event, collapses into one resync, or closes. -/
theorem offer_cases (maxQueueSize : Nat) (event : LiveEvent P) (hopen : s.closed = false) :
    (s.full maxQueueSize = false ∧
      s.offer maxQueueSize event = { s with events := s.events ++ [event] }) ∨
    (s.full maxQueueSize = true ∧ maxLiveEventKeys < (s.gathered event).length ∧
      s.offer maxQueueSize event = { s with events := [], closed := true }) ∨
    (s.full maxQueueSize = true ∧ (s.gathered event).length ≤ maxLiveEventKeys ∧
      s.offer maxQueueSize event =
        { s with events := [.resync (sorted (s.gathered event)) "overflow"] }) := by
  unfold offer
  rw [if_neg (by simp [hopen])]
  by_cases hroom : s.events.length < maxQueueSize
  · rw [if_pos hroom]
    exact .inl ⟨by simp [full, hroom], rfl⟩
  · rw [if_neg hroom]
    have hfull : s.full maxQueueSize = true := by simpa [full] using hroom
    dsimp only
    by_cases hmany : maxLiveEventKeys < (s.gathered event).length
    · exact .inr (.inl ⟨hfull, hmany, if_pos hmany⟩)
    · exact .inr (.inr ⟨hfull, Nat.le_of_not_lt hmany, if_neg hmany⟩)

theorem topics_left_offer (s : Subscriber P) (event : LiveEvent P) :
    (s.offer maxQueueSize event).topics = s.topics ∧
      (s.offer maxQueueSize event).left = s.left := by
  cases hclosed : s.closed with
  | true => rw [offer_closed hclosed]; exact ⟨rfl, rfl⟩
  | false =>
    rcases offer_cases maxQueueSize event hclosed with ⟨-, h⟩ | ⟨-, -, h⟩ | ⟨-, -, h⟩ <;>
      rw [h] <;> exact ⟨rfl, rfl⟩

theorem mem_gathered {key : String} :
    key ∈ s.gathered event ↔ key ∈ eventKeys event ∨ ∃ e ∈ s.events, key ∈ eventKeys e := by
  simp [gathered]

theorem length_gathered (s : Subscriber P) (event : LiveEvent P) :
    (s.gathered event).length =
      (eventKeys event ++ s.events.flatMap eventKeys).toFinset.card := by
  have hnodup : (s.gathered event).Nodup := nodup_unique _
  rw [← List.toFinset_card_of_nodup hnodup]
  exact congrArg Finset.card (Finset.ext fun key => by simp [gathered])

/-- An overflow closes the subscription exactly when the keys do not fit one event. -/
theorem closed_offer_iff (hopen : s.closed = false) :
    (s.offer maxQueueSize event).closed = true ↔
      s.full maxQueueSize = true ∧ maxLiveEventKeys < (s.gathered event).length := by
  rcases offer_cases maxQueueSize event hopen with ⟨hroom, h⟩ | ⟨hfull, hmany, h⟩ | ⟨hfull, hfew, h⟩
  · simp [h, hopen, hroom]
  · simp [h, hfull, hmany]
  · simp [h, hopen, hfew]

/-- The event that an overflow builds passes the checks of its model. -/
theorem accepted_offer (hqueued : ∀ e ∈ s.events, acceptedEvent e = true)
    (hevent : acceptedEvent event = true) :
    ∀ e ∈ (s.offer maxQueueSize event).events, acceptedEvent e = true := by
  cases hclosed : s.closed with
  | true => rw [offer_closed hclosed]; exact hqueued
  | false =>
    -- there is room, too many keys, or few enough for one resync
    rcases offer_cases maxQueueSize event hclosed with ⟨-, h⟩ | ⟨-, -, h⟩ | ⟨-, hfew, h⟩ <;> rw [h]
    · intro e he
      rcases List.mem_append.mp he with he | he
      · exact hqueued e he
      · exact List.mem_singleton.mp he ▸ hevent
    · intro e he
      cases he
    · intro e he
      rw [List.mem_singleton.mp he]
      -- the resync names keys of accepted events only, each safe and few enough
      have hlength : (sorted (s.gathered event)).length ≤ maxLiveEventKeys := by
        rw [sorted, List.length_insertionSort]
        exact hfew
      have hsafe : ∀ key ∈ sorted (s.gathered event), safeResourceKey key = true := by
        intro key hkey
        have hof : ∀ e : LiveEvent P, acceptedEvent e = true → key ∈ eventKeys e → safeResourceKey key = true :=
          fun e he hmem => List.all_eq_true.mp
            (Bool.and_eq_true_iff.mp (validResourceKeys_of_accepted he)).2 key hmem
        rcases mem_gathered.mp (mem_sorted.mp hkey) with hmem | ⟨e, he, hmem⟩
        · exact hof event hevent hmem
        · exact hof e (hqueued e he) hmem
      refine Bool.and_eq_true_iff.mpr ⟨Bool.and_eq_true_iff.mpr ⟨decide_eq_true hlength, ?_⟩, rfl⟩
      exact List.all_eq_true.mpr hsafe

theorem events_offer_of_closed (hopen : s.closed = false)
    (hclosed : (s.offer maxQueueSize event).closed = true) :
    (s.offer maxQueueSize event).events = [] := by
  rcases offer_cases maxQueueSize event hopen with ⟨-, h⟩ | ⟨-, -, h⟩ | ⟨-, -, h⟩ <;> rw [h] at hclosed ⊢
  · exact absurd (hopen.symm.trans hclosed) (by decide)
  · exact absurd (hopen.symm.trans hclosed) (by decide)

theorem length_offer (hmax : 1 ≤ maxQueueSize) (h : s.events.length ≤ maxQueueSize) :
    (s.offer maxQueueSize event).events.length ≤ maxQueueSize := by
  cases hclosed : s.closed with
  | true => rw [offer_closed hclosed]; exact h
  | false =>
    rcases offer_cases maxQueueSize event hclosed with ⟨hroom, h⟩ | ⟨-, -, h⟩ | ⟨-, -, h⟩ <;> rw [h]
    · have hlt : s.events.length < maxQueueSize := by simpa [full] using hroom
      rw [List.length_append]
      exact hlt
    · exact Nat.zero_le _
    · exact hmax

end Subscriber

/-! ## The calls of the broker -/

inductive BrokerCall (P : Type) where
  /-- A publication takes its snapshot. -/
  | publish (call : Nat) (topic : String) (event : LiveEvent P)
  | subscribe (subscriber : Nat) (topics : List String)
  | deliver (call subscriber : Nat)
  | consume (subscriber : Nat)
  | discard (subscriber : Nat)
  | finish (subscriber : Nat)
  | close
  | closeSubscriber (subscriber : Nat)

namespace MemoryLiveBroker

/-- `publish` and `subscribe` of the broker; its other steps are those of `step`, whatever digest
the coordinator above it uses. -/
def callStep (blake2b : List UInt8 → String) (b : MemoryLiveBroker P) :
    BrokerCall P → Option (MemoryLiveBroker P)
  | .publish call topic event =>
    if topic = "" || !acceptedEvent event || b.closed || (b.publications call).isSome then none
    else some { b with
      publications := Function.update b.publications call (some ⟨event, b.listens topic⟩) }
  | .subscribe subscriber topics =>
    if topics = [] || topics.contains "" || b.closed || (b.objects subscriber).isSome then none
    else some { b.putObject subscriber { topics := topics } with
      registered := Function.update b.registered subscriber true }
  | .deliver call subscriber => step blake2b b (.deliver call subscriber)
  | .consume subscriber => step blake2b b (.consume subscriber)
  | .discard subscriber => step blake2b b (.discard subscriber)
  | .finish subscriber => step blake2b b (.finish subscriber)
  | .close => step blake2b b .close
  | .closeSubscriber subscriber => step blake2b b (.closeSubscriber subscriber)

/-- The coordinator publishes through the broker. -/
theorem step_publish_eq_callStep {blake2b : List UInt8 → String} {b : MemoryLiveBroker P}
    {call : Nat} {scope : CacheScope} {key topic : String} {content : Content P}
    (htopic : deriveLiveTopic blake2b scope key = .ok topic) (hnonempty : topic ≠ "")
    (haccepted : acceptedEvent (content.event key) = true) :
    step blake2b b (.publish call scope key content) =
      callStep blake2b b (.publish call topic (content.event key)) := by
  simp [step, callStep, htopic, hnonempty, haccepted]

/-! ## What one step does -/

/-- What a step does to the subscription `i`. -/
inductive Moves (i : Nat) (b b' : MemoryLiveBroker P) : BrokerCall P → Prop
  -- Everything that one call of the broker can do to the subscriber `i`.
  | other {a : BrokerCall P} (hobject : b'.objects i = b.objects i)
      (hreceived : b'.received i = b.received i) (hnot : ∀ call, a ≠ .deliver call i) :
      Moves i b b' a
  | enter (topics : List String) (hobject : b.objects i = none)
      (hobject' : b'.objects i = some { topics := topics })
      (hreceived : b'.received i = b.received i) : Moves i b b' (.subscribe i topics)
  | offer (call : Nat) (publication : Publication P) (s : Subscriber P)
      (hpublication : b.publications call = some publication)
      (htarget : publication.targets i = true) (hobject : b.objects i = some s)
      (hobject' : b'.objects i = some (s.offer b.maxQueueSize publication.event))
      (hreceived : b'.received i = b.received i) : Moves i b b' (.deliver call i)
  | take (s : Subscriber P) (event : LiveEvent P) (events : List (LiveEvent P))
      (hobject : b.objects i = some s) (hopen : s.closed = false)
      (hevents : s.events = event :: events)
      (hobject' : b'.objects i = some { s with events := events })
      (hreceived : b'.received i = b.received i ++ [event]) : Moves i b b' (.consume i)
  | leave {a : BrokerCall P} (s : Subscriber P) (hobject : b.objects i = some s)
      (hobject' : b'.objects i = some { s with left := true })
      (hreceived : b'.received i = b.received i) (hnot : ∀ call, a ≠ .deliver call i) :
      Moves i b b' a
  | shut {a : BrokerCall P} (s : Subscriber P) (hobject : b.objects i = some s)
      (hobject' : b'.objects i = some { s with events := [], closed := true })
      (hreceived : b'.received i = b.received i) (hnot : ∀ call, a ≠ .deliver call i) :
      Moves i b b' a

/-- What a step does to the publication `call`. -/
inductive Advances (call : Nat) (b b' : MemoryLiveBroker P) : BrokerCall P → Prop
  | other {a : BrokerCall P} (hsame : b'.publications call = b.publications call)
      (hnot : ∀ i, a ≠ .deliver call i) : Advances call b b' a
  | start (topic : String) (event : LiveEvent P) (hnone : b.publications call = none)
      (hsome : b'.publications call = some ⟨event, b.listens topic⟩)
      (haccepted : acceptedEvent event = true) : Advances call b b' (.publish call topic event)
  | visit (i : Nat) (publication : Publication P)
      (hpublication : b.publications call = some publication)
      (htarget : publication.targets i = true)
      (hvisited : b'.publications call =
        some { publication with targets := Function.update publication.targets i false }) :
      Advances call b b' (.deliver call i)

/-- What a step does to the registration of `i`. -/
structure Enrols (i : Nat) (b b' : MemoryLiveBroker P) : Prop where
  size : b'.maxQueueSize = b.maxQueueSize
  enrolled : (∀ s, b.objects i = some s → s.left = true ∨ b.closed = true ∨ b.registered i = true) →
    ∀ s, b'.objects i = some s → s.left = true ∨ b'.closed = true ∨ b'.registered i = true

section Steps

variable {blake2b : List UInt8 → String} {b b' : MemoryLiveBroker P}

theorem moves_putObject {a : BrokerCall P} {i j : Nat} {s : Subscriber P}
    (hobjects : b'.objects = (b.putObject j s).objects) (hreceived : b'.received = b.received)
    (hnot : ∀ call, a ≠ .deliver call i) (hself : j = i → Moves i b b' a) : Moves i b b' a := by
  by_cases hj : j = i
  · exact hself hj
  · exact .other (by rw [hobjects, objects_putObject_of_ne hj]) (by rw [hreceived]) hnot

theorem moves_of_deliver {call i j : Nat}
    (h : step blake2b b (.deliver call j) = some b') : Moves i b b' (.deliver call j) := by
  unfold step at h
  cases hpublication : b.publications call with
  | none => simp [hpublication] at h
  | some publication =>
    cases hobject : b.objects j with
    | none => simp [hpublication, hobject] at h
    | some s =>
      simp only [hpublication, hobject] at h
      split at h
      · rename_i htarget
        cases h
        by_cases hj : j = i
        · subst hj
          exact .offer call publication s hpublication htarget hobject objects_putObject_self rfl
        · refine .other (objects_putObject_of_ne hj) rfl fun call' heq => hj ?_
          cases heq
          rfl
      · cases h

theorem moves_of_consume {i j : Nat} (h : step blake2b b (.consume j) = some b') :
    Moves i b b' (.consume j) := by
  unfold step at h
  cases hobject : b.objects j with
  | none => simp [hobject] at h
  | some s =>
    simp only [hobject] at h
    split at h
    · cases h
    · split at h
      · cases h
        refine moves_putObject rfl rfl (fun _ heq => by cases heq) fun hj => ?_
        subst hj
        exact .leave s hobject objects_putObject_self rfl (fun _ heq => by cases heq)
      · rename_i hopen
        split at h
        · cases h
        · rename_i event events hevents
          cases h
          by_cases hj : j = i
          · subst hj
            exact .take s event events hobject (by simpa using hopen) hevents objects_putObject_self
              (Function.update_self ..)
          · exact .other (objects_putObject_of_ne hj) (Function.update_of_ne (Ne.symm hj) _ _)
              (fun _ heq => by cases heq)

theorem moves_of_callStep (i : Nat) {a : BrokerCall P} (h : callStep blake2b b a = some b') :
    Moves i b b' a := by
  have hno : ∀ {a : BrokerCall P}, (∀ call j, a ≠ .deliver call j) → ∀ call, a ≠ .deliver call i :=
    fun h call => h call i
  -- One case for each call; another subscriber's call leaves this one as it is.
  cases a with
  | publish call topic event =>
    simp only [callStep] at h
    split at h
    · cases h
    · cases h
      exact .other rfl rfl (hno (by simp))
  | subscribe j topics =>
    simp only [callStep] at h
    split at h
    · cases h
    · rename_i hguard
      cases h
      -- entering needs a fresh name, so the object was not there
      refine moves_putObject rfl rfl (hno (by simp)) fun hj => ?_
      subst hj
      have hnone : b.objects j = none := by
        cases hobject : b.objects j with
        | none => rfl
        | some s => simp [hobject] at hguard
      exact .enter topics hnone objects_putObject_self rfl
  | deliver call j =>
    exact moves_of_deliver (show step blake2b b (.deliver call j) = some b' from h)
  | consume j => exact moves_of_consume (show step blake2b b (.consume j) = some b' from h)
  | discard j =>
    simp only [callStep, step] at h
    cases hobject : b.objects j with
    | none => simp [hobject] at h
    | some s =>
      simp only [hobject, Option.some.injEq] at h
      subst h
      refine moves_putObject rfl rfl (hno (by simp)) fun hj => ?_
      subst hj
      exact .leave s hobject objects_putObject_self rfl (hno (by simp))
  | finish j =>
    simp only [callStep, step] at h
    cases hobject : b.objects j with
    | none => simp [hobject] at h
    | some s =>
      simp only [hobject] at h
      split at h
      · cases h
        refine moves_putObject rfl rfl (hno (by simp)) fun hj => ?_
        subst hj
        exact .shut s hobject objects_putObject_self rfl (hno (by simp))
      · cases h
  | close =>
    simp only [callStep, step] at h
    split at h <;> cases h <;> exact .other rfl rfl (hno (by simp))
  | closeSubscriber j =>
    simp only [callStep, step] at h
    cases hobject : b.objects j with
    | none => simp [hobject] at h
    | some s =>
      simp only [hobject] at h
      split at h
      · cases h
        refine moves_putObject rfl rfl (hno (by simp)) fun hj => ?_
        subst hj
        exact .shut s hobject objects_putObject_self rfl (hno (by simp))
      · cases h

theorem advances_of_callStep (call : Nat) {a : BrokerCall P} (h : callStep blake2b b a = some b') :
    Advances call b b' a := by
  -- Only `publish` starts a publication and only `deliver` moves it; the rest leaves all of them.
  cases a with
  | publish call' topic event =>
    simp only [callStep] at h
    split at h
    · cases h
    · rename_i hguard
      cases h
      have haccepted : acceptedEvent event = true := by
        by_contra hno
        simp [hno] at hguard
      by_cases hcall : call' = call
      · subst hcall
        have hnone : b.publications call' = none := by
          cases hpublication : b.publications call' with
          | none => rfl
          | some publication => simp [hpublication] at hguard
        exact .start topic event hnone (Function.update_self ..) haccepted
      · exact .other (Function.update_of_ne (Ne.symm hcall) _ _) (by simp)
  | subscribe j topics =>
    simp only [callStep] at h
    split at h
    · cases h
    · cases h
      exact .other rfl (by simp)
  | deliver call' j =>
    simp only [callStep, step] at h
    cases hpublication : b.publications call' with
    | none => simp [hpublication] at h
    | some publication =>
      cases hobject : b.objects j with
      | none => simp [hpublication, hobject] at h
      | some s =>
        simp only [hpublication, hobject] at h
        split at h
        · rename_i htarget
          cases h
          -- a delivery of the same publication strikes its subscriber off
          by_cases hcall : call' = call
          · subst hcall
            exact .visit j publication hpublication htarget (Function.update_self ..)
          · refine .other (Function.update_of_ne (Ne.symm hcall) _ _) fun i heq => hcall ?_
            cases heq
            rfl
        · cases h
  | consume j =>
    simp only [callStep, step] at h
    cases hobject : b.objects j with
    | none => simp [hobject] at h
    | some s =>
      simp only [hobject] at h
      split at h
      · cases h
      · split at h
        · cases h
          exact .other rfl (by simp)
        · split at h <;> cases h
          exact .other rfl (by simp)
  | discard j =>
    simp only [callStep, step] at h
    cases hobject : b.objects j with
    | none => simp [hobject] at h
    | some s =>
      simp only [hobject, Option.some.injEq] at h
      subst h
      exact .other rfl (by simp)
  | finish j | closeSubscriber j =>
    simp only [callStep, step] at h
    cases hobject : b.objects j with
    | none => simp [hobject] at h
    | some s =>
      simp only [hobject] at h
      split at h
      · cases h
        exact .other rfl (by simp)
      · cases h
  | close =>
    simp only [callStep, step] at h
    split at h <;> cases h <;> exact .other rfl (by simp)

theorem enrols_putObject {i j : Nat} {s s' : Subscriber P} (hsize : b'.maxQueueSize = b.maxQueueSize)
    (hclosed : b'.closed = b.closed) (hregistered : b'.registered = b.registered)
    (hobject : b.objects j = some s) (hobjects : b'.objects = (b.putObject j s').objects)
    (hleft : s.left = true → s'.left = true) : Enrols i b b' := by
  refine ⟨hsize, fun henrolled t ht => ?_⟩
  rw [hclosed, hregistered]
  rw [hobjects] at ht
  by_cases hj : j = i
  · subst hj
    rw [objects_putObject_self] at ht
    cases ht
    exact (henrolled s hobject).imp_left hleft
  · rw [objects_putObject_of_ne hj] at ht
    exact henrolled t ht

/-- An object is registered from its subscription on, until it leaves or the broker closes. -/
theorem enrols_of_callStep (i : Nat) {a : BrokerCall P} (h : callStep blake2b b a = some b') :
    Enrols i b b' := by
  cases a with
  | publish call topic event =>
    simp only [callStep] at h
    split at h
    · cases h
    · cases h
      exact ⟨rfl, fun henrolled => henrolled⟩
  | subscribe j topics =>
    simp only [callStep] at h
    split at h
    · cases h
    · cases h
      -- Registration is changed by entering, leaving and closing only.
      refine ⟨rfl, fun henrolled s hs => ?_⟩
      by_cases hj : j = i
      · subst hj
        exact .inr (.inr (Function.update_self ..))
      · rw [show (b.putObject j { topics := topics }).objects i = b.objects i from
          objects_putObject_of_ne hj] at hs
        rcases henrolled s hs with hleft | hclosed | hregistered
        · exact .inl hleft
        · exact .inr (.inl hclosed)
        · refine .inr (.inr ?_)
          show Function.update b.registered j true i = true
          rw [Function.update_of_ne (Ne.symm hj), hregistered]
  | deliver call j =>
    simp only [callStep, step] at h
    cases hpublication : b.publications call with
    | none => simp [hpublication] at h
    | some publication =>
      cases hobject : b.objects j with
      | none => simp [hpublication, hobject] at h
      | some s =>
        simp only [hpublication, hobject] at h
        split at h
        · cases h
          refine enrols_putObject rfl rfl rfl hobject rfl fun hleft => ?_
          rw [(Subscriber.topics_left_offer s publication.event).2, hleft]
        · cases h
  | consume j =>
    simp only [callStep, step] at h
    cases hobject : b.objects j with
    | none => simp [hobject] at h
    | some s =>
      simp only [hobject] at h
      split at h
      · cases h
      · split at h
        · cases h
          exact enrols_putObject rfl rfl rfl hobject rfl fun _ => rfl
        · split at h <;> cases h
          exact enrols_putObject rfl rfl rfl hobject rfl fun hleft => hleft
  | discard j =>
    simp only [callStep, step] at h
    cases hobject : b.objects j with
    | none => simp [hobject] at h
    | some s =>
      simp only [hobject, Option.some.injEq] at h
      subst h
      -- leaving takes the subscriber out of the table, and it is marked as left
      refine ⟨rfl, fun henrolled t ht => ?_⟩
      by_cases hj : j = i
      · subst hj
        rw [show (b.putObject j { s with left := true }).objects j = _ from
          objects_putObject_self] at ht
        cases ht
        exact .inl rfl
      · rw [show (b.putObject j { s with left := true }).objects i = b.objects i from
          objects_putObject_of_ne hj] at ht
        refine (henrolled t ht).imp_right (Or.imp_right fun hregistered => ?_)
        show Function.update b.registered j false i = true
        rw [Function.update_of_ne (Ne.symm hj), hregistered]
  | finish j | closeSubscriber j =>
    simp only [callStep, step] at h
    cases hobject : b.objects j with
    | none => simp [hobject] at h
    | some s =>
      simp only [hobject] at h
      split at h
      · cases h
        exact enrols_putObject rfl rfl rfl hobject rfl fun hleft => hleft
      · cases h
  | close =>
    simp only [callStep, step] at h
    split at h <;> cases h
    · exact ⟨rfl, fun henrolled => henrolled⟩
    -- closing the broker marks every subscriber that is still registered
    · exact ⟨rfl, fun _ _ _ => .inr (.inl rfl)⟩

/-- The event of a publication stays what it is, and a subscriber visited stays visited. -/
theorem publication_kept {call : Nat} {p : Publication P} {a : BrokerCall P}
    (h : callStep blake2b b a = some b') (hp : b.publications call = some p) :
    ∃ p', b'.publications call = some p' ∧ p'.event = p.event ∧
      ∀ i, p.targets i = false → p'.targets i = false := by
  cases advances_of_callStep call h with
  | other hsame _ => exact ⟨p, hsame.trans hp, rfl, fun _ hi => hi⟩
  | start topic event hnone => rw [hnone] at hp; cases hp
  | visit i publication hpublication htarget hvisited =>
    obtain rfl : publication = p := Option.some.inj (hpublication.symm.trans hp)
    refine ⟨_, hvisited, rfl, fun j hj => ?_⟩
    show Function.update publication.targets i false j = false
    by_cases hij : j = i
    · rw [hij, Function.update_self]
    · rw [Function.update_of_ne hij, hj]

end Steps

end MemoryLiveBroker

/-! ## What an offered key becomes -/

/-- The key is in an event given or queued: the event itself, or a resync. -/
def Carried (given queued : List (LiveEvent P)) (event : LiveEvent P) (key : String) : Prop :=
  ∃ e ∈ given ++ queued, key ∈ eventKeys e ∧ (e = event ∨ isResync e = true)

section Carried

variable {maxQueueSize : Nat} {s : Subscriber P} {given : List (LiveEvent P)}
  {event other : LiveEvent P} {key : String}

/-- Another offer keeps what the queue carries, unless it closes the subscription. -/
theorem Carried.offer (h : Carried given s.events event key) :
    (s.offer maxQueueSize other).closed = true ∨
      Carried given (s.offer maxQueueSize other).events event key := by
  cases hclosed : s.closed with
  | true => rw [Subscriber.offer_closed hclosed]; exact .inl hclosed
  | false =>
    obtain ⟨e, he, hkey, hshape⟩ := h
    rcases Subscriber.offer_cases maxQueueSize other hclosed with ⟨-, h⟩ | ⟨-, -, h⟩ | ⟨-, -, h⟩ <;>
      rw [h]
    · refine .inr ⟨e, ?_, hkey, hshape⟩
      rw [← List.append_assoc]
      exact List.mem_append_left _ he
    · exact .inl rfl
    · rcases List.mem_append.mp he with he | he
      · exact .inr ⟨e, List.mem_append_left _ he, hkey, hshape⟩
      · -- the key moves from its event into the resync that replaces the queue
        refine .inr ⟨_, List.mem_append_right _ (List.mem_singleton.mpr rfl), ?_, .inr rfl⟩
        exact mem_sorted.mpr (Subscriber.mem_gathered.mpr (.inr ⟨e, he, hkey⟩))

theorem carried_of_offer (hkey : key ∈ eventKeys event) :
    (s.offer maxQueueSize event).closed = true ∨
      Carried given (s.offer maxQueueSize event).events event key := by
  cases hclosed : s.closed with
  | true => rw [Subscriber.offer_closed hclosed]; exact .inl hclosed
  | false =>
    rcases Subscriber.offer_cases maxQueueSize event hclosed with ⟨-, h⟩ | ⟨-, -, h⟩ | ⟨-, -, h⟩ <;>
      rw [h]
    · exact .inr ⟨event, by simp, hkey, .inl rfl⟩
    · exact .inl rfl
    · refine .inr ⟨_, List.mem_append_right _ (List.mem_singleton.mpr rfl), ?_, .inr rfl⟩
      exact mem_sorted.mpr (Subscriber.mem_gathered.mpr (.inl hkey))

end Carried

end FluxFast.Server
