import FluxFast.Core.Protocol
import FluxFast.Server.LiveTopic
import FluxFast.Theory.Runs
import Mathlib.Data.Finset.Card
import Mathlib.Data.List.Sort

/-!
# LiveBroker — subscriptions and publications on one process

The coordinator of `live/coordinator.py` over the broker of `live/memory.py`.  A publication reads
the set of subscribers under the lock of the broker and then visits them one by one under their own
locks, so between two visits anything else may happen: a publication under way is a value of the
state, and each visit is a step.  A subscription is a generator; its end takes two locks in turn and
is two steps.
-/

namespace FluxFast.Server

open FluxFast.Theory
open FluxFast.Core (LiveEvent)

/-! ## Subscriptions -/

structure ResourceSpec where
  key : String
  scope : CacheScope
  live : Bool := false

/-- A page; its constructor refuses duplicate keys. -/
structure Page where
  resources : List ResourceSpec
  unique : (resources.map ResourceSpec.key).Nodup

structure LiveSubscription where
  keys : List String
  topics : List String
  deriving DecidableEq

/-- `sorted` on strings. -/
def sorted (keys : List String) : List String := keys.insertionSort (· ≤ ·)

@[simp] theorem mem_sorted {key : String} {keys : List String} : key ∈ sorted keys ↔ key ∈ keys :=
  List.mem_insertionSort _

def maxLiveEventKeys : Nat := 100

def resolveSubscription (blake2b : List UInt8 → String) (page : Page)
    (requestedKeys : Finset String) : Except String LiveSubscription := do
  if maxLiveEventKeys < requestedKeys.card then
    throw "a live subscription may request at most 100 keys"
  if ∃ key ∈ requestedKeys, safeResourceKey key = false then
    throw "live resource keys must be safe non-empty strings"
  let specs := page.resources.filter fun spec => spec.live && decide (spec.key ∈ requestedKeys)
  let authorized ← specs.mapM fun spec =>
    (deriveLiveTopic blake2b spec.scope spec.key).map fun topic => (spec.key, topic)
  return { keys := sorted (authorized.map Prod.fst), topics := authorized.map Prod.snd }

/-! ## The broker -/

section Broker

variable {P : Type}

structure Subscriber (P : Type) where
  topics : List String
  events : List (LiveEvent P) := []
  closed : Bool := false
  /-- The generator has left its loop. -/
  left : Bool := false

/-- `_event_keys`. -/
def eventKeys : LiveEvent P → List String
  | .patch patches _ => patches.keys
  | .invalidate keys _ => keys
  | .resync keys _ => keys
  | .ready keys => keys

/-- The body of the loop of `publish` for one subscriber. -/
def Subscriber.offer (maxQueueSize : Nat) (s : Subscriber P) (event : LiveEvent P) :
    Subscriber P :=
  if s.closed then s
  else if s.events.length < maxQueueSize then { s with events := s.events ++ [event] }
  else
    let keys := unique (eventKeys event ++ s.events.flatMap eventKeys)
    if maxLiveEventKeys < keys.length then { s with events := [], closed := true }
    else { s with events := [.resync (sorted keys) "overflow"] }

/-- A call of `publish` between the snapshot of the subscribers and its last visit. -/
structure Publication (P : Type) where
  event : LiveEvent P
  targets : Nat → Bool

structure MemoryLiveBroker (P : Type) where
  maxQueueSize : Nat
  closed : Bool := false
  /-- Every subscriber object, by the order of creation. -/
  objects : Nat → Option (Subscriber P) := fun _ => none
  /-- Membership in `_subscribers`. -/
  registered : Nat → Bool := fun _ => false
  /-- The subscribers that a call of `close` has still to visit. -/
  closing : Nat → Bool := fun _ => false
  publications : Nat → Option (Publication P) := fun _ => none
  /-- What the consumer of each subscription was given, oldest first. -/
  received : Nat → List (LiveEvent P) := fun _ => []

/-- What `LiveCoordinator.invalidate` or `patch` publishes about its key. -/
inductive Content (P : Type) where
  | invalidation (originClientId : Option String)
  | patches (list : List P) (originClientId : Option String)

def Content.event (key : String) : Content P → LiveEvent P
  | .invalidation origin => .invalidate [key] origin
  | .patches list origin => .patch (OrderedMap.empty.set key list) origin

inductive BrokerAction (P : Type) where
  /-- A publication takes its snapshot. -/
  | publish (call : Nat) (scope : CacheScope) (key : String) (content : Content P)
  /-- A publication visits a subscriber. -/
  | deliver (call subscriber : Nat)
  | subscribe (subscriber : Nat) (page : Page) (requestedKeys : Finset String)
  /-- The consumer asks for the next event. -/
  | consume (subscriber : Nat)
  /-- The generator ends: it leaves the set of subscribers. -/
  | discard (subscriber : Nat)
  /-- The generator ends: it clears its queue. -/
  | finish (subscriber : Nat)
  | close
  /-- `close` visits a subscriber. -/
  | closeSubscriber (subscriber : Nat)

namespace MemoryLiveBroker

/-- `MemoryLiveBroker(max_queue_size=…)`; `none` is its `ValueError`. -/
def create (maxQueueSize : Int) : Option (MemoryLiveBroker P) :=
  if maxQueueSize < 1 then none else some { maxQueueSize := maxQueueSize.toNat }

def putObject (b : MemoryLiveBroker P) (subscriber : Nat) (s : Subscriber P) :
    MemoryLiveBroker P :=
  { b with objects := Function.update b.objects subscriber (some s) }

/-- Whether the snapshot of a publication on the topic has the subscriber. -/
def listens (b : MemoryLiveBroker P) (topic : String) (subscriber : Nat) : Bool :=
  b.registered subscriber && (b.objects subscriber).any fun s => s.topics.contains topic

def step (blake2b : List UInt8 → String) (b : MemoryLiveBroker P) :
    BrokerAction P → Option (MemoryLiveBroker P)
  | .publish call scope key content =>
    match deriveLiveTopic blake2b scope key with
    | .error _ => none
    | .ok topic =>
      -- a call publishes once, and the targets are those that listen at that moment
      if b.closed || (b.publications call).isSome then none
      else some { b with
        publications := Function.update b.publications call
          (some ⟨content.event key, b.listens topic⟩) }
  | .deliver call subscriber =>
    match b.publications call, b.objects subscriber with
    | some publication, some s =>
      -- each target is visited once, in any order
      if publication.targets subscriber then
        some { b.putObject subscriber (s.offer b.maxQueueSize publication.event) with
          publications := Function.update b.publications call
            (some { publication with
              targets := Function.update publication.targets subscriber false }) }
      else none
    | _, _ => none
  | .subscribe subscriber page requestedKeys =>
    match resolveSubscription blake2b page requestedKeys with
    | .error _ => none
    | .ok subscription =>
      -- nothing to listen to, a closed broker or a used name: no subscription
      if subscription.keys = [] || subscription.topics = [] || b.closed ||
          (b.objects subscriber).isSome then none
      else some { b.putObject subscriber { topics := subscription.topics } with
        registered := Function.update b.registered subscriber true }
  | .consume subscriber =>
    match b.objects subscriber with
    | none => none
    | some s =>
      if s.left then none
      -- a closed queue ends the stream
      else if s.closed then some (b.putObject subscriber { s with left := true })
      else
        -- the consumer waits while the queue is empty
        match s.events with
        | [] => none
        | event :: events =>
          some { b.putObject subscriber { s with events := events } with
            received := Function.update b.received subscriber
              (b.received subscriber ++ [event]) }
  | .discard subscriber =>
    match b.objects subscriber with
    | none => none
    | some s =>
      some { b.putObject subscriber { s with left := true } with
        registered := Function.update b.registered subscriber false }
  | .finish subscriber =>
    match b.objects subscriber with
    | none => none
    | some s =>
      if s.left && !b.registered subscriber then
        some (b.putObject subscriber { s with events := [], closed := true })
      -- the generator's `finally`, after the subscriber has been taken out
      else none
  | .close =>
    -- closing empties the table at once and closes the subscribers one by one
    if b.closed then some b
    else some { b with closed := true, registered := fun _ => false, closing := b.registered }
  | .closeSubscriber subscriber =>
    match b.objects subscriber with
    | none => none
    | some s =>
      if b.closing subscriber then
        some { b.putObject subscriber { s with events := [], closed := true } with
          closing := Function.update b.closing subscriber false }
      else none

end MemoryLiveBroker

end Broker

end FluxFast.Server
