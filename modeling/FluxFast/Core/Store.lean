import FluxFast.Core.Protocol
import FluxFast.Theory.Runs
import Mathlib.Data.Finset.Basic

/-!
# Store — the client's resource store

`ResourceStore` with its records, stale marks, state snapshots and recency order, and the page
store.  Notifications are not part of the state; everything a subscriber could read is.  `entry`
collects what the store holds under one key, and the specification of every operation is given
through it: the key that is written, and the frame `KeptOutside` for all others, which a write can
only evict.
-/

namespace FluxFast.Core

open FluxFast.Theory

inductive ResourceStatus where
  | missing | pending | loading | ready | error
  deriving DecidableEq, Repr

structure ResourceRecord (V : Type) where
  key : String
  version : String
  value : V
  updatedAt : Nat
  deriving DecidableEq

structure ResourceStateSnapshot (V : Type) where
  data : Option V
  status : ResourceStatus
  error : Option (ResourceErrorDetail V)
  stale : Bool
  deriving DecidableEq

def missingResourceState {V : Type} : ResourceStateSnapshot V := ⟨none, .missing, none, false⟩

structure ResourceStore (V : Type) where
  records : OrderedMap String (ResourceRecord V) := .empty
  /-- How many callbacks are subscribed under a key. -/
  subscribers : OrderedMap String Nat := .empty
  lruOrder : List String := []
  staleKeys : Finset String := ∅
  stateSnapshots : OrderedMap String (ResourceStateSnapshot V) := .empty
  maxResources : Nat := 128

/-! ## Base 36 -/

def digit36 (n : Nat) : Char :=
  if n < 10 then Char.ofNat (48 + n) else Char.ofNat (87 + n)

/-- The base 36 digits of `n` in front of `acc`; `fuel` bounds their number. -/
def digits36 : Nat → Nat → List Char → List Char
  | 0, _, acc => acc
  | fuel + 1, n, acc =>
    if n < 36 then digit36 n :: acc else digits36 fuel (n / 36) (digit36 (n % 36) :: acc)

def toString36 (n : Nat) : String := String.ofList (digits36 (n + 1) n [])

namespace ResourceStore

variable {V P : Type} [DecidableEq V] [Patchable V P]

/-! ## Reading -/

def stateOf (s : ResourceStore V) (key : String) : ResourceStateSnapshot V :=
  (s.stateSnapshots.get? key).getD missingResourceState

def isStale (s : ResourceStore V) (key : String) : Bool := key ∈ s.staleKeys

/-- The record of a key that is shown as ready and is not stale. -/
def freshReady (s : ResourceStore V) (key : String) : Option (ResourceRecord V) :=
  if (s.stateOf key).status = .ready ∧ s.isStale key = false then s.records.get? key else none

def hasSubscribers (s : ResourceStore V) (key : String) : Bool :=
  0 < (s.subscribers.get? key).getD 0

def subscribe (s : ResourceStore V) (key : String) : ResourceStore V :=
  { s with subscribers := s.subscribers.set key ((s.subscribers.get? key).getD 0 + 1) }

def unsubscribe (s : ResourceStore V) (key : String) : ResourceStore V :=
  match s.subscribers.get? key with
  | some (n + 2) => { s with subscribers := s.subscribers.set key (n + 1) }
  | _ => { s with subscribers := s.subscribers.delete key }

/-! ## Recency -/

def removeFromLru (s : ResourceStore V) (key : String) : ResourceStore V :=
  { s with lruOrder := s.lruOrder.erase key }

def touchLru (s : ResourceStore V) (key : String) : ResourceStore V :=
  { s with lruOrder := s.lruOrder.erase key ++ [key] }

/-- `getStateSnapshot` returns `stateOf` with this effect on the recency. -/
def touchState (s : ResourceStore V) (key : String) : ResourceStore V :=
  if s.records.has key || s.stateSnapshots.has key then s.touchLru key else s

/-- `getRecord` and `getSnapshot` return what `records` holds with this effect on the recency. -/
def touchRecord (s : ResourceStore V) (key : String) : ResourceStore V :=
  if s.records.has key then s.touchLru key else s

/-! ## Writing -/

def putRecord (s : ResourceStore V) (record : ResourceRecord V) : ResourceStore V :=
  { s with records := s.records.set record.key record }

def putSnapshot (s : ResourceStore V) (key : String) (snapshot : ResourceStateSnapshot V) :
    ResourceStore V :=
  { s with stateSnapshots := s.stateSnapshots.set key snapshot }

def dropSnapshot (s : ResourceStore V) (key : String) : ResourceStore V :=
  { s with stateSnapshots := s.stateSnapshots.delete key }

def addStale (s : ResourceStore V) (key : String) : ResourceStore V :=
  { s with staleKeys := insert key s.staleKeys }

def dropStale (s : ResourceStore V) (key : String) : ResourceStore V :=
  { s with staleKeys := s.staleKeys.erase key }

def invalidate (s : ResourceStore V) (key : String) : ResourceStore V :=
  if s.stateSnapshots.has key || s.records.has key || s.isStale key then
    { s with
      records := s.records.delete key
      staleKeys := s.staleKeys.erase key
      stateSnapshots := s.stateSnapshots.delete key
      lruOrder := s.lruOrder.erase key }
  else s

def overCapacity (s : ResourceStore V) : Bool :=
  s.maxResources < s.records.size || s.maxResources < s.stateSnapshots.size

/-- The eviction loop; every iteration takes one key off the recency list. -/
def evictLoop : Nat → ResourceStore V → ResourceStore V
  | 0, s => s
  | fuel + 1, s =>
    if s.overCapacity then
      match s.lruOrder with
      | [] => s
      | oldest :: rest => evictLoop fuel (invalidate { s with lruOrder := rest } oldest)
    else s

def evictIfNeeded (s : ResourceStore V) : ResourceStore V := evictLoop s.lruOrder.length s

def updateStateSnapshot (s : ResourceStore V) (key : String) (status : ResourceStatus)
    (error : Option (ResourceErrorDetail V)) (stale : Bool) : ResourceStore V :=
  let data := (s.records.get? key).map (·.value)
  if s.stateOf key = ⟨data, status, error, stale⟩ then s
  else if status = .missing ∧ data = none ∧ error = none ∧ stale = false then
    let s := s.dropSnapshot key
    if s.records.has key then s else s.removeFromLru key
  else ((s.putSnapshot key ⟨data, status, error, stale⟩).touchLru key).evictIfNeeded

/-- The record is already held, fresh and without an error. -/
def settledAt (s : ResourceStore V) (key version : String) : Bool :=
  match s.records.get? key with
  | some existing =>
    existing.version = version && !s.isStale key && (s.stateOf key).status = .ready &&
      (s.stateOf key).error = none
  | none => false

/-- Insert or update a record; the flag says whether anything was written. -/
def set (s : ResourceStore V) (now : Nat) (key version : String) (value : V) :
    ResourceStore V × Bool :=
  let touched := s.touchState key
  if s.settledAt key version then (touched.touchLru key, false)
  else
    let written := (touched.putRecord ⟨key, version, value, now⟩).dropStale key
    let shown := written.updateStateSnapshot key .ready none false
    ((shown.touchLru key).evictIfNeeded, true)

def setMany (s : ResourceStore V) (now : Nat)
    (resources : OrderedMap String (ResourceWireRecord V)) : ResourceStore V × List String :=
  resources.entries.foldl (fun acc e =>
    let (store, updated) := acc.1.set now e.1 e.2.version e.2.value
    (store, if updated then acc.2 ++ [e.1] else acc.2)) (s, [])

/-- Mark a key as held but unconfirmed when it has data, and show `status`. -/
def showUnsettled (s : ResourceStore V) (key : String) (status : ResourceStatus)
    (error : Option (ResourceErrorDetail V)) : ResourceStore V :=
  let hasData := s.records.has key
  let s := if hasData then s.addStale key else s
  s.updateStateSnapshot key status error hasData

def markPending (s : ResourceStore V) (keys : List String) : ResourceStore V :=
  keys.foldl (fun s key => s.showUnsettled key .pending none) s

def markLoading (s : ResourceStore V) (keys : List String) : ResourceStore V :=
  keys.foldl (fun s key => s.showUnsettled key .loading none) s

def setResourceError (s : ResourceStore V) (key : String) (error : ResourceErrorDetail V) :
    ResourceStore V :=
  s.showUnsettled key .error (some error)

def clearResourceError (s : ResourceStore V) (key : String) : ResourceStore V :=
  let current := s.stateOf key
  let s := s.touchState key
  if current.error = none then s
  else
    let hasData := s.records.has key
    s.updateStateSnapshot key (if hasData then .ready else .missing) none
      (hasData && s.isStale key)

/-- A record whose value was patched. -/
def putPatched (s : ResourceStore V) (now : Nat) (existing : ResourceRecord V) (key : String)
    (value : V) : ResourceStore V :=
  let record : ResourceRecord V :=
    { key := key
      version := existing.version ++ "_p" ++ toString36 now
      value := value
      updatedAt := now }
  let written := (s.putRecord record).addStale key
  (written.updateStateSnapshot key .ready none true).touchLru key

/-- Apply patches to the held value; the flag says whether there was one.  Where a patch throws,
nothing is written. -/
def patch (s : ResourceStore V) (now : Nat) (key : String) (patches : List P) :
    Option (ResourceStore V × Bool) :=
  match s.records.get? key with
  | none => some (s, false)
  | some existing =>
    (patches.foldlM Patchable.applyPatchToValue existing.value).map fun value =>
      (s.putPatched now existing key value, true)

def markStale (s : ResourceStore V) (key : String) : ResourceStore V :=
  if !s.records.has key || s.isStale key then s
  else
    let s := s.addStale key
    let current := s.stateOf key
    (s.touchState key).updateStateSnapshot key current.status current.error true

def clear (s : ResourceStore V) : ResourceStore V :=
  { s with records := .empty, staleKeys := ∅, stateSnapshots := .empty, lruOrder := [] }

/-- The versions of the most recently used fresh records, most recent first. -/
def exportKnownVersions (s : ResourceStore V) (limit : Nat := 100) : Versions :=
  let keys := (s.lruOrder.drop (s.lruOrder.length - min 100 limit)).reverse
  keys.foldl (fun known key =>
    match s.records.get? key with
    | some rec =>
      if rec.version ≠ "" ∧ s.isStale key = false ∧ namesMember key then
        known.set key rec.version
      else known
    | none => known) .empty

end ResourceStore

/-! ## The page store -/

structure PageState (V : Type) where
  component : String
  url : String
  pageMeta : OrderedMap String V
  deriving DecidableEq

namespace PageState

variable {V : Type}

def blank : PageState V := ⟨"", "", .empty⟩

def setPage (page : PageDescriptor V) : PageState V :=
  ⟨page.component, page.url, page.pageMeta.getD .empty⟩

end PageState

end FluxFast.Core
