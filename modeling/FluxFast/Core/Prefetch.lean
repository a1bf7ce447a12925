import FluxFast.Core.Protocol
import FluxFast.Core.Text
import Mathlib.Data.Finset.Basic

/-!
# Prefetch — in-flight deduplication and the prefetch cache

`PrefetchManager` together with the owner-scoped rejection list of `prefetch-cache-policy`.  An
envelope object is identified by the request that fetched it.  `sentAtEpoch` and `producedAt` say
when that request was sent and when the server produced its values; the program reads neither.
-/

namespace FluxFast.Core

open FluxFast.Theory

def maxPrefetchEntries : Nat := 32

/-- `JSON.stringify([url, versions])` with the versions sorted by key.  The order of the code units
stands for the collation of `localeCompare`, which is the platform's and may take two keys for equal;
these then keep the order in which they came. -/
abbrev Fingerprint := String × List (String × String)

def keyLe (a b : String × String) : Prop := Text.codeUnitLe a.1 b.1

instance (a b : String × String) : Decidable (keyLe a b) :=
  inferInstanceAs (Decidable (Text.codeUnitLe a.1 b.1))

def fingerprint (url : String) (knownVersions : Versions) : Fingerprint :=
  (url, knownVersions.entries.insertionSort keyLe)

structure PrefetchedEnvelope (V : Type) where
  envelope : PageEnvelope V
  request : Nat
  sentAtEpoch : Nat
  producedAt : Nat

structure PrefetchEntry (V : Type) where
  fetched : PrefetchedEnvelope V
  expiresAt : Nat
  basedOnVersions : Versions

structure PrefetchRequest (V : Type) where
  url : String
  fingerprint : Fingerprint
  knownVersions : Versions
  generation : Nat
  sentAtEpoch : Nat
  aborted : Bool := false
  outcome : Option (Except Failure (PrefetchedEnvelope V)) := none

/-- What `fetch` promises: an envelope already held, or the outcome of a request. -/
inductive PrefetchSource (V : Type) where
  | held (fetched : PrefetchedEnvelope V)
  | request (id : Nat)

structure PrefetchManager (V : Type) where
  inFlight : OrderedMap Fingerprint Nat := .empty
  controllers : OrderedMap Fingerprint Nat := .empty
  cache : OrderedMap String (PrefetchEntry V) := .empty
  rejected : Finset Nat := ∅
  generation : Nat := 0
  defaultTtlMs : Nat := 10000
  requests : OrderedMap Nat (PrefetchRequest V) := .empty
  requestCounter : Nat := 0

def prefetchCancellation : Failure :=
  { name := "AbortError", message := "Prefetch was cleared or superseded" }

variable {V : Type}

def versionsStillAvailable (basedOn current : Versions) (envelope : PageEnvelope V) : Bool :=
  (basedOn.entries.all fun e =>
    current.get? e.1 = some (((envelope.resources.get? e.1).map (·.version)).getD e.2)) &&
  envelope.resources.entries.all fun e =>
    current.get? e.1 = none || current.get? e.1 = some e.2.version

namespace PrefetchManager

def rejectPrefetchEnvelope (m : PrefetchManager V) (fetched : PrefetchedEnvelope V) :
    PrefetchManager V :=
  { m with rejected := insert fetched.request m.rejected }

def acceptPrefetchEnvelope (m : PrefetchManager V) (fetched : PrefetchedEnvelope V) :
    PrefetchManager V :=
  { m with rejected := m.rejected.erase fetched.request }

def usable (m : PrefetchManager V) (now : Nat) (currentVersions : Versions)
    (entry : PrefetchEntry V) : Bool :=
  entry.fetched.request ∉ m.rejected && now < entry.expiresAt &&
    versionsStillAvailable entry.basedOnVersions currentVersions entry.fetched.envelope

def getCached (m : PrefetchManager V) (now : Nat) (url : String) (currentVersions : Versions) :
    Option (PrefetchedEnvelope V) × PrefetchManager V :=
  match m.cache.get? url with
  | none => (none, m)
  | some entry =>
    if m.usable now currentVersions entry then
      (some entry.fetched, { m with cache := (m.cache.delete url).set url entry })
    else (none, { m with cache := m.cache.delete url })

def getPending (m : PrefetchManager V) (url : String) (knownVersions : Versions) : Option Nat :=
  m.inFlight.get? (fingerprint url knownVersions)

def abort (m : PrefetchManager V) (id : Nat) : PrefetchManager V :=
  match m.requests.get? id with
  | none => m
  | some request => { m with requests := m.requests.set id { request with aborted := true } }

/-- Abort and forget the oldest requests until at most 32 are in flight. -/
def evictInFlight : Nat → PrefetchManager V → PrefetchManager V
  | 0, m => m
  | fuel + 1, m =>
    if maxPrefetchEntries < m.inFlight.size then
      match m.inFlight.keys with
      | [] => m
      | oldest :: _ =>
        let aborted :=
          match m.controllers.get? oldest with
          | none => m
          | some id => m.abort id
        evictInFlight fuel
          { aborted with
            controllers := aborted.controllers.delete oldest
            inFlight := aborted.inFlight.delete oldest }
    else m

def evictOldest : Nat → PrefetchManager V → PrefetchManager V
  | 0, m => m
  | fuel + 1, m =>
    if maxPrefetchEntries < m.cache.size then
      match m.cache.keys with
      | [] => m
      | oldest :: _ => evictOldest fuel { m with cache := m.cache.delete oldest }
    else m

def pruneExpired (m : PrefetchManager V) (now : Nat) : PrefetchManager V :=
  m.cache.entries.foldl (fun m e =>
    if e.2.expiresAt ≤ now then { m with cache := m.cache.delete e.1 } else m) m

/-- `fetch`; a request it sends is sent at the epoch `sentAt`. -/
def fetch (m : PrefetchManager V) (now : Nat) (url : String) (knownVersions : Versions)
    (sentAt : Nat) : PrefetchSource V × PrefetchManager V :=
  -- a held envelope first, then a request in flight for the same versions, then a new one
  match m.getCached now url knownVersions with
  | (some fetched, m) => (.held fetched, m)
  | (none, m) =>
    match m.getPending url knownVersions with
    | some id => (.request id, m)
    | none =>
      let id := m.requestCounter + 1
      let key := fingerprint url knownVersions
      let request : PrefetchRequest V :=
        { url := url
          fingerprint := key
          knownVersions := knownVersions
          generation := m.generation
          sentAtEpoch := sentAt }
      let sent : PrefetchManager V :=
        { m with
          requestCounter := id
          requests := m.requests.set id request
          inFlight := m.inFlight.set key id
          controllers := m.controllers.set key id }
      -- the new request is kept, the oldest ones make room
      (.request id, evictInFlight sent.inFlight.size sent)

/-- The `finally` of a request: it leaves the tables unless another request took its place. -/
def release (m : PrefetchManager V) (id : Nat) (key : Fingerprint) : PrefetchManager V :=
  { m with
    inFlight := if m.inFlight.get? key = some id then m.inFlight.delete key else m.inFlight
    controllers :=
      if m.controllers.get? key = some id then m.controllers.delete key else m.controllers }

def record (m : PrefetchManager V) (id : Nat) (request : PrefetchRequest V)
    (outcome : Except Failure (PrefetchedEnvelope V)) : PrefetchManager V :=
  { m with requests := m.requests.set id { request with outcome := some outcome } }

/-- The request's promise settles with a response of the server time `producedAt`. -/
def respond (m : PrefetchManager V) (now id : Nat) (request : PrefetchRequest V)
    (envelope : PageEnvelope V) (producedAt : Nat) : PrefetchManager V :=
  -- answered after `clear` or an abort: the call fails and only its own entry is released
  if request.generation ≠ m.generation ∨ request.aborted = true then
    (m.record id request (.error prefetchCancellation)).release id request.fingerprint
  else
    let fetched : PrefetchedEnvelope V :=
      { envelope := envelope
        request := id
        sentAtEpoch := request.sentAtEpoch
        producedAt := producedAt }
    let pruned := (m.acceptPrefetchEnvelope fetched).pruneExpired now
    let entry : PrefetchEntry V :=
      { fetched := fetched
        expiresAt := now + m.defaultTtlMs
        basedOnVersions := request.knownVersions }
    let cached : PrefetchManager V :=
      -- deleted and set, so the URL moves to the end of the order
      { pruned with cache := (pruned.cache.delete request.url).set request.url entry }
    ((evictOldest cached.cache.size cached).record id request (.ok fetched)).release id
      request.fingerprint

def fail (m : PrefetchManager V) (id : Nat) (request : PrefetchRequest V) (failure : Failure) :
    PrefetchManager V :=
  (m.record id request (.error failure)).release id request.fingerprint

def clear (m : PrefetchManager V) : PrefetchManager V :=
  let aborted := m.controllers.entries.foldl (fun m e => m.abort e.2) m
  { aborted with
    generation := m.generation + 1
    rejected := ∅
    controllers := .empty
    inFlight := .empty
    cache := .empty }

end PrefetchManager

end FluxFast.Core
