import FluxFast.Core.Protocol
import FluxFast.Core.Text
import FluxFast.Theory.Runs

/-!
# Transport — which keys and versions a request really carries

The fetch transport drops unsafe keys and versions, trims the known and only headers to 100
entries, and leaves a header out altogether when it would exceed its byte limit.  The live
transport instead rejects a key list it cannot send.
-/

namespace FluxFast.Core

open FluxFast.Theory

namespace Transport

def maxKnownResources : Nat := 100
def maxKnownBytes : Nat := 16 * 1024
def maxKeyLength : Nat := 128
def maxVersionLength : Nat := 128
def maxOnlyHeaderBytes : Nat := 16 * 1024

def isSafeResourceKey (key : String) : Bool :=
  !Text.blank key && Text.jsLength key ≤ maxKeyLength && !Text.hasComma key &&
    !Text.hasControlCharacters key

def isSafeVersion (version : String) : Bool :=
  Text.jsLength version ≤ maxVersionLength && !Text.hasControlCharacters version

def selectKnownVersions (known : Versions) : Versions :=
  known.entries.foldl (fun safe e =>
    if safe.size < maxKnownResources && isSafeResourceKey e.1 && isSafeVersion e.2 &&
        namesMember e.1 then
      safe.set e.1 e.2
    else safe) .empty

/-- Bytes of `JSON.stringify` of a selection. -/
def stringifiedBytes (safe : Versions) : Nat :=
  2 + (safe.entries.map fun e => Text.quotedBytes e.1 + 1 + Text.quotedBytes e.2).sum +
    (safe.size - 1)

/-- Bytes of `keys.join(",")`. -/
def joinedBytes (keys : List String) : Nat :=
  (keys.map Text.utf8Bytes).sum + (keys.length - 1)

/-- The keys of the `X-FluxFast-Only` header; none stands for a request of the whole page. -/
def selectOnlyResources (only : List String) : List String :=
  let safe := (only.filter isSafeResourceKey).take maxKnownResources
  if joinedBytes safe ≤ maxOnlyHeaderBytes then safe else []

theorem selectKnownVersions_sub {known : Versions} {k v : String}
    (h : (selectKnownVersions known).get? k = some v) : known.get? k = some v := by
  have hsub : ∀ j u, (selectKnownVersions known).get? j = some u → known.get? j = some u := by
    refine foldl_invariant (I := fun (safe : Versions) => ∀ j u, safe.get? j = some u →
      known.get? j = some u) known.entries ?_ (by simp)
    intro safe e he hsafe j u hj
    split at hj
    · rw [OrderedMap.get?_set] at hj
      split at hj
      · next hje =>
        rw [hje, ← Option.some.inj hj]
        exact OrderedMap.get?_eq_some_iff.mpr he
      · exact hsafe j u hj
    · exact hsafe j u hj
  exact hsub k v h

end Transport

namespace LiveTransport

def maxLiveEventKeys : Nat := 100
def maxLiveResourceKeyLength : Nat := 128
def maxLiveKeysHeaderBytes : Nat := 16 * 1024

def isSafeLiveKey (key : String) : Bool :=
  !Text.blank key && Text.jsLength key ≤ maxLiveResourceKeyLength && !Text.hasComma key &&
    !Text.hasControl key

/-- The sorted key list of a live connection, or the error that refuses it. -/
def serializeLiveKeys (keys : List String) : Except String (List String) :=
  let normalized := Text.sort (unique keys)
  if keys = [] then .error "A live connection requires at least one resource key"
  else if maxLiveEventKeys < normalized.length then
    .error "A live connection may contain at most 100 resource keys"
  else if !normalized.all isSafeLiveKey then
    .error "Live resource keys must be safe non-empty strings"
  else if maxLiveKeysHeaderBytes < Transport.joinedBytes normalized then
    .error "Live resource key metadata exceeds 16384 bytes"
  else .ok normalized

theorem mem_of_serializeLiveKeys {keys normalized : List String} {k : String}
    (h : serializeLiveKeys keys = .ok normalized) : k ∈ normalized ↔ k ∈ keys := by
  unfold serializeLiveKeys at h
  dsimp only at h
  split_ifs at h
  cases h
  simp

end LiveTransport

end FluxFast.Core
