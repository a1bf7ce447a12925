import FluxFast.Core.Transport
import FluxFast.Server.PyText
import Mathlib

/-!
# Headers — the resource keys that a request header names

`parse_only_header` and `parse_live_keys_header` of `headers.py`, and the validation of a declared
resource key of `contract.py`.  A Python set is a finite set; a `ProtocolError` is its message.
-/

namespace FluxFast.Server

open FluxFast.Core

namespace Headers

def maxKnownResources : Nat := 100
def maxKeyLength : Nat := 128
def maxOnlyHeaderBytes : Nat := 16 * 1024
def maxLiveKeysHeaderBytes : Nat := 16 * 1024
def maxLiveKeys : Nat := 100

/-- `_validate_resource_key` of a string. -/
def validateResourceKey (key : String) : Except String String := do
  if PyText.blank key || 128 < PyText.javascriptStringLength key then
    throw "resource key must be a non-empty string of at most 128 characters"
  if key.toList.contains ',' || PyText.containsControlCharacters key then
    throw "resource key must not contain commas or control characters"
  return key

/-- `value.split(",")`. -/
def splitCommas (value : String) : List String :=
  (value.toList.splitOn ',').map String.ofList

/-- `parse_only_header`. -/
def parseOnlyHeader (header : Option String) : Except String (Option (Finset String)) := do
  match header with
  | none => return none
  | some value =>
    if PyText.blank value then
      return none
    if maxOnlyHeaderBytes < Text.utf8Bytes value then
      throw "X-FluxFast-Only exceeds 16384 bytes"
    -- the parts before the hundredth comma are the same whether or not the rest is split
    let raw := (splitCommas value).take maxKnownResources
    let keys := (raw.filter fun rawKey =>
      PyText.strip rawKey ≠ "" && (PyText.strip rawKey).length ≤ maxKeyLength &&
        !PyText.containsControlCharacters rawKey).map PyText.strip
    return if keys = [] then none else some keys.toFinset

/-- `parse_live_keys_header`. -/
def parseLiveKeysHeader (header : Option String) : Except String (Finset String) := do
  match header with
  | none => throw "X-FluxFast-Live-Keys is required for a live request"
  | some value =>
    if PyText.blank value then
      throw "X-FluxFast-Live-Keys is required for a live request"
    if maxLiveKeysHeaderBytes < Text.utf8Bytes value then
      throw "X-FluxFast-Live-Keys exceeds 16384 bytes"
    let rawKeys := splitCommas value
    if maxLiveKeys < rawKeys.length then
      throw "X-FluxFast-Live-Keys may contain at most 100 keys"
    if rawKeys.any fun rawKey => PyText.strip rawKey = "" ||
        maxKeyLength < (PyText.strip rawKey).length || PyText.containsControlCharacters rawKey then
      throw "X-FluxFast-Live-Keys contains an invalid resource key"
    return (rawKeys.map PyText.strip).toFinset

end Headers

end FluxFast.Server
