import FluxFast.Core.JsJson
import FluxFast.Core.SseParser
import FluxFast.Core.Transport

/-!
# LiveProtocol — the events of a live stream, decoded and checked

`assertLiveEvent` of `live/protocol.ts` and the reading of a frame's data.  A checked event is
returned with the parts that the client uses.
-/

namespace FluxFast.Core

open FluxFast.Theory JsJson

def protocolVersion : String := "fluxfast/1"

namespace LiveProtocol

def maxLiveClientIdLength : Nat := 64

def liveResyncReasons : List String := ["overflow", "reconnect", "broker-recovery", "server"]

def livePatchOperations : List String :=
  ["replace-resource", "merge-object", "replace-item", "remove-item", "append-item"]

variable {μ : Type}

def unsafeKeyError : StreamError :=
  .protocol "Live event resource keys must be safe non-empty strings"

def assertResourceKey : Value μ → Except StreamError String
  | .string key => if LiveTransport.isSafeLiveKey key then .ok key else .error unsafeKeyError
  | _ => .error unsafeKeyError

def assertResourceKeys (value : Option (Value μ)) : Except StreamError (List String) :=
  match value.bind asArray with
  | none => .error (.protocol "Live event keys must be an array of at most 100 strings")
  | some items =>
    if LiveTransport.maxLiveEventKeys < items.length then
      .error (.protocol "Live event keys must be an array of at most 100 strings")
    else items.mapM assertResourceKey

/-- The test of `/^[\x21-\x7e]+$/`. -/
def isPrintableAscii (value : String) : Bool :=
  value ≠ "" && value.toList.all fun c => 0x21 ≤ c.toNat && c.toNat ≤ 0x7e

def assertOriginClientId (value : Option (Value μ)) : Except StreamError (Option String) :=
  match value with
  | none => .ok none
  | some (.string origin) =>
    if origin = "" ∨ maxLiveClientIdLength < Text.jsLength origin ∨ !isPrintableAscii origin then
      .error (.protocol "originClientId must be printable ASCII of at most 64 characters")
    else .ok (some origin)
  | some _ => .error (.protocol "originClientId must be printable ASCII of at most 64 characters")

/-- `"id" in patch`, or a `match` with a property. -/
def hasIdentity (patch : Fields μ) : Bool :=
  patch.has "id" ||
    (((patch.get? "match").bind fields).any fun criteria => decide (0 < criteria.size))

def incomplete (op : String) (patch : Fields μ) : Bool :=
  (["replace-resource", "merge-object", "append-item"].contains op && !patch.has "value") ||
    (["replace-item", "remove-item"].contains op && !hasIdentity patch) ||
    (op = "replace-item" && !patch.has "value")

def assertPatch (key : String) (value : Value μ) : Except StreamError (Fields μ) :=
  match fields value with
  | none => .error (.protocol ("Invalid live patch for '" ++ key ++ "'"))
  | some patch =>
    match (patch.get? "op").bind asString with
    | none => .error (.protocol ("Invalid live patch for '" ++ key ++ "'"))
    | some op =>
      if !livePatchOperations.contains op then
        .error (.protocol ("Unsupported live patch operation for '" ++ key ++ "'"))
      else if incomplete op patch then
        .error (.protocol ("Incomplete '" ++ op ++ "' live patch for '" ++ key ++ "'"))
      else .ok patch

def assertPatches (key : String) (value : Value μ) : Except StreamError (List (Fields μ)) :=
  match asArray value with
  | none => .error (.protocol ("Live patches for '" ++ key ++ "' must be an array"))
  | some patches => patches.mapM (assertPatch key)

/-- The patches of every key, in the order of the keys. -/
def assertAllPatches (patches : Fields μ) :
    Except StreamError (OrderedMap String (List (Fields μ))) := do
  let checked ← patches.entries.mapM fun e => (assertPatches e.1 e.2).map fun ps => (e.1, ps)
  return OrderedMap.ofList checked

section Events

variable (host : JsHost μ)

/-- What the protocol field differs in, `undefined` for anything but an object. -/
def versionMismatch (received : Option (Value μ)) : StreamError :=
  .versionMismatch ("Live protocol mismatch: expected '" ++ protocolVersion ++ "', got '" ++
    host.describe received ++ "'")

def assertEventBody (event : Fields μ) : Except StreamError (LiveEvent (Fields μ)) :=
  let type := (event.get? "type").bind asString
  if type = some "ready" then do
    let keys ← assertResourceKeys (event.get? "keys")
    return .ready keys
  else if type = some "invalidate" then do
    let keys ← assertResourceKeys (event.get? "keys")
    let originClientId ← assertOriginClientId (event.get? "originClientId")
    return .invalidate keys originClientId
  else if type = some "patch" then
    match (event.get? "patches").bind fields with
    -- the keys of the patches are checked first, as the keys of any other event
    | none => .error (.protocol "Live patch event patches must be an object")
    | some patches => do
      let _ ← assertResourceKeys (μ := μ) (some (.array (patches.keys.map .string)))
      let patches ← assertAllPatches patches
      let originClientId ← assertOriginClientId (event.get? "originClientId")
      return .patch patches originClientId
  else if type = some "resync" then do
    let keys ← assertResourceKeys (event.get? "keys")
    match ((event.get? "reason").bind asString).filter liveResyncReasons.contains with
    | none => .error (.protocol "Unknown live resync reason")
    -- the reason is one of the listed ones; another text is a protocol error
    | some reason => return .resync keys reason
  else
    .error (.protocol ("Unknown live event type '" ++ host.describe (event.get? "type") ++ "'"))

def assertLiveEvent (value : Value μ) : Except StreamError (LiveEvent (Fields μ)) :=
  match fields value with
  | none => .error (versionMismatch host none)
  | some event =>
    if (event.get? "protocol").bind asString ≠ some protocolVersion then
      .error (versionMismatch host (event.get? "protocol"))
    else assertEventBody host event

/-- The data of a frame. -/
def readLiveEvent (data : List Char) : Except StreamError (LiveEvent (Fields μ)) :=
  match JsJson.parse host data with
  | none => .error (.protocol "FluxFast SSE event contains malformed JSON")
  | some value => assertLiveEvent host value

end Events

end LiveProtocol

end FluxFast.Core
