import FluxFast.Theory.Base64
import FluxFast.Theory.JsonChecked
import FluxFast.Theory.Utf8
import Mathlib.Data.Rat.Defs
import Mathlib.Algebra.Order.Ring.Unbundled.Rat

/-!
# ServerTrace — the trace header as the browser reads it

`decodeServerDiagnosticTrace` of `transport.ts`.  A JavaScript string is the list of its code units,
so that a surrogate that stands alone is kept.
-/

namespace FluxFast.Core.ServerTrace

open FluxFast.Theory

abbrev Units := List Nat

def units (s : String) : Units := Utf16.encode s.toList

abbrev JsValue (F : Type) := Json Units F

abbrev Members (F : Type) := List (Units × JsValue F)

/-- The numbers of the engine: how a literal is read, and the exact value of a finite one. -/
structure JsDoubles (F : Type) where
  parse : List Char → F
  value : F → Option ℚ

def devtoolsProtocolVersion : String := "fluxfast-devtools/1"

def maxKeyLength : Nat := 128

def maxDevtoolsTraceHeaderChars : Nat := 7 * 1024

def maxDevtoolsTraceResources : Nat := 256

def maxDevtoolsTraceMutationKeys : Nat := 100

def maxDevtoolsDurationMs : ℚ := 86400000

def maxTtl : ℚ := 1000000000000

def maxCount : Int := 1000000

def maxSafeInteger : Int := 2 ^ 53 - 1

/-! ## Reading the header -/

def isBase64Url (c : Char) : Bool := c.isAlphanum || c = '_' || c = '-'

/-- `decodeBase64Url`: `atob` is the strict decoder, and `TextDecoder` drops a byte order mark. -/
def decodeBase64Url (value : List Char) : Option (List Char) :=
  if value = [] ∨ maxDevtoolsTraceHeaderChars < value.length ∨ value.length % 4 = 1 ∨
      value.all isBase64Url = false then none
  else
    ((Base64.decode (Base64.pad value)).bind Utf8.decode).map fun text =>
      match text with
      | '\ufeff' :: rest => rest
      | text => text

section Decoder

variable {F : Type} (doubles : JsDoubles F)

def lexicon : Json.Lexicon Units F where
  text units := some units
  number word := if Json.isNumber word then some (doubles.parse word) else none

/-- `JSON.parse`. -/
def parse (text : List Char) : Option (JsValue F) :=
  (Json.read (lexicon doubles) text).map Json.dedupe

/-! ## Checks -/

/-- `value[name]`, where none is `undefined`. -/
def field (members : Members F) (name : String) : Option (JsValue F) :=
  OrderedMap.lookup (units name) members

def hasOnlyKeys (members : Members F) (allowed : List String) : Bool :=
  members.all fun m => (allowed.map units).contains m.1

def isControlUnit (u : Nat) : Bool := u < 0x20 || (0x7f ≤ u && u ≤ 0x9f)

/-- White space and line terminators, the units that `trim` removes. -/
def isSpaceUnit (u : Nat) : Bool :=
  (9 ≤ u && u ≤ 13) || u = 0x20 || u = 0xa0 || u = 0x1680 || (0x2000 ≤ u && u ≤ 0x200a) ||
    u = 0x2028 || u = 0x2029 || u = 0x202f || u = 0x205f || u = 0x3000 || u = 0xfeff

def isSafeText (maximumLength : Nat) (s : Units) : Bool :=
  !s.isEmpty && s.length ≤ maximumLength && !s.any isControlUnit

def isSafeDiagnosticText (maximumLength : Nat) : Option (JsValue F) → Bool
  | some (.string s) => isSafeText maximumLength s
  | _ => false

def isSafeKey (s : Units) : Bool :=
  !s.all isSpaceUnit && s.length ≤ maxKeyLength && !s.contains 0x2c && !s.any isControlUnit

def isSafeResourceKey : Option (JsValue F) → Bool
  | some (.string s) => isSafeKey s
  | _ => false

def isSafeDiagnosticNumber (maximum : ℚ) : Option (JsValue F) → Bool
  | some (.number x) =>
    match doubles.value x with
    | some q => 0 ≤ q && q ≤ maximum
    | none => false
  | _ => false

/-- `Number.isSafeInteger(value)` within two bounds. -/
def isIntegerWithin (low high : Int) : Option (JsValue F) → Bool
  | some (.number x) =>
    match doubles.value x with
    | some q => q.den = 1 && q.num.natAbs ≤ maxSafeInteger.natAbs && low ≤ q.num && q.num ≤ high
    | none => false
  | _ => false

def isBoolean : Option (JsValue F) → Bool
  | some (.bool _) => true
  | _ => false

def isOneOf (names : List String) : Option (JsValue F) → Bool
  | some (.string s) => (names.map units).contains s
  | _ => false

/-- `value === undefined || check(value)`. -/
def absentOr (check : Option (JsValue F) → Bool) : Option (JsValue F) → Bool
  | none => true
  | v => check v

/-- The named members, in this order; `undefined` ones are left out. -/
def picked (members : Members F) (names : List String) : Members F :=
  names.filterMap fun name => (field members name).map fun v => (units name, v)

def resourceTraceKeys : List String :=
  ["key", "result", "durationMs", "scope", "ttl", "deferred", "live", "cacheBackend",
    "cacheResult", "sent", "knownVersion", "cacheMs", "loaderMs", "errorType"]

def isResourceTrace (members : Members F) : Bool :=
  hasOnlyKeys members resourceTraceKeys && isSafeResourceKey (field members "key") &&
    isOneOf ["cache-hit", "cache-miss", "loader", "deferred", "omitted-known", "error"]
      (field members "result") &&
    isSafeDiagnosticNumber doubles maxDevtoolsDurationMs (field members "durationMs") &&
    isOneOf ["public", "user", "tenant", "request", "custom"] (field members "scope") &&
    isSafeDiagnosticNumber doubles maxTtl (field members "ttl") &&
    isBoolean (field members "deferred") && isBoolean (field members "live") &&
    isOneOf ["memory", "redis", "custom"] (field members "cacheBackend") &&
    isOneOf ["hit", "miss", "bypass"] (field members "cacheResult") &&
    isBoolean (field members "sent") && isBoolean (field members "knownVersion") &&
    absentOr (isSafeDiagnosticNumber doubles maxDevtoolsDurationMs) (field members "cacheMs") &&
    absentOr (isSafeDiagnosticNumber doubles maxDevtoolsDurationMs) (field members "loaderMs") &&
    absentOr (isOneOf ["ResourceError", "ResourceContractError", "ResourceCacheError"])
      (field members "errorType")

def sanitizeResourceTrace : JsValue F → Option (JsValue F)
  | .object members =>
    if isResourceTrace doubles members then some (.object (picked members resourceTraceKeys))
    else none
  | _ => none

def patchOperations : List String :=
  ["replace-resource", "merge-object", "replace-item", "remove-item", "append-item"]

def sanitizePatchTrace : JsValue F → Option (JsValue F)
  | .object members =>
    match field members "operations" with
    | some (.object operations) =>
      if hasOnlyKeys members ["key", "operations"] && isSafeResourceKey (field members "key") &&
          hasOnlyKeys operations patchOperations &&
          operations.all fun m => isIntegerWithin doubles 1 maxCount (some m.2) then
        some (.object (picked members ["key", "operations"]))
      else none
    | _ => none
  | _ => none

/-- `/^ffdev_[A-Za-z0-9_-]+$/`. -/
def isRequestId : Option (JsValue F) → Bool
  | some (.string s) =>
    s.take 6 = units "ffdev_" && !(s.drop 6).isEmpty &&
      (s.drop 6).all fun u => u < 0x80 && isBase64Url (Char.ofNat u)
  | _ => false

def commonKeys : List String := ["protocol", "requestId", "type", "durationMs", "truncated"]

def pageKeys : List String := ["pageMs", "resourcesMs", "serializeMs", "resources"]

def mutationKeys : List String :=
  ["handlerMs", "invalidationMs", "serializeMs", "patches", "invalidated", "invalidationCount",
    "liveSignals", "redirect"]

def isCommonTrace (members : Members F) : Bool :=
  isOneOf [devtoolsProtocolVersion] (field members "protocol") &&
    isSafeDiagnosticText 96 (field members "requestId") &&
    isRequestId (field members "requestId") && isOneOf ["page", "mutation"] (field members "type") &&
    isSafeDiagnosticNumber doubles maxDevtoolsDurationMs (field members "durationMs") &&
    isBoolean (field members "truncated")

def sanitizePage (members : Members F) : Option (JsValue F) :=
  match field members "resources" with
  | some (.array resources) =>
    if hasOnlyKeys members (commonKeys ++ pageKeys) &&
        isSafeDiagnosticNumber doubles maxDevtoolsDurationMs (field members "pageMs") &&
        isSafeDiagnosticNumber doubles maxDevtoolsDurationMs (field members "resourcesMs") &&
        isSafeDiagnosticNumber doubles maxDevtoolsDurationMs (field members "serializeMs") &&
        resources.length ≤ maxDevtoolsTraceResources then
      (resources.mapM (sanitizeResourceTrace doubles)).map fun resources =>
        .object (picked members (commonKeys ++ ["pageMs", "resourcesMs", "serializeMs"]) ++
          [(units "resources", .array resources)])
    else none
  | _ => none

def sanitizeMutation (members : Members F) : Option (JsValue F) :=
  match field members "patches", field members "invalidated" with
  | some (.array patches), some (.array invalidated) =>
    -- both lists are there; every other member is checked for its kind before anything is copied
    if hasOnlyKeys members (commonKeys ++ mutationKeys) &&
        isSafeDiagnosticNumber doubles maxDevtoolsDurationMs (field members "handlerMs") &&
        isSafeDiagnosticNumber doubles maxDevtoolsDurationMs (field members "invalidationMs") &&
        isSafeDiagnosticNumber doubles maxDevtoolsDurationMs (field members "serializeMs") &&
        patches.length ≤ maxDevtoolsTraceMutationKeys &&
        invalidated.length ≤ maxDevtoolsTraceMutationKeys &&
        invalidated.all (fun key => isSafeResourceKey (some key)) &&
        isIntegerWithin doubles invalidated.length maxCount (field members "invalidationCount") &&
        isIntegerWithin doubles 0 maxCount (field members "liveSignals") &&
        isOneOf ["none", "internal", "external"] (field members "redirect") then
      (patches.mapM (sanitizePatchTrace doubles)).map fun patches =>
        -- the copy keeps the order of the source's object literal
        .object (picked members (commonKeys ++ ["handlerMs", "invalidationMs", "serializeMs"]) ++
          (units "patches", .array patches) ::
            picked members ["invalidated", "invalidationCount", "liveSignals", "redirect"])
    else none
  | _, _ => none

/-- `sanitizeServerTrace`. -/
def sanitizeServerTrace : JsValue F → Option (JsValue F)
  | .object members =>
    if isCommonTrace doubles members then
      if isOneOf ["page"] (field members "type") then sanitizePage doubles members
      else sanitizeMutation doubles members
    else none
  | _ => none

inductive Inspected (F : Type) where
  | valid (trace : JsValue F)
  | invalid
  | unsupported (protocol : Units)

def isLowerUnit (u : Nat) : Bool := 0x61 ≤ u && u ≤ 0x7a

def isDigitUnit (u : Nat) : Bool := 0x30 ≤ u && u ≤ 0x39

/-- `/^[a-z][a-z0-9-]*\/\d+$/`. -/
def isProtocolName (s : Units) : Bool :=
  let name := s.takeWhile fun u => isLowerUnit u || isDigitUnit u || u = 0x2d
  let rest := s.dropWhile fun u => isLowerUnit u || isDigitUnit u || u = 0x2d
  name.head?.any isLowerUnit && rest.head? = some 0x2f && !rest.tail.isEmpty &&
    rest.tail.all isDigitUnit

/-- The protocol of a trace that another version of the server wrote. -/
def unsupportedProtocol : JsValue F → Option Units
  | .object members =>
    match field members "protocol" with
    | some (.string s) =>
      if isSafeText 64 s && s ≠ units devtoolsProtocolVersion && isProtocolName s then some s
      else none
    | _ => none
  | _ => none

def inspectServerDiagnosticTrace (value : List Char) : Inspected F :=
  match (decodeBase64Url value).bind (parse doubles) with
  | none => .invalid
  | some parsed =>
    match unsupportedProtocol parsed with
    | some protocol => .unsupported protocol
    | none =>
      match sanitizeServerTrace doubles parsed with
      | some trace => .valid trace
      | none => .invalid

def decodeServerDiagnosticTrace : Option (List Char) → Option (JsValue F)
  | none => none
  | some value =>
    match inspectServerDiagnosticTrace doubles value with
    | .valid trace => some trace
    | _ => none

end Decoder

end FluxFast.Core.ServerTrace
