import FluxFast.Server.RedisCachePayload
import FluxFast.Server.Scope
import FluxFast.Theory.Base64

/-!
# Devtools — the trace of one request

`RequestDiagnosticCollector` and `encode_diagnostic_trace` of `devtools.py`, as `router.py` and
`engine.py` use them.  The encoder drops entries from the ends of the lists, one at a time, until
the header fits.
-/

namespace FluxFast.Server.Devtools

open FluxFast.Theory PyJson RedisCachePayload

/-- Doubles with their exact values; infinities and `nan` have none.  An integer literal that a
double can hold is read exactly, and a larger one is not read as a smaller number. -/
structure Doubles (F : Type) extends Floats F where
  value : F → Option ℚ
  isFinite_eq : ∀ x, isFinite x = (value x).isSome
  value_parse_int : ∀ n : Nat, n ≤ 2 ^ 53 → value (parse (Json.reprInt n)) = some (n : ℚ)
  le_value_parse_int : ∀ (n : Nat) (q : ℚ), 2 ^ 53 ≤ n → value (parse (Json.reprInt n)) = some q →
    2 ^ 53 ≤ q
  zero : F
  value_zero : value zero = some 0
  /-- `round(x, 3)`. -/
  round3 : F → F
  value_round3 : ∀ x q, value x = some q → 0 ≤ q → ∃ r, value (round3 x) = some r ∧ 0 ≤ r

def devtoolsProtocol : String := "fluxfast-devtools/1"

def maxDevtoolsTraceHeaderBytes : Nat := 7 * 1024

def maxDiagnosticResources : Nat := 256

def maxDiagnosticMutationKeys : Nat := 100

def maxDiagnosticKeyLength : Nat := 128

/-! ## Records -/

inductive ResourceDiagnosticResult where
  | cacheHit | cacheMiss | loader | deferred | omittedKnown | error
  deriving DecidableEq

def ResourceDiagnosticResult.text : ResourceDiagnosticResult → String
  | .cacheHit => "cache-hit"
  | .cacheMiss => "cache-miss"
  | .loader => "loader"
  | .deferred => "deferred"
  | .omittedKnown => "omitted-known"
  | .error => "error"

inductive CacheDiagnosticResult where
  | hit | miss | bypass
  deriving DecidableEq

def CacheDiagnosticResult.text : CacheDiagnosticResult → String
  | .hit => "hit"
  | .miss => "miss"
  | .bypass => "bypass"

inductive CacheBackendType where
  | memory | redis | custom
  deriving DecidableEq

def CacheBackendType.text : CacheBackendType → String
  | .memory => "memory"
  | .redis => "redis"
  | .custom => "custom"

inductive MutationRedirectType where
  | none | internal | external
  deriving DecidableEq

def MutationRedirectType.text : MutationRedirectType → String
  | .none => "none"
  | .internal => "internal"
  | .external => "external"

inductive ResourceErrorType where
  | resourceError | resourceContractError | resourceCacheError
  deriving DecidableEq

def ResourceErrorType.text : ResourceErrorType → String
  | .resourceError => "ResourceError"
  | .resourceContractError => "ResourceContractError"
  | .resourceCacheError => "ResourceCacheError"

inductive RequestType where
  | page | mutation
  deriving DecidableEq

def RequestType.text : RequestType → String
  | .page => "page"
  | .mutation => "mutation"

/-- `scope_type.value`. -/
def scopeText : ScopeType → String
  | .publicScope => "public"
  | .user => "user"
  | .tenant => "tenant"
  | .request => "request"
  | .custom => "custom"

/-- The operations that the envelope of a mutation lets through. -/
inductive PatchOperation where
  | replaceResource | mergeObject | replaceItem | removeItem | appendItem
  deriving DecidableEq

def PatchOperation.text : PatchOperation → String
  | .replaceResource => "replace-resource"
  | .mergeObject => "merge-object"
  | .replaceItem => "replace-item"
  | .removeItem => "remove-item"
  | .appendItem => "append-item"

structure ResourceDiagnostic (F : Type) where
  key : PyString
  result : ResourceDiagnosticResult
  scopeType : ScopeType
  ttl : F
  deferred : Bool
  live : Bool
  cacheBackend : CacheBackendType
  cacheResult : CacheDiagnosticResult
  durationMs : F
  cacheMs : Option F
  loaderMs : Option F
  sent : Bool
  knownVersion : Bool
  errorType : Option ResourceErrorType

structure MutationPatchDiagnostic where
  key : PyString
  operations : OrderedMap PatchOperation Nat

structure MutationDiagnostic (F : Type) where
  handlerMs : F
  invalidationMs : F
  serializeMs : F
  patches : List MutationPatchDiagnostic
  invalidated : List PyString
  invalidationCount : Nat
  liveSignals : Nat
  redirect : MutationRedirectType

structure RequestDiagnostic (F : Type) where
  requestId : PyString
  requestType : RequestType
  totalMs : F
  pageMs : F
  resourcesMs : F
  serializeMs : F
  resources : List (ResourceDiagnostic F)
  mutation : Option (MutationDiagnostic F)
  truncated : Bool

/-- `_safe_key`. -/
def safeKey (value : PyString) : PyString :=
  (value.take maxDiagnosticKeyLength).filter fun n => !PyText.isControlPoint n

section Records

variable {F : Type} (doubles : Doubles F)

/-- `_finite_duration`. -/
def finiteDuration (x : F) : F :=
  match doubles.value x with
  | none => doubles.zero
  | some q => if q < 0 then doubles.zero else doubles.round3 x

/-! ## The collector -/

structure Collector (F : Type) where
  requestId : PyString
  requestType : RequestType
  resources : List (ResourceDiagnostic F)
  truncated : Bool
  mutation : Option (MutationDiagnostic F)

/-- `RequestDiagnosticCollector(request_type)`; `token` are the digits of `secrets.token_hex(8)`. -/
def Collector.new (token : List Char) (requestType : RequestType) : Collector F where
  requestId := points "ffdev_" ++ token.map Char.toNat
  requestType := requestType
  resources := []
  truncated := false
  mutation := none

/-- What the engine does to the diagnostics of a page. -/
inductive ResourceStep (F : Type) where
  | startResource (key : PyString) (scopeType : ScopeType) (ttl : F) (deferred live : Bool)
    (cacheBackend : CacheBackendType)
  | recordCache (index : Nat) (hit : Bool) (durationMs : F)
  | recordLoader (index : Nat) (durationMs : F)
  | finishResource (index : Nat) (result : ResourceDiagnosticResult) (sent knownVersion : Bool)
    (errorType : Option ResourceErrorType) (durationMs : F)

/-- Diagnostics are told apart by the place where `start_resource` put them; one that it refused
to start has no place. -/
def Collector.step (c : Collector F) : ResourceStep F → Collector F
  | .startResource key scopeType ttl deferred live cacheBackend =>
    -- past the limit a resource is not recorded, and the trace says so
    if maxDiagnosticResources ≤ c.resources.length then { c with truncated := true }
    else { c with resources := c.resources ++ [
      { key := safeKey key, result := .cacheMiss, scopeType := scopeType, ttl := ttl,
        deferred := deferred, live := live, cacheBackend := cacheBackend, cacheResult := .bypass,
        durationMs := doubles.zero, cacheMs := none, loaderMs := none, sent := false,
        knownVersion := false, errorType := none }] }
  | .recordCache index hit durationMs =>
    -- an index that was never given out changes nothing
    { c with resources := c.resources.modify index fun r =>
      { r with
        cacheResult := if hit then .hit else .miss
        cacheMs := some (finiteDuration doubles durationMs) } }
  | .recordLoader index durationMs =>
    { c with resources := c.resources.modify index fun r =>
      { r with loaderMs := some (finiteDuration doubles durationMs) } }
  | .finishResource index result sent knownVersion errorType durationMs =>
    { c with resources := c.resources.modify index fun r =>
      { r with
        result := result
        sent := sent
        knownVersion := knownVersion
        errorType := errorType
        durationMs := finiteDuration doubles durationMs } }

/-- The counts of one resource, `dict(sorted(counts.items()))`. -/
def operationCounts (operations : List PatchOperation) : OrderedMap PatchOperation Nat :=
  let counts := operations.foldl (fun counts op => counts.set op ((counts.get? op).getD 0 + 1))
    (OrderedMap.empty : OrderedMap PatchOperation Nat)
  { entries := counts.entries.mergeSort fun a b => decide (a.1.text ≤ b.1.text)
    nodup := ((List.mergeSort_perm _ _).map Prod.fst).nodup_iff.mpr counts.nodup }

def Collector.recordMutation (c : Collector F) (handlerMs invalidationMs serializeMs : F)
    (patches : List (PyString × List PatchOperation)) (invalidated : List PyString)
    (liveSignals : Nat) (redirect : MutationRedirectType) : Collector F :=
  { c with
    requestType := .mutation
    truncated := c.truncated || decide (maxDiagnosticMutationKeys < patches.length) ||
      decide (maxDiagnosticMutationKeys < invalidated.length)
    mutation := some
      { handlerMs := finiteDuration doubles handlerMs
        invalidationMs := finiteDuration doubles invalidationMs
        serializeMs := finiteDuration doubles serializeMs
        patches := (patches.take maxDiagnosticMutationKeys).map fun p =>
          ⟨safeKey p.1, operationCounts p.2⟩
        invalidated := (invalidated.take maxDiagnosticMutationKeys).map safeKey
        invalidationCount := invalidated.length
        liveSignals := liveSignals
        redirect := redirect } }

def Collector.build (c : Collector F) (totalMs pageMs resourcesMs serializeMs : F) :
    RequestDiagnostic F where
  requestId := c.requestId
  requestType := c.requestType
  totalMs := finiteDuration doubles totalMs
  pageMs := finiteDuration doubles pageMs
  resourcesMs := finiteDuration doubles resourcesMs
  serializeMs := finiteDuration doubles serializeMs
  resources := c.resources
  mutation := c.mutation
  truncated := c.truncated

/-- What `secrets.token_hex(8)` gives. -/
def IsToken (token : List Char) : Prop :=
  token.length = 16 ∧ ∀ c ∈ token, c ∈ "0123456789abcdef".toList

/-- The traces of the server: those of a page, after any steps of the engine, and those of a
mutation. -/
inductive Built : RequestDiagnostic F → Prop where
  | page (token : List Char) (htoken : IsToken token) (steps : List (ResourceStep F))
      (totalMs pageMs resourcesMs serializeMs : F) :
      Built ((steps.foldl (Collector.step doubles) (.new token .page)).build doubles totalMs pageMs
        resourcesMs serializeMs)
  | mutation (token : List Char) (htoken : IsToken token)
      (handlerMs invalidationMs serializeMs totalMs : F)
      (patches : List (PyString × List PatchOperation)) (invalidated : List PyString)
      (liveSignals : Nat) (redirect : MutationRedirectType) :
      Built (((Collector.new token .mutation).recordMutation doubles handlerMs invalidationMs
        serializeMs patches invalidated liveSignals redirect).build doubles totalMs doubles.zero
        doubles.zero serializeMs)

/-! ## The payload -/

abbrev PyValue (F : Type) := RedisCachePayload.PyValue F

/-- A JSON object of named members. -/
def named (members : List (String × PyValue F)) : PyValue F :=
  .object (members.map fun m => (points m.1, m.2))

def textValue (s : String) : PyValue F := .string (points s)

def floatValue (x : F) : PyValue F := .number (.float x)

def countValue (n : Nat) : PyValue F := .number (.int n)

def optionalMember (name : String) : Option (PyValue F) → List (String × PyValue F)
  | none => []
  | some v => [(name, v)]

def durationValue (x : F) : PyValue F := floatValue (finiteDuration doubles x)

def resourceMembers (r : ResourceDiagnostic F) : List (String × PyValue F) :=
  [("key", .string r.key), ("result", textValue r.result.text),
    ("durationMs", durationValue doubles r.durationMs), ("scope", textValue (scopeText r.scopeType)),
    ("ttl", floatValue r.ttl), ("deferred", .bool r.deferred), ("live", .bool r.live),
    ("cacheBackend", textValue r.cacheBackend.text), ("cacheResult", textValue r.cacheResult.text),
    ("sent", .bool r.sent), ("knownVersion", .bool r.knownVersion)] ++
    (optionalMember "cacheMs" (r.cacheMs.map (durationValue doubles)) ++
      (optionalMember "loaderMs" (r.loaderMs.map (durationValue doubles)) ++
        optionalMember "errorType" (r.errorType.map fun e => textValue e.text)))

/-- `_resource_payload`. -/
def resourcePayload (r : ResourceDiagnostic F) : PyValue F := named (resourceMembers doubles r)

def patchPayload (p : MutationPatchDiagnostic) : PyValue F :=
  named [("key", .string p.key),
    ("operations", named (p.operations.entries.map fun e => (e.1.text, countValue e.2)))]

/-- The part of the payload that is not common to pages and mutations.  The entries of the lists
stand for the payloads made of them. -/
inductive Details (F : Type) where
  | page (pageMs resourcesMs serializeMs : F) (resources : List (ResourceDiagnostic F))
  | mutation (handlerMs invalidationMs serializeMs : F) (patches : List MutationPatchDiagnostic)
    (invalidated : List PyString) (invalidationCount liveSignals : Nat)
    (redirect : MutationRedirectType)

structure RequestPayload (F : Type) where
  requestId : PyString
  requestType : RequestType
  totalMs : F
  truncated : Bool
  details : Details F

/-- `_request_payload`. -/
def requestPayload (trace : RequestDiagnostic F) : RequestPayload F where
  requestId := trace.requestId
  requestType := trace.requestType
  totalMs := trace.totalMs
  truncated := trace.truncated
  details :=
    match trace.requestType, trace.mutation with
    | .mutation, some m => .mutation m.handlerMs m.invalidationMs m.serializeMs m.patches
        m.invalidated m.invalidationCount m.liveSignals m.redirect
    | _, _ => .page trace.pageMs trace.resourcesMs trace.serializeMs trace.resources

def Details.members : Details F → List (String × PyValue F)
  | .page pageMs resourcesMs serializeMs resources =>
    [("pageMs", durationValue doubles pageMs), ("resourcesMs", durationValue doubles resourcesMs),
      ("serializeMs", durationValue doubles serializeMs),
      ("resources", .array (resources.map (resourcePayload doubles)))]
  | .mutation handlerMs invalidationMs serializeMs patches invalidated invalidationCount liveSignals
      redirect =>
    [("handlerMs", durationValue doubles handlerMs),
      ("invalidationMs", durationValue doubles invalidationMs),
      ("serializeMs", durationValue doubles serializeMs),
      ("patches", .array (patches.map patchPayload)),
      ("invalidated", .array (invalidated.map .string)),
      ("invalidationCount", countValue invalidationCount), ("liveSignals", countValue liveSignals),
      ("redirect", textValue redirect.text)]

def RequestPayload.json (p : RequestPayload F) : PyValue F :=
  named ([("protocol", textValue devtoolsProtocol), ("requestId", .string p.requestId),
    ("type", textValue p.requestType.text), ("durationMs", durationValue doubles p.totalMs),
    ("truncated", .bool p.truncated)] ++ p.details.members doubles)

/-! ## The encoder -/

/-- The UTF-16 units of a code point. -/
def pointUnits (n : Nat) : List Nat :=
  if n < 0x10000 then [n]
  else [0xd800 + (n - 0x10000) / 0x400 % 0x400, 0xdc00 + (n - 0x10000) % 0x400]

/-- A code point with `ensure_ascii=True`; a surrogate that stands alone is escaped, too. -/
def escapePoint (n : Nat) : List Char :=
  if h : n.isValidChar then Json.escapeAscii (Char.ofNatAux n h)
  else (pointUnits n).flatMap Json.unicodeEscape

def asciiWriter : Json.Writer PyString (Printable doubles.toFloats) where
  text s := s.flatMap escapePoint
  number n := n.val.print doubles.toFloats

/-- `json.dumps` with `ensure_ascii=True` and `allow_nan=False`; none is a `ValueError`. -/
def dumpsAscii (payload : PyValue F) : Option (List Char) :=
  (payload.convert some (printable? doubles.toFloats)).map (asciiWriter doubles).write

/-- One entry less. -/
def Details.pop : Details F → Option (Details F)
  | .page pageMs resourcesMs serializeMs resources =>
    if resources = [] then none
    else some (.page pageMs resourcesMs serializeMs resources.dropLast)
  | .mutation handlerMs invalidationMs serializeMs patches invalidated invalidationCount liveSignals
      redirect =>
    if patches = [] then
      if invalidated = [] then none
      else some (.mutation handlerMs invalidationMs serializeMs patches invalidated.dropLast
        invalidationCount liveSignals redirect)
    else some (.mutation handlerMs invalidationMs serializeMs patches.dropLast invalidated
      invalidationCount liveSignals redirect)

/-- The entries that can still be dropped. -/
def Details.size : Details F → Nat
  | .page _ _ _ resources => resources.length
  | .mutation _ _ _ patches invalidated _ _ _ => patches.length + invalidated.length

theorem Details.size_pop {d d' : Details F} (h : d.pop = some d') : d'.size + 1 = d.size := by
  cases d with
  | page pageMs resourcesMs serializeMs resources =>
    by_cases hne : resources = []
    · rw [pop, if_pos hne] at h
      cases h
    · rw [pop, if_neg hne] at h
      cases h
      have hpos := List.length_pos_iff.mpr hne
      rw [size, size, List.length_dropLast]
      omega
  | mutation handlerMs invalidationMs serializeMs patches invalidated count signals redirect =>
    by_cases hpatches : patches = []
    · by_cases hne : invalidated = []
      · rw [pop, if_pos hpatches, if_pos hne] at h
        cases h
      · rw [pop, if_pos hpatches, if_neg hne] at h
        cases h
        have hpos := List.length_pos_iff.mpr hne
        rw [size, size, List.length_dropLast]
        omega
    · rw [pop, if_neg hpatches] at h
      cases h
      have hpos := List.length_pos_iff.mpr hpatches
      rw [size, size, List.length_dropLast]
      omega

/-- The header of a payload, whatever its length. -/
def headerOf (p : RequestPayload F) : Option (List Char) :=
  (dumpsAscii doubles (p.json doubles)).map fun text => Base64.encode (Utf8.encode text)

/-- The loop of `encode_diagnostic_trace`. -/
def encodePayload (maximumBytes : Nat) (p : RequestPayload F) : Option (List Char) :=
  match headerOf doubles p with
  | none => none
  | some encoded =>
    if encoded.length ≤ maximumBytes then some encoded
    else
      match _h : p.details.pop with
      | none => none
      | some details => encodePayload maximumBytes { p with details := details, truncated := true }
  termination_by p.details.size
  decreasing_by exact (Details.size_pop _h).symm ▸ Nat.lt_succ_self _

def encodeDiagnosticTrace (trace : RequestDiagnostic F) (maximumBytes : Int) :
    Option (List Char) :=
  if maximumBytes ≤ 0 then none
  else encodePayload doubles maximumBytes.toNat (requestPayload trace)

end Records

end FluxFast.Server.Devtools
