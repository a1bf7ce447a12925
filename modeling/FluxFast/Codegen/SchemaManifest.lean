import FluxFast.Codegen.FaithfulSnapshot
import FluxFast.Core.Text
import FluxFast.Theory.Double

/-!
# SchemaManifest — the checks of a schema manifest

The manifest is checked on its copy, a tree in which no object occurs twice.  All schemas of a manifest
share one budget.
-/

namespace FluxFast.Codegen

open FluxFast.Theory FluxFast.Validation

/-! ## Reading the copy -/

/-- The member of an object; `none` for undefined. -/
def field (name : String) : JsonTree → Option JsonTree
  | .object members => (members.find? fun member => member.1 = jsText name).map Prod.snd
  | _ => none

/-- A step down to a member. -/
def at' (path : List Key) (name : String) : List Key := path ++ [.name (jsText name)]

/-- `valueDescription`. -/
def valueDescription : Option JsonTree → JsString
  | none => jsText "undefined"
  | some .null => jsText "null"
  | some (.bool _) => jsText "boolean"
  | some (.number _) => jsText "number"
  | some (.string s) => quoted s
  | some (.array _) => jsText "an array"
  | some (.object _) => jsText "object"

def failReceived (path : List Key) (reason : String) (value : Option JsonTree) : ManifestError :=
  ⟨path, jsText reason ++ jsText "; received " ++ valueDescription value⟩

/-- `assertRecord`, on a value of the copy. -/
def assertRecord (value : Option JsonTree) (path : List Key) :
    Except ManifestError (List (JsString × JsonTree)) :=
  match value with
  | some (.object members) => .ok members
  | value => .error (failReceived path "must be an object" value)

def assertArray (value : Option JsonTree) (path : List Key) : Except ManifestError (List JsonTree) :=
  match value with
  | some (.array items) => .ok items
  | value => .error (failReceived path "must be an array" value)

def assertExactKeys (members : List (JsString × JsonTree)) (path : List Key)
    (required optional : List String) : Except ManifestError Unit :=
  match members.find? fun member => !(required ++ optional).any fun name => member.1 = jsText name with
  | some member => .error (fail (path ++ [.name member.1]) "is not a supported field")
  | none =>
    match required.find? fun name => !members.any fun member => member.1 = jsText name with
    | some name => .error (fail (at' path name) "is required")
    | none => .ok ()

def assertString (value : Option JsonTree) (path : List Key) : Except ManifestError JsString :=
  match value with
  | some (.string s) => .ok s
  | value => .error (failReceived path "must be a string" value)

/-! ## Names and texts -/

/-- The characters in question are single code units. -/
def containsControlCharacter (s : JsString) : Bool :=
  s.any fun c => c < 32 || (127 ≤ c && c ≤ 159)

/-- `!value.trim()`. -/
def isBlank (s : JsString) : Bool := s.all fun c => Core.Text.isSpace (Char.ofNat c.toNat)

def assertMetadataName (value : Option JsonTree) (path : List Key) :
    Except ManifestError JsString := do
  let name ← assertString value path
  if isBlank name || 128 < name.length then
    throw (fail path "must be non-empty and at most 128 characters")
  else if containsControlCharacter name then
    throw (fail path "must not contain control characters")
  else return name

def assertContractName (name : JsString) (path : List Key) : Except ManifestError JsString :=
  assertMetadataName (some (.string name)) path

def assertRoutePath (value : Option JsonTree) (path : List Key) : Except ManifestError Unit := do
  let text ← assertString value path
  if text.head? ≠ some slash || 2048 < text.length then
    throw (fail path "must start with '/' and be at most 2048 characters")
  else if containsControlCharacter text then
    throw (fail path "must not contain control characters")
  else return ()

def assertResourceKey (name : JsString) (path : List Key) : Except ManifestError Unit :=
  if isBlank name || 128 < name.length then
    throw (fail path "must be non-empty and at most 128 characters")
  else if name.contains 44 || containsControlCharacter name then
    throw (fail path "must not contain commas or control characters")
  else return ()

def isDigitUnit (c : UInt16) : Bool := 48 ≤ c && c ≤ 57

def isHexUnit (c : UInt16) : Bool := isDigitUnit c || (97 ≤ c && c ≤ 102)

/-- `^[0-9a-f]{64}$`. -/
def isFingerprint (s : JsString) : Bool := s.length = 64 && s.all isHexUnit

/-- `(0|[1-9][0-9]*)`. -/
def isVersionNumber (s : JsString) : Bool :=
  s ≠ [] && s.all isDigitUnit && (s.head? ≠ some 48 || s.length = 1)

/-- `[0-9A-Za-z-]`. -/
def isIdentifierUnit (c : UInt16) : Bool :=
  isDigitUnit c || (65 ≤ c && c ≤ 90) || (97 ≤ c && c ≤ 122) || c = 45

/-- `[0-9A-Za-z-]+(?:\.[0-9A-Za-z-]+)*`. -/
def isDotted (s : JsString) : Bool :=
  (s.splitOnP (· = 46)).all fun part => part ≠ [] && part.all isIdentifierUnit

/-- The version, what comes after its first `-` and what comes after its first `+`. -/
def isSemver (s : JsString) : Bool :=
  let version := s.takeWhile fun c => c ≠ 43
  let build := s.dropWhile fun c => c ≠ 43
  let core := version.takeWhile fun c => c ≠ 45
  let pre := version.dropWhile fun c => c ≠ 45
  let numbers := core.splitOnP (· = 46)
  numbers.length = 3 && numbers.all isVersionNumber && (pre = [] || isDotted pre.tail) &&
    (build = [] || isDotted build.tail)

/-! ## The budget of the schemas -/

structure SchemaValueBudget where
  values : Nat
  containers : Nat
  deriving DecidableEq

def maxSchemaValueCount : Nat := 100000

def maxSchemaValueContainers : Nat := 10000

def maxSchemaValueChildren : Nat := 10000

def maxSchemaValueDepth : Nat := 64

def maxSchemaValueStringLength : Nat := 65536

def countContainer (path : List Key) (budget : SchemaValueBudget) :
    Except ManifestError SchemaValueBudget :=
  if maxSchemaValueContainers < budget.containers + 1 then
    .error (fail path "schemas must not contain more than 10000 JSON containers")
  else .ok { budget with containers := budget.containers + 1 }

def countValue (path : List Key) (budget : SchemaValueBudget) :
    Except ManifestError SchemaValueBudget :=
  if maxSchemaValueCount < budget.values + 1 then
    .error (fail path "schemas must not contain more than 100000 JSON values")
  else .ok { budget with values := budget.values + 1 }

def assertDepth (path : List Key) (depth : Nat) : Except ManifestError Unit :=
  if maxSchemaValueDepth < depth then
    .error (fail path "schema value nesting exceeds the maximum of 64")
  else .ok ()

mutual

/-- One value of a schema and the values below it, in the order in which the stack gives them: the items
of an array from the first, the members of an object from the last. -/
def countSchema (path : List Key) (depth : Nat) (budget : SchemaValueBudget) :
    JsonTree → Except ManifestError SchemaValueBudget
  -- every value counts, whatever it is
  | .null => countValue path budget
  | .bool _ => countValue path budget
  | .string s => do
    let budget ← countValue path budget
    if maxSchemaValueStringLength < s.length then
      throw (fail path "must not contain strings longer than 65536 characters")
    else return budget
  | .number n => do
    let budget ← countValue path budget
    assertDepth path depth
    if n.toRat? = none then throw (fail path "must not contain a non-finite number")
    else return budget
  | .array items => do
    let budget ← countValue path budget
    -- only numbers, arrays and objects look at the depth
    assertDepth path depth
    let budget ← countContainer path budget
    if maxSchemaValueChildren < items.length then
      throw (fail path "must not contain arrays with more than 10000 entries")
    else countItems path (depth + 1) 0 budget items
  | .object members => do
    let budget ← countValue path budget
    assertDepth path depth
    let budget ← countContainer path budget
    if maxSchemaValueChildren < members.length then
      throw (fail path "must not contain objects with more than 10000 properties")
    else
      -- names are checked before any member is counted
      match members.find? fun member => maxSchemaValueStringLength < member.1.length with
      | some member =>
        throw (fail (path ++ [.name member.1])
          "must not contain strings longer than 65536 characters")
      | none => countMembers path (depth + 1) budget members

def countItems (path : List Key) (depth index : Nat) (budget : SchemaValueBudget) :
    List JsonTree → Except ManifestError SchemaValueBudget
  | [] => .ok budget
  | item :: items => do
    let budget ← countSchema (path ++ [.index index]) depth budget item
    countItems path depth (index + 1) budget items

def countMembers (path : List Key) (depth : Nat) (budget : SchemaValueBudget) :
    List (JsString × JsonTree) → Except ManifestError SchemaValueBudget
  | [] => .ok budget
  | (key, value) :: members => do
    let budget ← countMembers path depth budget members
    countSchema (path ++ [.name key]) depth budget value

end

/-! ## Keywords -/

def jsonSchemaTypes : List String :=
  ["array", "boolean", "integer", "null", "number", "object", "string"]

/-- The types of `type`, each with its path. -/
def checkTypes (seen : List JsString) : List (List Key × JsonTree) → Except ManifestError Unit
  | [] => .ok ()
  | (path, .string type) :: rest =>
    if jsonSchemaTypes.any fun name => type = jsText name then
      if type ∈ seen then
        .error ⟨path, jsText "duplicates the JSON Schema type " ++ quoted type⟩
      else checkTypes (type :: seen) rest
    else .error (fail path "must be a valid JSON Schema type")
  | (path, _) :: _ => .error (fail path "must be a valid JSON Schema type")

def indexed (path : List Key) (items : List JsonTree) : List (List Key × JsonTree) :=
  items.zipIdx.map fun (item, i) => (path ++ [.index i], item)

def validateSchemaType (value : JsonTree) (path : List Key) : Except ManifestError Unit :=
  match value with
  | .array [] => .error (fail path "must contain at least one JSON Schema type")
  | .array items => checkTypes [] (indexed path items)
  | value => checkTypes [] [(path, value)]

def checkStrings (seen : List JsString) : List (List Key × JsonTree) → Except ManifestError Unit
  | [] => .ok ()
  | (path, .string item) :: rest =>
    if item ∈ seen then .error ⟨path, jsText "duplicates " ++ quoted item⟩
    else checkStrings (item :: seen) rest
  | (path, _) :: _ => .error (fail path "must be a string")

def validateStringArray (value : JsonTree) (path : List Key) : Except ManifestError Unit :=
  match value with
  | .array items => checkStrings [] (indexed path items)
  | _ => .error (fail path "must be an array of strings")

/-- A subschema that is to be checked. -/
abbrev Subschema := List Key × List (JsString × JsonTree)

def queueSubschema (value : JsonTree) (path : List Key) : Except ManifestError (List Subschema) :=
  match value with
  | .bool _ => .ok []
  | value =>
    match assertRecord (some value) path with
    | .error e => .error e
    | .ok members => .ok [(path, members)]

def queueAll : List (List Key × JsonTree) → Except ManifestError (List Subschema)
  | [] => .ok []
  | (path, value) :: rest => do
    let first ← queueSubschema value path
    let others ← queueAll rest
    return first ++ others

/-- What a keyword holds. -/
inductive KeywordKind
  | schemas
  | schema
  | schemaList (allowEmpty : Bool)
  deriving DecidableEq

/-- The keywords with subschemas, in the order of their checks. -/
def subschemaKeywords : List (String × KeywordKind) :=
  [("$defs", .schemas), ("definitions", .schemas), ("properties", .schemas),
    ("patternProperties", .schemas), ("dependentSchemas", .schemas),
    ("additionalProperties", .schema), ("contains", .schema), ("contentSchema", .schema),
    ("else", .schema), ("if", .schema), ("items", .schema), ("not", .schema),
    ("propertyNames", .schema), ("then", .schema), ("unevaluatedItems", .schema),
    ("unevaluatedProperties", .schema), ("allOf", .schemaList false), ("anyOf", .schemaList false),
    ("oneOf", .schemaList false), ("prefixItems", .schemaList true)]

def queueKeyword (kind : KeywordKind) (value : JsonTree) (path : List Key) :
    Except ManifestError (List Subschema) :=
  match kind with
  | .schemas => do
    let members ← assertRecord (some value) path
    queueAll (members.map fun (key, item) => (path ++ [.name key], item))
  | .schema => queueSubschema value path
  | .schemaList allowEmpty =>
    match value with
    | .array items =>
      if items = [] ∧ allowEmpty = false then
        .error (fail path "must be a non-empty array of schemas")
      else queueAll (indexed path items)
    | _ =>
      .error (fail path (if allowEmpty then "must be an array of schemas"
        else "must be a non-empty array of schemas"))

def queueField (path : List Key) (schema : JsonTree) (name : String) (kind : KeywordKind) :
    Except ManifestError (List Subschema) :=
  match field name schema with
  | none => .ok []
  | some value => queueKeyword kind value (at' path name)

def queueKeywords (path : List Key) (schema : JsonTree) :
    List (String × KeywordKind) → Except ManifestError (List Subschema)
  | [] => .ok []
  | (name, kind) :: rest => do
    let queued ← queueField path schema name kind
    let others ← queueKeywords path schema rest
    return queued ++ others

/-- The keywords of one schema that hold no schemas. -/
def checkPlainKeywords (path : List Key) (schema : JsonTree) : Except ManifestError Unit := do
  match field "$ref" schema with
  | none => pure ()
  | some (.string _) => pure ()
  | some _ => throw (fail (at' path "$ref") "must be a string")
  match field "type" schema with
  | none => pure ()
  | some value => validateSchemaType value (at' path "type")
  match field "required" schema with
  | none => pure ()
  | some value => validateStringArray value (at' path "required")
  match field "enum" schema with
  | none => pure ()
  | some (.array (_ :: _)) => pure ()
  | some _ => throw (fail (at' path "enum") "must be a non-empty array")

/-- One turn of the loop of `validateJsonSchemaKeywords`; the last subschema that was queued is next. -/
def keywordTurn : List Subschema → Turn ManifestError (List Subschema)
  | [] => .done
  | (path, members) :: pending =>
    match checkPlainKeywords path (.object members) with
    | .error e => .failed e
    | .ok () =>
      match queueKeywords path (.object members) subschemaKeywords with
      | .error e => .failed e
      | .ok queued => .next (queued.reverse ++ pending)

/-- As many turns as there are values. -/
def validateJsonSchemaKeywords (members : List (JsString × JsonTree)) (path : List Key) :
    Option (Except ManifestError (List Subschema)) :=
  loop keywordTurn (nodes (.object members) + 1) [(path, members)]

/-! ## The manifest -/

/-- A check that may take turns. -/
abbrev Check (α : Type) := ExceptT ManifestError Option α

def checked {α : Type} (result : Except ManifestError α) : Check α := ExceptT.mk (some result)

def assertJsonSchema (value : Option JsonTree) (path : List Key) (budget : SchemaValueBudget) :
    Check SchemaValueBudget := do
  let members ← checked (assertRecord value path)
  let budget ← checked (countSchema path 0 budget (.object members))
  let _ ← ExceptT.mk (validateJsonSchemaKeywords members path)
  return budget

/-- One entry after the other, each with its path. -/
def checkEach (check : List Key → JsonTree → SchemaValueBudget → Check SchemaValueBudget)
    (budget : SchemaValueBudget) : List (List Key × JsonTree) → Check SchemaValueBudget
  | [] => pure budget
  | (path, value) :: rest => do
    let budget ← check path value budget
    checkEach check budget rest

def assertLocation (value : Option JsonTree) (path : List Key) : Except ManifestError JsString :=
  match value with
  | some (.string s) =>
    if s = jsText "path" ∨ s = jsText "query" then .ok s
    else .error (fail path "must be either \"path\" or \"query\"")
  | _ => .error (fail path "must be either \"path\" or \"query\"")

def assertRequired (location : JsString) (value : Option JsonTree) (path : List Key) :
    Except ManifestError Unit :=
  match value with
  | some (.bool required) =>
    if location = jsText "path" ∧ required = false then
      .error (fail path "must be true for path parameters")
    else .ok ()
  | _ => .error (fail path "must be a boolean")

/-- The location and the name of a parameter, and the budget after its schema. -/
def validateParameter (path : List Key) (value : JsonTree) (budget : SchemaValueBudget) :
    Check (JsString × JsString × SchemaValueBudget) := do
  let members ← checked (assertRecord (some value) path)
  checked (assertExactKeys members path ["name", "location", "required", "schema"] [])
  let name ← checked (assertMetadataName (field "name" value) (at' path "name"))
  let location ← checked (assertLocation (field "location" value) (at' path "location"))
  checked (assertRequired location (field "required" value) (at' path "required"))
  let budget ← assertJsonSchema (field "schema" value) (at' path "schema") budget
  return (location, name, budget)

/-- The parameters of a route; an identity is the location, a NUL and the name. -/
def checkParameters (identities : List JsString) (budget : SchemaValueBudget) :
    List (List Key × JsonTree) → Check SchemaValueBudget
  | [] => pure budget
  | (path, value) :: rest => do
    let (location, name, budget) ← validateParameter path value budget
    let identity := location ++ 0 :: name
    if identity ∈ identities then
      throw ⟨path, jsText "duplicates the " ++ location ++ jsText " parameter " ++ quoted name⟩
    else checkParameters (identity :: identities) budget rest

def validateParameters (value : Option JsonTree) (path : List Key) (budget : SchemaValueBudget) :
    Check SchemaValueBudget := do
  let items ← checked (assertArray value path)
  checkParameters [] budget (indexed path items)

/-- The members of a record, each under its own path. -/
def named (path : List Key) (members : List (JsString × JsonTree)) : List (List Key × JsonTree) :=
  members.map fun (key, item) => (path ++ [.name key], item)

def validateResource (path : List Key) (entry : JsonTree) (budget : SchemaValueBudget) :
    Check SchemaValueBudget := do
  checked (match path.getLast? with
    | some (.name key) => assertResourceKey key path
    | _ => .ok ())
  let members ← checked (assertRecord (some entry) path)
  checked (assertExactKeys members path ["schema"] [])
  assertJsonSchema (field "schema" entry) (at' path "schema") budget

def validateResources (value : Option JsonTree) (path : List Key) (budget : SchemaValueBudget) :
    Check SchemaValueBudget := do
  let members ← checked (assertRecord value path)
  checkEach validateResource budget (named path members)

def assertMode (value : Option JsonTree) (path : List Key) : Except ManifestError Unit :=
  match value with
  | some (.string s) =>
    if s = jsText "serialization" ∨ s = jsText "validation" then .ok ()
    else .error (fail path "must be either \"serialization\" or \"validation\"")
  | _ => .error (fail path "must be either \"serialization\" or \"validation\"")

def validateType (path : List Key) (entry : JsonTree) (budget : SchemaValueBudget) :
    Check SchemaValueBudget := do
  checked (match path.getLast? with
    | some (.name key) => (assertContractName key path).map fun _ => ()
    | _ => .ok ())
  let members ← checked (assertRecord (some entry) path)
  checked (assertExactKeys members path ["mode", "schema"] [])
  checked (assertMode (field "mode" entry) (at' path "mode"))
  assertJsonSchema (field "schema" entry) (at' path "schema") budget

def validateTypes (value : Option JsonTree) (path : List Key) (budget : SchemaValueBudget) :
    Check SchemaValueBudget := do
  let members ← checked (assertRecord value path)
  checkEach validateType budget (named path members)

/-- What pages and mutations have in common. -/
def validateRoute (required optional : List String) (path : List Key) (route : JsonTree) :
    Check Unit := do
  let members ← checked (assertRecord (some route) path)
  checked (assertExactKeys members path required optional)
  let _ ← checked (assertMetadataName (field "name" route) (at' path "name"))
  checked (assertRoutePath (field "path" route) (at' path "path"))

def validatePage (path : List Key) (page : JsonTree) (budget : SchemaValueBudget) :
    Check SchemaValueBudget := do
  validateRoute ["name", "path", "parameters"] [] path page
  validateParameters (field "parameters" page) (at' path "parameters") budget

def validatePages (value : Option JsonTree) (path : List Key) (budget : SchemaValueBudget) :
    Check SchemaValueBudget := do
  let items ← checked (assertArray value path)
  checkEach validatePage budget (indexed path items)

def mutationMethods : List String := ["DELETE", "PATCH", "POST", "PUT"]

def assertMethod (value : Option JsonTree) (path : List Key) : Except ManifestError Unit :=
  match value with
  | some (.string s) =>
    if mutationMethods.any fun method => s = jsText method then .ok ()
    else .error (fail path "must be one of \"DELETE\", \"PATCH\", \"POST\", or \"PUT\"")
  | _ => .error (fail path "must be one of \"DELETE\", \"PATCH\", \"POST\", or \"PUT\"")

/-- A body that is there and not null. -/
def bodyOf (mutation : JsonTree) : Option JsonTree :=
  match field "body" mutation with
  | some .null => none
  | body => body

def validateMutation (path : List Key) (mutation : JsonTree) (budget : SchemaValueBudget) :
    Check SchemaValueBudget := do
  validateRoute ["name", "path", "method", "parameters"] ["body"] path mutation
  checked (assertMethod (field "method" mutation) (at' path "method"))
  let budget ← validateParameters (field "parameters" mutation) (at' path "parameters") budget
  match bodyOf mutation with
  | none => return budget
  | some body => assertJsonSchema (some body) (at' path "body") budget

def validateMutations (value : Option JsonTree) (path : List Key) (budget : SchemaValueBudget) :
    Check SchemaValueBudget := do
  let items ← checked (assertArray value path)
  checkEach validateMutation budget (indexed path items)

def manifestV1 : JsString := jsText "fluxfast-schema/1"

def manifestV2 : JsString := jsText "fluxfast-schema/2"

def isText (s : JsString) : Option JsonTree → Bool
  | some (.string t) => t = s
  | _ => false

/-- `Number::toString` of a positive number, from its shortest decimal. -/
def decimalText (d : Decimal) : List Char :=
  let count : ℤ := d.digits.length
  if count ≤ d.point ∧ d.point ≤ 21 then
    d.digits ++ List.replicate (d.point - count).toNat '0'
  else if 0 < d.point ∧ d.point ≤ 21 then
    d.digits.take d.point.toNat ++ '.' :: d.digits.drop d.point.toNat
  else if -6 < d.point ∧ d.point ≤ 0 then
    '0' :: '.' :: (List.replicate (-d.point).toNat '0' ++ d.digits)
  else
    let exponent := d.point - 1
    d.digits.take 1 ++ (if count = 1 then [] else '.' :: d.digits.drop 1) ++
      'e' :: (if 0 ≤ exponent then '+' else '-') :: Nat.toDigits 10 exponent.natAbs

/-- `JSON.stringify` of a number. -/
def numberText (n : Number) : List Char :=
  match n.toRat? with
  | none => "null".toList
  | some q =>
    if q = 0 then ['0']
    else (if q < 0 then ['-'] else []) ++ decimalText (shortestDecimal |q|)

def jsonWriter : Json.Writer JsString Number where
  text s := (Utf16.codePoints (s.map UInt16.toNat)).flatMap quotePoint
  number := numberText

/-- `JSON.stringify`, in a template literal. -/
def versionText : Option JsonTree → JsString
  | none => jsText "undefined"
  | some version => (Utf16.encode (jsonWriter.write version)).map UInt16.ofNat

/-- The version, which decides about the types. -/
def assertVersion (manifest : JsonTree) : Except ManifestError Bool :=
  if isText manifestV1 (field "schema" manifest) then
    if (field "types" manifest).isSome then
      .error (fail (at' [] "types") "fluxfast-schema/1 cannot contain explicit type contracts")
    else .ok false
  else if isText manifestV2 (field "schema" manifest) then
    if (field "types" manifest).isNone then
      .error (fail (at' [] "types") "is required for fluxfast-schema/2")
    else .ok true
  else .error ⟨at' [] "schema", jsText "unsupported version " ++ versionText (field "schema" manifest) ++
    jsText "; expected " ++ quoted manifestV1 ++ jsText " or " ++ quoted manifestV2⟩

def assertProducer (value : Option JsonTree) (path : List Key) : Except ManifestError Unit := do
  let producer ← assertString value path
  if isSemver producer then return () else throw (fail path "must use semantic version format")

def assertFingerprint (value : Option JsonTree) (path : List Key) : Except ManifestError Unit := do
  let fingerprint ← assertString value path
  if isFingerprint fingerprint then return ()
  else throw (fail path "must be a lowercase SHA-256 digest")

/-- Only the second version has types. -/
def validateVersionTypes (hasTypes : Bool) (manifest : JsonTree) (budget : SchemaValueBudget) :
    Check SchemaValueBudget :=
  if hasTypes then validateTypes (field "types" manifest) (at' [] "types") budget else pure budget

/-- What `validateFluxFastSchemaManifest` checks on the copy. -/
def checkManifest (manifest : JsonTree) : Check SchemaValueBudget := do
  let members ← checked (assertRecord (some manifest) [])
  checked (assertExactKeys members []
    ["schema", "producer", "fingerprint", "resources", "pages", "mutations"] ["types"])
  let hasTypes ← checked (assertVersion manifest)
  checked (assertProducer (field "producer" manifest) (at' [] "producer"))
  checked (assertFingerprint (field "fingerprint" manifest) (at' [] "fingerprint"))
  let budget ← validateVersionTypes hasTypes manifest ⟨0, 0⟩
  let budget ← validateResources (field "resources" manifest) (at' [] "resources") budget
  let budget ← validatePages (field "pages" manifest) (at' [] "pages") budget
  validateMutations (field "mutations" manifest) (at' [] "mutations") budget

/-- The data of a copy; the fuel is the depth of its objects. -/
def readBack (store : List OutObject) : Nat → OutValue → Option JsonTree
  | 0, _ => none
  | _ + 1, .null => some .null
  | _ + 1, .boolean b => some (.bool b)
  | _ + 1, .number n => some (.number n)
  | _ + 1, .string s => some (.string s)
  | fuel + 1, .ref id =>
    match store[id]? with
    | none => none
    | some (.array slots) =>
      (slots.mapM fun (slot : Option OutValue) => slot.bind (readBack store fuel)).map .array
    | some (.object members) =>
      (members.mapM fun (member : JsString × OutValue) =>
        (readBack store fuel member.2).map fun data => (member.1, data)).map .object

/-- A manifest that was validated: its objects, and the value that it is. -/
structure ManifestSnapshot where
  store : List OutObject
  root : OutValue

def validateFluxFastSchemaManifest {R : Type} [DecidableEq R] (graph : ObjectGraph R)
    (value : JsValue R) : Check ManifestSnapshot := do
  let copier ← ExceptT.mk (createManifestSnapshot graph value)
  match copier.snapshot with
  | none => throw (failReceived [] "must be an object" none)
  | some root =>
    let manifest ← ExceptT.mk ((readBack copier.store (maxManifestDepth + 1) root).map .ok)
    let _ ← checkManifest manifest
    return ⟨copier.store, root⟩

end FluxFast.Codegen
