import FluxFast.Core.Text
import FluxFast.Theory.DepthFirst
import FluxFast.Theory.OrderedMap
import FluxFast.Validation.PatternGuard
import FluxFast.Validation.Plan

/-!
# PlanGraph — what is done with a plan before it is used

A plan is offered as a graph of objects, which may be shared or circular.  `assertPlanBounds` walks
over its values, and a second walk validates the nodes, each before the definitions that it names.
-/

namespace FluxFast.Validation

open FluxFast.Theory

/-- The members are those of `Object.keys`, in its order. -/
inductive PlanObject (R : Type)
  | array (items : List (Value R))
  | record (members : OrderedMap String (Value R))
  /-- The prototype is neither `Object.prototype` nor null. -/
  | other (members : OrderedMap String (Value R))

abbrev PlanGraph (R : Type) := R → PlanObject R

abbrev Members (R : Type) := OrderedMap String (Value R)

/-- What the code takes from the language: `JSON.stringify` of a text and `new RegExp(_, "u")`, with
the message of its error. -/
structure PlanHost where
  stringify : String → String
  regExp : String → Except String (String → Bool)

/-! ## Errors -/

inductive PlanFault
  | invalid
  | invalidBecause (reason : String)
  | unsupportedField
  | circularPlan
  /-- A message that goes on after the path. -/
  | field (rest : String)
  | pattern (error : String)
  | regularExpression (message : String)
  | format (quoted : String)
  | kind (quoted : String)
  deriving DecidableEq

structure PlanError where
  path : String
  fault : PlanFault
  deriving DecidableEq

def PlanError.message (e : PlanError) : String :=
  "[fluxfast] " ++
    match e.fault with
    | .invalid => "Invalid validation plan at " ++ e.path
    | .invalidBecause reason => "Invalid validation plan at " ++ e.path ++ ": " ++ reason
    | .unsupportedField => "Unsupported validation plan field at " ++ e.path
    | .circularPlan => "Circular validation plan at " ++ e.path
    | .field rest => e.path ++ rest
    | .pattern error => "Invalid validation pattern at " ++ e.path ++ ": " ++ error
    | .regularExpression message => "Invalid regular expression at " ++ e.path ++ ": " ++ message
    | .format quoted => "Unsupported validation format " ++ quoted ++ " at " ++ e.path
    | .kind quoted => "Unsupported validation plan kind " ++ quoted ++ " at " ++ e.path

def failed {α : Type} (path reason : String) : Except PlanError α :=
  .error ⟨path, .invalidBecause reason⟩

/-- `/^[A-Za-z_$][A-Za-z0-9_$]*$/`. -/
def isName (key : String) : Bool :=
  match key.toList with
  | [] => false
  | c :: rest =>
    (c.isAlpha || c = '_' || c = '$') && rest.all fun c => c.isAlphanum || c = '_' || c = '$'

def pathKey (host : PlanHost) (path key : String) : String :=
  if isName key then path ++ "." ++ key else path ++ "[" ++ host.stringify key ++ "]"

def pathIndex (path : String) (index : Nat) : String := path ++ "[" ++ toString index ++ "]"

section Requirements

variable {R : Type} (graph : PlanGraph R)

def requireRecord (value : Value R) (path : String) : Except PlanError (R × Members R) :=
  match value with
  | .object r =>
    match graph r with
    | .record members => .ok (r, members)
    | _ => .error ⟨path, .invalid⟩
  | _ => .error ⟨path, .invalid⟩

def requireBoolean (value : Value R) (path : String) : Except PlanError Unit :=
  match value with
  | .boolean _ => .ok ()
  | _ => failed path "expected a boolean"

def requireString (value : Value R) (path : String) : Except PlanError String :=
  match value with
  | .string text => .ok text
  | _ => failed path "expected a string"

def requireNonEmptyString (value : Value R) (path : String) : Except PlanError String :=
  match requireString value path with
  | .error e => .error e
  | .ok text => if text.isEmpty then failed path "expected a non-empty string" else .ok text

/-- `Number.isSafeInteger`, and not below zero. -/
def safeInteger? (value : Value R) : Option Nat :=
  match value with
  | .number n => n.toRat?.bind fun q =>
      if q.den = 1 ∧ 0 ≤ q.num ∧ q.num ≤ 2 ^ 53 - 1 then some q.num.toNat else none
  | _ => none

def requireNonNegativeInteger (value : Value R) (path : String) : Except PlanError Nat :=
  match safeInteger? value with
  | some n => .ok n
  | none => failed path "expected a non-negative integer"

def requireFiniteNumber (value : Value R) (path : String) : Except PlanError Rat :=
  match value with
  | .number n =>
    match n.toRat? with
    | some q => .ok q
    | none => failed path "expected a finite number"
  | _ => failed path "expected a finite number"

def requireArray (value : Value R) (path : String) : Except PlanError (List (Value R)) :=
  match value with
  | .object r =>
    match graph r with
    | .array items => .ok items
    | _ => failed path "expected an array"
  | _ => failed path "expected an array"

end Requirements

/-! ## Bounds -/

def MAX_VALIDATION_PLAN_VALUES : Nat := 100000
def MAX_VALIDATION_PLAN_DEPTH : Nat := 64
def MAX_VALIDATION_PLAN_CHILDREN : Nat := 10000
def MAX_VALIDATION_PLAN_STRING_LENGTH : Nat := 65536

structure PlanBoundsFrame (R : Type) where
  value : Value R
  path : String
  depth : Nat
  exit : Bool := false

structure PlanBounds (R : Type) where
  pending : List (PlanBoundsFrame R)
  active : List R := []
  visited : List R := []
  values : Nat := 0

section Bounds

variable {R : Type} [DecidableEq R] (host : PlanHost) (graph : PlanGraph R)

/-- A value that is no object, or no error. -/
def scalarError : Value R → Option String
  | .string text =>
    if MAX_VALIDATION_PLAN_STRING_LENGTH < Core.Text.jsLength text then
      some "string exceeds the maximum length of 65536"
    else none
  | .number n => if n.toRat?.isNone then some "plan values must be finite numbers" else none
  | .undefined | .other _ _ => some "plan values must be JSON-compatible"
  | .null | .boolean _ | .object _ => none

/-- The frames of the children, the first one on top. -/
def childFrames (frame : PlanBoundsFrame R) (r : R) : Except PlanError (List (PlanBoundsFrame R)) :=
  match graph r with
  | .array items =>
    if MAX_VALIDATION_PLAN_CHILDREN < items.length then
      failed frame.path "plan arrays contain more than 10000 entries"
    else .ok (items.mapIdx fun index child =>
      { value := child, path := pathIndex frame.path index, depth := frame.depth + 1 })
  | .record members =>
    if MAX_VALIDATION_PLAN_CHILDREN < members.size then
      failed frame.path "plan objects contain more than 10000 properties"
    else .ok (members.entries.map fun member =>
      { value := member.2, path := pathKey host frame.path member.1, depth := frame.depth + 1 })
  | .other _ => .error ⟨frame.path, .invalid⟩

def boundsObject (s : PlanBounds R) (frame : PlanBoundsFrame R) (r : R) :
    Turn PlanError (PlanBounds R) :=
  if MAX_VALIDATION_PLAN_DEPTH < frame.depth then
    .failed ⟨frame.path, .invalidBecause "plan values exceed the maximum nesting depth of 64"⟩
  else if r ∈ s.active then
    .failed ⟨frame.path, .invalidBecause "plan values cannot be circular"⟩
  else if r ∈ s.visited then .next s
  else
    match childFrames host graph frame r with
    | .error e => .failed e
    | .ok children => .next { s with
        pending := children ++ { frame with exit := true } :: s.pending
        active := r :: s.active
        visited := r :: s.visited }

/-- One round of the loop of `assertPlanBounds`. -/
def boundsTurn (s : PlanBounds R) : Turn PlanError (PlanBounds R) :=
  match s.pending with
  | [] => .done
  | frame :: pending =>
    -- the second time a frame leaves its object
    if frame.exit then
      .next { s with
        pending := pending
        active := s.active.filter fun r => frame.value ≠ .object r }
    -- the value is counted before it is looked at
    else if MAX_VALIDATION_PLAN_VALUES < s.values + 1 then
      .failed ⟨frame.path, .invalidBecause "plan contains more than 100000 JSON values"⟩
    else
      let s := { s with pending := pending, values := s.values + 1 }
      match frame.value with
      | .object r => boundsObject host graph s frame r
      | value =>
        match scalarError value with
        | some reason => .failed ⟨frame.path, .invalidBecause reason⟩
        | none => .next s

def startBounds (root definitions : Value R) : PlanBounds R where
  pending :=
    (if definitions = .undefined then []
      else [{ value := definitions, path := "$.definitions", depth := 0 }]) ++
    [{ value := root, path := "$", depth := 0 }]

/-- More turns than the loop can take. -/
def boundsFuel : Nat :=
  (MAX_VALIDATION_PLAN_VALUES + 1) * (MAX_VALIDATION_PLAN_CHILDREN + 2) + 3

def assertPlanBounds (root definitions : Value R) : Option (Except PlanError (PlanBounds R)) :=
  loop (boundsTurn host graph) boundsFuel (startBounds root definitions)

end Bounds

/-! ## Nodes -/

inductive KindName
  | any | never | null | boolean | ref | string | number | integer | literal | enum | array | tuple
  | object | union | oneOf | intersection
  deriving DecidableEq

def kindName? : String → Option KindName
  | "any" => some .any
  | "never" => some .never
  | "null" => some .null
  | "boolean" => some .boolean
  | "ref" => some .ref
  | "string" => some .string
  | "number" => some .number
  | "integer" => some .integer
  | "literal" => some .literal
  | "enum" => some .enum
  | "array" => some .array
  | "tuple" => some .tuple
  | "object" => some .object
  | "union" => some .union
  | "oneOf" => some .oneOf
  | "intersection" => some .intersection
  | _ => none

def commonKeys : List String :=
  ["kind", "nullable", "optional", "definitions", "title", "description", "examples"]

def allowedKeys : Option KindName → List String
  | none | some .any | some .never | some .null | some .boolean => commonKeys
  | some .ref => commonKeys ++ ["name", "ref"]
  | some .string => commonKeys ++ ["minLength", "maxLength", "pattern", "format"]
  | some .number | some .integer => commonKeys ++
      ["minimum", "maximum", "exclusiveMinimum", "exclusiveMaximum", "multipleOf"]
  | some .literal => commonKeys ++ ["value"]
  | some .enum => commonKeys ++ ["values"]
  | some .array => commonKeys ++ ["items", "prefixItems", "minItems", "maxItems"]
  | some .tuple => commonKeys ++ ["items", "rest"]
  | some .object => commonKeys ++ ["properties", "required", "additionalProperties"]
  | some .union => commonKeys ++ ["anyOf", "oneOf"]
  | some .oneOf => commonKeys ++ ["anyOf"]
  | some .intersection => commonKeys ++ ["allOf"]

/-- `SUPPORTED_FORMATS`. -/
def supportedFormats : List String :=
  ["date", "date-time", "email", "ipv4", "ipv6", "time", "uri", "uuid"]

structure WorkItem (R : Type) where
  value : Value R
  path : String
  exit : Bool := false

section Nodes

variable {R : Type} [DecidableEq R] (host : PlanHost) (graph : PlanGraph R) (plan : Members R)
  (path : String)

def read (key : String) : Value R := (plan.get? key).getD .undefined

def assertKnownKeys (kind : Option KindName) : Except PlanError Unit :=
  match plan.keys.find? fun key => key ∉ allowedKeys kind with
  | some key => .error ⟨pathKey host path key, .unsupportedField⟩
  | none => .ok ()

/-- `plan[key] !== undefined`. -/
def whenPresent {α : Type} (key : String) (check : Value R → Except PlanError α) :
    Except PlanError (Option α) :=
  if read plan key = .undefined then .ok none else (check (read plan key)).map some

def requireText (value : Value R) (path : String) : Except PlanError Unit :=
  match value with
  | .string _ => .ok ()
  | _ => .error ⟨path, .invalid⟩

def validateCommonFields : Except PlanError Unit := do
  let _ ← whenPresent plan "nullable" fun value => requireBoolean value (path ++ ".nullable")
  let _ ← whenPresent plan "optional" fun value => requireBoolean value (path ++ ".optional")
  let _ ← whenPresent plan "definitions" fun value =>
    requireRecord graph value (path ++ ".definitions")
  let _ ← whenPresent plan "title" fun value => requireText value (path ++ ".title")
  let _ ← whenPresent plan "description" fun value => requireText value (path ++ ".description")
  let _ ← whenPresent plan "examples" fun value => requireArray graph value (path ++ ".examples")

def validateNumberFields : Except PlanError Unit := do
  let _ ← whenPresent plan "minimum" fun value => requireFiniteNumber value (path ++ ".minimum")
  let _ ← whenPresent plan "maximum" fun value => requireFiniteNumber value (path ++ ".maximum")
  let _ ← whenPresent plan "exclusiveMinimum" fun value =>
    requireFiniteNumber value (path ++ ".exclusiveMinimum")
  let _ ← whenPresent plan "exclusiveMaximum" fun value =>
    requireFiniteNumber value (path ++ ".exclusiveMaximum")
  let multipleOf ← whenPresent plan "multipleOf" fun value =>
    requireFiniteNumber value (path ++ ".multipleOf")
  if multipleOf.any fun q => q ≤ 0 then
    .error ⟨path, .field ".multipleOf must be greater than zero"⟩
  else .ok ()

/-- What `validateNestedPlan` puts on the work list. -/
def nestedPlan (value : Value R) (path : String) : List (WorkItem R) :=
  match value with
  | .boolean _ => []
  | value => [{ value := value, path := path }]

def nestedItems (items : List (Value R)) (path : String) : List (WorkItem R) :=
  (items.mapIdx fun index item => nestedPlan item (pathIndex path index)).flatten

def nestedMembers (members : Members R) (path : String) : List (WorkItem R) :=
  (Core.Text.sort members.keys).flatMap fun key =>
    nestedPlan (read members key) (pathKey host path key)

def requireOrder (low high : Option Nat) (rest : String) : Except PlanError Unit :=
  match low, high with
  | some low, some high => if high < low then .error ⟨path, .field rest⟩ else .ok ()
  | _, _ => .ok ()

def validatePattern (value : Value R) : Except PlanError (String → Bool) :=
  match requireString value (path ++ ".pattern") with
  | .error e => .error e
  | .ok pattern =>
    match Formats.validationPatternError pattern with
    | some error => .error ⟨path ++ ".pattern", .pattern error⟩
    | none =>
      match host.regExp pattern with
      | .error message => .error ⟨path ++ ".pattern", .regularExpression message⟩
      | .ok regExp => .ok regExp

def validateFormat (value : Value R) : Except PlanError Unit :=
  match requireNonEmptyString value (path ++ ".format") with
  | .error e => .error e
  | .ok format =>
    if format ∈ supportedFormats then .ok ()
    else .error ⟨path ++ ".format", .format (host.stringify format)⟩

def requireDistinct (required : List (Value R)) (seen : List String) (index : Nat) :
    Except PlanError Unit :=
  match required with
  | [] => .ok ()
  | item :: rest =>
    match requireString item (pathIndex (path ++ ".required") index) with
    | .error e => .error e
    | .ok name =>
      if name ∈ seen then .error ⟨path, .field (".required duplicates " ++ host.stringify name)⟩
      else requireDistinct rest (name :: seen) (index + 1)

def requireBranches (key : String) : Except PlanError (List (Value R)) :=
  match requireArray graph (read plan key) (path ++ "." ++ key) with
  | .error e => .error e
  | .ok items =>
    if items.isEmpty then .error ⟨path, .field ("." ++ key ++ " must not be empty")⟩ else .ok items

/-- A node's pattern and the nested plans that it puts on the work list. -/
abbrev Validated (R : Type) := Option (String → Bool) × List (WorkItem R)

def validateString : Except PlanError (Validated R) := do
  let minLength ← whenPresent plan "minLength" fun value =>
    requireNonNegativeInteger value (path ++ ".minLength")
  let maxLength ← whenPresent plan "maxLength" fun value =>
    requireNonNegativeInteger value (path ++ ".maxLength")
  requireOrder path minLength maxLength ".minLength cannot exceed maxLength"
  let regExp ← whenPresent plan "pattern" (validatePattern host path)
  let _ ← whenPresent plan "format" (validateFormat host path)
  return (regExp, [])

def validateArray : Except PlanError (Validated R) := do
  let prefixItems ← whenPresent plan "prefixItems" fun value =>
    requireArray graph value (path ++ ".prefixItems")
  let minItems ← whenPresent plan "minItems" fun value =>
    requireNonNegativeInteger value (path ++ ".minItems")
  let maxItems ← whenPresent plan "maxItems" fun value =>
    requireNonNegativeInteger value (path ++ ".maxItems")
  requireOrder path minItems maxItems ".minItems cannot exceed maxItems"
  return (none,
    (if read plan "items" = .undefined then [] else nestedPlan (read plan "items") (path ++ ".items")) ++
      nestedItems (prefixItems.getD []) (path ++ ".prefixItems"))

def validateTuple : Except PlanError (Validated R) := do
  let items ← requireArray graph (read plan "items") (path ++ ".items")
  return (none, nestedItems items (path ++ ".items") ++
    if read plan "rest" = .undefined then [] else nestedPlan (read plan "rest") (path ++ ".rest"))

def validateObject : Except PlanError (Validated R) := do
  let properties ← whenPresent plan "properties" fun value =>
    requireRecord graph value (path ++ ".properties")
  let required ← whenPresent plan "required" fun value =>
    requireArray graph value (path ++ ".required")
  requireDistinct host path (required.getD []) [] 0
  return (none,
    (properties.elim [] fun found => nestedMembers host found.2 (path ++ ".properties")) ++
      if read plan "additionalProperties" = .undefined then []
      else nestedPlan (read plan "additionalProperties") (path ++ ".additionalProperties"))

def validateUnion (kind : KindName) : Except PlanError (Validated R) := do
  let branches ← requireBranches graph plan path "anyOf"
  if kind = .union then
    let _ ← whenPresent plan "oneOf" fun value => requireBoolean value (path ++ ".oneOf")
  return (none, nestedItems branches (path ++ ".anyOf"))

def validateIntersection : Except PlanError (Validated R) := do
  let branches ← requireArray graph (read plan "allOf") (path ++ ".allOf")
  return (none, nestedItems branches (path ++ ".allOf"))

/-- The field that names the target, of `name` and `ref`. -/
def referenceKey : String := if read plan "name" ≠ .undefined then "name" else "ref"

def validateReference : Except PlanError (Validated R) :=
  if decide (read plan "name" ≠ .undefined) = decide (read plan "ref" ≠ .undefined) then
    .error ⟨path, .field " must contain exactly one of name or ref"⟩
  else
    (requireNonEmptyString (read plan (referenceKey plan)) (path ++ "." ++ referenceKey plan)).map
      fun _ => (none, [])

def validateKind (kind : KindName) : Except PlanError (Validated R) :=
  match kind with
  | .any | .never | .null | .boolean => .ok (none, [])
  | .string => validateString host plan path
  | .number | .integer => (validateNumberFields plan path).map fun _ => (none, [])
  | .literal => if plan.has "value" then .ok (none, []) else .error ⟨path ++ ".value", .invalid⟩
  | .enum => (requireBranches graph plan path "values").map fun _ => (none, [])
  | .array => validateArray graph plan path
  | .tuple => validateTuple graph plan path
  | .object => validateObject host graph plan path
  | .union | .oneOf => validateUnion graph plan path kind
  | .intersection => validateIntersection graph plan path
  | .ref => validateReference plan path

def requireNames : List String → Except PlanError Unit
  | [] => .ok ()
  | name :: rest =>
    if name.isEmpty then failed (pathKey host path name) "expected a non-empty string"
    else requireNames rest

/-- The nested definitions, after the kind's own nested plans. -/
def validateDefinitions : Except PlanError (List (WorkItem R)) := do
  match ← whenPresent plan "definitions" fun value =>
      requireRecord graph value (path ++ ".definitions") with
  | none => return []
  | some (_, definitions) =>
    requireNames host (path ++ ".definitions") (Core.Text.sort definitions.keys)
    return nestedMembers host definitions (path ++ ".definitions")

/-- For a node that is a record. -/
def validateNode : Except PlanError (Validated R) := do
  let kind ← requireNonEmptyString (read plan "kind") (path ++ ".kind")
  assertKnownKeys host plan path (kindName? kind)
  validateCommonFields graph plan path
  match kindName? kind with
  | none => throw ⟨path ++ ".kind", .kind (host.stringify kind)⟩
  | some name =>
    let (regExp, items) ← validateKind host graph plan path name
    let definitions ← validateDefinitions host graph plan path
    return (regExp, items ++ definitions)

end Nodes

/-! ## The walk over the plans -/

structure PlanWalk (R : Type) where
  pending : List (WorkItem R)
  definitions : Members R := .empty
  patterns : List (R × (String → Bool)) := []
  visiting : List R := []
  visited : List R := []
  scheduledDefinitions : List String := []

section Walk

variable {R : Type} [DecidableEq R] (host : PlanHost) (graph : PlanGraph R)

/-- `===`. -/
def strictlyEqual : Value R → Value R → Bool
  | .number m, .number n =>
    match m.toRat?, n.toRat? with
    | some p, some q => p = q
    | _, _ => m = n && m ≠ .nan
  | left, right => left = right

def registerNames (found : Members R) (path : String) :
    List String → Members R → Except PlanError (Members R)
  | [], target => .ok target
  | name :: rest, target =>
    if (target.get? name).any fun held => !strictlyEqual held (read found name) then
      failed (pathKey host path name) "duplicate definition"
    else registerNames found path rest (target.set name (read found name))

def registerDefinitions (target : Members R) (value : Value R) (path : String) :
    Except PlanError (Members R) :=
  if value = .undefined then .ok target
  else
    match requireRecord graph value path with
    | .error e => .error e
    | .ok (_, found) => registerNames host found path (Core.Text.sort found.keys) target

/-- A node that was not visited before. -/
def openNode (w : PlanWalk R) (item : WorkItem R) (r : R) (plan : Members R) :
    Turn PlanError (PlanWalk R) :=
  match registerDefinitions host graph w.definitions (read plan "definitions")
      (item.path ++ ".definitions") with
  | .error e => .failed e
  | .ok definitions =>
    match validateNode host graph plan item.path with
    | .error e => .failed e
    | .ok (regExp, items) => .next { w with
        pending := items.reverse ++ { item with exit := true } :: w.pending
        definitions := definitions
        patterns := (regExp.map fun regExp => (r, regExp)).toList ++ w.patterns
        visiting := r :: w.visiting }

def unscheduled (w : PlanWalk R) : List String :=
  (Core.Text.sort w.definitions.keys).filter fun name => name ∉ w.scheduledDefinitions

/-- The definitions that were not scheduled before. -/
def schedule (w : PlanWalk R) : Turn PlanError (PlanWalk R) :=
  if (unscheduled w).isEmpty then .done
  else .next { w with
    scheduledDefinitions := unscheduled w ++ w.scheduledDefinitions
    pending := ((unscheduled w).map fun name =>
      { value := read w.definitions name
        path := "$.definitions[" ++ host.stringify name ++ "]" }).reverse }

/-- One round of `drain`, or of the loop around it. -/
def walkTurn (w : PlanWalk R) : Turn PlanError (PlanWalk R) :=
  match w.pending with
  | [] => schedule host w
  | item :: pending =>
    let w := { w with pending := pending }
    match item.value with
    | .boolean _ => .next w
    | value =>
      match requireRecord graph value item.path with
      | .error e => .failed e
      | .ok (r, plan) =>
        if item.exit then
          .next { w with visiting := w.visiting.filter (· ≠ r), visited := r :: w.visited }
        else if r ∈ w.visiting then .failed ⟨item.path, .circularPlan⟩
        else if r ∈ w.visited then .next w
        else openNode host graph w item r plan

/-- The loops take as many turns as there is fuel for. -/
def collectAndValidate (fuel : Nat) (root documentDefinitions : Value R) :
    Option (Except PlanError (PlanWalk R)) :=
  match assertPlanBounds host graph root documentDefinitions with
  | none => none
  | some (.error e) => some (.error e)
  | some (.ok _) =>
    match registerDefinitions host graph .empty documentDefinitions "$.definitions" with
    | .error e => some (.error e)
    | .ok definitions =>
      loop (walkTurn host graph) fuel
        { pending := [{ value := root, path := "$" }], definitions := definitions }

/-- The members of a plan document. -/
def document? : Value R → Option (Members R)
  | .object r =>
    match graph r with
    | .array _ => none
    | .record members | .other members => if members.has "root" then some members else none
  | _ => none

structure CompiledPlanGraph (R : Type) where
  root : Value R
  definitions : Members R
  patterns : List (R × (String → Bool))

def rootOf (input : Value R) : Value R :=
  ((document? graph input).map fun members => read members "root").getD input

def documentDefinitionsOf (input : Value R) : Value R :=
  ((document? graph input).map fun members => read members "definitions").getD .undefined

/-- Without the limits, which do not depend on the plan. -/
def compileValidationPlan (fuel : Nat) (input : Value R) :
    Option (Except PlanError (CompiledPlanGraph R)) :=
  (collectAndValidate host graph fuel (rootOf graph input) (documentDefinitionsOf graph input)).map
    fun result => result.map fun w => ⟨rootOf graph input, w.definitions, w.patterns⟩

end Walk

end FluxFast.Validation
