import FluxFast.Core.UriComponent
import FluxFast.Validation.Values

/-!
# Plan — validation plans

The node language of the validator and the compiled plan that is evaluated.
-/

namespace FluxFast.Validation

structure StringPlan where
  minLength : Option Nat := none
  maxLength : Option Nat := none
  pattern : Option String := none
  format : Option String := none

structure NumberPlan where
  integer : Bool := false
  minimum : Option Number := none
  maximum : Option Number := none
  exclusiveMinimum : Option Number := none
  exclusiveMaximum : Option Number := none
  multipleOf : Option Number := none

mutual

/-- A node with its common fields, or one of JSON Schema's `true` and `false`. -/
inductive Plan (R : Type)
  | boolean (allowed : Bool)
  | node (nullable optional : Bool) (kind : Kind R)

inductive Kind (R : Type)
  | any
  | never
  | null
  | boolean
  | string (plan : StringPlan)
  | number (plan : NumberPlan)
  | literal (value : Value R)
  | enum (values : List (Value R))
  | array (items : Option (Plan R)) (prefixItems : List (Plan R)) (minItems maxItems : Option Nat)
  | tuple (items : List (Plan R)) (rest : Option (Plan R))
  | object (properties : List (String × Plan R)) (required : List String)
      (additionalProperties : Option (Plan R))
  | union (anyOf : List (Plan R)) (oneOf : Bool)
  -- on its own; `union` has it as a flag
  | oneOf (anyOf : List (Plan R))
  | intersection (allOf : List (Plan R))
  /-- `name ?? ref`. -/
  | ref (reference : String)

end

/-- `NormalizedLimits`. -/
structure Limits where
  maxDepth : Nat
  maxIssues : Nat
  maxOperations : Nat
  maxProperties : Nat
  deriving DecidableEq

/-- Componentwise. -/
structure Limits.Within (limits larger : Limits) : Prop where
  maxDepth : limits.maxDepth ≤ larger.maxDepth
  maxIssues : limits.maxIssues ≤ larger.maxIssues
  maxOperations : limits.maxOperations ≤ larger.maxOperations
  maxProperties : limits.maxProperties ≤ larger.maxProperties

structure CompiledValidationPlan (R : Type) where
  root : Plan R
  definitions : List (String × Plan R)
  limits : Limits

/-! ## References -/

/-- `text.replace(/~d/g, by)`. -/
def replaceTilde (digit by' : Char) : List Char → List Char
  | [] => []
  | [c] => [c]
  | c :: d :: rest =>
    if c = '~' ∧ d = digit then by' :: replaceTilde digit by' rest
    else c :: replaceTilde digit by' (d :: rest)

/-- The two prefixes of a local definition. -/
def definitionPrefixes : List (List Char) := ["#/$defs/".toList, "#/definitions/".toList]

def normalizeReference (reference : String) : String :=
  match definitionPrefixes.find? fun item => item.isPrefixOf reference.toList with
  | none => reference
  | some item =>
    match Core.decodeURIComponent (reference.toList.drop item.length) with
    | none => reference
    | some decoded => String.ofList (replaceTilde '0' '~' (replaceTilde '1' '/' decoded))

end FluxFast.Validation
