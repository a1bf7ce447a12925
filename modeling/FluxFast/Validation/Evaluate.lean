import FluxFast.Core.Text
import FluxFast.Theory.Metered
import FluxFast.Validation.Plan

/-!
# Evaluate — the validation evaluator

`evaluate` and its node evaluators.  What is left of the depth limit is the recursion argument; the
operation counter, the open references and values and the collectors are the state.
-/

namespace FluxFast.Validation

open FluxFast.Theory

inductive Segment
  | key (name : String)
  | index (i : Nat)
  deriving DecidableEq

abbrev Path := List Segment

structure Issue where
  path : Path
  code : String
  message : String
  deriving DecidableEq

structure IssueCollector where
  maxIssues : Nat
  issues : List Issue := []

def IssueCollector.add (collector : IssueCollector) (issue : Issue) : IssueCollector :=
  if collector.maxIssues ≤ collector.issues.length then collector
  else { collector with issues := collector.issues ++ [issue] }

structure RefFrame (R : Type) where
  name : String
  value : Value R
  deriving DecidableEq

structure EvaluationState (R : Type) where
  primaryCollector : IssueCollector
  /-- The collectors of the open branches, the innermost first. -/
  branchCollectors : List IssueCollector := []
  activeValues : List R := []
  refs : List (RefFrame R) := []
  operations : Nat := 0
  operationLimitReported : Bool := false
  /-- How many checks of a limit failed; the code does not count them. -/
  limitsMet : Nat := 0
  /-- Whether one of them failed in a branch of a `oneOf`. -/
  branchCut : Bool := false

namespace EvaluationState

variable {R : Type} (s : EvaluationState R)

/-- `state.collector.add`. -/
def add (issue : Issue) : EvaluationState R :=
  match s.branchCollectors with
  | [] => { s with primaryCollector := s.primaryCollector.add issue }
  | collector :: outer => { s with branchCollectors := collector.add issue :: outer }

def meet : EvaluationState R := { s with limitsMet := s.limitsMet + 1 }

/-- The operation limit is reported once, and always to the primary collector. -/
def exhaust (path : Path) : EvaluationState R :=
  { s with
    primaryCollector :=
      if s.operationLimitReported then s.primaryCollector
      else s.primaryCollector.add
        ⟨path, "maxOperations", "Validation operation limit exceeded."⟩
    operationLimitReported := true
    limitsMet := s.limitsMet + 1 }

/-- After the branches of a union; `before` limits were met when they began. -/
def closeBranches (oneOf : Bool) (before : Nat) : EvaluationState R :=
  { s with branchCut := s.branchCut || (oneOf && before ≠ s.limitsMet) }

end EvaluationState

/-- What the code takes from elsewhere: compiled patterns (`none` for one that was not compiled),
the formats, decimal arithmetic and the rendering of numbers and keys. -/
structure Host where
  pattern : String → Option (String → Bool)
  validateValidationFormat : String → String → Bool
  isMultipleOf : Number → Number → Bool
  showNumber : Number → String
  stringify : String → String
  displayValidationKey : String → String

structure Context (R : Type) where
  host : Host
  heap : Heap R
  compiled : CompiledValidationPlan R

abbrev Evaluation (R : Type) := Work (EvaluationState R)

section Evaluate

variable {R : Type} [DecidableEq R] (c : Context R)

def addIssue (path : Path) (code message : String) : Evaluation R Unit :=
  .change fun s => s.add ⟨path, code, message⟩

def consumeOperation (path : Path) : Evaluation R Bool := fun s =>
  if c.compiled.limits.maxOperations ≤ s.operations then (false, s.exhaust path)
  else (true, { s with operations := s.operations + 1 })

def addTypeIssue (path : Path) (expected : String) (value : Value R) :
    Evaluation R Unit :=
  addIssue path "type" ("Expected " ++ expected ++ "; received " ++ c.heap.expectedType value ++ ".")

/-- `enterValue`, the body and the deletion at the end. -/
def withValue (r : R) (path : Path) (body : Evaluation R Bool) : Evaluation R Bool := do
  if ← Work.read fun s => s.activeValues.contains r then
    addIssue path "cycle" "Cyclic value encountered during validation."
    return false
  Work.change fun s => { s with activeValues := r :: s.activeValues }
  let valid ← body
  Work.change fun s => { s with activeValues := s.activeValues.erase r }
  return valid

def withCollector (collector : IssueCollector) (callback : Evaluation R Bool) : Evaluation R Bool := do
  Work.change fun s => { s with branchCollectors := collector :: s.branchCollectors }
  let valid ← callback
  Work.change fun s => { s with branchCollectors := s.branchCollectors.tail }
  return valid

/-- `none` where either read throws. -/
def readOwnValue (hasOwn : String → Option Bool) (get : String → Option (Value R)) (key : String) :
    Option (Option (Value R)) :=
  match hasOwn key with
  | none => none
  | some false => some none
  | some true => (get key).map some

/-- A loop that spends an operation before each step and goes on after a step that fails. -/
def forEach {α : Type} (pathOf : α → Path) (step : α → Evaluation R Bool) : List α → Evaluation R Bool
  | [] => pure true
  | entry :: rest => do
    if !(← consumeOperation c (pathOf entry)) then return false
    let valid ← step entry
    let others ← forEach pathOf step rest
    return valid && others

/-- Every check is made, and all have to hold. -/
def allHold : List (Evaluation R Bool) → Evaluation R Bool
  | [] => pure true
  | check :: rest => do
    let valid ← check
    let others ← allHold rest
    return valid && others

inductive ReadKeysError
  | read
  | maxProperties
  | maxOperations
  deriving DecidableEq

def readKeysLoop (path : Path) :
    List KeyRead → List String → Evaluation R (Except ReadKeysError (List String))
  | [], keys => return .ok (Core.Text.sort keys)
  | .unreadable :: _, _ => return .error .read
  | .inherited :: rest, keys => readKeysLoop path rest keys
  | .own key :: rest, keys => do
    if !(← consumeOperation c (path ++ [.key key])) then return .error .maxOperations
    if c.compiled.limits.maxProperties < (keys ++ [key]).length then
      Work.change .meet
      addIssue path "maxProperties" ("Object contains more than " ++
        toString c.compiled.limits.maxProperties ++ " properties.")
      return .error .maxProperties
    readKeysLoop path rest (keys ++ [key])

def readKeys (forIn : List KeyRead) (path : Path) :
    Evaluation R (Except ReadKeysError (List String)) := do
  if !(← consumeOperation c path) then return .error .maxOperations
  readKeysLoop c path forIn []

/-! ## deepEqual -/

structure EqualPair (R : Type) where
  left : Value R
  right : Value R
  path : Path

/-- Push the items below `count`, the last one first; `none` where the comparison ends. -/
def pushItems (left right : Nat → Option (Value R)) (path : Path) :
    Nat → List (EqualPair R) → Evaluation R (Option (List (EqualPair R)))
  | 0, pending => return some pending
  | index + 1, pending => do
    if !(← consumeOperation c (path ++ [.index index])) then return none
    match left index, right index with
    | some l, some r => pushItems left right path index (⟨l, r, path ++ [.index index]⟩ :: pending)
    | _, _ => return none

/-- Push the members of the paired keys. -/
def pushMembers (left right : String → Option (Option (Value R))) (path : Path) :
    List (String × String) → List (EqualPair R) →
      Evaluation R (Option (List (EqualPair R)))
  | [], pending => return some pending
  | (leftKey, rightKey) :: rest, pending => do
    if leftKey ≠ rightKey then return none
    if !(← consumeOperation c (path ++ [.key leftKey])) then return none
    match left leftKey, right leftKey with
    | some (some l), some (some r) =>
      pushMembers left right path rest (⟨l, r, path ++ [.key leftKey]⟩ :: pending)
    | _, _ => return none

/-- The children of two objects that were not compared before. -/
def expandPair (left right : R) (path : Path) (pending : List (EqualPair R)) :
    Evaluation R (Option (List (EqualPair R))) :=
  match c.heap left, c.heap right with
  | .array leftLength leftItem, .array rightLength rightItem => do
    if !(← consumeOperation c path) then return none
    match leftLength, rightLength with
    | some leftLength, some rightLength =>
      -- the one check on the size of an array
      if c.compiled.limits.maxProperties < leftLength ∨
          c.compiled.limits.maxProperties < rightLength then
        Work.change .meet
        addIssue path "maxProperties" ("Collection contains more than " ++
          toString c.compiled.limits.maxProperties ++ " items.")
        return none
      if leftLength ≠ rightLength then return none
      pushItems c leftItem rightItem path leftLength pending
    | _, _ => return none
  | .plain leftIn leftOwn leftGet, .plain rightIn rightOwn rightGet => do
    let leftKeys ← readKeys c leftIn path
    let rightKeys ← readKeys c rightIn path
    match leftKeys, rightKeys with
    | .ok leftKeys, .ok rightKeys =>
      -- keys are compared one by one from the last, as the stack is filled
      if leftKeys.length ≠ rightKeys.length then return none
      pushMembers c (readOwnValue leftOwn leftGet) (readOwnValue rightOwn rightGet) path
        (leftKeys.zip rightKeys).reverse pending
    | _, _ => return none
  -- an array and an object, or an object that is neither
  | _, _ => return none

/-- One round of the loop; `next` is the rest of it. -/
def deepEqualStep (next : List (EqualPair R) → List (R × R) → Evaluation R Bool)
    (pair : EqualPair R) (pending : List (EqualPair R)) (seen : List (R × R)) :
    Evaluation R Bool := do
  if !(← consumeOperation c pair.path) then return false
  if pair.left = pair.right then next pending seen
  else
    match pair.left, pair.right with
    | .object left, .object right =>
      -- the kinds are compared before the pair is remembered
      if c.heap.isArray left ≠ c.heap.isArray right then return false
      -- the left object has been met: its partner must be the same
      match seen.lookup left with
      | some previous =>
        if previous ≠ right then return false
        next pending seen
      | none =>
        match ← expandPair c left right pair.path pending with
        | none => return false
        | some pending => next pending ((left, right) :: seen)
    | _, _ => return false

/-- Every round spends an operation, so `fuel` is used up only when the operations are. -/
def deepEqualLoop : Nat → List (EqualPair R) → List (R × R) → Evaluation R Bool
  | _, [], _ => pure true
  | 0, pair :: _, _ => do
    Work.change fun s => { s.exhaust pair.path with
      operations := max s.operations c.compiled.limits.maxOperations }
    return false
  | fuel + 1, pair :: pending, seen => deepEqualStep c (deepEqualLoop fuel) pair pending seen

def deepEqual (left right : Value R) (path : Path) : Evaluation R Bool :=
  deepEqualLoop c c.compiled.limits.maxOperations [⟨left, right, path⟩] []

/-! ## Node evaluators -/

/-- One check of a bound, which goes on after it fails. -/
def expect (holds : Bool) (path : Path) (code message : String) : Evaluation R Bool := do
  if !holds then addIssue path code message
  return holds

/-- Whether `left` and `right` are so related, where both are finite. -/
def compareNumbers (related : Rat → Rat → Bool) (left right : Number) : Bool :=
  match left.toRat?, right.toRat? with
  | some l, some r => related l r
  | _, _ => false

/-- A keyword that is absent holds. -/
def absentOr {α : Type} (keyword : Option α) (holds : α → Bool) : Bool := keyword.all holds

def expectBound (bound : Option Number) (holds : Number → Bool) (path : Path)
    (code text : String) : Evaluation R Bool :=
  match bound with
  | none => pure true
  | some bound => expect (holds bound) path code (text ++ c.host.showNumber bound ++ ".")

def evaluateNumber (plan : NumberPlan) (value : Value R) (path : Path) : Evaluation R Bool :=
  match value with
  | .number n => do
    -- `Number.isFinite`, and `Number.isInteger` where the plan asks for it
    if n.toRat?.isNone || (plan.integer && !n.isInteger) then
      addTypeIssue c path (if plan.integer then "integer" else "number") value
      return false
    -- every bound is checked, also after one of them failed
    allHold [
      expectBound c plan.minimum (fun bound => !compareNumbers (· < ·) n bound) path
        "minimum" "Value must be at least ",
      expectBound c plan.maximum (fun bound => !compareNumbers (· > ·) n bound) path
        "maximum" "Value must be at most ",
      expectBound c plan.exclusiveMinimum (fun bound => !compareNumbers (· ≤ ·) n bound) path
        "exclusiveMinimum" "Value must be greater than ",
      expectBound c plan.exclusiveMaximum (fun bound => !compareNumbers (· ≥ ·) n bound) path
        "exclusiveMaximum" "Value must be less than ",
      expectBound c plan.multipleOf (c.host.isMultipleOf n) path
        "multipleOf" "Value must be a multiple of "]
  | _ => do
    addTypeIssue c path (if plan.integer then "integer" else "number") value
    return false

/-- One operation for every character. -/
def countCharacters (path : Path) : List Char → Evaluation R Bool
  | [] => pure true
  | _ :: rest => do
    if !(← consumeOperation c path) then return false
    countCharacters path rest

def expectPattern (pattern : Option String) (text : String) (path : Path) :
    Evaluation R Bool :=
  match pattern.map c.host.pattern with
  | none => pure true
  | some none => expect false path "pattern" "Pattern could not be evaluated."
  | some (some pattern) =>
    expect (pattern text) path "pattern" "String does not match the required pattern."

def evaluateString (plan : StringPlan) (value : Value R) (path : Path) : Evaluation R Bool :=
  match value with
  | .string text => do
    if !(← countCharacters c path text.toList) then return false
    allHold [
      expect (absentOr plan.minLength (· ≤ text.length)) path "minLength"
        ("String must contain at least " ++ toString (plan.minLength.getD 0) ++ " characters."),
      expect (absentOr plan.maxLength (text.length ≤ ·)) path "maxLength"
        ("String must contain at most " ++ toString (plan.maxLength.getD 0) ++ " characters."),
      expectPattern c plan.pattern text path,
      expect (absentOr plan.format (c.host.validateValidationFormat text ·)) path "format"
        ("String does not match the " ++ plan.format.getD "" ++ " format.")]
  | _ => do
    addTypeIssue c path "string" value
    return false

/-- How a child is evaluated, one level deeper. -/
abbrev Nested (R : Type) := Plan R → Value R → Path → Evaluation R Bool

variable (nested : Nested R)

/-- Reads of one member. -/
def evaluateMember (plan : Plan R) (read : Option (Value R)) (path : Path) (message : String) :
    Evaluation R Bool :=
  match read with
  | none => do
    addIssue path "read" message
    return false
  | some value => nested plan value path

def evaluateRequired (hasOwn : String → Option Bool) (path : Path) (key : String) : Evaluation R Bool :=
  match hasOwn key with
  | none => do
    addIssue (path ++ [.key key]) "read" "Property could not be inspected."
    return false
  | some present => expect present (path ++ [.key key]) "required"
      ("Required property " ++ c.host.displayValidationKey key ++ " is missing.")

def evaluateProperty (properties : List (String × Plan R)) (read : Option (Option (Value R)))
    (path : Path) (key : String) : Evaluation R Bool :=
  match read, properties.lookup key with
  | some none, _ => pure true
  | some (some value), some plan => nested plan value (path ++ [.key key])
  | none, _ => do
    addIssue (path ++ [.key key]) "read" "Property could not be read."
    return false
  -- `key` is a name of `properties`
  | _, none => pure true

def evaluateAdditional (plan : Plan R) (read : Option (Option (Value R))) (path : Path)
    (key : String) : Evaluation R Bool :=
  match plan, read with
  | .boolean false, _ => do
    addIssue (path ++ [.key key]) "additionalProperties"
      ("Additional property " ++ c.host.displayValidationKey key ++ " is not allowed.")
    return false
  | plan, some (some value) => nested plan value (path ++ [.key key])
  | _, _ => do
    addIssue (path ++ [.key key]) "read" "Property could not be read."
    return false

/-- The keys that `properties` does not declare, where the plan restricts them. -/
def evaluateRest (properties : List (String × Plan R)) (additional : Option (Plan R))
    (forIn : List KeyRead) (read : String → Option (Option (Value R))) (path : Path) : Evaluation R Bool :=
  match additional with
  | none | some (.boolean true) => pure true
  | some plan => do
    match ← readKeys c forIn path with
    | .error .read =>
      addIssue path "read" "Object properties could not be enumerated."
      return false
    | .error _ => return false
    | .ok keys =>
      allHold ((keys.filter fun key => !(properties.map Prod.fst).contains key).map fun key =>
        evaluateAdditional c nested plan (read key) path key)

def evaluateObject (properties : List (String × Plan R)) (required : List String)
    (additional : Option (Plan R)) (value : Value R) (path : Path) : Evaluation R Bool :=
  match value with
  | .object r =>
    match c.heap r with
    -- names are visited in sorted order, also those of `required`
    | .plain forIn hasOwn get => withValue r path <| allHold [
      forEach c (fun key => path ++ [.key key]) (evaluateRequired c hasOwn path)
        (Core.Text.sort required),
      forEach c (fun key => path ++ [.key key])
        (fun key => evaluateProperty nested properties (readOwnValue hasOwn get key) path key)
        (Core.Text.sort (properties.map Prod.fst)),
      evaluateRest c nested properties additional forIn (readOwnValue hasOwn get) path]
    | _ => do
      addTypeIssue c path "object" value
      return false
  | _ => do
    addTypeIssue c path "object" value
    return false

/-- The body of `evaluateArray` and `evaluateTuple` once the length is known. -/
def withArray (value : Value R) (path : Path)
    (body : Nat → (Nat → Option (Value R)) → Evaluation R Bool) : Evaluation R Bool :=
  match value with
  | .object r =>
    match c.heap r with
    | .array length item => withValue r path do
      match length with
      | none =>
        addIssue path "read" "Array length could not be read."
        return false
      | some length => body length item
    | _ => do
      addTypeIssue c path "array" value
      return false
  | _ => do
    addTypeIssue c path "array" value
    return false

/-- The items from `start` on against one plan. -/
def evaluateItems (plan : Nat → Plan R) (item : Nat → Option (Value R)) (path : Path)
    (start count : Nat) : Evaluation R Bool :=
  forEach c (fun index => path ++ [.index index])
    (fun index => evaluateMember nested (plan index) (item index) (path ++ [.index index])
      "Array item could not be read.")
    (List.range' start count)

/-- The items after the prefix. -/
def evaluateOtherItems (items : Option (Plan R)) (item : Nat → Option (Value R)) (path : Path)
    (start count : Nat) : Evaluation R Bool :=
  match items with
  | some (.boolean false) =>
    forEach c (fun index => path ++ [.index index])
      (fun index => expect false (path ++ [.index index]) "items"
        "Additional array items are not allowed.") (List.range' start count)
  | none | some (.boolean true) =>
    forEach c (fun index => path ++ [.index index]) (fun _ => pure true) (List.range' start count)
  | some plan => evaluateItems c nested (fun _ => plan) item path start count

def evaluateArray (items : Option (Plan R)) (prefixItems : List (Plan R))
    (minItems maxItems : Option Nat) (value : Value R) (path : Path) : Evaluation R Bool :=
  withArray c value path fun length item => allHold [
    expect (absentOr minItems (· ≤ length)) path "minItems"
      ("Array must contain at least " ++ toString (minItems.getD 0) ++ " items."),
    expect (absentOr maxItems (length ≤ ·)) path "maxItems"
      ("Array must contain at most " ++ toString (maxItems.getD 0) ++ " items."),
    evaluateItems c nested (fun index => prefixItems.getD index (.boolean true)) item path 0
      (min length prefixItems.length),
    evaluateOtherItems c nested items item path prefixItems.length (length - prefixItems.length)]

def evaluateTuple (items : List (Plan R)) (rest : Option (Plan R)) (value : Value R)
    (path : Path) : Evaluation R Bool :=
  -- the items of the plan first, then what the value has beyond them
  withArray c value path fun length item => allHold [
    forEach c (fun index => path ++ [.index index])
      (fun index =>
        if length ≤ index then
          expect false (path ++ [.index index]) "required" "Tuple item is missing."
        else evaluateMember nested (items.getD index (.boolean true)) (item index)
          (path ++ [.index index]) "Array item could not be read.")
      (List.range' 0 items.length),
    if length ≤ items.length then pure true
    else
      match rest with
      -- `rest` left out means that there may be nothing beyond
      | none | some (.boolean false) =>
        expect false (path ++ [.index items.length]) "tuple"
          "Tuple contains more items than expected."
      | some plan =>
        evaluateItems c nested (fun _ => plan) item path items.length (length - items.length)]

/-- How many branches the value matches; an operation that cannot be spent ends the loop. -/
def countMatches (value : Value R) (path : Path) :
    List (Plan R) → Evaluation R Nat
  | [] => return 0
  | branch :: rest => do
    if !(← consumeOperation c path) then return 0
    let branchValid ← withCollector { maxIssues := 1 } (nested branch value path)
    let others ← countMatches value path rest
    return if branchValid then others + 1 else others

/-- With the books on the branches. -/
def countBranches (anyOf : List (Plan R)) (oneOf : Bool) (value : Value R) (path : Path) :
    Evaluation R Nat := do
  let before ← Work.read EvaluationState.limitsMet
  let matched ← countMatches c nested value path anyOf
  Work.change fun s => s.closeBranches oneOf before
  return matched

def evaluateUnion (anyOf : List (Plan R)) (oneOf : Bool) (value : Value R) (path : Path) :
    Evaluation R Bool := do
  let matched ← countBranches c nested anyOf oneOf value path
  if (!oneOf && 0 < matched) || (oneOf && matched = 1) then return true
  addIssue path (if oneOf then "oneOf" else "union")
    (if oneOf then
      if matched = 0 then "Value must match exactly one schema."
      else "Value matches more than one schema."
    else "Value must match at least one schema.")
  return false

def evaluateIntersection (allOf : List (Plan R)) (value : Value R) (path : Path) : Evaluation R Bool :=
  forEach c (fun _ => path) (fun branch => nested branch value path) allOf

def evaluateReference (name : String) (value : Value R) (path : Path) : Evaluation R Bool := do
  if !(← consumeOperation c path) then return false
  let reference := normalizeReference name
  -- `#` is the root
  match if reference = "#" then some c.compiled.root else c.compiled.definitions.lookup reference with
  | none =>
    addIssue path "ref" ("Unknown validation reference " ++ c.host.stringify reference ++ ".")
    return false
  | some target =>
    -- the same reference with the same value is a circle, in the values or in the plan alone
    if ← Work.read fun s => s.refs.contains ⟨reference, value⟩ then
      let active ← Work.read fun s => s.activeValues.any fun r => value = .object r
      addIssue path (if active then "cycle" else "refCycle")
        (if active then "Cyclic value encountered during validation."
        else "Validation reference cycle did not consume a nested value.")
      return false
    Work.change fun s => { s with refs := ⟨reference, value⟩ :: s.refs }
    let valid ← nested target value path
    Work.change fun s => { s with refs := s.refs.tail }
    return valid

/-- The candidates of an `enum` up to the first that equals the value. -/
def evaluateEnum (value : Value R) (path : Path) : List (Value R) → Evaluation R Bool
  | [] => do
    addIssue path "enum" "Value is not one of the allowed values."
    return false
  | candidate :: rest => do
    if !(← consumeOperation c path) then return false
    if ← deepEqual c candidate value path then return true
    evaluateEnum value path rest

def evaluateKind (kind : Kind R) (value : Value R) (path : Path) : Evaluation R Bool :=
  -- one branch of the source's `switch` for each kind
  match kind with
  | .any => pure true
  | .never => expect false path "never" "Value is not allowed."
  | .null =>
    match value with
    | .null => pure true
    | _ => do
      addTypeIssue c path "null" value
      return false
  | .boolean =>
    match value with
    | .boolean _ => pure true
    | _ => do
      addTypeIssue c path "boolean" value
      return false
  | .string plan => evaluateString c plan value path
  | .number plan => evaluateNumber c plan value path
  | .literal expected => do
    if ← deepEqual c expected value path then return true
    addIssue path "const" "Value does not equal the required literal."
    return false
  | .enum values => evaluateEnum c value path values
  | .array items prefixItems minItems maxItems =>
    evaluateArray c nested items prefixItems minItems maxItems value path
  | .tuple items rest => evaluateTuple c nested items rest value path
  | .object properties required additional =>
    evaluateObject c nested properties required additional value path
  | .union anyOf oneOf => evaluateUnion c nested anyOf oneOf value path
  | .oneOf anyOf => evaluateUnion c nested anyOf true value path
  | .intersection allOf => evaluateIntersection c nested allOf value path
  | .ref reference => evaluateReference c nested reference value path

omit nested

/-- `deeper` is `none` where `depth > maxDepth`. -/
def evaluateAtDepth (deeper : Option (Nested R)) (kind : Kind R) (value : Value R) (path : Path) :
    Evaluation R Bool :=
  match deeper with
  | none => do
    Work.change .meet
    addIssue path "maxDepth" "Validation depth limit exceeded."
    return false
  | some nested => evaluateKind c nested kind value path

def evaluateStep (deeper : Option (Nested R)) (plan : Plan R) (value : Value R) (path : Path) :
    Evaluation R Bool := do
  if !(← consumeOperation c path) then return false
  match plan with
  | .boolean allowed => expect allowed path "never" "Value is not allowed."
  | .node nullable optional kind =>
    if optional && value = .undefined then return true
    if nullable && value = .null then return true
    evaluateAtDepth c deeper kind value path

/-- `room` is `maxDepth + 1 - depth`. -/
def evaluate : (room : Nat) → Nested R
  | 0, plan, value, path => evaluateStep c none plan value path
  | room + 1, plan, value, path => evaluateStep c (some (evaluate room)) plan value path

end Evaluate

/-- What `evaluateValidationPlan` returns besides the value. -/
structure ValidationResult where
  valid : Bool
  issues : List Issue

/-- The run of the evaluator from depth zero. -/
def evaluateRoot {R : Type} [DecidableEq R] (host : Host) (heap : Heap R)
    (compiled : CompiledValidationPlan R) (value : Value R) : Bool × EvaluationState R :=
  evaluate ⟨host, heap, compiled⟩ (compiled.limits.maxDepth + 1) compiled.root value []
    { primaryCollector := { maxIssues := compiled.limits.maxIssues } }

def evaluateValidationPlan {R : Type} [DecidableEq R] (host : Host) (heap : Heap R)
    (compiled : CompiledValidationPlan R) (value : Value R) : ValidationResult :=
  let (valid, s) := evaluateRoot host heap compiled value
  if valid then ⟨true, []⟩ else ⟨false, s.primaryCollector.issues⟩

end FluxFast.Validation
