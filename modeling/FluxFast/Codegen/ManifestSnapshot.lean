import FluxFast.Codegen.RouteUrls
import FluxFast.Theory.DepthFirst
import FluxFast.Theory.Json
import FluxFast.Validation.Values
import Mathlib.Data.List.Forall2

/-!
# ManifestSnapshot — a manifest copied out of a graph of objects

The copy is built by a loop over a stack of frames, each with the slot its value belongs to.  Every
object and every property is read at most once for each of its positions, and a trap may throw.
-/

namespace FluxFast.Codegen

open FluxFast.Theory FluxFast.Validation

inductive JsValue (R : Type)
  | undefined
  | null
  | boolean (b : Bool)
  | number (n : Number)
  | string (s : JsString)
  | object (r : R)
  /-- Functions, symbols and big integers. -/
  | other

inductive PropertyKey
  | string (key : JsString)
  | symbol (identity : Nat)
  deriving DecidableEq

inductive PropertyDescriptor (R : Type)
  | data (value : JsValue R) (enumerable : Bool)
  | accessor

/-- What reading an object gives; `none` where a trap throws. -/
structure ObjectGraph (R : Type) where
  isArray : R → Option Bool
  /-- The prototype is `Object.prototype` or null. -/
  plain : R → Option Bool
  ownKeys : R → Option (List PropertyKey)
  descriptor : R → JsString → Option (Option (PropertyDescriptor R))
  keys_nodup : ∀ r keys, ownKeys r = some keys → keys.Nodup

inductive Key
  | index (i : Nat)
  | name (key : JsString)
  deriving DecidableEq

/-- `SchemaManifestValidationError`; the path leads down from `$`. -/
structure ManifestError where
  path : List Key
  reason : JsString
  deriving DecidableEq

def fail (path : List Key) (reason : String) : ManifestError := ⟨path, jsText reason⟩

/-- `[A-Za-z_$][A-Za-z0-9_$]*`. -/
def isIdentifier (key : JsString) : Bool :=
  let cs := key.map fun c => Char.ofNat c.toNat
  match cs with
  | [] => false
  | c :: rest =>
    (c.isAlpha || c = '_' || c = '$') && rest.all fun c => c.isAlphanum || c = '_' || c = '$'

/-- `childPath`. -/
def childPath (path : JsString) : Key → JsString
  | .index i => path ++ jsText s!"[{i}]"
  | .name key =>
    let displayKey := if 128 < key.length then key.take 125 ++ jsText "..." else key
    if isIdentifier displayKey then path ++ jsText "." ++ displayKey
    else path ++ jsText "[" ++ quoted displayKey ++ jsText "]"

/-- The path as the message has it. -/
def ManifestError.pathText (e : ManifestError) : JsString := e.path.foldl childPath (jsText "$")

def maxManifestValueCount : Nat := 100000

def maxManifestChildren : Nat := 10000

def maxManifestDepth : Nat := 64

def maxManifestStringLength : Nat := 65536

def maxManifestTotalStringLength : Nat := 8 * 1024 * 1024

def maxSafeInteger : Nat := 2 ^ 53 - 1

/-! ## Reading one object -/

section Reading

variable {R : Type} (graph : ObjectGraph R)

def indexKey (i : Nat) : JsString := jsText (toString i)

def lengthKey : JsString := jsText "length"

/-- The value of a data property and whether it is enumerable. -/
def readDataDescriptor (r : R) (key : JsString) (path : List Key) :
    Except ManifestError (JsValue R × Bool) :=
  match graph.descriptor r key with
  | none => .error (fail path "could not be inspected")
  | some none => .error (fail path "must be present as an own property")
  | some (some .accessor) => .error (fail path "must not use an accessor property")
  | some (some (.data value enumerable)) => .ok (value, enumerable)

/-- The value of an enumerable data property. -/
def readProperty (r : R) (key : JsString) (path : List Key) (reason : String) :
    Except ManifestError (JsValue R) :=
  match readDataDescriptor graph r key path with
  | .error e => .error e
  | .ok (value, enumerable) => if enumerable then .ok value else .error (fail path reason)

/-- `Number.isSafeInteger`, and not below zero. -/
def safeLength? : JsValue R → Option Nat
  | .number n =>
    n.toRat?.bind fun q =>
      if q.den = 1 ∧ 0 ≤ q.num ∧ q.num ≤ maxSafeInteger then some q.num.toNat else none
  | _ => none

/-- The items below an index, the last one read first. -/
def readItems (r : R) (path : List Key) : Nat → Except ManifestError (List (JsValue R))
  | 0 => .ok []
  | i + 1 => do
    let value ← readProperty graph r (indexKey i) (path ++ [.index i])
      "must be an enumerable JSON array item"
    let before ← readItems r path i
    return before ++ [value]

def isSymbol : PropertyKey → Bool
  | .symbol _ => true
  | .string _ => false

/-- A key that an array of this length may have. -/
def isArrayKey (length : Nat) (key : JsString) : Bool :=
  key = lengthKey || (List.range length).any fun i => key = indexKey i

/-- The string keys of an object that has no symbols. -/
def stringKeys (r : R) (path : List Key) : Except ManifestError (List JsString) :=
  match graph.ownKeys r with
  | none => .error (fail path "properties could not be enumerated")
  | some keys =>
    if keys.any isSymbol then .error (fail path "must not contain symbol properties")
    else .ok (keys.filterMap fun
      | .string key => some key
      | .symbol _ => none)

def readArray (r : R) (path : List Key) : Except ManifestError (List (JsValue R)) := do
  let (value, _) ← readDataDescriptor graph r lengthKey (path ++ [.name lengthKey])
  match safeLength? value with
  | none => .error (fail (path ++ [.name lengthKey]) "must be a non-negative safe integer")
  | some length =>
    if maxManifestChildren < length then
      .error (fail path "must not contain arrays with more than 10000 entries")
    else do
      let keys ← stringKeys graph r path
      match keys.find? fun key => !isArrayKey length key with
      | some key => .error (fail (path ++ [.name key]) "is not a JSON array index")
      | none => readItems graph r path length

/-- The members under some keys, the last one read first, and the budget after them. -/
def readMembers (r : R) (path : List Key) (total : Nat) :
    List JsString → Except ManifestError (Nat × List (JsString × JsValue R))
  | [] => .ok (total, [])
  | key :: rest => do
    if maxManifestStringLength < key.length then
      .error (fail (path ++ [.name key]) "must not contain keys longer than 65536 characters")
    else if maxManifestTotalStringLength < total + key.length then
      .error (fail (path ++ [.name key]) "must not contain more than 8388608 total string characters")
    else
      let value ← readProperty graph r key (path ++ [.name key])
        "must be an enumerable JSON property"
      let (total, before) ← readMembers r path (total + key.length) rest
      return (total, before ++ [(key, value)])

def readObject (r : R) (path : List Key) (total : Nat) :
    Except ManifestError (Nat × List (JsString × JsValue R)) :=
  match graph.plain r with
  | none => .error (fail path "must be a readable plain JSON object")
  | some false => .error (fail path "must be a plain JSON object")
  | some true => do
    let keys ← stringKeys graph r path
    if maxManifestChildren < keys.length then
      .error (fail path "must not contain objects with more than 10000 properties")
    else readMembers graph r path total keys.reverse

end Reading

/-! ## The copy -/

/-- A value of the copy; its objects are new ones. -/
inductive OutValue
  | null
  | boolean (b : Bool)
  | number (n : Number)
  | string (s : JsString)
  | ref (id : Nat)
  deriving DecidableEq

def insertMember (key : JsString) (value : OutValue) :
    List (JsString × OutValue) → List (JsString × OutValue)
  | [] => [(key, value)]
  | member :: rest =>
    if member.1 = key then (key, value) :: rest else member :: insertMember key value rest

/-- A new array starts with holes, a new object has no prototype. -/
inductive OutObject
  | array (items : List (Option OutValue))
  | object (members : List (JsString × OutValue))
  deriving DecidableEq

def OutObject.assign : OutObject → Key → OutValue → OutObject
  | .array items, .index i, value => .array (items.set i (some value))
  | .object members, .name key, value => .object (insertMember key value members)
  | unchanged, _, _ => unchanged

structure ManifestBoundsFrame (R : Type) where
  value : JsValue R
  path : List Key
  depth : Nat
  parent : Option (Nat × Key)
  exit : Bool

structure Copier (R : Type) where
  pending : List (ManifestBoundsFrame R)
  active : List R
  values : Nat
  stringLength : Nat
  store : List OutObject
  snapshot : Option OutValue

section Copying

variable {R : Type}

/-- `assignSnapshotValue`, and the snapshot itself for the root. -/
def Copier.put (s : Copier R) (current : ManifestBoundsFrame R) (value : OutValue) : Copier R :=
  match current.parent with
  | none => { s with snapshot := some value }
  | some (id, key) => { s with store := s.store.modify id (·.assign key value) }

/-- The frame of a child. -/
def childFrame (current : ManifestBoundsFrame R) (id : Nat) (child : Key × JsValue R) :
    ManifestBoundsFrame R where
  value := child.2
  path := current.path ++ [child.1]
  depth := current.depth + 1
  parent := some (id, child.1)
  exit := false

/-- A new object in the slot of the frame, and its children to be copied before it is closed. -/
def Copier.opened (s : Copier R) (current : ManifestBoundsFrame R) (r : R) (object : OutObject)
    (children : List (Key × JsValue R)) : Copier R :=
  let id := s.store.length
  let s := s.put current (.ref id)
  { s with
    pending := children.map (childFrame current id) ++ { current with exit := true } :: s.pending
    active := r :: s.active
    store := s.store ++ [object] }

variable [DecidableEq R] (graph : ObjectGraph R)

def copyObject (s : Copier R) (current : ManifestBoundsFrame R) (r : R) :
    Turn ManifestError (Copier R) :=
  -- an object that is still open is its own ancestor
  if r ∈ s.active then .failed (fail current.path "must not contain circular object references")
  else
    match graph.isArray r with
    -- `Array.isArray` throws on a revoked proxy
    | none => .failed (fail current.path "could not be inspected as JSON")
    | some true =>
      match readArray graph r current.path with
      | .error e => .failed e
      | .ok items =>
        .next (s.opened current r (.array (List.replicate items.length none))
          -- the items are pushed with their indices, to be copied later
          (items.zipIdx.map fun (value, i) => (.index i, value)))
    | some false =>
      match readObject graph r current.path s.stringLength with
      | .error e => .failed e
      | .ok (total, members) =>
        .next ({ s with stringLength := total }.opened current r (.object [])
          (members.map fun (key, value) => (.name key, value)))

def copyString (s : Copier R) (current : ManifestBoundsFrame R) (text : JsString) :
    Turn ManifestError (Copier R) :=
  if maxManifestStringLength < text.length then
    .failed (fail current.path "must not contain strings longer than 65536 characters")
  else if maxManifestTotalStringLength < s.stringLength + text.length then
    .failed (fail current.path "must not contain more than 8388608 total string characters")
  else .next ({ s with stringLength := s.stringLength + text.length }.put current (.string text))

def copyNumber (s : Copier R) (current : ManifestBoundsFrame R) (n : Number) :
    Turn ManifestError (Copier R) :=
  match n.toRat? with
  | none => .failed (fail current.path "must not contain a non-finite number")
  | some q =>
    if q.den = 1 ∧ maxSafeInteger < q.num.natAbs then
      .failed (fail current.path "must not contain an integer outside the JavaScript safe integer range")
    else .next (s.put current (.number n))

def copyValue (s : Copier R) (current : ManifestBoundsFrame R) :
    Turn ManifestError (Copier R) :=
  match current.value with
  | .string text => copyString s current text
  | .null => .next (s.put current .null)
  | .boolean b => .next (s.put current (.boolean b))
  | .number n => copyNumber s current n
  | .object r => copyObject graph s current r
  | .undefined => .failed (fail current.path "must contain only JSON-compatible values")
  | .other => .failed (fail current.path "must contain only JSON-compatible values")

/-- One turn of the loop of `createManifestSnapshot`. -/
def copyTurn (s : Copier R) : Turn ManifestError (Copier R) :=
  match s.pending with
  | [] => .done
  | current :: rest =>
    if current.exit then
      match current.value with
      | .object r => .next { s with pending := rest, active := s.active.filter (· ≠ r) }
      | _ => .next { s with pending := rest }
    else if maxManifestValueCount < s.values + 1 then
      .failed (fail current.path "must not contain more than 100000 JSON values")
    else if maxManifestDepth < current.depth then
      .failed (fail current.path "must not exceed a nesting depth of 64")
    else copyValue graph { s with pending := rest, values := s.values + 1 } current

def startCopier (root : JsValue R) : Copier R where
  pending := [⟨root, [], 0, none, false⟩]
  active := []
  values := 0
  stringLength := 0
  store := []
  snapshot := none

/-- More turns than there can be: a value takes one turn, and its object another one to be closed. -/
def copyFuel : Nat := 2 * (maxManifestValueCount + 1) + 1

/-- The copier at the end of `createManifestSnapshot`. -/
def createManifestSnapshot (root : JsValue R) : Option (Except ManifestError (Copier R)) :=
  loop (copyTurn graph) copyFuel (startCopier root)

end Copying

end FluxFast.Codegen
