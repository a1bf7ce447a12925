import FluxFast.Theory.OrderedMap

/-!
# Protocol — the values that cross the wire

The part of the `fluxfast/1` protocol that the client's state depends on.  Resource values are a
type parameter `V`, as `unknown` is in the client; a patch acts on a value through the class
`Patchable`.
-/

namespace FluxFast.Core

open FluxFast.Theory

/-- Resource values that the patches `P` of a mutation or of a live event act on.  A patch that
names an item throws when an id of the value cannot be turned into text. -/
class Patchable (V : Type) (P : outParam Type) where
  applyPatchToValue : V → P → Option V

/-- Numbers as resource values, patched by replacement: enough to run the store and the router. -/
instance replaceNumber : Patchable Nat Nat := ⟨fun _ value => some value⟩

abbrev Versions := OrderedMap String String

/-- An assignment under the name makes a member of a plain object; `__proto__` names its prototype. -/
def namesMember (key : String) : Bool := key ≠ "__proto__"

structure ResourceWireRecord (V : Type) where
  version : String
  value : V
  deriving DecidableEq

structure PageDescriptor (V : Type) where
  component : String
  url : String
  pageMeta : Option (OrderedMap String V) := none
  deriving DecidableEq

structure ResourceErrorDetail (V : Type) where
  type : String
  message : String
  details : Option V := none
  deriving DecidableEq

structure PageEnvelope (V : Type) where
  page : PageDescriptor V
  resources : OrderedMap String (ResourceWireRecord V) := .empty
  resourceKeys : Option (List String) := none
  deferred : Option (List String) := none
  live : Option (List String) := none
  resourceErrors : Option (OrderedMap String (ResourceErrorDetail V)) := none
  deriving DecidableEq

structure MutationPayload (P : Type) where
  patches : Option (OrderedMap String (List P)) := none
  invalidate : Option (List String) := none
  redirect : Option String := none
  externalRedirect : Option String := none

/-- The events of a page's live stream. -/
inductive LiveEvent (P : Type) where
  | ready (keys : List String)
  | invalidate (keys : List String) (originClientId : Option String)
  | patch (patches : OrderedMap String (List P)) (originClientId : Option String)
  | resync (keys : List String) (reason : String)

/-- What a rejected promise carries; a `TransportError` has a status. -/
structure Failure where
  name : String
  message : String
  status : Option Nat := none
  deriving DecidableEq

/-- `value || fallback` on strings. -/
def orElse (value fallback : String) : String :=
  if value.isEmpty then fallback else value

/-- An absent or empty string is falsy. -/
def truthy (value : Option String) : Option String :=
  value.filter fun v => !v.isEmpty

namespace PageEnvelope

variable {V : Type}

def deferredKeys (e : PageEnvelope V) : List String := e.deferred.getD []

def errors (e : PageEnvelope V) : OrderedMap String (ResourceErrorDetail V) :=
  e.resourceErrors.getD .empty

def liveKeys (e : PageEnvelope V) : List String := e.live.getD []

/-- `Object.keys` of everything the envelope names, each key once. -/
def envelopeKeys (e : PageEnvelope V) : List String :=
  unique (e.resources.keys ++ e.errors.keys ++ e.deferredKeys ++ e.resourceKeys.getD [])

end PageEnvelope

end FluxFast.Core
