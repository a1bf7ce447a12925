import Mathlib

/-!
# Values — what the validator reads

JavaScript values over a graph of objects.  An object is its identity, and the heap says what reading
it gives, where a trap may throw; a read has one outcome for the whole validation.
-/

namespace FluxFast.Validation

/-- The finite numbers are exact, and `-0` is one of its own. -/
inductive Number
  | finite (q : Rat)
  | negativeZero
  | infinity (negative : Bool)
  | nan
  deriving DecidableEq

/-- `none` for a number that is not finite. -/
def Number.toRat? : Number → Option Rat
  | .finite q => some q
  | .negativeZero => some 0
  | .infinity _ => none
  | .nan => none

/-- `Number.isInteger`. -/
def Number.isInteger (n : Number) : Bool := n.toRat?.any fun q => q.den = 1

/-- Equality of values is `Object.is`, and `===` where one of the two is an object. -/
inductive Value (R : Type)
  | undefined
  | null
  | boolean (b : Bool)
  | number (n : Number)
  | string (s : String)
  | object (r : R)
  /-- Functions, symbols and big integers. -/
  | other (typeof : String) (identity : Nat)
  deriving DecidableEq

/-- One key of a `for ... in` loop. -/
inductive KeyRead
  | own (key : String)
  | inherited
  /-- The enumeration or the test for an own key throws. -/
  | unreadable

inductive Object (R : Type)
  /-- The length is `none` where it cannot be read, an item where reading it throws. -/
  | array (length : Option Nat) (item : Nat → Option (Value R))
  /-- A plain object: its prototype is `Object.prototype` or null. -/
  | plain (forIn : List KeyRead) (hasOwn : String → Option Bool) (get : String → Option (Value R))
  | exotic

abbrev Heap (R : Type) := R → Object R

namespace Heap

variable {R : Type} (heap : Heap R)

/-- `safeIsArray`. -/
def isArray (r : R) : Bool :=
  match heap r with
  | .array _ _ => true
  | _ => false

def expectedType : Value R → String
  | .undefined => "undefined"
  | .null => "null"
  | .boolean _ => "boolean"
  | .number _ => "number"
  | .string _ => "string"
  | .object r => if heap.isArray r then "array" else "object"
  | .other typeof _ => typeof

end Heap

end FluxFast.Validation
