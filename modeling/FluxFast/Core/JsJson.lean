import FluxFast.Core.Protocol
import FluxFast.Core.Text
import FluxFast.Theory.JsonText

/-!
# JsJson — `JSON.parse` and the values it gives

A string literal may name a surrogate that stands alone; it becomes U+FFFD here, as it would when
the string is encoded again.  Of members with one name the last counts, in the place of the first.
-/

namespace FluxFast.Core

open FluxFast.Theory

/-- What the engine makes of numbers: their values, and `String(value)` of anything. -/
structure JsHost (μ : Type) where
  parseNumber : List Char → μ
  describe : Option (Json String μ) → String

namespace JsJson

variable {μ : Type}

abbrev Value (μ : Type) := Json String μ

/-- The properties of an object. -/
abbrev Fields (μ : Type) := OrderedMap String (Json String μ)

def lexicon (host : JsHost μ) : Json.Lexicon String μ where
  text units := some (String.ofList (Utf16.toWellFormed units))
  number word := if Json.isNumber word then some (host.parseNumber word) else none

/-- `JSON.parse`. -/
def parse (host : JsHost μ) (text : List Char) : Option (Value μ) := Json.read (lexicon host) text

/-- `isObject`. -/
def fields : Value μ → Option (Fields μ)
  | .object members => some (OrderedMap.ofList members)
  | _ => none

def asString : Value μ → Option String
  | .string value => some value
  | _ => none

def asArray : Value μ → Option (List (Value μ))
  | .array items => some items
  | _ => none

/-- An array whose items are all strings. -/
def asStrings (value : Value μ) : Option (List String) :=
  (asArray value).bind fun items => items.mapM asString

theorem asStrings_array (keys : List String) :
    asStrings (.array (keys.map .string) : Value μ) = some keys := by
  show (keys.map _).mapM asString = some keys
  induction keys with
  | nil => rfl
  | cons key keys ih =>
    rw [List.map_cons, List.mapM_cons, ih]
    rfl

end JsJson

end FluxFast.Core
