import Mathlib.Data.List.Basic

/-!
# UriComponent — decodeURIComponent

The escapes of UTF-8 octets, over characters.
-/

namespace FluxFast.Core

def hexValue? (c : Char) : Option Nat :=
  if '0' ≤ c ∧ c ≤ '9' then some (c.toNat - '0'.toNat)
  else if 'a' ≤ c ∧ c ≤ 'f' then some (c.toNat - 'a'.toNat + 10)
  else if 'A' ≤ c ∧ c ≤ 'F' then some (c.toNat - 'A'.toNat + 10)
  else none

/-- One escape and what follows it. -/
def octet? : List Char → Option (Nat × List Char)
  | '%' :: high :: low :: rest => do
    let high ← hexValue? high
    let low ← hexValue? low
    return (16 * high + low, rest)
  | _ => none

/-- A continuation byte of UTF-8. -/
def continuation? (text : List Char) : Option (Nat × List Char) :=
  match octet? text with
  | some (byte, rest) => if 128 ≤ byte ∧ byte < 192 then some (byte - 128, rest) else none
  | none => none

/-- The character of a sequence of escapes. -/
def escape? (text : List Char) : Option (Char × List Char) := do
  let (first, rest) ← octet? text
  if first < 128 then return (Char.ofNat first, rest)
  -- two bytes, and not a code that fits in one
  else if 192 ≤ first ∧ first < 224 then
    let (a, rest) ← continuation? rest
    let code := (first - 192) * 64 + a
    if 128 ≤ code then return (Char.ofNat code, rest) else none
  else if 224 ≤ first ∧ first < 240 then
    let (a, rest) ← continuation? rest
    let (b, rest) ← continuation? rest
    let code := ((first - 224) * 64 + a) * 64 + b
    -- three bytes, and no surrogate
    if 0x800 ≤ code ∧ (code < 0xD800 ∨ 0xDFFF < code) then return (Char.ofNat code, rest) else none
  else if 240 ≤ first ∧ first < 248 then
    let (a, rest) ← continuation? rest
    let (b, rest) ← continuation? rest
    let (d, rest) ← continuation? rest
    let code := (((first - 240) * 64 + a) * 64 + b) * 64 + d
    -- four bytes, up to the last code point
    if 0x10000 ≤ code ∧ code < 0x110000 then return (Char.ofNat code, rest) else none
  else none

/-- For at most `fuel` characters. -/
def decodeLoop : Nat → List Char → Option (List Char)
  | _, [] => some []
  | 0, _ => none
  | fuel + 1, '%' :: text =>
    match escape? ('%' :: text) with
    | none => none
    | some (c, rest) => (decodeLoop fuel rest).map (c :: ·)
  | fuel + 1, c :: text => (decodeLoop fuel text).map (c :: ·)

/-- `none` is a `URIError`. -/
def decodeURIComponent (text : List Char) : Option (List Char) := decodeLoop text.length text

end FluxFast.Core
