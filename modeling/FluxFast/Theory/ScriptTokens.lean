import Mathlib.Data.List.Basic

/-!
# ScriptTokens — where an object literal of a JavaScript text ends

The tokens of a script as far as the nesting of its brackets asks for them: comments, strings,
templates with their substitutions, and regular expression literals.  Whether a slash divides or
begins a regular expression is decided by the token before it, as the grammar's two goal symbols do:
after a value it divides, and after a bracket this depends on what the bracket was opened for.
-/

namespace FluxFast.Theory.Script

/-- A text as UTF-16 code units. -/
abbrev Text := List UInt16

def units (s : String) : Text := s.toList.map fun c => UInt16.ofNat c.toNat

def lineFeed : UInt16 := 10

def carriageReturn : UInt16 := 13

def exclamation : UInt16 := 33

def doubleQuote : UInt16 := 34

def dollar : UInt16 := 36

def singleQuote : UInt16 := 39

def roundOpen : UInt16 := 40

def roundClose : UInt16 := 41

def asterisk : UInt16 := 42

def plus : UInt16 := 43

def minus : UInt16 := 45

def dot : UInt16 := 46

def solidus : UInt16 := 47

def colon : UInt16 := 58

def semicolon : UInt16 := 59

def equals : UInt16 := 61

def greater : UInt16 := 62

def squareOpen : UInt16 := 91

def reverseSolidus : UInt16 := 92

def squareClose : UInt16 := 93

def grave : UInt16 := 96

def curlyOpen : UInt16 := 123

def curlyClose : UInt16 := 125

def isLineEnd (c : UInt16) : Bool :=
  c = lineFeed || c = carriageReturn || c = 0x2028 || c = 0x2029

def isBlank (c : UInt16) : Bool :=
  let n := c.toNat
  (9 ≤ n && n ≤ 13) || n = 0x20 || n = 0xa0 || n = 0x1680 || (0x2000 ≤ n && n ≤ 0x200a) ||
    n = 0x2028 || n = 0x2029 || n = 0x202f || n = 0x205f || n = 0x3000 || n = 0xfeff

/-- A unit of a name, a keyword or a number. -/
def isWordUnit (c : UInt16) : Bool :=
  let n := c.toNat
  (0x30 ≤ n && n ≤ 0x39) || (0x41 ≤ n && n ≤ 0x5a) || (0x61 ≤ n && n ≤ 0x7a) || n = 0x5f ||
    c = dollar || c = reverseSolidus || 0x80 ≤ n

/-- The keywords that an operand follows. -/
def operandKeywords : List Text :=
  ["await", "case", "default", "delete", "do", "else", "extends", "in", "instanceof", "new",
    "return", "throw", "typeof", "void", "yield"].map units

/-- The keywords that a statement follows. -/
def statementKeywords : List Text := ["do", "else", "finally", "try"].map units

/-- The keywords whose parentheses a statement follows. -/
def conditionKeywords : List Text := ["for", "if", "while", "with"].map units

/-! ## Where the reading stands -/

/-- What a bracket was opened for. -/
inductive Opened
  | parentheses
  /-- The parentheses of `if`, `for`, `while` and `with`. -/
  | condition
  | brackets
  | object
  /-- A block, or the body of a function or a class. -/
  | block
  /-- `${` in a template. -/
  | substitution
  deriving DecidableEq

/-- The last token, as far as the next one depends on it. -/
inductive Before
  /-- An operator, a comma or an opening bracket: an operand follows. -/
  | operator
  | colon
  /-- A property name follows. -/
  | dot
  | spread
  | word (text : Text) (afterFor : Bool)
  /-- A literal, a property name, or the closing bracket of a value. -/
  | value
  /-- The closing bracket of arguments or parameters. -/
  | arguments
  /-- A statement, or the body of an arrow function, follows. -/
  | statement
  deriving DecidableEq

inductive Mode
  | code
  | quoted (quote : UInt16) (escaped : Bool)
  | template (escaped : Bool)
  | line
  | block
  | regex (inClass escaped : Bool)
  deriving DecidableEq

structure Reading where
  mode : Mode := .code
  /-- The unit is the second one of a token that has been read. -/
  second : Bool := false
  /-- The innermost bracket first; the object literal itself is not among them. -/
  opened : List Opened := []
  before : Before := .operator
  /-- The last unit belongs to the word before. -/
  touching : Bool := false
  deriving DecidableEq

/-- The last token ends a value, so that a slash divides it. -/
def Before.endsValue : Before → Bool
  | .word text _ => text ∉ operandKeywords
  | .value | .arguments => true
  | .operator | .colon | .dot | .spread | .statement => false

/-- A brace after the token opens a block and no object literal. -/
def Before.opensBlock (enclosing : Opened) : Before → Bool
  | .statement | .arguments | .value => true
  | .word text _ => text ∉ operandKeywords || text ∈ statementKeywords
  | .colon => enclosing = .block
  | .operator | .dot | .spread => false

namespace Reading

def enclosing (r : Reading) : Opened := r.opened.head?.getD .object

/-- A token of the code has been read. -/
def read (r : Reading) (before : Before) : Reading :=
  { r with mode := .code, before := before, touching := false }

def word (r : Reading) (c : UInt16) : Reading :=
  match r.touching, r.before with
  | true, .word text afterFor => { r with before := .word (text ++ [c]) afterFor }
  | true, _ => r
  | false, .dot => { r with before := .value, touching := true }
  | false, before =>
    { r with
      before := .word [c] (match before with | .word text _ => text = units "for" | _ => false)
      touching := true }

/-- `for await (` is the head of a statement, too. -/
def headsStatement : Before → Bool
  | .word text afterFor => text ∈ conditionKeywords || (afterFor && text = units "await")
  | _ => false

def openBracket (r : Reading) (c : UInt16) : Reading :=
  let opened : Opened :=
    if c = roundOpen then if headsStatement r.before then .condition else .parentheses
    else if c = squareOpen then .brackets
    else if r.before.opensBlock r.enclosing then .block
    else .object
  { r.read (if opened = .block then .statement else .operator) with opened := opened :: r.opened }

/-- A bracket that closes none of its kind ends the reading. -/
def closeBracket (r : Reading) (c : UInt16) : Option Reading :=
  match r.opened with
  | .parentheses :: opened =>
    if c = roundClose then some { r.read .arguments with opened := opened } else none
  | .condition :: opened =>
    if c = roundClose then some { r.read .statement with opened := opened } else none
  | .brackets :: opened =>
    if c = squareClose then some { r.read .value with opened := opened } else none
  | .object :: opened =>
    if c = curlyClose then some { r.read .value with opened := opened } else none
  | .block :: opened =>
    if c = curlyClose then some { r.read .statement with opened := opened } else none
  | .substitution :: opened =>
    if c = curlyClose then some { r with mode := .template false, opened := opened } else none
  | [] => none

def punctuator (r : Reading) (c : UInt16) (next : Option UInt16) : Reading :=
  if c = semicolon then r.read .statement
  else if c = colon then r.read .colon
  else if c = dot then r.read (if next = some dot ∨ r.before = .spread then .spread else .dot)
  else if c = equals ∧ next = some greater then { r.read .statement with second := true }
  else if (c = plus ∨ c = minus) ∧ next = some c then { r.read r.before with second := true }
  -- TypeScript's assertion that a value is there
  else if c = exclamation ∧ r.before.endsValue = true ∧ next ≠ some equals then r.read r.before
  else r.read .operator

def code (r : Reading) (c : UInt16) (next : Option UInt16) : Option Reading :=
  if isBlank c then some { r with touching := false }
  else if isWordUnit c then some (r.word c)
  else if c = solidus ∧ next = some solidus then
    some { r with mode := .line, second := true, touching := false }
  else if c = solidus ∧ next = some asterisk then
    some { r with mode := .block, second := true, touching := false }
  else if c = solidus ∧ r.before.endsValue = false then some { r with mode := .regex false false }
  else if c = singleQuote ∨ c = doubleQuote then some { r with mode := .quoted c false }
  else if c = grave then some { r with mode := .template false }
  else if c = roundOpen ∨ c = squareOpen ∨ c = curlyOpen then some (r.openBracket c)
  else if c = roundClose ∨ c = squareClose ∨ c = curlyClose then r.closeBracket c
  else some (r.punctuator c next)

/-- One unit further, where the text goes on as `next`. -/
def step (r : Reading) (c : UInt16) (next : Option UInt16) : Option Reading :=
  if r.second then some { r with second := false }
  else
    match r.mode with
    | .code => r.code c next
    | .line => some (if isLineEnd c then { r with mode := .code } else r)
    | .block =>
      some (if c = asterisk ∧ next = some solidus then { r with mode := .code, second := true }
        else r)
    | .quoted quote escaped =>
      if escaped then
        -- a line may be continued behind a carriage return and a line feed
        some { r with mode := .quoted quote (c = carriageReturn ∧ next = some lineFeed) }
      else if c = lineFeed ∨ c = carriageReturn then none
      else if c = reverseSolidus then some { r with mode := .quoted quote true }
      else if c = quote then some (r.read .value)
      else some r
    | .template escaped =>
      if escaped then some { r with mode := .template false }
      else if c = reverseSolidus then some { r with mode := .template true }
      else if c = grave then some (r.read .value)
      else if c = dollar ∧ next = some curlyOpen then
        some { r.read .operator with opened := .substitution :: r.opened, second := true }
      else some r
    | .regex inClass escaped =>
      if isLineEnd c then none
      else if escaped then some { r with mode := .regex inClass false }
      else if c = reverseSolidus then some { r with mode := .regex inClass true }
      else if c = squareOpen then some { r with mode := .regex true false }
      else if c = squareClose then some { r with mode := .regex false false }
      -- the flags that follow belong to the literal
      else if c = solidus ∧ inClass = false then some { r.read .value with touching := true }
      else some r

/-- The unit is the brace that closes the object literal. -/
def ends (r : Reading) (c : UInt16) : Bool :=
  r.mode = .code && !r.second && r.opened = [] && c = curlyClose

end Reading

/-! ## The literal -/

def lengthFrom : Reading → Text → Option Nat
  | _, [] => none
  | r, c :: rest =>
    if r.ends c then some 1
    else
      match r.step c rest.head? with
      | none => none
      | some r' => (lengthFrom r' rest).map (· + 1)

/-- The length of the object literal that the text begins with. -/
def objectLength : Text → Option Nat
  | [] => none
  | c :: rest => if c = curlyOpen then (lengthFrom {} rest).map (· + 1) else none

/-- The reading after a text that `next` follows. -/
def readAll (next : Option UInt16) : Reading → Text → Option Reading
  | r, [] => some r
  | r, c :: rest =>
    match r.step c (rest.head?.or next) with
    | none => none
    | some r' => readAll next r' rest

/-- A file is read as the inside of a block, behind a line `#!` if it begins with one. -/
def fileStart (text : Text) : Reading where
  mode := if (units "#!").isPrefixOf text then .line else .code
  opened := [.block]
  before := .statement

/-- What follows the text in a file is code: no comment, string, template or regular expression is
open there. -/
def readsCode (text rest : Text) : Bool :=
  match readAll rest.head? (fileStart text) text with
  | none => false
  | some r => r.mode = .code && !r.second

theorem lengthFrom_spec {r : Reading} {text : Text} {n : Nat} (h : lengthFrom r text = some n) :
    ∃ inner rest, text = inner ++ curlyClose :: rest ∧ n = inner.length + 1 := by
  induction text generalizing r n with
  | nil => cases h
  | cons c rest ih =>
    unfold lengthFrom at h
    split at h
    · next hends =>
      have hclose : c = curlyClose := of_decide_eq_true (Bool.and_eq_true_iff.mp hends).2
      exact ⟨[], rest, congrArg (· :: rest) hclose, (Option.some.inj h).symm⟩
    · split at h
      · cases h
      · obtain ⟨k, hk, rfl⟩ := Option.map_eq_some_iff.mp h
        obtain ⟨inner, after, rfl, rfl⟩ := ih hk
        exact ⟨c :: inner, after, rfl, rfl⟩

/-- An object literal begins with a brace and ends with the one that closes it. -/
theorem objectLength_spec {text : Text} {n : Nat} (h : objectLength text = some n) :
    ∃ inner rest, text = curlyOpen :: (inner ++ curlyClose :: rest) ∧ n = inner.length + 2 := by
  cases text with
  | nil => cases h
  | cons c rest =>
    rw [objectLength] at h
    split at h
    · next hopen =>
      obtain ⟨k, hk, rfl⟩ := Option.map_eq_some_iff.mp h
      obtain ⟨inner, after, rfl, rfl⟩ := lengthFrom_spec hk
      exact ⟨inner, after, by rw [hopen], rfl⟩
    · cases h

/-- Neither the quote in the first regular expression nor the braces of the second and of the
template count; the slash after `)` divides. -/
example : objectLength (units "\x7ba: /'/, b: f(1) / 2, c: /[/\x7d]\\\x7d/g, d: `\x7d$\x7b '`' \x7d`\x7d;") = some 51 := by
  decide

/-- After the parentheses of `if` a slash begins a regular expression. -/
example : objectLength (units "\x7bm() \x7b if (x) /\x7b/.test(y) \x7d\n\x7d") = some 29 := by
  decide

/-- The second line is text of the template that the substitution of the first one holds. -/
example : readsCode (units "const a = `$\x7b`\n") (units "b") = false ∧
    readsCode (units "const a = /`/\n") (units "b") = true := by
  decide

end FluxFast.Theory.Script
