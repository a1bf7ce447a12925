import FluxFast.Codegen.RouteUrls
import FluxFast.Theory.ScriptTokens
import Mathlib.Data.List.DropRight

/-!
# NextConfig — the rewrite of a Next configuration

`transformNextConfig` of `cli/next-config.ts`.  The exported expression is wrapped in a call of
`withFluxFast`, and an import goes in front.  Both scanners of the source are one state machine;
what the expression of the export really is says the reading of JavaScript in `ScriptTokens`, which
knows what the scanners do not: regular expressions and the substitutions of templates.
-/

namespace FluxFast.Setup

open FluxFast.Codegen

open FluxFast.Theory

namespace NextConfig

def lineFeed : UInt16 := 10

def space : UInt16 := 32

def star : UInt16 := 42

def backslash : UInt16 := 92

def semicolon : UInt16 := 59

def closeParenthesis : UInt16 := 41

def byteOrderMark : UInt16 := 0xfeff

/-- `'`, `"` and the backtick. -/
def quotes : List UInt16 := [39, 34, 96]

/-! ## Strings and comments -/

inductive Mode
  | code
  | quoted (quote : UInt16) (escaped : Bool)
  | line
  | block
  deriving DecidableEq

/-- In a mode, or at the second unit of a token of two. -/
inductive Scanner
  | within (mode : Mode)
  | second (mode : Mode)
  deriving DecidableEq

def Mode.advance (c : UInt16) (next : Option UInt16) : Mode → Scanner
  | .line => .within (if c = lineFeed then .code else .line)
  | .block => if c = star ∧ next = some slash then .second .code else .within .block
  | .quoted quote escaped =>
    .within (if escaped then .quoted quote false
      else if c = backslash then .quoted quote true
      else if c = quote then .code
      else .quoted quote false)
  | .code =>
    if c = slash ∧ next = some slash then .second .line
    else if c = slash ∧ next = some star then .second .block
    else if c ∈ quotes then .within (.quoted c false)
    else .within .code

def Scanner.advance (c : UInt16) (next : Option UInt16) : Scanner → Scanner
  | .second mode => .within mode
  | .within mode => mode.advance c next

def code : Scanner := .within .code

/-- The unit is of the code, and no comment, string or template begins with it. -/
def Scanner.shows (s : Scanner) (c : UInt16) (next : Option UInt16) : Bool :=
  s = code && s.advance c next = code

def maskUnit (s : Scanner) (c : UInt16) (next : Option UInt16) : UInt16 :=
  if s.shows c next then c else if c = lineFeed then lineFeed else space

/-- The state after a text that `next` follows. -/
def scanned (next : Option UInt16) : Scanner → JsString → Scanner
  | s, [] => s
  | s, c :: rest => scanned next (s.advance c (rest.head?.or next)) rest

def maskFrom (next : Option UInt16) : Scanner → JsString → JsString
  | _, [] => []
  | s, c :: rest =>
    maskUnit s c (rest.head?.or next) :: maskFrom next (s.advance c (rest.head?.or next)) rest

def maskStringsAndComments (content : JsString) : JsString := maskFrom none code content

/-! ## The end of an expression -/

structure Depths where
  braces : Int := 0
  brackets : Int := 0
  parentheses : Int := 0
  deriving DecidableEq

def Depths.count (d : Depths) (c : UInt16) : Depths :=
  if c = openBrace then { d with braces := d.braces + 1 }
  else if c = closeBrace then { d with braces := d.braces - 1 }
  else if c = 91 then { d with brackets := d.brackets + 1 }
  else if c = 93 then { d with brackets := d.brackets - 1 }
  else if c = 40 then { d with parentheses := d.parentheses + 1 }
  else if c = closeParenthesis then { d with parentheses := d.parentheses - 1 }
  else d

def expressionLength : Scanner → Depths → JsString → Nat
  | _, _, [] => 0
  | s, d, c :: rest =>
    if s.shows c rest.head? then
      if c = semicolon ∧ d = {} then 0
      else expressionLength (s.advance c rest.head?) (d.count c) rest + 1
    else expressionLength (s.advance c rest.head?) d rest + 1

def findExpressionEnd (content : JsString) (start : Nat) : Nat :=
  start + expressionLength code {} (content.drop start)

/-! ## Patterns -/

/-- `\s`, and what `trim` removes. -/
def isSpace (c : UInt16) : Bool :=
  let n := c.toNat
  (9 ≤ n && n ≤ 13) || n = 0x20 || n = 0xa0 || n = 0x1680 || (0x2000 ≤ n && n ≤ 0x200a) ||
    n = 0x2028 || n = 0x2029 || n = 0x202f || n = 0x205f || n = 0x3000 || n = 0xfeff

/-- `[A-Za-z0-9_]`. -/
def isWord (c : UInt16) : Bool :=
  let n := c.toNat
  (0x30 ≤ n && n ≤ 0x39) || (0x41 ≤ n && n ≤ 0x5a) || (0x61 ≤ n && n ≤ 0x7a) || n = 0x5f

inductive PatternPart
  /-- `\b`. -/
  | boundary
  | text (t : JsString)
  /-- `\s*` or `\s+`. -/
  | spaces (least : Nat)

/-- How many units match.  What follows white space in the patterns is none, so the longest run is
the only one that can lead on. -/
def matchParts : Option UInt16 → List PatternPart → JsString → Option Nat
  | _, [], _ => some 0
  | previous, .boundary :: parts, text =>
    if previous.any isWord ≠ text.head?.any isWord then matchParts previous parts text else none
  | previous, .text t :: parts, text =>
    if t.isPrefixOf text then
      (matchParts (t.getLast?.or previous) parts (text.drop t.length)).map (t.length + ·)
    else none
  | previous, .spaces least :: parts, text =>
    let run := text.takeWhile isSpace
    if run.length < least then none
    else (matchParts (run.getLast?.or previous) parts (text.drop run.length)).map (run.length + ·)

/-- `pattern.exec(text)`: the index of the first match, and its length. -/
def exec (parts : List PatternPart) : Option UInt16 → JsString → Option (Nat × Nat)
  | previous, [] => (matchParts previous parts []).map fun length => (0, length)
  | previous, c :: rest =>
    match matchParts previous parts (c :: rest) with
    | some length => some (0, length)
    | none => (exec parts (some c) rest).map fun (index, length) => (index + 1, length)

/-- `\bwithFluxFast\s*\(`. -/
def wrapperPattern : List PatternPart :=
  [.boundary, .text (jsText "withFluxFast"), .spaces 0, .text (jsText "(")]

/-- `\bmodule\s*\.\s*exports\s*=`. -/
def commonJsPattern : List PatternPart :=
  [.boundary, .text (jsText "module"), .spaces 0, .text (jsText "."), .spaces 0,
    .text (jsText "exports"), .spaces 0, .text (jsText "=")]

/-- `\bexport\s+default\b`. -/
def defaultPattern : List PatternPart :=
  [.boundary, .text (jsText "export"), .spaces 1, .text (jsText "default"), .boundary]

/-! ## The rewrite -/

inductive NextConfigFormat
  | ts
  | js
  | mjs
  | cjs
  deriving DecidableEq

inductive Status
  | modified
  | unchanged
  | manual
  deriving DecidableEq

structure NextConfigTransform where
  status : Status
  content : JsString
  reason : Option String := none
  deriving DecidableEq

def trim (text : JsString) : JsString := (text.dropWhile isSpace).rdropWhile isSpace

/-- `/^[A-Za-z_$][\w$]*$/`. -/
def isIdentifier : JsString → Bool
  | [] => false
  | c :: rest =>
    ((isWord c && !(0x30 ≤ c.toNat && c.toNat ≤ 0x39)) || c = dollarSign) &&
      rest.all fun c => isWord c || c = dollarSign

def isSafeConfigExpression (expression : JsString) : Bool :=
  let trimmed := trim expression
  isIdentifier trimmed ||
    (trimmed.head? = some openBrace && trimmed.getLast? = some closeBrace)

def importStatement (commonJs : Bool) : JsString :=
  if commonJs then
    jsText "const \x7b withFluxFast \x7d = require(\"@fluxfast/next/next-config\");"
  else jsText "import \x7b withFluxFast \x7d from \"@fluxfast/next/next-config\";"

def insertIntegrationImport (content : JsString) (commonJs : Bool) : JsString :=
  let bom := if content.head? = some byteOrderMark then [byteOrderMark] else []
  bom ++ (importStatement commonJs ++ lineFeed :: content.drop bom.length)

def isWrapped (content : JsString) : Bool :=
  (exec wrapperPattern none (maskStringsAndComments content)).isSome

def isCommonJs (content : JsString) (format : NextConfigFormat) : Bool :=
  format = .cjs || (exec commonJsPattern none (maskStringsAndComments content)).isSome

/-- The end of the match of `module.exports =` or `export default`. -/
def expressionStart (content : JsString) (format : NextConfigFormat) : Option Nat :=
  (exec (if isCommonJs content format then commonJsPattern else defaultPattern) none
    (maskStringsAndComments content)).map fun (index, length) => index + length

def exportedExpression (content : JsString) (start : Nat) : JsString :=
  trim ((content.take (findExpressionEnd content start)).drop start)

def call : JsString := jsText " withFluxFast("

def missingExport : String :=
  "FluxFast could not find a supported default Next configuration export."

def unsupportedExport : String :=
  "FluxFast detected an existing configuration wrapper or unsupported export expression and " ++
    "cannot safely determine wrapper ordering."

def transformNextConfig (content : JsString) (format : NextConfigFormat) : NextConfigTransform :=
  if isWrapped content then { status := .unchanged, content }
  else
    match expressionStart content format with
    | none => { status := .manual, content, reason := some missingExport }
    | some start =>
      let expression := exportedExpression content start
      if !isSafeConfigExpression expression then
        { status := .manual, content, reason := some unsupportedExport }
      else
        { status := .modified
          content := insertIntegrationImport
            (content.take start ++ (call ++ (expression ++ closeParenthesis ::
              content.drop (findExpressionEnd content start))))
            (isCommonJs content format) }

/-! ## What a rewrite promises -/

/-- The source from the exported expression on. -/
def exportText (content : JsString) (start : Nat) : JsString :=
  (content.drop start).dropWhile isSpace

/-- The exported expression, as JavaScript reads it, is an object literal and all of the text. -/
def IsObjectLiteral (content : JsString) (start : Nat) (text : JsString) : Prop :=
  Script.objectLength (exportText content start) = some text.length

/-- The text between `leading` and `trailing` is wrapped, and but for these two the source is what
remains without the import line and the call. -/
structure Wraps (content result expression : JsString) (start : Nat) : Prop where
  recovered : ∃ bom before leading trailing after commonJs, bom ++ before = content.take start ∧
    content = bom ++ (before ++ (leading ++ (expression ++ (trailing ++ after)))) ∧
    result = bom ++ (importStatement commonJs ++ lineFeed ::
      (before ++ (call ++ (expression ++ closeParenthesis :: after)))) ∧
    leading.all isSpace = true ∧ trailing.all isSpace = true ∧
    (after = [] ∨ after.head? = some semicolon)

/-- The match that the expression follows is code, as JavaScript reads the file. -/
def isCode (content : JsString) (start : Nat) : Bool :=
  Script.readsCode (content.take start) (content.drop start)

/-- A reversible and idempotent rewrite of the whole expression of an export, or none. -/
structure Lawful (content : JsString) (format : NextConfigFormat) : Prop where
  modified : (transformNextConfig content format).status = .modified →
    ∃ start, expressionStart content format = some start ∧ isCode content start = true ∧
      Wraps content (transformNextConfig content format).content
        (exportedExpression content start) start ∧
      (isIdentifier (exportedExpression content start) = true ∨
        IsObjectLiteral content start (exportedExpression content start)) ∧
      transformNextConfig (transformNextConfig content format).content format =
        { status := .unchanged, content := (transformNextConfig content format).content }
  otherwise : (transformNextConfig content format).status ≠ .modified →
    (transformNextConfig content format).content = content

/-- The state of the scanner and the open brackets after a text that `next` follows, if the scanner
finds no end of an expression in it. -/
def readThrough (next : Option UInt16) : Scanner → Depths → JsString → Option (Scanner × Depths)
  | s, d, [] => some (s, d)
  | s, d, c :: rest =>
    let shows := s.shows c (rest.head?.or next)
    if shows ∧ c = semicolon ∧ d = {} then none
    else readThrough next (s.advance c (rest.head?.or next)) (if shows then d.count c else d) rest

/-- Only white space parts the first `n` units of the text from the end of the file, or from a
semicolon; up to there the scanner finds no end, and at the semicolon it finds one. -/
def Terminated (text : JsString) (n : Nat) : Prop :=
  let literal := text.take n ++ (text.drop n).takeWhile isSpace
  match (text.drop n).dropWhile isSpace with
  | [] => (readThrough none code {} literal).isSome = true
  | c :: _ => c = semicolon ∧ readThrough (some c) code {} literal = some (code, {})

/-- Where an identifier or a text between braces follows the match, the match is code, and in place
of the braces JavaScript reads an object literal that a semicolon or the end of the file
terminates. -/
def ExportTerminated (content : JsString) (format : NextConfigFormat) : Prop :=
  isWrapped content = false → ∀ start, expressionStart content format = some start →
    isSafeConfigExpression (exportedExpression content start) = true →
      isCode content start = true ∧ (isIdentifier (exportedExpression content start) = true ∨
        ∃ n, Script.objectLength (exportText content start) = some n ∧
          Terminated (exportText content start) n)

/-! ## Scanning -/

section Scanning

variable {next : Option UInt16} {s : Scanner} {c d : UInt16} {xs ys : JsString}

theorem head_or_append (xs ys : JsString) (next : Option UInt16) :
    (xs ++ ys).head?.or next = xs.head?.or (ys.head?.or next) := by
  cases xs <;> rfl

theorem scanned_append (s : Scanner) (xs ys : JsString) :
    scanned next s (xs ++ ys) = scanned next (scanned (ys.head?.or next) s xs) ys := by
  induction xs generalizing s with
  | nil => rfl
  | cons c xs ih =>
    show scanned next (s.advance c ((xs ++ ys).head?.or next)) (xs ++ ys) = _
    rw [ih, head_or_append]
    rfl

theorem maskFrom_append (s : Scanner) (xs ys : JsString) :
    maskFrom next s (xs ++ ys) = maskFrom (ys.head?.or next) s xs ++
      maskFrom next (scanned (ys.head?.or next) s xs) ys := by
  induction xs generalizing s with
  | nil => rfl
  | cons c xs ih =>
    show maskUnit s c ((xs ++ ys).head?.or next) ::
      maskFrom next (s.advance c ((xs ++ ys).head?.or next)) (xs ++ ys) = _
    rw [ih, head_or_append]
    rfl

@[simp] theorem length_maskFrom (s : Scanner) (xs : JsString) :
    (maskFrom next s xs).length = xs.length := by
  induction xs generalizing s with
  | nil => rfl
  | cons c xs ih => exact congrArg (· + 1) (ih _)

theorem length_mask (content : JsString) :
    (maskStringsAndComments content).length = content.length := length_maskFrom _ _

/-- A unit of the code with which no token begins. -/
theorem advance_plain (hslash : c ≠ slash) (hquote : c ∉ quotes) (next : Option UInt16) :
    code.advance c next = code := by
  show (if c = slash ∧ next = some slash then _ else if c = slash ∧ next = some star then _
    else if c ∈ quotes then _ else code) = code
  rw [if_neg fun h => hslash h.1, if_neg fun h => hslash h.1, if_neg hquote]

theorem shows_plain (hslash : c ≠ slash) (hquote : c ∉ quotes) (next : Option UInt16) :
    code.shows c next = true := by
  unfold Scanner.shows
  rw [advance_plain hslash hquote]
  decide

theorem plain_text (h : ∀ c ∈ xs, c ≠ slash ∧ c ∉ quotes) (next : Option UInt16) :
    maskFrom next code xs = xs ∧ scanned next code xs = code := by
  induction xs with
  | nil => exact ⟨rfl, rfl⟩
  | cons c xs ih =>
    obtain ⟨hslash, hquote⟩ := h c List.mem_cons_self
    have hrest := ih fun d hd => h d (List.mem_cons_of_mem _ hd)
    have hadvance := advance_plain hslash hquote (xs.head?.or next)
    constructor
    · show maskUnit code c _ :: maskFrom next (code.advance c _) xs = _
      rw [hadvance, hrest.1, maskUnit, if_pos (shows_plain hslash hquote _)]
    · show scanned next (code.advance c _) xs = _
      rw [hadvance, hrest.2]

/-- A masked unit that is no blank is itself, and the code goes on after it. -/
theorem shown_of_maskUnit (h : maskUnit s c next = d) (hspace : d ≠ space) (hline : d ≠ lineFeed) :
    c = d ∧ s = code ∧ s.advance c next = code := by
  unfold maskUnit at h
  split at h
  · next hshows =>
    unfold Scanner.shows at hshows
    rw [Bool.and_eq_true, decide_eq_true_eq, decide_eq_true_eq] at hshows
    exact ⟨h, hshows⟩
  · split at h
    · exact absurd h.symm hline
    · exact absurd h.symm hspace

end Scanning

/-! ## Matches -/

/-- The texts that a pattern takes up, whatever stands around them. -/
def Consumed : List PatternPart → JsString → Prop
  | [], m => m = []
  | .boundary :: parts, m => Consumed parts m
  | .text t :: parts, m => ∃ rest, m = t ++ rest ∧ Consumed parts rest
  | .spaces _ :: parts, m => ∃ run rest, m = run ++ rest ∧ Consumed parts rest

theorem consumed_of_match {parts : List PatternPart} {previous : Option UInt16} {text : JsString}
    {n : Nat} (h : matchParts previous parts text = some n) :
    n ≤ text.length ∧ Consumed parts (text.take n) := by
  -- induction on the pattern: each part takes its piece from the front of the text
  induction parts generalizing previous text n with
  | nil =>
    unfold matchParts at h
    obtain rfl := Option.some.inj h
    exact ⟨Nat.zero_le _, rfl⟩
  | cons part parts ih =>
    cases part with
    -- a boundary takes nothing
    | boundary =>
      unfold matchParts at h
      split at h
      · exact ih h
      · cases h
    | text t =>
      unfold matchParts at h
      split at h
      · next hprefix =>
        obtain ⟨rest, rfl⟩ := List.isPrefixOf_iff_prefix.mp hprefix
        obtain ⟨k, hk, rfl⟩ := Option.map_eq_some_iff.mp h
        rw [List.drop_left] at hk
        obtain ⟨hle, hconsumed⟩ := ih hk
        rw [List.length_append]
        refine ⟨by omega, rest.take k, ?_, hconsumed⟩
        rw [List.take_append, List.take_of_length_le (by omega), Nat.add_sub_cancel_left]
      · cases h
    -- the blanks are taken greedily, and the rest of the pattern goes on behind them
    | spaces least =>
      simp only [matchParts] at h
      split at h
      · cases h
      · obtain ⟨k, hk, rfl⟩ := Option.map_eq_some_iff.mp h
        obtain ⟨hle, hconsumed⟩ := ih hk
        have htext : text.takeWhile isSpace ++ text.drop (text.takeWhile isSpace).length = text := by
          rw [← List.prefix_iff_eq_append]
          exact List.takeWhile_prefix _
        have hlength := congrArg List.length htext
        rw [List.length_append] at hlength
        refine ⟨by omega, text.takeWhile isSpace,
          (text.drop (text.takeWhile isSpace).length).take k, ?_, hconsumed⟩
        rw [← List.take_append_drop (text.takeWhile isSpace).length (text.take _), List.take_take,
          List.drop_take, Nat.min_eq_left (by omega), Nat.add_sub_cancel_left,
          ← List.prefix_iff_eq_take.mp (List.takeWhile_prefix _)]

theorem consumed_of_exec {parts : List PatternPart} {previous : Option UInt16} {text : JsString}
    {i n : Nat} (h : exec parts previous text = some (i, n)) :
    i + n ≤ text.length ∧ Consumed parts ((text.drop i).take n) := by
  induction text generalizing previous i with
  | nil =>
    obtain ⟨k, hk, hpair⟩ := Option.map_eq_some_iff.mp h
    obtain ⟨rfl, rfl⟩ := Prod.mk.inj hpair
    rw [Nat.zero_add]
    exact consumed_of_match hk
  | cons c rest ih =>
    unfold exec at h
    split at h
    · next k hk =>
      obtain ⟨rfl, rfl⟩ := Prod.mk.inj (Option.some.inj h)
      rw [Nat.zero_add]
      exact consumed_of_match hk
    · obtain ⟨⟨j, k⟩, hexec, hpair⟩ := Option.map_eq_some_iff.mp h
      obtain ⟨rfl, rfl⟩ := Prod.mk.inj hpair
      obtain ⟨hle, hconsumed⟩ := ih hexec
      exact ⟨by rw [List.length_cons]; omega, hconsumed⟩

theorem exec_isSome {parts : List PatternPart} {previous : Option UInt16} (a b : JsString)
    (h : (matchParts (a.getLast?.or previous) parts b).isSome) :
    (exec parts previous (a ++ b)).isSome := by
  -- the match is tried at each place of the first text; the place after it succeeds at the latest
  induction a generalizing previous with
  | nil =>
    obtain ⟨n, hn⟩ := Option.isSome_iff_exists.mp h
    replace hn : matchParts previous parts b = some n := hn
    show (exec parts previous b).isSome
    cases b with
    | nil =>
      unfold exec
      rw [hn]
      rfl
    | cons c rest =>
      unfold exec
      rw [hn]
      rfl
  | cons c a ih =>
    have hprevious : (c :: a).getLast?.or previous = a.getLast?.or (some c) := by
      rw [List.getLast?_cons]
      cases a.getLast? <;> rfl
    rw [hprevious] at h
    have hrest := ih h
    rw [List.cons_append]
    unfold exec
    split
    · rfl
    · rw [Option.isSome_map]
      exact hrest

/-- Both exports end in a unit that a scanner takes for code: `=` or the `t` of `default`. -/
theorem consumed_last {m : JsString} {commonJs : Bool}
    (h : Consumed (if commonJs then commonJsPattern else defaultPattern) m) :
    [61] <:+ m ∨ [116] <:+ m := by
  cases commonJs with
  | true =>
    obtain ⟨-, rfl, run, -, rfl, -, rfl, run', -, rfl, -, rfl, run'', -, rfl, -, rfl, rfl⟩ := h
    have hequals : jsText "=" = [61] := by decide
    rw [hequals, List.append_nil]
    left
    iterate 6 apply List.suffix_append_of_suffix
    exact List.suffix_refl _
  | false =>
    obtain ⟨-, rfl, run, -, rfl, -, rfl, rfl⟩ := h
    have hdefault : jsText "default" = jsText "defaul" ++ [116] := by decide
    rw [hdefault, List.append_nil]
    right
    iterate 3 apply List.suffix_append_of_suffix
    exact List.suffix_refl _

/-- After the match the code goes on, whatever follows. -/
theorem start_spec {content : JsString} {format : NextConfigFormat} {start : Nat}
    (h : expressionStart content format = some start) :
    start ≤ content.length ∧ content.take start ≠ [] ∧
      ∀ next, scanned next code (content.take start) = code := by
  obtain ⟨⟨i, n⟩, hexec, rfl⟩ := Option.map_eq_some_iff.mp h
  obtain ⟨hle, hconsumed⟩ := consumed_of_exec hexec
  rw [length_mask] at hle
  -- the last masked unit of what goes before the expression
  have hlast : ∃ d, [d] <:+ (maskStringsAndComments content).take (i + n) ∧ (d = 61 ∨ d = 116) := by
    rw [List.take_add]
    rcases consumed_last hconsumed with hd | hd
    · exact ⟨61, List.suffix_append_of_suffix hd, .inl rfl⟩
    · exact ⟨116, List.suffix_append_of_suffix hd, .inr rfl⟩
  obtain ⟨d, ⟨before, hbefore⟩, hd⟩ := hlast
  dsimp only
  generalize i + n = start at hle hbefore
  have hmasked : (maskStringsAndComments content).take start =
      maskFrom ((content.drop start).head?.or none) code (content.take start) := by
    have hwhole : maskStringsAndComments content =
        maskFrom none code (content.take start ++ content.drop start) := by
      rw [List.take_append_drop]
      rfl
    rw [hwhole, maskFrom_append, List.take_append_of_le_length, List.take_of_length_le]
    · rw [length_maskFrom, List.length_take]
      omega
    · rw [length_maskFrom, List.length_take]
      omega
  rw [hmasked] at hbefore
  have hne : content.take start ≠ [] := by
    intro hnil
    rw [hnil] at hbefore
    exact List.cons_ne_nil _ _ (List.append_eq_nil_iff.mp hbefore).2
  obtain ⟨front, c, hfront⟩ := (List.eq_nil_or_concat' (content.take start)).resolve_left hne
  refine ⟨hle, hne, fun next => ?_⟩
  rw [hfront, maskFrom_append] at hbefore
  have hunit := List.append_inj_right' hbefore.symm rfl
  obtain ⟨rfl, hcode, -⟩ := shown_of_maskUnit (List.singleton_inj.mp hunit)
    (by rcases hd with rfl | rfl <;> decide) (by rcases hd with rfl | rfl <;> decide)
  rw [hfront, scanned_append]
  show (scanned (some c) code front).advance c next = code
  have hslash : c ≠ slash ∧ c ∉ quotes := by
    rcases hd with rfl | rfl <;> decide
  rw [show scanned (some c) code front = code from hcode]
  exact advance_plain hslash.1 hslash.2 next

/-! ## Parts of the source -/

theorem expressionLength_spec (s : Scanner) (d : Depths) (text : JsString) :
    expressionLength s d text ≤ text.length ∧
      (text.drop (expressionLength s d text) = [] ∨
        (text.drop (expressionLength s d text)).head? = some semicolon) := by
  induction text generalizing s d with
  | nil => exact ⟨Nat.le_refl _, .inl rfl⟩
  | cons c rest ih =>
    unfold expressionLength
    split
    · split
      · next hend => exact ⟨Nat.zero_le _, .inr (congrArg some hend.1)⟩
      · exact ⟨Nat.succ_le_succ (ih _ _).1, (ih _ _).2⟩
    · exact ⟨Nat.succ_le_succ (ih _ _).1, (ih _ _).2⟩

theorem trim_parts (text : JsString) : ∃ leading trailing,
    text = leading ++ (trim text ++ trailing) ∧ leading.all isSpace = true ∧
      trailing.all isSpace = true := by
  refine ⟨text.takeWhile isSpace, (text.dropWhile isSpace).rtakeWhile isSpace, ?_, ?_, ?_⟩
  · rw [trim, List.rdropWhile_append_rtakeWhile, List.takeWhile_append_dropWhile]
  · exact List.all_eq_true.mpr fun c hc => List.mem_takeWhile_imp hc
  · exact List.all_eq_true.mpr fun c hc => List.mem_rtakeWhile_imp hc

theorem trim_trim (text : JsString) : trim (trim text) = trim text := by
  have hhead : (trim text).dropWhile isSpace = trim text := by
    obtain ⟨dropped, hdropped⟩ : trim text <+: text.dropWhile isSpace := List.rdropWhile_prefix _ _
    have hfirst := List.head?_dropWhile_not isSpace text
    cases htrim : trim text with
    | nil => rfl
    | cons c rest =>
      rw [← hdropped, htrim] at hfirst
      exact List.dropWhile_cons_of_neg (Bool.not_eq_true _ ▸ hfirst)
  rw [trim, hhead]
  exact List.rdropWhile_idempotent _ _

/-- The source around the expression. -/
theorem content_parts (content : JsString) (start : Nat) :
    ∃ leading trailing after,
      content = content.take start ++
        (leading ++ (exportedExpression content start ++ (trailing ++ after))) ∧
      after = content.drop (findExpressionEnd content start) ∧ leading.all isSpace = true ∧
      trailing.all isSpace = true ∧ (after = [] ∨ after.head? = some semicolon) := by
  obtain ⟨leading, trailing, htrim, hleading, htrailing⟩ :=
    trim_parts ((content.take (findExpressionEnd content start)).drop start)
  obtain ⟨hle, hend⟩ := expressionLength_spec code {} (content.drop start)
  refine ⟨leading, trailing, _, ?_, rfl, hleading, htrailing, ?_⟩
  · have hslice : (content.take (findExpressionEnd content start)).drop start ++
        content.drop (findExpressionEnd content start) = content.drop start := by
      rw [List.drop_take, findExpressionEnd, Nat.add_sub_cancel_left, ← List.drop_drop,
        List.take_append_drop]
    conv_lhs => rw [← List.take_append_drop start content, ← hslice]
    rw [List.append_cancel_left_eq]
    conv_lhs => rw [htrim]
    rw [List.append_assoc, List.append_assoc]
    rfl
  · rw [findExpressionEnd, ← List.drop_drop]
    exact hend

/-! ## The second rewrite -/

theorem importStatement_code (commonJs : Bool) (next : Option UInt16) :
    scanned next code (importStatement commonJs ++ [lineFeed]) = code := by
  rw [scanned_append]
  have hstatement : scanned (some lineFeed) code (importStatement commonJs) = code := by
    cases commonJs <;> decide
  show (scanned (some lineFeed) code (importStatement commonJs)).advance lineFeed next = code
  rw [hstatement]
  exact advance_plain (by decide) (by decide) next

theorem matches_wrapper (text : JsString) :
    (matchParts (some space) wrapperPattern (jsText "withFluxFast(" ++ text)).isSome := by
  have hname : jsText "withFluxFast" = [119, 105, 116, 104, 70, 108, 117, 120, 70, 97, 115, 116] := by
    decide
  have hcall : jsText "withFluxFast(" =
      [119, 105, 116, 104, 70, 108, 117, 120, 70, 97, 115, 116, 40] := by
    decide
  have hopen : jsText "(" = [40] := by decide
  rw [wrapperPattern, hname, hcall, hopen]
  rfl

/-- A call of `withFluxFast` that stands in the code is found. -/
theorem isWrapped_call {front : JsString} (hfront : ∀ next, scanned next code front = code)
    (text : JsString) : isWrapped (front ++ (call ++ text)) = true := by
  have hall : call.all (fun c => c ≠ slash && c ∉ quotes) = true := by decide
  have hplain : ∀ c ∈ call, c ≠ slash ∧ c ∉ quotes := fun c hc => by
    simpa using List.all_eq_true.mp hall c hc
  have hcall : call = space :: jsText "withFluxFast(" := by decide
  have hmask : maskStringsAndComments (front ++ (call ++ text)) =
      (maskFrom ((call ++ text).head?.or none) code front ++ [space]) ++
        (jsText "withFluxFast(" ++ maskFrom none code text) := by
    rw [maskStringsAndComments, maskFrom_append, hfront, maskFrom_append, (plain_text hplain _).1,
      (plain_text hplain _).2, hcall, List.append_assoc]
    rfl
  rw [isWrapped, hmask]
  apply exec_isSome
  rw [List.getLast?_append_of_ne_nil _ (List.cons_ne_nil _ _)]
  exact matches_wrapper _

/-- The import and what goes before the expression are code to their ends. -/
theorem isWrapped_insert {front : JsString} (hne : front ≠ [])
    (hfront : ∀ next, scanned next code front = code) (text : JsString) (commonJs : Bool) :
    isWrapped (insertIntegrationImport (front ++ (call ++ text)) commonJs) = true ∧
      ∃ bom before, bom ++ before = front ∧
        insertIntegrationImport (front ++ (call ++ text)) commonJs =
          bom ++ (importStatement commonJs ++ lineFeed :: (before ++ (call ++ text))) := by
  have hmark : ∀ next, code.advance byteOrderMark next = code := advance_plain (by decide) (by decide)
  have hrewritten : ∀ before : JsString, (∀ next, scanned next code before = code) →
      ∀ next, scanned next code ((importStatement commonJs ++ [lineFeed]) ++ before) = code := by
    intro before hbefore next
    rw [scanned_append, importStatement_code, hbefore]
  -- a byte order mark stays in front of the inserted import
  obtain ⟨c, before, rfl⟩ := List.exists_cons_of_ne_nil hne
  by_cases hc : c = byteOrderMark
  · subst hc
    have hbefore : ∀ next, scanned next code before = code := fun next => by
      have hwhole := hfront next
      rw [scanned, hmark] at hwhole
      exact hwhole
    have hinsert : insertIntegrationImport (byteOrderMark :: before ++ (call ++ text)) commonJs =
        [byteOrderMark] ++ (importStatement commonJs ++ lineFeed :: (before ++ (call ++ text))) := rfl
    refine ⟨?_, [byteOrderMark], before, rfl, hinsert⟩
    rw [hinsert]
    have hmarked : ∀ next, scanned next code
        (byteOrderMark :: ((importStatement commonJs ++ [lineFeed]) ++ before)) = code := fun next => by
      rw [scanned, hmark]
      exact hrewritten before hbefore next
    have hwrapped := isWrapped_call hmarked text
    simpa only [List.append_assoc, List.cons_append, List.nil_append] using hwrapped
  -- no byte order mark: the import is the first line
  · have hinsert : insertIntegrationImport (c :: before ++ (call ++ text)) commonJs =
        [] ++ (importStatement commonJs ++ lineFeed :: (c :: before ++ (call ++ text))) := by
      have hmissing : (c :: before ++ (call ++ text)).head? ≠ some byteOrderMark := fun h =>
        hc (Option.some.inj h)
      simp only [insertIntegrationImport]
      rw [if_neg hmissing]
      rfl
    refine ⟨?_, [], c :: before, rfl, hinsert⟩
    rw [hinsert]
    have hwrapped := isWrapped_call (hrewritten (c :: before) hfront) text
    simpa only [List.append_assoc, List.cons_append, List.nil_append] using hwrapped

/-! ## Where the scanner finds an end -/

section Ends

variable {s t : Scanner} {d e : Depths} {xs ys : JsString} {next : Option UInt16}

theorem expressionLength_append (h : readThrough ys.head? s d xs = some (t, e)) :
    expressionLength s d (xs ++ ys) = xs.length + expressionLength t e ys := by
  induction xs generalizing s d with
  | nil =>
    obtain ⟨rfl, rfl⟩ := Prod.mk.inj (Option.some.inj h)
    exact (Nat.zero_add _).symm
  | cons c xs ih =>
    have hnext : (xs ++ ys).head? = xs.head?.or ys.head? := List.head?_append
    simp only [readThrough] at h
    split at h
    · cases h
    · next hgoes =>
      have hrest := ih h
      rw [List.cons_append, expressionLength, List.length_cons, hnext]
      split
      · next hshows =>
        rw [hshows] at hgoes hrest
        rw [if_neg fun hend => hgoes ⟨rfl, hend⟩]
        rw [if_pos rfl] at hrest
        omega
      · next hshows =>
        rw [if_neg hshows] at hrest
        omega

/-- Up to the end that it finds the scanner reads through, and there it is in the code with no
bracket open. -/
theorem readThrough_take (s : Scanner) (d : Depths) (xs : JsString) :
    ∃ t e, readThrough (xs.drop (expressionLength s d xs)).head? s d
        (xs.take (expressionLength s d xs)) = some (t, e) ∧
      (xs.drop (expressionLength s d xs) ≠ [] → t = code ∧ e = {}) := by
  induction xs generalizing s d with
  | nil => exact ⟨s, d, rfl, fun hne => absurd rfl hne⟩
  | cons c xs ih =>
    -- the expression ends at a semicolon of the code outside all braces, or goes on
    by_cases hend : s.shows c xs.head? = true ∧ c = semicolon ∧ d = {}
    · have hlength : expressionLength s d (c :: xs) = 0 := by
        rw [expressionLength, if_pos hend.1, if_pos hend.2]
      have hcode : s = code := by
        have hshows := (Bool.and_eq_true_iff.mp hend.1).1
        exact of_decide_eq_true hshows
      rw [hlength]
      exact ⟨s, d, rfl, fun _ => ⟨hcode, hend.2.2⟩⟩
    · set s' := s.advance c xs.head? with hs'
      set d' := if s.shows c xs.head? then d.count c else d with hd'
      -- the length counts the character just read
      have hlength : expressionLength s d (c :: xs) = expressionLength s' d' xs + 1 := by
        rw [expressionLength]
        split
        · next hshows =>
          rw [if_neg fun h => hend ⟨hshows, h⟩, hd', if_pos hshows]
        · next hshows => rw [hd', if_neg hshows]
      obtain ⟨t, e, hread, hstops⟩ := ih s' d'
      -- the next character is the same whether the rest is cut or not
      have hnext : (xs.take (expressionLength s' d' xs)).head?.or
          (xs.drop (expressionLength s' d' xs)).head? = xs.head? := by
        rw [← List.head?_append, List.take_append_drop]
      rw [hlength, List.take_succ_cons, List.drop_succ_cons]
      refine ⟨t, e, ?_, hstops⟩
      simp only [readThrough, hnext]
      rw [if_neg hend]
      exact hread

theorem plain_of_isSpace {c : UInt16} (h : isSpace c = true) :
    c ≠ slash ∧ c ∉ quotes ∧ c ≠ semicolon ∧ ∀ d : Depths, d.count c = d := by
  have hne : ∀ x : UInt16, isSpace x = false → c ≠ x := by
    rintro x hx rfl
    rw [h] at hx
    cases hx
  refine ⟨hne _ (by decide), fun hmem => ?_, hne _ (by decide), fun d => ?_⟩
  · have hquotes : quotes.all (fun x => !isSpace x) = true := by decide
    have hquote := List.all_eq_true.mp hquotes c hmem
    rw [h] at hquote
    cases hquote
  · rw [Depths.count, if_neg (hne _ (by decide)), if_neg (hne _ (by decide)),
      if_neg (hne _ (by decide)), if_neg (hne _ (by decide)), if_neg (hne _ (by decide)),
      if_neg (hne _ (by decide))]

/-- White space in the code leaves the scanner where it is. -/
theorem readThrough_space (hspace : xs.all isSpace = true) :
    readThrough next code d xs = some (code, d) := by
  induction xs with
  | nil => rfl
  | cons c xs ih =>
    rw [List.all_cons, Bool.and_eq_true] at hspace
    obtain ⟨hslash, hquote, hsemicolon, hcount⟩ := plain_of_isSpace hspace.1
    simp only [readThrough, shows_plain hslash hquote, advance_plain hslash hquote, hcount, if_true]
    rw [if_neg fun h => hsemicolon h.2.1]
    exact ih hspace.2

end Ends

/-! ## The expression and what stands around it -/

section Around

variable {text leading trailing after : JsString}

theorem dropWhile_leading (hleading : leading.all isSpace = true)
    (hhead : text.head?.all (fun c => !isSpace c) = true) :
    (leading ++ text).dropWhile isSpace = text := by
  rw [List.dropWhile_append_of_pos (List.all_eq_true.mp hleading)]
  cases text with
  | nil => rfl
  | cons c rest =>
    apply List.dropWhile_cons_of_neg
    simpa using hhead

theorem takeWhile_leading (hleading : leading.all isSpace = true)
    (hhead : text.head?.all (fun c => !isSpace c) = true) :
    (leading ++ text).takeWhile isSpace = leading := by
  rw [List.takeWhile_append_of_pos (List.all_eq_true.mp hleading)]
  cases text with
  | nil => exact List.append_nil leading
  | cons c rest =>
    rw [List.takeWhile_cons_of_neg (by simpa using hhead), List.append_nil]

/-- A text with no white space at its ends is what remains of it with white space behind. -/
theorem trim_trailing (htrailing : trailing.all isSpace = true)
    (hhead : text.head?.all (fun c => !isSpace c) = true)
    (hlast : text.getLast?.all (fun c => !isSpace c) = true) (hne : text ≠ []) :
    trim (text ++ trailing) = text := by
  have hhead' : (text ++ trailing).head?.all (fun c => !isSpace c) = true := by
    rw [List.head?_append_of_ne_nil _ hne]
    exact hhead
  -- nothing goes in front, and behind the white space only
  have hfront : (text ++ trailing).dropWhile isSpace = text ++ trailing := by
    have hnone : ([] : JsString).all isSpace = true := rfl
    exact dropWhile_leading hnone hhead'
  have hreverse : text.reverse.head?.all (fun c => !isSpace c) = true := by
    rw [List.head?_reverse]
    exact hlast
  have hback : (text ++ trailing).reverse.dropWhile isSpace = text.reverse := by
    rw [List.reverse_append]
    exact dropWhile_leading (by rw [List.all_reverse]; exact htrailing) hreverse
  rw [trim, hfront, List.rdropWhile, hback, List.reverse_reverse]

end Around

theorem brace_not_space : isSpace openBrace = false ∧ isSpace closeBrace = false := by decide

theorem head_all_not_space {text : JsString} (h : text.head? = some openBrace) :
    text.head?.all (fun c => !isSpace c) = true := by
  rw [h]
  exact congrArg (!·) brace_not_space.1

theorem getLast_all_not_space {text : JsString} (h : text.getLast? = some closeBrace) :
    text.getLast?.all (fun c => !isSpace c) = true := by
  rw [h]
  exact congrArg (!·) brace_not_space.2

theorem after_all_not_space {after : JsString} (h : after = [] ∨ after.head? = some semicolon) :
    after.head?.all (fun c => !isSpace c) = true := by
  rcases h with rfl | h
  · rfl
  · rw [h]
    decide

/-- Where the exported expression begins with a brace, the scanner reads it and the white space
behind it from the start of the text on. -/
theorem exportText_parts {content : JsString} {start : Nat}
    (hhead : (exportedExpression content start).head? = some openBrace) :
    ∃ trailing after,
      exportText content start = exportedExpression content start ++ (trailing ++ after) ∧
      trailing.all isSpace = true ∧ (after = [] ∨ after.head? = some semicolon) ∧
      expressionLength code {} (exportText content start) =
        (exportedExpression content start).length + trailing.length := by
  obtain ⟨leading, trailing, after, hcontent, hafter, hleading, htrailing, hend⟩ :=
    content_parts content start
  have hdrop : content.drop start =
      leading ++ (exportedExpression content start ++ (trailing ++ after)) := by
    have htake := (List.take_append_drop start content).trans hcontent
    exact List.append_cancel_left htake
  have hfirst : (exportedExpression content start ++ (trailing ++ after)).head? =
      some openBrace := by
    rw [List.head?_append, hhead]
    rfl
  have htext : exportText content start =
      exportedExpression content start ++ (trailing ++ after) := by
    rw [exportText, hdrop]
    exact dropWhile_leading hleading (head_all_not_space hfirst)
  have hlead : (content.drop start).takeWhile isSpace = leading := by
    rw [hdrop]
    exact takeWhile_leading hleading (head_all_not_space hfirst)
  refine ⟨trailing, after, htext, htrailing, hend, ?_⟩
  -- the scanner passes the white space in front and comes to the brace in the code
  have hread : readThrough (exportText content start).head? code {} leading = some (code, {}) :=
    readThrough_space hleading
  have hlength := expressionLength_append hread
  rw [htext, ← hdrop] at hlength
  have hrest : (exportText content start).drop
      (expressionLength code {} (exportText content start)) = after := by
    rw [hafter, findExpressionEnd, hlength, ← List.drop_drop, hdrop, ← List.drop_drop,
      List.drop_left, htext]
  have hle := (expressionLength_spec code {} (exportText content start)).1
  have hcount := congrArg List.length hrest
  have htotal := congrArg List.length htext
  rw [List.length_drop] at hcount
  rw [List.length_append, List.length_append] at htotal
  omega

/-- What ends at a semicolon or with the file has the length that the scanner finds. -/
theorem expressionLength_terminated {text : JsString} {n : Nat} (hle : n ≤ text.length)
    (h : Terminated text n) :
    expressionLength code {} text = n + ((text.drop n).takeWhile isSpace).length := by
  -- the literal, the blanks behind it, and what stands after these
  have hparts : text = text.take n ++ (text.drop n).takeWhile isSpace ++
      (text.drop n).dropWhile isSpace := by
    rw [List.append_assoc, List.takeWhile_append_dropWhile, List.take_append_drop]
  have hlength : (text.take n ++ (text.drop n).takeWhile isSpace).length =
      n + ((text.drop n).takeWhile isSpace).length := by
    rw [List.length_append, List.length_take, Nat.min_eq_left hle]
  unfold Terminated at h
  dsimp only at h
  rw [← hlength]
  generalize (text.drop n).dropWhile isSpace = after at h hparts
  generalize text.take n ++ (text.drop n).takeWhile isSpace = literal at h hparts
  rw [hparts]
  -- the text ends there, or a semicolon does
  cases after with
  | nil =>
    obtain ⟨⟨t, e⟩, hread⟩ := Option.isSome_iff_exists.mp h
    have hread : readThrough ([] : JsString).head? code {} literal = some (t, e) := hread
    rw [expressionLength_append hread, expressionLength, Nat.add_zero]
  | cons c rest =>
    obtain ⟨rfl, hread⟩ := h
    have hread : readThrough (semicolon :: rest).head? code {} literal = some (code, {}) := hread
    have hstops : expressionLength code {} (semicolon :: rest) = 0 := by
      have hshows : code.shows semicolon rest.head? = true :=
        shows_plain (by decide) (by decide) _
      rw [expressionLength, if_pos hshows, if_pos ⟨rfl, rfl⟩]
    rw [expressionLength_append hread, hstops, Nat.add_zero]

/-- A literal that only white space parts from the end that the scanner finds is terminated. -/
theorem terminated_of_end {literal gap after : JsString} (hgap : gap.all isSpace = true)
    (hafter : after = [] ∨ after.head? = some semicolon)
    (hend : expressionLength code {} (literal ++ (gap ++ after)) = literal.length + gap.length) :
    Terminated (literal ++ (gap ++ after)) literal.length := by
  obtain ⟨t, e, hread, hstops⟩ := readThrough_take code {} (literal ++ (gap ++ after))
  have hsplit : literal ++ (gap ++ after) = (literal ++ gap) ++ after :=
    (List.append_assoc ..).symm
  rw [hend, ← List.length_append, hsplit, List.drop_left, List.take_left] at hread
  rw [hend, ← List.length_append, hsplit, List.drop_left] at hstops
  unfold Terminated
  rw [List.take_left, List.drop_left, takeWhile_leading hgap (after_all_not_space hafter),
    dropWhile_leading hgap (after_all_not_space hafter)]
  cases after with
  | nil => exact Option.isSome_iff_exists.mpr ⟨_, hread⟩
  | cons c rest =>
    obtain ⟨rfl, rfl⟩ := hstops (List.cons_ne_nil c rest)
    refine ⟨?_, hread⟩
    rcases hafter with hnil | hhead
    · cases hnil
    · exact Option.some.inj hhead

/-- The expression is an object literal exactly where the literal of the export is terminated. -/
theorem isObjectLiteral_iff {content : JsString} {start : Nat}
    (hhead : (exportedExpression content start).head? = some openBrace)
    (hlast : (exportedExpression content start).getLast? = some closeBrace) :
    IsObjectLiteral content start (exportedExpression content start) ↔
      ∃ n, Script.objectLength (exportText content start) = some n ∧
        Terminated (exportText content start) n := by
  obtain ⟨trailing, after, htext, htrailing, hafter, hend⟩ := exportText_parts hhead
  have hne : exportedExpression content start ≠ [] := by
    intro hnil
    rw [hnil] at hhead
    cases hhead
  constructor
  · intro hobject
    refine ⟨_, hobject, ?_⟩
    rw [htext] at hend ⊢
    exact terminated_of_end htrailing hafter hend
  · rintro ⟨n, hobject, hterminated⟩
    obtain ⟨inner, rest, hliteral, hn⟩ := Script.objectLength_spec hobject
    have hparts : exportText content start =
        (Script.curlyOpen :: (inner ++ [Script.curlyClose])) ++ rest := by
      rw [hliteral]
      simp
    have hlength : (Script.curlyOpen :: (inner ++ [Script.curlyClose])).length = n := by
      rw [hn]
      simp
    have hle : n ≤ (exportText content start).length := by
      rw [hparts, List.length_append, hlength]
      omega
    have hmeasure := expressionLength_terminated hle hterminated
    -- the expression and the literal are one text, each with white space behind it
    have hsame : exportedExpression content start ++ trailing =
        (Script.curlyOpen :: (inner ++ [Script.curlyClose])) ++ rest.takeWhile isSpace := by
      have hscanned : (exportText content start).take
          (expressionLength code {} (exportText content start)) =
          exportedExpression content start ++ trailing := by
        rw [hend, ← List.length_append, htext, ← List.append_assoc, List.take_left]
      rw [← hscanned, hmeasure, hparts, ← hlength, List.drop_left, List.take_length_add_append]
      congr 1
      exact (List.prefix_iff_eq_take.mp (List.takeWhile_prefix _)).symm
    have hgap : (rest.takeWhile isSpace).all isSpace = true :=
      List.all_eq_true.mpr fun c hc => List.mem_takeWhile_imp hc
    have hexported := trim_trailing htrailing (head_all_not_space hhead)
      (getLast_all_not_space hlast) hne
    have hbraces : trim ((Script.curlyOpen :: (inner ++ [Script.curlyClose])) ++
        rest.takeWhile isSpace) = Script.curlyOpen :: (inner ++ [Script.curlyClose]) := by
      apply trim_trailing hgap
      · exact head_all_not_space rfl
      · apply getLast_all_not_space
        rw [← List.cons_append, List.getLast?_concat]
        rfl
      · exact List.cons_ne_nil _ _
    have hequal : exportedExpression content start =
        Script.curlyOpen :: (inner ++ [Script.curlyClose]) := by
      rw [← hexported, hsame, hbraces]
    rw [IsObjectLiteral, hobject, hequal, hlength]

/-! ## Every rewrite -/

theorem isSafe_exported (content : JsString) (start : Nat) :
    isSafeConfigExpression (exportedExpression content start) = true ↔
      isIdentifier (exportedExpression content start) = true ∨
        ((exportedExpression content start).head? = some openBrace ∧
          (exportedExpression content start).getLast? = some closeBrace) := by
  have htrim : trim (exportedExpression content start) = exportedExpression content start :=
    trim_trim _
  simp only [isSafeConfigExpression]
  rw [htrim, Bool.or_eq_true, Bool.and_eq_true, decide_eq_true_eq, decide_eq_true_eq]

/-- What the rewrite wraps, and that it is done for good. -/
theorem modified_spec {content : JsString} {format : NextConfigFormat} {start : Nat}
    (hwrapped : isWrapped content = false) (hstart : expressionStart content format = some start)
    (hsafe : isSafeConfigExpression (exportedExpression content start) = true) :
    (transformNextConfig content format).status = .modified ∧
      Wraps content (transformNextConfig content format).content
        (exportedExpression content start) start ∧
      transformNextConfig (transformNextConfig content format).content format =
        { status := .unchanged, content := (transformNextConfig content format).content } := by
  obtain ⟨-, hne, hcode⟩ := start_spec hstart
  obtain ⟨leading, trailing, after, hcontent, hafter, hleading, htrailing, hend⟩ :=
    content_parts content start
  have htransform : transformNextConfig content format =
      { status := .modified
        content := insertIntegrationImport (content.take start ++
          (call ++ (exportedExpression content start ++ closeParenthesis :: after)))
          (isCommonJs content format) } := by
    unfold transformNextConfig
    rw [hwrapped, hstart]
    simp only [Bool.false_eq_true, if_false, hsafe, Bool.not_true]
    rw [hafter]
  -- the call just written makes the text one that is already wrapped
  obtain ⟨hdone, bom, before, hbefore, hinsert⟩ := isWrapped_insert hne hcode
    (exportedExpression content start ++ closeParenthesis :: after) (isCommonJs content format)
  rw [htransform]
  refine ⟨rfl, ⟨bom, before, leading, trailing, after, _, hbefore, ?_, hinsert, hleading, htrailing,
    hend⟩, ?_⟩
  · rw [← List.append_assoc, hbefore]
    exact hcontent
  -- so a second run changes nothing
  · rw [transformNextConfig, if_pos hdone]

theorem not_modified {content : JsString} {format : NextConfigFormat}
    (h : (transformNextConfig content format).status ≠ .modified) :
    (transformNextConfig content format).content = content := by
  unfold transformNextConfig at h ⊢
  split
  · rfl
  · next hwrapped =>
    rw [if_neg hwrapped] at h
    split
    · rfl
    · next start hstart =>
      rw [hstart] at h
      dsimp only at h ⊢
      split
      · rfl
      · next hsafe =>
        rw [if_neg hsafe] at h
        exact absurd rfl h

/-- An object, and a second export after it that ends in a brace, too. -/
def twoExports : JsString := jsText "export default \x7ba:1\x7d\nexport const b = \x7b\x7d"

/-- The quotes of the regular expressions hide the line break from the scanner; JavaScript reads the
first export alone. -/
example :
    let content := jsText "export default \x7ba: /'/\x7d\nexport const b = \x7bc: /'/\x7d"
    exportText content 14 = exportedExpression content 14 ∧
      Script.objectLength (exportText content 14) = some 8 := by
  decide

example : ExportTerminated (jsText "export default \x7ba: [1, 2]\x7d ;\nrun();") .ts := by
  intro _ start hstart _
  have hfourteen : expressionStart (jsText "export default \x7ba: [1, 2]\x7d ;\nrun();") .ts =
      some 14 := by decide
  cases hfourteen.symm.trans hstart
  exact ⟨by decide, .inr ⟨11, by decide, rfl, by decide⟩⟩

/-- To the scanner the text of a regular expression is code. -/
example :
    let content := jsText "const r = /export default \x7b2\x7d;/"
    expressionStart content .ts = some 25 ∧ exportedExpression content 25 = jsText "\x7b2\x7d" ∧
      isCode content 25 = false := by
  decide

end NextConfig

end FluxFast.Setup
