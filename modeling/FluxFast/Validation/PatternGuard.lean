import FluxFast.Core.Text
import FluxFast.Theory.EcmaRegex
import Mathlib.Data.List.Infix
import Mathlib.Data.List.TakeWhile

/-!
# PatternGuard — which `pattern` constraints are run

`validationPatternError` tries five regular expressions on the pattern and then scans it once, keeping
track of escapes and character classes.  The compiler has a copy of its own.  What the guard accepts is
compared with the patterns that have these texts.
-/

namespace FluxFast.Validation

open FluxFast.Theory.EcmaRegex

/-! ## The guard -/

/-- `\\(?:[0-9]|k<|[wWdDsSpPbBAZ])` at the front of a text. -/
def unportableEscape : List Char → Bool
  | '\\' :: c :: rest =>
    c.isDigit || (c = 'k' && rest.head? = some '<') ||
      ['w', 'W', 'd', 'D', 's', 'S', 'p', 'P', 'b', 'B', 'A', 'Z'].contains c
  | _ => false

/-- `\\p\{` at the front of a text. -/
def propertyEscape : List Char → Bool
  | '\\' :: 'p' :: '\x7b' :: _ => true
  | _ => false

/-- `[a-zA-Z-]`. -/
def isFlag (c : Char) : Bool := c.isAlpha || c = '-'

/-- `\(\?(?:[=!]|<[=!]|[a-zA-Z-]+(?:\)|:|=|!))` at the front of a text. -/
def lookaroundOrFlags : List Char → Bool
  | '(' :: '?' :: '<' :: c :: _ => c = '=' || c = '!'
  | '(' :: '?' :: rest =>
    match rest.takeWhile isFlag, (rest.dropWhile isFlag).head? with
    | [], next => next = some '=' || next = some '!'
    | _ :: _, next => next = some ')' || next = some ':' || next = some '=' || next = some '!'
  | _ => false

/-- `\(\?P<|\(\?<[^=!]` at the front of a text. -/
def namedGroup : List Char → Bool
  | '(' :: '?' :: 'P' :: '<' :: _ => true
  | '(' :: '?' :: '<' :: c :: _ => c ≠ '=' && c ≠ '!'
  | _ => false

/-- The numbers of a quantifier in braces as the scan reads them, and the length of its text. -/
structure Repetition where
  minimum : Nat
  maximum : Nat
  length : Nat

/-- `^\{(\d+)(?:,(\d*))?\}`. -/
def braceQuantifier : List Char → Option Repetition
  | '\x7b' :: rest =>
    let low := rest.takeWhile Char.isDigit
    match rest.dropWhile Char.isDigit with
    | '\x7d' :: _ => if low = [] then none else some ⟨number low, number low, low.length + 2⟩
    | ',' :: rest =>
      let high := rest.takeWhile Char.isDigit
      match rest.dropWhile Char.isDigit with
      | '\x7d' :: _ =>
        if low = [] then none
        else some ⟨number low, if high = [] then number low else number high,
          low.length + high.length + 3⟩
      | _ => none
    | _ => none
  | _ => none

/-- `\)(?:[*+?]|\{\d+(?:,\d*)?\})(?:[?+])?` at the front of a text. -/
def quantifiedGroup : List Char → Bool
  | ')' :: rest =>
    rest.head? = some '*' || rest.head? = some '+' || rest.head? = some '?' ||
      (braceQuantifier rest).isSome
  | _ => false

/-- The variables of the scanning loop. -/
structure Scan where
  quantifiers : Nat := 0
  inCharacterClass : Bool := false
  escaped : Bool := false
  hasAlternation : Bool := false

/-- One turn of the loop, and how far it moves `index` on beyond the character it reads. -/
def Scan.turn (maxRepetition : Nat) (s : Scan) (previous : Option Char) (character : Char)
    (rest : List Char) : Except String (Scan × Nat) :=
  -- the character behind a backslash is passed over whatever it is
  if s.escaped then .ok ({ s with escaped := false }, 0)
  else if character = '\\' then .ok ({ s with escaped := true }, 0)
  else if character = '[' then .ok ({ s with inCharacterClass := true }, 0)
  else if character = ']' then .ok ({ s with inCharacterClass := false }, 0)
  else if s.inCharacterClass then .ok (s, 0)
  else if character = '|' then .ok ({ s with hasAlternation := true }, 0)
  -- any `?` behind a `(` counts as part of a group's opening, also when the `(` is escaped
  else if character = '?' ∧ previous = some '(' then .ok (s, 0)
  else if character = '*' ∨ character = '+' ∨ character = '?' then
    .ok ({ s with quantifiers := s.quantifiers + 1 }, 0)
  else if character = '\x7b' then
    match braceQuantifier (character :: rest) with
    -- a brace that is no counted quantifier stands for itself
    | some quantifier =>
      if quantifier.minimum > maxRepetition ∨ quantifier.maximum > maxRepetition then
        .error s!"pattern repetition exceeds the maximum of {maxRepetition}"
      else .ok ({ s with quantifiers := s.quantifiers + 1 }, quantifier.length - 1)
    | none => .ok (s, 0)
  else .ok (s, 0)

/-- The loop from a character on, with the character before it and how many are passed over. -/
def scan (maxRepetition : Nat) : Scan → Option Char → Nat → List Char → Except String Scan
  | s, _, _, [] => .ok s
  | s, _, skip + 1, c :: rest => scan maxRepetition s (some c) skip rest
  | s, previous, 0, c :: rest =>
    match s.turn maxRepetition previous c rest with
    | .error e => .error e
    | .ok (s, skip) => scan maxRepetition s (some c) skip rest

/-- The guard, for the bounds of one of its two copies. -/
def patternError (maxLength maxRepetition : Nat) (pattern : String) : Option String :=
  let text := pattern.toList
  if Core.Text.jsLength pattern > maxLength then
    some s!"pattern is too long (maximum {maxLength} characters)"
  -- the five tests by regular expression, in the order of the source
  else if text.tails.any unportableEscape then
    some "pattern uses a regex escape whose semantics are not portable to the native validator"
  else if text.tails.any propertyEscape then
    some "Unicode property escapes are not supported by the native validator"
  else if text.tails.any lookaroundOrFlags then
    some "lookaround or inline regex flags are not supported by the native validator"
  else if text.tails.any namedGroup then
    some "named capture groups are not supported by the native validator"
  else if text.tails.any quantifiedGroup then
    some "quantified groups are rejected to keep validation traversal bounded"
  else
    -- then the scan, whose counts decide the last three refusals
    match scan maxRepetition {} none 0 text with
    | .error e => some e
    | .ok s =>
      if s.quantifiers > 1 then
        some "patterns with multiple quantifiers are rejected to keep validation linear"
      else if s.hasAlternation then
        some "patterns with alternation are rejected to keep validation linear"
      else if s.quantifiers > 0 ∧ text.head? ≠ some '^' then
        some "quantified patterns must be anchored at the start to keep validation linear"
      else none

namespace Formats

def VALIDATION_PATTERN_MAX_LENGTH : Nat := 8192
def VALIDATION_PATTERN_MAX_REPETITION : Nat := 10000

def validationPatternError : String → Option String :=
  patternError VALIDATION_PATTERN_MAX_LENGTH VALIDATION_PATTERN_MAX_REPETITION

end Formats

namespace ValidatorCompiler

def VALIDATION_PATTERN_MAX_LENGTH : Nat := 8192
def VALIDATION_PATTERN_MAX_REPETITION : Nat := 10000

def validationPatternError : String → Option String :=
  patternError VALIDATION_PATTERN_MAX_LENGTH VALIDATION_PATTERN_MAX_REPETITION

end ValidatorCompiler

/-! ## How the scan reads a text -/

/-- Outside a character class and with nothing escaped. -/
structure Scan.Plain (s : Scan) : Prop where
  escaped : s.escaped = false
  inCharacterClass : s.inCharacterClass = false

/-- The character before what follows a text. -/
def lastOf (previous : Option Char) : List Char → Option Char
  | [] => previous
  | c :: cs => lastOf (some c) cs

theorem lastOf_concat (previous : Option Char) (cs : List Char) (c : Char) :
    lastOf previous (cs ++ [c]) = some c := by
  induction cs generalizing previous with
  | nil => rfl
  | cons _ cs ih => exact ih _

/-- The last character of a text that has one. -/
theorem mem_of_lastOf {previous : Option Char} {c d : Char} {cs : List Char}
    (h : lastOf previous (d :: cs) = some c) : c ∈ d :: cs := by
  induction cs generalizing previous d with
  | nil => exact List.mem_singleton.mpr (Option.some.inj h).symm
  | cons e cs ih =>
    have hrest : lastOf (some d) (e :: cs) = some c := h
    exact List.mem_cons_of_mem d (ih hrest)

section Scanning

variable {limit : Nat}

/-- The characters that change the scan outside a character class. -/
def signs : List Char := ['\\', '[', ']', '|', '?', '*', '+', '\x7b']

theorem quiet_singleton {c : Char} (h : c ∉ signs) : ∀ d ∈ [c], d ∉ signs := by
  intro d hd
  obtain rfl := List.mem_singleton.mp hd
  exact h

theorem scan_quiet {s : Scan} (hs : s.escaped = false) {cs : List Char} (hcs : ∀ c ∈ cs, c ∉ signs)
    (previous : Option Char) (rest : List Char) :
    scan limit s previous 0 (cs ++ rest) = scan limit s (lastOf previous cs) 0 rest := by
  induction cs generalizing previous with
  | nil => rfl
  | cons c cs ih =>
    have hc := hcs c (by simp)
    simp only [signs, List.mem_cons, List.not_mem_nil, or_false, not_or] at hc
    have hturn : s.turn limit previous c (cs ++ rest) = .ok (s, 0) := by
      simp [Scan.turn, hs, hc]
    rw [List.cons_append, scan, hturn]
    exact ih (fun c hmem => hcs c (List.mem_cons_of_mem _ hmem)) (some c)

/-- In a character class only a backslash and the end of the class matter. -/
theorem scan_within {s : Scan} (hs : s.escaped = false) (hclass : s.inCharacterClass = true)
    {cs : List Char} (hcs : ∀ c ∈ cs, c ≠ '\\' ∧ c ≠ ']') (previous : Option Char)
    (rest : List Char) :
    scan limit s previous 0 (cs ++ rest) = scan limit s (lastOf previous cs) 0 rest := by
  induction cs generalizing previous with
  | nil => rfl
  | cons c cs ih =>
    obtain ⟨hslash, hend⟩ := hcs c (by simp)
    have hturn : s.turn limit previous c (cs ++ rest) = .ok (s, 0) := by
      obtain ⟨count, inClass, escaped, alternation⟩ := s
      obtain rfl : escaped = false := hs
      obtain rfl : inClass = true := hclass
      simp [Scan.turn, hslash, hend]
    rw [List.cons_append, scan, hturn]
    exact ih (fun c hmem => hcs c (List.mem_cons_of_mem _ hmem)) (some c)

theorem scan_escaped {s : Scan} (hs : s.escaped = false) (previous : Option Char) (c : Char)
    (rest : List Char) :
    scan limit s previous 0 ('\\' :: c :: rest) = scan limit s (some c) 0 rest := by
  have hsame : { s with escaped := false } = s := by rw [← hs]
  rw [scan, show s.turn limit previous '\\' (c :: rest) = .ok ({ s with escaped := true }, 0) by
    simp [Scan.turn, hs]]
  show scan limit { s with escaped := true } (some '\\') 0 (c :: rest) = _
  rw [scan, show Scan.turn limit { s with escaped := true } (some '\\') c rest = .ok (s, 0) by
    simp [Scan.turn, hsame]]

theorem scan_skip (s : Scan) (cs : List Char) (previous : Option Char) (rest : List Char) :
    scan limit s previous cs.length (cs ++ rest) = scan limit s (lastOf previous cs) 0 rest := by
  induction cs generalizing previous with
  | nil => rfl
  | cons c cs ih => exact ih (some c)

/-- A brace is passed over with the quantifier it opens, or alone. -/
theorem scan_brace {s final : Scan} (hs : s.Plain) {previous : Option Char} {rest : List Char}
    (h : scan limit s previous 0 ('\x7b' :: rest) = .ok final) :
    (braceQuantifier ('\x7b' :: rest) = none ∧ scan limit s (some '\x7b') 0 rest = .ok final) ∨
    ∃ quantifier, braceQuantifier ('\x7b' :: rest) = some quantifier ∧
      scan limit { s with quantifiers := s.quantifiers + 1 } (some '\x7b')
        (quantifier.length - 1) rest = .ok final := by
  obtain ⟨count, inClass, escaped, alternation⟩ := s
  obtain rfl : escaped = false := hs.escaped
  obtain rfl : inClass = false := hs.inCharacterClass
  rw [scan] at h
  simp only [Scan.turn, Bool.false_eq_true, if_false,
    show ('\x7b' : Char) ≠ '\\' by decide, show ('\x7b' : Char) ≠ '[' by decide,
    show ('\x7b' : Char) ≠ ']' by decide, show ('\x7b' : Char) ≠ '|' by decide,
    show ('\x7b' : Char) ≠ '?' by decide, show ('\x7b' : Char) ≠ '*' by decide,
    show ('\x7b' : Char) ≠ '+' by decide, false_and, or_self, if_true] at h
  cases hbrace : braceQuantifier ('\x7b' :: rest) with
  | none =>
    rw [hbrace] at h
    exact .inl ⟨rfl, h⟩
  | some quantifier =>
    rw [hbrace] at h
    by_cases hlarge : quantifier.minimum > limit ∨ quantifier.maximum > limit
    · simp only [if_pos hlarge] at h
      cases h
    · simp only [if_neg hlarge] at h
      exact .inr ⟨quantifier, rfl, h⟩

theorem takeWhile_break {p : Char → Bool} {cs : List Char} (hcs : ∀ c ∈ cs, p c = true) {c : Char}
    (hc : p c = false) (rest : List Char) : (cs ++ c :: rest).takeWhile p = cs := by
  rw [List.takeWhile_append_of_pos hcs, List.takeWhile_cons_of_neg (by simp [hc]), List.append_nil]

theorem dropWhile_break {p : Char → Bool} {cs : List Char} (hcs : ∀ c ∈ cs, p c = true) {c : Char}
    (hc : p c = false) (rest : List Char) : (cs ++ c :: rest).dropWhile p = c :: rest := by
  rw [List.dropWhile_append_of_pos hcs, List.dropWhile_cons_of_neg (by simp [hc])]

theorem braceQuantifier_exactly {digits : List Char}
    (h : digits ≠ [] ∧ ∀ c ∈ digits, c.isDigit = true) (rest : List Char) :
    braceQuantifier ('\x7b' :: (digits ++ '\x7d' :: rest)) =
      some ⟨number digits, number digits, digits.length + 2⟩ := by
  simp [braceQuantifier, takeWhile_break h.2 (c := '\x7d') (by decide),
    dropWhile_break h.2 (c := '\x7d') (by decide), h.1]

theorem braceQuantifier_range {low high : List Char}
    (hlow : low ≠ [] ∧ ∀ c ∈ low, c.isDigit = true) (hhigh : ∀ c ∈ high, c.isDigit = true)
    (rest : List Char) :
    ∃ quantifier, braceQuantifier ('\x7b' :: (low ++ ',' :: (high ++ '\x7d' :: rest))) =
      some quantifier ∧ quantifier.length = low.length + high.length + 3 := by
  simp [braceQuantifier, takeWhile_break hlow.2 (c := ',') (by decide),
    dropWhile_break hlow.2 (c := ',') (by decide), takeWhile_break hhigh (c := '\x7d') (by decide),
    dropWhile_break hhigh (c := '\x7d') (by decide), hlow.1]

/-- A code point in braces is taken for a quantifier when all its digits are decimal. -/
theorem braceQuantifier_codePoint {digits : List Char} (h : ∀ c ∈ digits, isHex c = true)
    (rest : List Char) :
    braceQuantifier ('\x7b' :: (digits ++ '\x7d' :: rest)) = none ∨
    ∃ quantifier, braceQuantifier ('\x7b' :: (digits ++ '\x7d' :: rest)) = some quantifier ∧
      quantifier.length = digits.length + 2 := by
  -- digits only: the code point reads like a counted quantifier, or like nothing when there are
  -- none
  by_cases hdecimal : ∀ c ∈ digits, c.isDigit = true
  · by_cases hne : digits = []
    · subst hne
      exact .inl (by simp [braceQuantifier])
    · exact .inr ⟨_, braceQuantifier_exactly ⟨hne, hdecimal⟩ rest, rfl⟩
  · -- the first letter among the digits ends the number, and it is no brace and no comma
    cases hletters : digits.dropWhile Char.isDigit with
    | nil => exact absurd (List.dropWhile_eq_nil_iff.mp hletters) hdecimal
    | cons letter tail =>
      have hmem : letter ∈ digits := List.dropWhile_subset _ (hletters ▸ List.mem_cons_self)
      have hhex := h letter hmem
      have hdrop : (digits ++ '\x7d' :: rest).dropWhile Char.isDigit =
          letter :: (tail ++ '\x7d' :: rest) := by
        rw [List.dropWhile_append, hletters]
        rfl
      have hbrace : letter ≠ '\x7d' := fun heq => absurd (heq ▸ hhex) (by decide)
      have hcomma : letter ≠ ',' := fun heq => absurd (heq ▸ hhex) (by decide)
      left
      simp only [braceQuantifier, hdrop]
      split
      · next heq => exact absurd (List.cons.inj heq).1 hbrace
      · next heq => exact absurd (List.cons.inj heq).1 hcomma
      · rfl

/-- A quantifier in braces counts, and the scan goes on behind it. -/
theorem scan_counted {s final : Scan} (hs : s.Plain) {previous : Option Char}
    {body rest : List Char} {quantifier : Repetition}
    (hbrace : braceQuantifier ('\x7b' :: (body ++ rest)) = some quantifier)
    (hlength : quantifier.length = body.length + 1)
    (h : scan limit s previous 0 ('\x7b' :: (body ++ rest)) = .ok final) :
    scan limit { s with quantifiers := s.quantifiers + 1 } (lastOf (some '\x7b') body) 0 rest =
      .ok final := by
  obtain ⟨hnone, -⟩ | ⟨quantifier', hsome, hscan⟩ := scan_brace hs h
  · rw [hbrace] at hnone
    cases hnone
  · rw [hbrace] at hsome
    obtain rfl := Option.some.inj hsome
    rw [hlength, Nat.add_sub_cancel, scan_skip] at hscan
    exact hscan

theorem scan_question {s : Scan} (hs : s.Plain) (previous : Option Char) (rest : List Char) :
    scan limit s previous 0 ('?' :: rest) =
      scan limit (if previous = some '(' then s else { s with quantifiers := s.quantifiers + 1 })
        (some '?') 0 rest := by
  rw [scan]
  by_cases hopen : previous = some '('
  · simp [Scan.turn, hs.escaped, hs.inCharacterClass, hopen]
  · simp [Scan.turn, hs.escaped, hs.inCharacterClass, hopen]

theorem scan_repeated {s : Scan} (hs : s.Plain) {c : Char} (hc : c = '*' ∨ c = '+')
    (previous : Option Char) (rest : List Char) :
    scan limit s previous 0 (c :: rest) =
      scan limit { s with quantifiers := s.quantifiers + 1 } (some c) 0 rest := by
  rw [scan]
  rcases hc with rfl | rfl
  · simp [Scan.turn, hs.escaped, hs.inCharacterClass]
  · simp [Scan.turn, hs.escaped, hs.inCharacterClass]

end Scanning

/-! ## What a text without any offence holds -/

/-- What one of the regular expressions of the guard finds at the front of a text. -/
def offends (text : List Char) : Bool :=
  unportableEscape text || lookaroundOrFlags text || namedGroup text || quantifiedGroup text

def Clean (text : List Char) : Prop := ∀ t, t <:+ text → offends t = false

theorem Clean.behind {front text : List Char} (h : Clean (front ++ text)) : Clean text :=
  fun t ht => h t (ht.trans (List.suffix_append front text))

theorem Clean.front {text : List Char} (h : Clean text) :
    unportableEscape text = false ∧ lookaroundOrFlags text = false ∧ namedGroup text = false ∧
      quantifiedGroup text = false := by
  have hfront := h text (List.suffix_refl text)
  simp only [offends, Bool.or_eq_false_iff, and_assoc] at hfront
  exact hfront

/-- The escapes that the guard lets through. -/
def portable : Escape → Bool
  | .identity _ _ => true
  | .control _ _ => true
  | .controlLetter _ _ => true
  | .hex _ _ => true
  | .unit _ _ => true
  | .codePoint _ _ => true
  | .null => false
  | .characterClass _ _ => false
  | .property _ _ => false
  | .backReference _ _ _ => false
  | .namedReference _ => false

theorem Clean.portable {e : Escape} {rest : List Char} (h : Clean ('\\' :: (e.text ++ rest))) :
    portable e = true := by
  have hfront := h.front.1
  cases e with
  | identity | control | controlLetter | hex | unit | codePoint => rfl
  | null => exact absurd hfront (by simp [Escape.text, unportableEscape])
  | characterClass c hc =>
    simp only [List.mem_cons, List.not_mem_nil, or_false] at hc
    rcases hc with rfl | rfl | rfl | rfl | rfl | rfl
    all_goals exact absurd hfront (by simp [Escape.text, unportableEscape])
  | property negated name =>
    cases negated
    all_goals exact absurd hfront (by simp [Escape.text, unportableEscape])
  | backReference first rest hfirst =>
    exact absurd hfront (by simp [Escape.text, unportableEscape, hfirst])
  | namedReference name => exact absurd hfront (by simp [Escape.text, unportableEscape])

theorem isReference_of_portable {e : Escape} (h : portable e = true) : e.isReference = false := by
  cases e with
  | backReference | namedReference => cases h
  | _ => rfl

theorem hex_quiet {c : Char} (h : isHex c = true) : c ∉ signs := by
  intro hmem
  have hall : signs.all (fun c => !isHex c) = true := by decide
  have hno := List.all_eq_true.mp hall c hmem
  simp [h] at hno

theorem alpha_quiet {c : Char} (h : c.isAlpha = true) : c ∉ signs := by
  intro hmem
  have hall : signs.all (fun c => !c.isAlpha) = true := by decide
  have hno := List.all_eq_true.mp hall c hmem
  simp [h] at hno

/-- Behind the backslash and one character, an escape has neither a backslash nor a bracket. -/
theorem escape_text {e : Escape} (h : portable e = true) :
    ∃ c tail, e.text = c :: tail ∧ ∀ c ∈ tail, c ≠ '\\' ∧ c ≠ ']' := by
  have hquiet : ∀ {c : Char}, c ∉ signs → c ≠ '\\' ∧ c ≠ ']' := by
    intro c hc
    simp only [signs, List.mem_cons, List.not_mem_nil, or_false, not_or] at hc
    exact ⟨hc.1, hc.2.2.1⟩
  cases e with
  | identity c | control c => exact ⟨c, [], rfl, by simp⟩
  | controlLetter c hc =>
    refine ⟨'c', [c], rfl, ?_⟩
    intro d hd
    obtain rfl := List.mem_singleton.mp hd
    exact hquiet (alpha_quiet hc)
  | hex digits hdigits => exact ⟨'x', digits, rfl, fun c hc => hquiet (hex_quiet (hdigits c hc))⟩
  | unit digits hdigits => exact ⟨'u', digits, rfl, fun c hc => hquiet (hex_quiet (hdigits c hc))⟩
  | codePoint digits hdigits =>
    refine ⟨'u', '\x7b' :: (digits ++ ['\x7d']), rfl, ?_⟩
    intro c hc
    rcases List.mem_cons.mp hc with rfl | hc
    · decide
    · rcases List.mem_append.mp hc with hc | hc
      · exact hquiet (hex_quiet (hdigits c hc))
      · obtain rfl := List.mem_singleton.mp hc
        decide
  | null | characterClass | property | backReference | namedReference => cases h

/-! ## What the scan makes of each token -/

section Tokens

variable {limit : Nat}

theorem scan_escape {e : Escape} (he : portable e = true) {s final : Scan} (hs : s.Plain)
    {previous : Option Char} {rest : List Char}
    (h : scan limit s previous 0 ('\\' :: (e.text ++ rest)) = .ok final) :
    ∃ s' : Scan, s'.Plain ∧ s.quantifiers ≤ s'.quantifiers ∧
      s'.hasAlternation = s.hasAlternation ∧
      scan limit s' (lastOf previous ('\\' :: e.text)) 0 rest = .ok final := by
  -- by the escape: only `\u` with braces can show the scan a quantifier
  cases e with
  | identity c | control c =>
    rw [Escape.text, List.singleton_append, scan_escaped hs.escaped] at h
    exact ⟨s, hs, Nat.le_refl _, rfl, h⟩
  | controlLetter c hc =>
    rw [Escape.text, List.cons_append, scan_escaped hs.escaped,
      scan_quiet hs.escaped (quiet_singleton (alpha_quiet hc))] at h
    exact ⟨s, hs, Nat.le_refl _, rfl, h⟩
  | hex digits hdigits | unit digits hdigits =>
    have hquiet : ∀ c ∈ digits, c ∉ signs := fun c hc => hex_quiet (hdigits c hc)
    rw [Escape.text, List.cons_append, scan_escaped hs.escaped, scan_quiet hs.escaped hquiet] at h
    exact ⟨s, hs, Nat.le_refl _, rfl, h⟩
  -- the braces of a code point are scanned as text
  | codePoint digits hdigits =>
    have htext : '\\' :: ((Escape.codePoint digits hdigits).text ++ rest) =
        '\\' :: 'u' :: '\x7b' :: (digits ++ '\x7d' :: rest) := by simp [Escape.text]
    have hbody : digits ++ '\x7d' :: rest = (digits ++ ['\x7d']) ++ rest := by simp
    rw [htext, scan_escaped hs.escaped] at h
    obtain hnone | ⟨quantifier, hsome, hlength⟩ := braceQuantifier_codePoint hdigits rest
    · obtain ⟨-, hscan⟩ | ⟨quantifier, hsome, -⟩ := scan_brace hs h
      · have hquiet : ∀ c ∈ digits ++ ['\x7d'], c ∉ signs := by
          intro c hc
          rcases List.mem_append.mp hc with hc | hc
          · exact hex_quiet (hdigits c hc)
          · obtain rfl := List.mem_singleton.mp hc
            decide
        rw [hbody, scan_quiet hs.escaped hquiet] at hscan
        exact ⟨s, hs, Nat.le_refl _, rfl, hscan⟩
      · rw [hnone] at hsome
        cases hsome
    · rw [hbody] at h hsome
      have hscan := scan_counted hs hsome (by simp [hlength]) h
      exact ⟨{ s with quantifiers := s.quantifiers + 1 }, ⟨hs.escaped, hs.inCharacterClass⟩,
        Nat.le_succ _, rfl, hscan⟩
  -- what is not portable is excluded
  | null | characterClass | property | backReference | namedReference => cases he

theorem scan_item {item : ClassItem} {s : Scan} (hs : s.escaped = false)
    (hclass : s.inCharacterClass = true) {rest : List Char} (hclean : Clean (item.text ++ rest))
    (previous : Option Char) :
    ∃ previous', scan limit s previous 0 (item.text ++ rest) = scan limit s previous' 0 rest := by
  cases item with
  | char c hc =>
    have hchar : ∀ d ∈ [c], d ≠ '\\' ∧ d ≠ ']' := by simpa using hc
    exact ⟨_, scan_within hs hclass hchar previous rest⟩
  | escape e =>
    obtain ⟨c, tail, htext, htail⟩ := escape_text (Clean.portable (e := e) hclean)
    rw [ClassItem.text, List.cons_append, htext, List.cons_append, scan_escaped hs]
    exact ⟨_, scan_within hs hclass htail (some c) rest⟩
  | backspace => exact ⟨_, scan_escaped hs previous 'b' rest⟩
  | hyphen => exact ⟨_, scan_escaped hs previous '-' rest⟩

theorem scan_items {items : List ClassItem} {s : Scan} (hs : s.escaped = false)
    (hclass : s.inCharacterClass = true) {rest : List Char}
    (hclean : Clean (items.flatMap ClassItem.text ++ rest)) (previous : Option Char) :
    ∃ previous', scan limit s previous 0 (items.flatMap ClassItem.text ++ rest) =
      scan limit s previous' 0 rest := by
  induction items generalizing previous with
  | nil => exact ⟨previous, rfl⟩
  | cons item items ih =>
    rw [List.flatMap_cons, List.append_assoc] at hclean ⊢
    obtain ⟨between, hitem⟩ := scan_item hs hclass hclean previous
    obtain ⟨previous', hitems⟩ := ih hclean.behind between
    exact ⟨previous', hitem.trans hitems⟩

theorem scan_characterClass {negated : Bool} {items : List ClassItem} {s : Scan} (hs : s.Plain)
    {rest : List Char} (hclean : Clean ((Atom.characterClass negated items).text ++ rest))
    (previous : Option Char) :
    scan limit s previous 0 ((Atom.characterClass negated items).text ++ rest) =
      scan limit s (some ']') 0 rest := by
  have htext : (Atom.characterClass negated items).text ++ rest =
      '[' :: ((if negated then ['^'] else []) ++ (items.flatMap ClassItem.text ++ ']' :: rest)) := by
    simp [Atom.text]
  -- a bracket opens the class
  have hopen : ∀ text, scan limit s previous 0 ('[' :: text) =
      scan limit { s with inCharacterClass := true } (some '[') 0 text := by
    intro text
    rw [scan]
    simp [Scan.turn, hs.escaped]
  -- a bracket closes the class, since nothing in it is escaped
  have hclose : ∀ previous', scan limit { s with inCharacterClass := true } previous' 0 (']' :: rest) =
      scan limit s (some ']') 0 rest := by
    intro previous'
    obtain ⟨count, inClass, escaped, alternation⟩ := s
    obtain rfl : escaped = false := hs.escaped
    obtain rfl : inClass = false := hs.inCharacterClass
    rw [scan]
    simp [Scan.turn]
  have hcaret : ∀ c ∈ (if negated then ['^'] else [] : List Char), c ≠ '\\' ∧ c ≠ ']' := by
    cases negated
    · simp
    · simp
  rw [htext] at hclean ⊢
  have hinside : Clean (items.flatMap ClassItem.text ++ ']' :: rest) := by
    have hopened : Clean (['['] ++ ((if negated then ['^'] else []) ++
        (items.flatMap ClassItem.text ++ ']' :: rest))) := hclean
    exact hopened.behind.behind
  obtain ⟨previous', hitems⟩ := scan_items (s := { s with inCharacterClass := true }) hs.escaped rfl
    hinside (lastOf (some '[') (if negated then ['^'] else []))
  rw [hopen, scan_within (s := { s with inCharacterClass := true }) hs.escaped rfl hcaret, hitems,
    hclose]

/-- A question mark behind this atom is not counted. -/
def isEscapedOpen : Atom → Bool
  | .escape (.identity c _) => c = '('
  | _ => false

theorem scan_atom {a : Atom} {s final : Scan} (hs : s.Plain) {previous : Option Char}
    {rest : List Char} (hclean : Clean (a.text ++ rest))
    (h : scan limit s previous 0 (a.text ++ rest) = .ok final) :
    ∃ s' previous', s'.Plain ∧ s.quantifiers ≤ s'.quantifiers ∧
      s'.hasAlternation = s.hasAlternation ∧ scan limit s' previous' 0 rest = .ok final ∧
      (previous' = some '(' → isEscapedOpen a = true) ∧ a.isReference = false := by
  -- each atom leaves the scan plain; only an escaped parenthesis ends with `(`
  cases a with
  -- a character that is no syntax character is none of the scan's signs
  | char c hc =>
    have hquiet : c ∉ signs := by
      intro hsign
      have hsub : signs.all (fun c => syntaxCharacters.contains c) = true := by decide
      exact hc (List.contains_iff_mem.mp (List.all_eq_true.mp hsub c hsign))
    rw [Atom.text, scan_quiet hs.escaped (quiet_singleton hquiet)] at h
    refine ⟨s, some c, hs, Nat.le_refl _, rfl, h, ?_, rfl⟩
    intro hopen
    obtain rfl := Option.some.inj hopen
    exact absurd (by decide) hc
  | dot =>
    rw [Atom.text, scan_quiet hs.escaped (quiet_singleton (by simp [signs]))] at h
    exact ⟨s, some '.', hs, Nat.le_refl _, rfl, h, by decide, rfl⟩
  -- the escape ends with `(` only when it is the escape of `(`
  | escape e =>
    have he : portable e = true := Clean.portable hclean
    obtain ⟨s', hs', hcount, halternation, hscan⟩ := scan_escape he hs h
    refine ⟨s', _, hs', hcount, halternation, hscan, ?_, isReference_of_portable he⟩
    intro hopen
    have hmem := mem_of_lastOf hopen
    cases e with
    | identity c hc =>
      have hlast : lastOf previous ['\\', c] = some '(' := hopen
      exact decide_eq_true (Option.some.inj hlast)
    | control c hc =>
      have hlast : lastOf previous ['\\', c] = some '(' := hopen
      obtain rfl := Option.some.inj hlast
      exact absurd hc (by decide)
    | controlLetter c hc =>
      simp only [Escape.text, List.mem_cons, List.not_mem_nil, or_false] at hmem
      obtain h | h | rfl := hmem
      · exact absurd h (by decide)
      · exact absurd h (by decide)
      · exact absurd hc (by decide)
    | hex digits hdigits | unit digits hdigits =>
      simp only [Escape.text, List.mem_cons] at hmem
      obtain h | h | hmem := hmem
      · exact absurd h (by decide)
      · exact absurd h (by decide)
      · exact absurd (hdigits _ hmem) (by decide)
    | codePoint digits hdigits =>
      have hlast : lastOf previous ('\\' :: 'u' :: '\x7b' :: digits ++ ['\x7d']) = some '(' := hopen
      rw [lastOf_concat] at hlast
      exact absurd hlast (by decide)
    | null | characterClass | property | backReference | namedReference => cases he
  | characterClass negated items =>
    rw [scan_characterClass hs hclean] at h
    exact ⟨s, some ']', hs, Nat.le_refl _, rfl, h, fun hopen => absurd hopen (by decide), rfl⟩

/-- The mark of a lazy quantifier is counted once more, or not at all. -/
theorem scan_lazy {s final : Scan} (hs : s.Plain) {previous : Option Char} {isLazy : Bool}
    {rest : List Char}
    (h : scan limit s previous 0 ((if isLazy then ['?'] else []) ++ rest) = .ok final) :
    ∃ s' previous', s'.Plain ∧ s.quantifiers ≤ s'.quantifiers ∧
      s'.hasAlternation = s.hasAlternation ∧ scan limit s' previous' 0 rest = .ok final := by
  cases isLazy with
  | false => exact ⟨s, previous, hs, Nat.le_refl _, rfl, h⟩
  | true =>
    have hscan : scan limit s previous 0 ('?' :: rest) = .ok final := h
    rw [scan_question hs] at hscan
    by_cases hopen : previous = some '('
    · rw [if_pos hopen] at hscan
      exact ⟨s, _, hs, Nat.le_refl _, rfl, hscan⟩
    · rw [if_neg hopen] at hscan
      exact ⟨{ s with quantifiers := s.quantifiers + 1 }, _, ⟨hs.escaped, hs.inCharacterClass⟩,
        Nat.le_succ _, rfl, hscan⟩

/-- `?`, the only quantifier that can also stand behind an opening parenthesis. -/
def isOptional : Count → Bool
  | .optional => true
  | _ => false

theorem scan_count {count : Count} {s final : Scan} (hs : s.Plain) {previous : Option Char}
    {rest : List Char} (h : scan limit s previous 0 (count.text ++ rest) = .ok final) :
    ∃ s' previous', s'.Plain ∧ s'.hasAlternation = s.hasAlternation ∧
      scan limit s' previous' 0 rest = .ok final ∧ s.quantifiers ≤ s'.quantifiers ∧
      (isOptional count = true ∧ previous = some '(' ∨ s.quantifiers < s'.quantifiers) := by
  have hnext : Scan.Plain { s with quantifiers := s.quantifiers + 1 } :=
    ⟨hs.escaped, hs.inCharacterClass⟩
  cases count with
  | star =>
    rw [Count.text, List.singleton_append, scan_repeated hs (.inl rfl)] at h
    exact ⟨_, _, hnext, rfl, h, Nat.le_succ _, .inr (Nat.lt_succ_self _)⟩
  | plus =>
    rw [Count.text, List.singleton_append, scan_repeated hs (.inr rfl)] at h
    exact ⟨_, _, hnext, rfl, h, Nat.le_succ _, .inr (Nat.lt_succ_self _)⟩
  -- the one quantifier the scan can miss: a `?` behind an escaped parenthesis
  | optional =>
    rw [Count.text, List.singleton_append, scan_question hs] at h
    by_cases hopen : previous = some '('
    · rw [if_pos hopen] at h
      exact ⟨s, _, hs, rfl, h, Nat.le_refl _, .inl ⟨rfl, hopen⟩⟩
    · rw [if_neg hopen] at h
      exact ⟨_, _, hnext, rfl, h, Nat.le_succ _, .inr (Nat.lt_succ_self _)⟩
  -- the three counted forms are read as a brace quantifier
  | exactly digits hdigits =>
    have htext : (Count.exactly digits hdigits).text ++ rest =
        '\x7b' :: ((digits ++ ['\x7d']) ++ rest) := by simp [Count.text]
    have hbrace := braceQuantifier_exactly hdigits rest
    rw [List.append_cons] at hbrace
    rw [htext] at h
    have hscan := scan_counted hs hbrace (by simp) h
    exact ⟨_, _, hnext, rfl, hscan, Nat.le_succ _, .inr (Nat.lt_succ_self _)⟩
  | atLeast digits hdigits =>
    have htext : (Count.atLeast digits hdigits).text ++ rest =
        '\x7b' :: ((digits ++ [',', '\x7d']) ++ rest) := by simp [Count.text]
    have hempty : ∀ c ∈ ([] : List Char), c.isDigit = true := by simp
    obtain ⟨quantifier, hbrace, hlength⟩ := braceQuantifier_range hdigits hempty rest
    rw [htext] at h
    have hscan := scan_counted hs (by simpa using hbrace) (by simp [hlength]) h
    exact ⟨_, _, hnext, rfl, hscan, Nat.le_succ _, .inr (Nat.lt_succ_self _)⟩
  | between low high hboth =>
    have htext : (Count.between low high hboth).text ++ rest =
        '\x7b' :: ((low ++ ',' :: (high ++ ['\x7d'])) ++ rest) := by simp [Count.text]
    obtain ⟨quantifier, hbrace, hlength⟩ := braceQuantifier_range hboth.1 hboth.2.2 rest
    rw [htext] at h
    have hscan := scan_counted hs (by simpa using hbrace)
      (by simp only [hlength, List.length_append, List.length_cons, List.length_nil]; omega) h
    exact ⟨_, _, hnext, rfl, hscan, Nat.le_succ _, .inr (Nat.lt_succ_self _)⟩

end Tokens

/-! ## What an accepted pattern holds -/

/-- A question mark directly behind an escaped opening parenthesis. -/
def isUnseen : Token → Bool
  | .quantifier (some a) q => isEscapedOpen a && isOptional q.count
  | _ => false

def unseen (tokens : List Token) : Nat := tokens.countP isUnseen

/-- The quantifiers that the guard counts. -/
def seen (tokens : List Token) : Nat := tokens.countP fun t => t.isQuantifier && !isUnseen t

theorem quantifiers_eq (tokens : List Token) :
    quantifiers tokens = seen tokens + unseen tokens := by
  have hsplit : ∀ t : Token, (if t.isQuantifier then 1 else 0) =
      (if t.isQuantifier && !isUnseen t then 1 else 0) + if isUnseen t then 1 else 0 := by
    intro t
    cases t with
    | quantifier target q => cases isUnseen (.quantifier target q) <;> rfl
    | _ => rfl
  induction tokens with
  | nil => rfl
  | cons t tokens ih =>
    have ht := hsplit t
    unfold quantifiers seen unseen at ih ⊢
    rw [List.countP_cons, List.countP_cons, List.countP_cons]
    omega

/-- What reading some tokens says about them and has left in the variables of the loop. -/
structure Found (tokens : List Token) (s s' : Scan) : Prop where
  groups : ∀ q, .quantifier none q ∉ tokens
  lookaround : ∀ kind, .openLook kind ∉ tokens
  backReference : ∀ a, a.isReference = true → .atom a ∉ tokens
  counted : s.quantifiers + seen tokens ≤ s'.quantifiers
  alternation : .bar ∈ tokens ∨ s.hasAlternation = true → s'.hasAlternation = true

/-- Wherever these tokens stand in a text without an offence, the scan reads them from plain text
to plain text. -/
def Reads (limit : Nat) (tokens : List Token) : Prop :=
  ∀ (s : Scan) (previous : Option Char) (rest : List Char) (final : Scan), s.Plain →
    Clean (spelling tokens ++ rest) → scan limit s previous 0 (spelling tokens ++ rest) = .ok final →
    ∃ s' previous', s'.Plain ∧ scan limit s' previous' 0 rest = .ok final ∧ Found tokens s s'

theorem Reads.append {limit : Nat} {as bs : List Token} (ha : Reads limit as)
    (hb : Reads limit bs) : Reads limit (as ++ bs) := by
  intro s previous rest final hs hclean h
  have htext : spelling (as ++ bs) ++ rest = spelling as ++ (spelling bs ++ rest) := by
    simp [spelling]
  rw [htext] at hclean h
  -- the first text leaves a plain scan, with which the second is read
  obtain ⟨middle, between, hmiddle, hscan, hfirst⟩ := ha s previous _ final hs hclean h
  obtain ⟨s', previous', hs', hrest, hsecond⟩ := hb middle between rest final hmiddle
    hclean.behind hscan
  refine ⟨s', previous', hs', hrest, ?_⟩
  constructor
  case groups => simp [hfirst.groups, hsecond.groups]
  case lookaround => simp [hfirst.lookaround, hsecond.lookaround]
  case backReference =>
    intro a ha
    simp [hfirst.backReference a ha, hsecond.backReference a ha]
  -- what both have seen adds up
  case counted =>
    have hone := hfirst.counted
    have htwo := hsecond.counted
    unfold seen at hone htwo ⊢
    rw [List.countP_append]
    omega
  -- an alternation is seen in one of the two and kept
  case alternation =>
    rintro (hbar | halternation)
    · rcases List.mem_append.mp hbar with hbar | hbar
      · exact hsecond.alternation (.inr (hfirst.alternation (.inl hbar)))
      · exact hsecond.alternation (.inl hbar)
    · exact hsecond.alternation (.inr (hfirst.alternation (.inr halternation)))

theorem reads_nil (limit : Nat) : Reads limit [] := by
  intro s previous rest final hs _ h
  refine ⟨s, previous, hs, h, ?_⟩
  constructor
  all_goals simp [seen]

/-- A token that is no quantifier and whose characters the scan passes over. -/
theorem reads_quiet (limit : Nat) {t : Token} (ht : ∀ c ∈ t.text, c ∉ signs)
    (hgroup : ∀ q, t ≠ .quantifier none q) (hlook : ∀ kind, t ≠ .openLook kind)
    (hreference : ∀ a, a.isReference = true → t ≠ .atom a) (hseen : seen [t] = 0)
    (hbar : t ≠ .bar) : Reads limit [t] := by
  intro s previous rest final hs _ h
  rw [spelling, List.flatMap_singleton, scan_quiet hs.escaped ht] at h
  refine ⟨s, _, hs, h, ?_⟩
  constructor
  case groups => exact fun q hq => hgroup q (List.mem_singleton.mp hq).symm
  case lookaround => exact fun kind hkind => hlook kind (List.mem_singleton.mp hkind).symm
  case backReference => exact fun a ha hmem => hreference a ha (List.mem_singleton.mp hmem).symm
  case counted => omega
  case alternation =>
    rintro (hmem | halternation)
    · exact absurd (List.mem_singleton.mp hmem).symm hbar
    · exact halternation

theorem reads_assertion (limit : Nat) (a : Assertion) : Reads limit [.assertion a] := by
  cases a with
  | lineStart | lineEnd =>
    apply reads_quiet
    case ht => exact quiet_singleton (by simp [signs])
    case hseen => rfl
    all_goals simp
  | wordBoundary | notWordBoundary =>
    intro s previous rest final _ hclean _
    exact absurd hclean.front.1 (by simp [spelling, Token.text, Assertion.text, unportableEscape])

theorem reads_openLook (limit : Nat) (kind : Look) : Reads limit [.openLook kind] := by
  intro s previous rest final _ hclean _
  have hfront := hclean.front.2.1
  cases kind
  all_goals exact absurd hfront (by simp [spelling, Token.text, Look.text, lookaroundOrFlags, isFlag])

theorem reads_bar (limit : Nat) : Reads limit [.bar] := by
  intro s previous rest final hs _ h
  have hturn : s.turn limit previous '|' rest = .ok ({ s with hasAlternation := true }, 0) := by
    simp [Scan.turn, hs.escaped, hs.inCharacterClass]
  have htext : spelling [.bar] ++ rest = '|' :: rest := rfl
  rw [htext, scan, hturn] at h
  refine ⟨{ s with hasAlternation := true }, _, ⟨hs.escaped, hs.inCharacterClass⟩, h, ?_⟩
  constructor
  all_goals simp [seen, Token.isQuantifier]

theorem reads_openGroup (limit : Nat) (kind : GroupKind) : Reads limit [.openGroup kind] := by
  -- a capture is one parenthesis; its text has no sign
  cases kind with
  | capture =>
    apply reads_quiet
    case ht => exact quiet_singleton (by simp [signs])
    case hseen => rfl
    all_goals simp
  -- the `?` behind the parenthesis is passed over
  | nonCapturing =>
    intro s previous rest final hs _ h
    have htext : spelling [.openGroup .nonCapturing] ++ rest = ['('] ++ '?' :: ([':'] ++ rest) := rfl
    have hopen : lastOf previous ['('] = some '(' := rfl
    rw [htext, scan_quiet hs.escaped (quiet_singleton (by simp [signs])), scan_question hs,
      if_pos hopen, scan_quiet hs.escaped (quiet_singleton (by simp [signs]))] at h
    refine ⟨s, _, hs, h, ?_⟩
    constructor
    all_goals simp [seen, Token.isQuantifier]
  -- a name is refused by the test for named groups
  | named first tail hfirst =>
    intro s previous rest final _ hclean _
    exact absurd hclean.front.2.2.1
      (by simp [spelling, Token.text, GroupKind.text, namedGroup, hfirst])
  -- flags are refused by the test for lookaround and flags
  | modifiers flags hflags =>
    intro s previous rest final _ hclean _
    have hfront := hclean.front.2.1
    obtain ⟨flag, flags, rfl⟩ := List.exists_cons_of_ne_nil hflags.1
    have hmark : flag ≠ '<' := by
      rintro rfl
      exact absurd (hflags.2 '<' (by simp)) (by decide)
    have htext : spelling [.openGroup (.modifiers (flag :: flags) hflags)] ++ rest =
        '(' :: '?' :: (flag :: flags ++ ':' :: rest) := by
      simp [spelling, Token.text, GroupKind.text]
    have hall : ∀ c ∈ flag :: flags, isFlag c = true := hflags.2
    have hread : lookaroundOrFlags ('(' :: '?' :: (flag :: flags ++ ':' :: rest)) = true := by
      rw [lookaroundOrFlags]
      · rw [takeWhile_break hall (by decide), dropWhile_break hall (by decide)]
        rfl
      · intro c tail heq
        exact hmark (List.cons.inj heq).1
    rw [htext, hread] at hfront
    cases hfront

theorem reads_close (limit : Nat) (q : Option Quantifier) :
    Reads limit (.close :: quantifierToken none q) := by
  cases q with
  | none =>
    apply reads_quiet
    case ht => exact quiet_singleton (by simp [signs])
    case hseen => rfl
    all_goals simp
  -- a quantified group is refused by its own test
  | some q =>
    intro s previous rest final _ hclean _
    have hfront := hclean.front.2.2.2
    have htext : spelling (.close :: quantifierToken none (some q)) ++ rest =
        ')' :: (q.count.text ++ ((if q.lazy then ['?'] else []) ++ rest)) := by
      simp [spelling, quantifierToken, Token.text, Quantifier.text]
    rw [htext] at hfront
    cases hcount : q.count with
    | star | plus | optional =>
      rw [hcount] at hfront
      exact absurd hfront (by simp [Count.text, quantifiedGroup])
    | exactly digits hdigits =>
      have hbrace := braceQuantifier_exactly hdigits ((if q.lazy then ['?'] else []) ++ rest)
      rw [hcount] at hfront
      exact absurd hfront (by simp [Count.text, quantifiedGroup, hbrace])
    | atLeast digits hdigits =>
      have hempty : ∀ c ∈ ([] : List Char), c.isDigit = true := by simp
      obtain ⟨quantifier, hbrace, -⟩ := braceQuantifier_range hdigits hempty
        ((if q.lazy then ['?'] else []) ++ rest)
      rw [List.nil_append] at hbrace
      rw [hcount] at hfront
      exact absurd hfront (by simp [Count.text, quantifiedGroup, hbrace])
    | between low high hboth =>
      obtain ⟨quantifier, hbrace, -⟩ := braceQuantifier_range hboth.1 hboth.2.2
        ((if q.lazy then ['?'] else []) ++ rest)
      rw [hcount] at hfront
      exact absurd hfront (by simp [Count.text, quantifiedGroup, hbrace])

theorem reads_atom (limit : Nat) (a : Atom) (q : Option Quantifier) :
    Reads limit (.atom a :: quantifierToken (some a) q) := by
  intro s previous rest final hs hclean h
  have htext : spelling (.atom a :: quantifierToken (some a) q) ++ rest =
      a.text ++ (spelling (quantifierToken (some a) q) ++ rest) := by
    simp [spelling, Token.text]
  rw [htext] at hclean h
  obtain ⟨middle, between, hmiddle, hcount, halternation, hscan, hopen, hreference⟩ :=
    scan_atom hs hclean h
  cases q with
  | none =>
    refine ⟨middle, between, hmiddle, hscan, ?_⟩
    constructor
    case backReference =>
      intro b hb hmem
      obtain rfl : b = a := by simpa [quantifierToken] using hmem
      rw [hb] at hreference
      cases hreference
    case counted => simpa [seen, quantifierToken, Token.isQuantifier] using hcount
    all_goals simp [quantifierToken, halternation]
  | some q =>
    have hquantifier : spelling (quantifierToken (some a) (some q)) ++ rest =
        q.count.text ++ ((if q.lazy then ['?'] else []) ++ rest) := by
      simp [spelling, quantifierToken, Token.text, Quantifier.text]
    rw [hquantifier] at hscan
    obtain ⟨counted, mark, hcounted, halternation', hlazy, hgrown, hseen⟩ := scan_count hmiddle hscan
    obtain ⟨s', previous', hs', hmore, halternation'', hrest⟩ := scan_lazy hcounted hlazy
    refine ⟨s', previous', hs', hrest, ?_⟩
    constructor
    case backReference =>
      intro b hb hmem
      obtain rfl : b = a := by simpa [quantifierToken] using hmem
      rw [hb] at hreference
      cases hreference
    case counted =>
      -- the quantifier is passed over only when the scan takes it for the mark of a group
      have hone : seen (.atom a :: quantifierToken (some a) (some q)) =
          if isEscapedOpen a && isOptional q.count then 0 else 1 := by
        cases hunseen : isEscapedOpen a && isOptional q.count
        · simp [seen, quantifierToken, Token.isQuantifier, isUnseen, hunseen]
        · simp [seen, quantifierToken, Token.isQuantifier, isUnseen, hunseen]
      rw [hone]
      obtain ⟨hoptional, hprevious⟩ | hlarger := hseen
      · rw [hopen hprevious, hoptional]
        show s.quantifiers ≤ s'.quantifiers
        omega
      · split
        · omega
        · omega
    all_goals simp [quantifierToken, halternation, halternation', halternation'']

mutual

theorem reads_disjunction (limit : Nat) : (d : Disjunction) → Reads limit d.tokens
  | .one alternative => reads_alternative limit alternative
  | .more alternative rest =>
    (reads_alternative limit alternative).append
      ((reads_bar limit).append (reads_disjunction limit rest))

theorem reads_alternative (limit : Nat) : (a : Alternative) → Reads limit a.tokens
  | .empty => reads_nil limit
  | .cons term rest => (reads_term limit term).append (reads_alternative limit rest)

theorem reads_term (limit : Nat) : (t : Term) → Reads limit t.tokens
  | .assertion a => reads_assertion limit a
  | .look kind body =>
    (reads_openLook limit kind).append
      ((reads_disjunction limit body).append (reads_close limit none))
  | .atom a q => reads_atom limit a q
  | .group kind body q =>
    (reads_openGroup limit kind).append
      ((reads_disjunction limit body).append (reads_close limit q))

end

/-- What stands behind `none`: every text was clean, and the scan found one quantifier at most. -/
theorem patternError_none {maxLength maxRepetition : Nat} {pattern : String}
    (h : patternError maxLength maxRepetition pattern = none) :
    Clean pattern.toList ∧ ∃ s, scan maxRepetition {} none 0 pattern.toList = .ok s ∧
      s.quantifiers ≤ 1 ∧ s.hasAlternation = false := by
  unfold patternError at h
  dsimp only at h
  -- each refusal leads away from `none`
  split at h
  · cases h
  split at h
  · cases h
  next hescape =>
  split at h
  · cases h
  split at h
  · cases h
  next hlook =>
  split at h
  · cases h
  next hnamed =>
  split at h
  · cases h
  next hgroup =>
  -- no tail offends, since none of the tests was met
  constructor
  · intro t ht
    have hmem : t ∈ pattern.toList.tails := (List.mem_tails t pattern.toList).mpr ht
    simp only [List.any_eq_true, not_exists, not_and, Bool.not_eq_true] at hescape hlook hnamed hgroup
    simp only [offends, hescape t hmem, hlook t hmem, hnamed t hmem, hgroup t hmem, Bool.or_self]
  · split at h
    · cases h
    next s hscan =>
    split at h
    · cases h
    next hcount =>
    split at h
    · cases h
    next halternation =>
    exact ⟨s, hscan, by omega, Bool.eq_false_iff.mpr halternation⟩

/-- An accepted pattern is harmless, and the guard has counted what it could see. -/
theorem harmless_of_accepted {maxLength maxRepetition : Nat} {pattern : String} {d : Disjunction}
    (hd : d.text = pattern.toList) (h : patternError maxLength maxRepetition pattern = none) :
    Harmless d.tokens ∧ seen d.tokens ≤ 1 := by
  obtain ⟨hclean, final, hscan, hcount, halternation⟩ := patternError_none h
  have htext : spelling d.tokens ++ [] = pattern.toList := (List.append_nil _).trans hd
  rw [← htext] at hclean hscan
  obtain ⟨s, previous, -, hend, hfound⟩ :=
    reads_disjunction maxRepetition d {} none [] final ⟨rfl, rfl⟩ hclean hscan
  obtain rfl : s = final := Except.ok.inj hend
  have hcounted := hfound.counted
  refine ⟨⟨hfound.groups, ?_, hfound.lookaround, hfound.backReference⟩, ?_⟩
  · intro hbar
    rw [hfound.alternation (.inl hbar)] at halternation
    cases halternation
  · exact (Nat.le_add_left _ _).trans (hcounted.trans hcount)

/-- The two copies accept the same strings.  An accepted pattern is simple, and given up after an
effort that is linear in the input, exactly when none of its question marks stands directly behind an
escaped opening parenthesis, or that one is its only quantifier. -/
theorem accepted_patterns_simple_iff (pattern : String) :
    (Formats.validationPatternError pattern = none ↔
      ValidatorCompiler.validationPatternError pattern = none) ∧
    ∀ d : Disjunction, d.text = pattern.toList →
      Formats.validationPatternError pattern = none →
      ((Simple d.tokens ∧ ∀ (m : Matcher) (i : Nat), i ≤ m.length →
          d.work m i ≤ (d.tokens.length + 1) * (m.length + 2)) ↔
        unseen d.tokens = 0 ∨ unseen d.tokens = 1 ∧ seen d.tokens = 0) := by
  refine ⟨Iff.rfl, ?_⟩
  intro d hd h
  obtain ⟨hharmless, hseen⟩ := harmless_of_accepted hd h
  have htotal := quantifiers_eq d.tokens
  constructor
  · rintro ⟨hsimple, -⟩
    have hone := hsimple.quantifiers
    omega
  · intro hcondition
    have hsimple : Simple d.tokens := { hharmless with quantifiers := by omega }
    exact ⟨hsimple, fun m i hi => hsimple.work_le m hi⟩

/-- `^\(?a$`: one hidden question mark, and no other quantifier. -/
def oneOptional : Disjunction :=
  .one (.cons (.assertion .lineStart)
    (.cons (.atom (.escape (.identity '(' (by decide))) (some ⟨.optional, false⟩))
      (.cons (.atom (.char 'a' (by decide)) none)
        (.cons (.assertion .lineEnd) .empty))))

/-- The character that an atom of one character stands for. -/
def plainCharacter : Atom → Option Char
  | .char c _ => some c
  | .escape (.identity c _) => some c
  | _ => none

/-- An input for patterns over plain characters and the two ends of the line. -/
def plainMatcher (input : List Char) : Matcher where
  length := input.length
  -- the character at the place, and none of the classes
  step a i := if plainCharacter a ≠ none ∧ input[i]? = plainCharacter a then some (i + 1) else none
  holds a i :=
    match a with
    | .lineStart => i = 0
    | .lineEnd => i = input.length
    | _ => false
  looks _ _ _ := false
  step_le a i j h := by
    split at h
    · next hread =>
      obtain ⟨c, hc⟩ := Option.ne_none_iff_exists'.mp hread.1
      have hlt := (List.getElem?_eq_some_iff.mp (hread.2.trans hc)).1
      have hj := Option.some.inj h
      omega
    · cases h
  step_lt a i j _ h := by
    split at h
    · have hj := Option.some.inj h
      omega
    · cases h

/-- Over `((((` the pattern is given up after six attempts. -/
theorem oneOptional_simple : Simple oneOptional.tokens ∧
    oneOptional.work (plainMatcher "((((".toList) 0 = 6 ∧
    oneOptional.work (plainMatcher "((((".toList) 0 ≤ (oneOptional.tokens.length + 1) * 6 := by
  obtain ⟨hsimple, hwork⟩ :=
    ((accepted_patterns_simple_iff "^\\(?a$").2 oneOptional (by decide) (by decide)).mpr
      (.inr (by decide))
  exact ⟨hsimple, by decide, hwork (plainMatcher "((((".toList) 0 (Nat.zero_le _)⟩

/-- `^\(?\(?$`. -/
def twoOptionals : Disjunction :=
  .one (.cons (.assertion .lineStart)
    (.cons (.atom (.escape (.identity '(' (by decide))) (some ⟨.optional, false⟩))
      (.cons (.atom (.escape (.identity '(' (by decide))) (some ⟨.optional, false⟩))
        (.cons (.assertion .lineEnd) .empty))))

theorem twoOptionals_accepted :
    ¬ ∀ (pattern : String) (d : Disjunction), d.text = pattern.toList →
      Formats.validationPatternError pattern = none → Simple d.tokens := by
  intro hclaim
  have hsimple := hclaim "^\\(?\\(?$" twoOptionals (by decide) (by decide)
  exact absurd hsimple.quantifiers (by decide)

end FluxFast.Validation
