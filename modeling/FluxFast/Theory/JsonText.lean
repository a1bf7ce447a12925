import FluxFast.Theory.Json
import FluxFast.Theory.Utf16

/-!
# JsonText — JSON texts, read and written

The lexer is a machine over the characters of a text.  A string literal stands for UTF-16 code
units, and a bare word is a literal or a number; a `Lexicon` says what a language makes of both.  A
`Writer` puts tokens into characters.  `read_write` is the round trip of the two: what a writer
that a lexicon can read puts down is read back.
-/

namespace FluxFast.Theory

namespace Json

variable {σ ν σ' ν' : Type}

/-- What a language makes of the units of a string literal, and which words are numbers. -/
structure Lexicon (σ ν : Type) where
  text : List Nat → Option σ
  number : List Char → Option ν

/-! ## The lexer -/

inductive Lexer where
  | blank
  | word (chars : List Char)
  | text (units : List Nat)
  | escape (units : List Nat)
  | unicode (units : List Nat) (digits value : Nat)

def isSpace (c : Char) : Bool := c = ' ' || c = '\t' || c = '\n' || c = '\r'

/-- The characters of literals and numbers. -/
def isWordChar (c : Char) : Bool := c.isAlphanum || c = '+' || c = '-' || c = '.'

def hexDigit (c : Char) : Option Nat :=
  if '0' ≤ c ∧ c ≤ '9' then some (c.toNat - 48)
  else if 'a' ≤ c ∧ c ≤ 'f' then some (c.toNat - 87)
  else if 'A' ≤ c ∧ c ≤ 'F' then some (c.toNat - 55)
  else none

/-- The unit that a letter stands for after a backslash. -/
def unescape (c : Char) : Option Nat :=
  if c = '"' then some 0x22
  else if c = '\\' then some 0x5c
  else if c = '/' then some 0x2f
  else if c = 'b' then some 0x08
  else if c = 'f' then some 0x0c
  else if c = 'n' then some 0x0a
  else if c = 'r' then some 0x0d
  else if c = 't' then some 0x09
  else none

namespace Lexer

/-- A character between two tokens. -/
def start (c : Char) : Option (List (Token σ ν) × Lexer) :=
  if isSpace c then some ([], .blank)
  else if c = '[' then some ([.openArray], .blank)
  else if c = ']' then some ([.closeArray], .blank)
  else if c = '\x7b' then some ([.openObject], .blank)
  else if c = '\x7d' then some ([.closeObject], .blank)
  else if c = ',' then some ([.comma], .blank)
  else if c = ':' then some ([.colon], .blank)
  else if c = '"' then some ([], .text [])
  else if isWordChar c then some ([], .word [c])
  else none

variable (L : Lexicon σ ν)

def classify (chars : List Char) : Option (Token σ ν) :=
  if chars = "null".toList then some .null
  else if chars = "true".toList then some (.bool true)
  else if chars = "false".toList then some (.bool false)
  else (L.number chars).map .number

def step : Lexer → Char → Option (List (Token σ ν) × Lexer)
  | .blank, c => start c
  | .word chars, c =>
    if isWordChar c then some ([], .word (chars ++ [c]))
    else (classify L chars).bind fun t => (start c).map fun s => (t :: s.1, s.2)
  | .text units, c =>
    if c = '"' then (L.text units).map fun s => ([.string s], .blank)
    else if c = '\\' then some ([], .escape units)
    else if c.toNat < 0x20 then none
    else some ([], .text (units ++ Utf16.encodeChar c))
  | .escape units, c =>
    if c = 'u' then some ([], .unicode units 0 0)
    else (unescape c).map fun u => ([], .text (units ++ [u]))
  | .unicode units digits value, c =>
    (hexDigit c).map fun d =>
      if digits = 3 then ([], .text (units ++ [value * 16 + d]))
      else ([], .unicode units (digits + 1) (value * 16 + d))

def finish : Lexer → Option (List (Token σ ν))
  | .blank => some []
  | .word chars => (classify L chars).map fun t => [t]
  | _ => none

def run (l : Lexer) : List Char → Option (List (Token σ ν))
  | [] => l.finish L
  | c :: cs => (step L l c).bind fun s => (s.2.run cs).map fun ts => s.1 ++ ts

end Lexer

/-- The tokens of a text. -/
def lex (L : Lexicon σ ν) (cs : List Char) : Option (List (Token σ ν)) := Lexer.blank.run L cs

def read (L : Lexicon σ ν) (cs : List Char) : Option (Json σ ν) := (lex L cs).bind parse

/-! ## Numbers -/

/-- One digit or more, and then what `after` accepts. -/
def digitsThen (after : List Char → Bool) (cs : List Char) : Bool :=
  !(cs.takeWhile Char.isDigit).isEmpty && after (cs.dropWhile Char.isDigit)

def isExponent : List Char → Bool
  | [] => true
  | c :: cs =>
    (c = 'e' || c = 'E') && digitsThen List.isEmpty
      (match cs with
      | '+' :: ds | '-' :: ds => ds
      | ds => ds)

def isFraction : List Char → Bool
  | '.' :: cs => digitsThen isExponent cs
  | cs => isExponent cs

/-- A number without its sign: no digit follows a leading zero. -/
def isUnsigned (cs : List Char) : Bool :=
  digitsThen isFraction cs && (cs.head? ≠ some '0' || (cs.takeWhile Char.isDigit).length = 1)

/-- The number literals of JSON. -/
def isNumber : List Char → Bool
  | '-' :: cs => isUnsigned cs
  | cs => isUnsigned cs

theorem isWordChar_of_isDigit {c : Char} (h : c.isDigit = true) : isWordChar c = true := by
  simp [isWordChar, Char.isAlphanum, h]

theorem all_of_digitsThen {after : List Char → Bool} {cs : List Char}
    (h : digitsThen after cs = true) (hafter : ∀ ds, after ds = true → ds.all isWordChar = true) :
    cs.all isWordChar = true ∧ cs.head?.any Char.isDigit = true := by
  rw [digitsThen, Bool.and_eq_true, Bool.not_eq_true'] at h
  constructor
  · rw [← List.takeWhile_append_dropWhile (p := Char.isDigit) (l := cs), List.all_append,
      hafter _ h.2, Bool.and_true, List.all_eq_true]
    have hdigits : (cs.takeWhile Char.isDigit).all Char.isDigit = true := List.all_takeWhile
    exact fun c hc => isWordChar_of_isDigit (List.all_eq_true.mp hdigits c hc)
  · cases cs with
    | nil => exact absurd h.1 (by decide)
    | cons c cs =>
      by_cases hc : c.isDigit = true
      · exact hc
      · rw [List.takeWhile_cons_of_neg hc] at h
        exact absurd h.1 (by decide)

theorem all_of_isExponent {cs : List Char} (h : isExponent cs = true) :
    cs.all isWordChar = true := by
  cases cs with
  | nil => rfl
  | cons c cs =>
    unfold isExponent at h
    obtain ⟨hc, hdigits⟩ := Bool.and_eq_true_iff.mp h
    have hhead : isWordChar c = true := by
      rcases Bool.or_eq_true_iff.mp hc with hc | hc <;> rw [of_decide_eq_true hc] <;> decide
    rw [List.all_cons, hhead, Bool.true_and]
    have hnil : ∀ ds : List Char, ds.isEmpty = true → ds.all isWordChar = true := by
      intro ds hds
      rw [List.isEmpty_iff.mp hds]
      rfl
    split at hdigits
    · rw [List.all_cons, (all_of_digitsThen hdigits hnil).1]
      rfl
    · rw [List.all_cons, (all_of_digitsThen hdigits hnil).1]
      rfl
    · exact (all_of_digitsThen hdigits hnil).1

theorem all_of_isFraction {cs : List Char} (h : isFraction cs = true) :
    cs.all isWordChar = true := by
  unfold isFraction at h
  split at h
  · rw [List.all_cons, (all_of_digitsThen h fun _ => all_of_isExponent).1]
    rfl
  · exact all_of_isExponent h

/-- A number begins with a digit or a minus sign. -/
theorem isNumber_spec {cs : List Char} (h : isNumber cs = true) :
    cs.all isWordChar = true ∧ cs.head?.any (fun c => c = '-' || c.isDigit) = true := by
  unfold isNumber at h
  split at h
  · rw [isUnsigned, Bool.and_eq_true] at h
    rw [List.all_cons, (all_of_digitsThen h.1 fun _ => all_of_isFraction).1]
    exact ⟨rfl, rfl⟩
  · rw [isUnsigned, Bool.and_eq_true] at h
    obtain ⟨hall, hhead⟩ := all_of_digitsThen h.1 fun _ => all_of_isFraction
    refine ⟨hall, ?_⟩
    cases cs with
    | nil => exact hhead
    | cons c cs => exact Bool.or_eq_true_iff.mpr (.inr hhead)

/-! ## Writing -/

structure Writer (σ ν : Type) where
  /-- The content of a string literal, between its quotes. -/
  text : σ → List Char
  number : ν → List Char
  comma : List Char := [',']
  colon : List Char := [':']

namespace Writer

def spell (W : Writer σ ν) : Token σ ν → List Char
  | .null => "null".toList
  | .bool true => "true".toList
  | .bool false => "false".toList
  | .number n => W.number n
  | .string s => '"' :: (W.text s ++ ['"'])
  | .openArray => ['[']
  | .closeArray => [']']
  | .openObject => ['\x7b']
  | .closeObject => ['\x7d']
  | .comma => W.comma
  | .colon => W.colon

def write (W : Writer σ ν) (j : Json σ ν) : List Char := j.tokens.flatMap W.spell

end Writer

/-! ## One token -/

section Tokens

variable (L : Lexicon σ ν)

/-- What follows does not go on with the word before it. -/
def Apart (cs : List Char) : Prop := ∀ c ∈ cs.head?, isWordChar c = false

theorem apart_nil : Apart [] := fun c hc => by cases hc

theorem apart_cons {c : Char} (h : isWordChar c = false) (cs : List Char) : Apart (c :: cs) :=
  fun d hd => by
    cases hd
    exact h

namespace Lexer

theorem run_word (chars : List Char) {word : List Char} (hword : word.all isWordChar = true) {cs : List Char}
    (hcs : Apart cs) {t : Token σ ν} (ht : classify L (chars ++ word) = some t) :
    (Lexer.word chars).run L (word ++ cs) = (Lexer.blank.run L cs).map fun ts => t :: ts := by
  induction word generalizing chars with
  | nil =>
    rw [List.append_nil] at ht
    -- the text ends with the word
    cases cs with
    | nil =>
      show (classify L chars).map _ = some [t]
      rw [ht]
      rfl
    -- a character that is no part of a word ends it and is read from the blank state
    | cons c cs =>
      have hc : isWordChar c = false := hcs c rfl
      show ((if isWordChar c = true then _ else _ : Option _).bind _) = _
      rw [hc, ht]
      show ((start c).map _).bind _ = ((step L .blank c).bind _).map _
      show _ = ((start c).bind _).map _
      cases start c with
      | none => rfl
      | some s =>
        show (Lexer.run L s.2 cs).map _ = ((Lexer.run L s.2 cs).map _).map _
        rw [Option.map_map]
        rfl
  -- the word goes on by one character
  | cons c word ih =>
    rw [List.all_cons, Bool.and_eq_true] at hword
    rw [List.append_cons] at ht
    show ((if isWordChar c = true then _ else _ : Option _).bind _) = _
    rw [if_pos hword.1, Option.bind_some]
    refine Eq.trans ?_ (ih _ hword.2 ht)
    exact Option.map_id'

theorem start_wordChar {c : Char} (h : isWordChar c = true) :
    start c = some (([] : List (Token σ ν)), Lexer.word [c]) := by
  have hne : ∀ d : Char, isWordChar d = false → c ≠ d := fun d hd he => by
    rw [he, hd] at h
    cases h
  unfold start
  have hspace : isSpace c = false := by
    simp only [isSpace, Bool.or_eq_false_iff, decide_eq_false_iff_not]
    exact ⟨⟨⟨hne _ (by decide), hne _ (by decide)⟩, hne _ (by decide)⟩, hne _ (by decide)⟩
  rw [if_neg (by rw [hspace]; exact Bool.false_ne_true), if_neg (hne _ (by decide)),
    if_neg (hne _ (by decide)), if_neg (hne _ (by decide)), if_neg (hne _ (by decide)),
    if_neg (hne _ (by decide)), if_neg (hne _ (by decide)), if_neg (hne _ (by decide)), if_pos h]

end Lexer

/-- A word is read whole when nothing goes on with it. -/
theorem lex_word {word cs : List Char} (hword : word.all isWordChar = true) (hne : word ≠ [])
    (hcs : Apart cs) {t : Token σ ν} (ht : Lexer.classify L word = some t) :
    lex L (word ++ cs) = (lex L cs).map fun ts => t :: ts := by
  cases word with
  | nil => exact absurd rfl hne
  | cons c word =>
    rw [List.all_cons, Bool.and_eq_true] at hword
    show (Lexer.start c).bind _ = _
    rw [Lexer.start_wordChar hword.1, Option.bind_some]
    refine Eq.trans ?_ (Lexer.run_word L [c] hword.2 hcs ht)
    exact Option.map_id'

/-- A number is no literal. -/
theorem classify_number {word : List Char} (h : isNumber word = true) :
    Lexer.classify L word = (L.number word).map .number := by
  have hhead := (isNumber_spec h).2
  have hne : ∀ literal : String,
      literal.toList.head?.any (fun c => c = '-' || c.isDigit) = false → word ≠ literal.toList := by
    rintro literal hliteral rfl
    rw [hliteral] at hhead
    cases hhead
  unfold Lexer.classify
  rw [if_neg (hne _ (by decide)), if_neg (hne _ (by decide)), if_neg (hne _ (by decide))]

/-- The content `cs` of a string literal spells the units `us`. -/
def Spells (cs : List Char) (us : List Nat) : Prop :=
  ∀ before rest, (Lexer.text before).run L (cs ++ rest) = (Lexer.text (before ++ us)).run L rest

theorem Spells.nil : Spells L [] [] := fun before rest => by rw [List.append_nil]; rfl

theorem Spells.append {cs ds : List Char} {us vs : List Nat} (h₁ : Spells L cs us)
    (h₂ : Spells L ds vs) : Spells L (cs ++ ds) (us ++ vs) := fun before rest => by
  rw [List.append_assoc, h₁, h₂, List.append_assoc]

theorem spells_flatMap {escape : Char → List Char}
    (h : ∀ c, Spells L (escape c) (Utf16.encodeChar c)) (cs : List Char) :
    Spells L (cs.flatMap escape) (Utf16.encode cs) := by
  induction cs with
  | nil => exact Spells.nil L
  | cons c cs ih => exact (h c).append L ih

theorem lex_string {cs : List Char} {us : List Nat} (h : Spells L cs us) {s : σ}
    (hs : L.text us = some s) (rest : List Char) :
    lex L ('"' :: (cs ++ '"' :: rest)) = (lex L rest).map fun ts => .string s :: ts := by
  have hbegin : lex L ('"' :: (cs ++ '"' :: rest)) =
      ((Lexer.text []).run L (cs ++ '"' :: rest)).map fun ts => [] ++ ts := rfl
  have hend : (Lexer.text us).run L ('"' :: rest) =
      ((L.text us).map fun s => ([Token.string s], Lexer.blank)).bind
        fun s => (Lexer.run L s.2 rest).map fun ts => s.1 ++ ts := rfl
  rw [hbegin, h, List.nil_append, hend, hs]
  exact Option.map_id'

end Tokens

/-! ## Escapes -/

def hexChar (d : Nat) : Char := Char.ofNat (if d < 10 then 48 + d else 87 + d)

/-- The four digits after `\u`. -/
def unicodeEscape (u : Nat) : List Char :=
  ['\\', 'u', hexChar (u / 0x1000 % 16), hexChar (u / 0x100 % 16), hexChar (u / 0x10 % 16),
    hexChar (u % 16)]

def shortEscape (c : Char) : Option Char :=
  if c = '"' then some '"'
  else if c = '\\' then some '\\'
  else if c.toNat = 0x08 then some 'b'
  else if c.toNat = 0x0c then some 'f'
  else if c.toNat = 0x0a then some 'n'
  else if c.toNat = 0x0d then some 'r'
  else if c.toNat = 0x09 then some 't'
  else none

/-- Quotes, backslashes and control characters are escaped, nothing else. -/
def escapeChar (c : Char) : List Char :=
  match shortEscape c with
  | some e => ['\\', e]
  | none => if c.toNat < 0x20 then unicodeEscape c.toNat else [c]

/-- Everything outside printable ASCII is escaped. -/
def escapeAscii (c : Char) : List Char :=
  match shortEscape c with
  | some e => ['\\', e]
  | none =>
    if 0x20 ≤ c.toNat ∧ c.toNat < 0x7f then [c]
    else (Utf16.encodeChar c).flatMap unicodeEscape

section Escapes

variable (L : Lexicon σ ν)

theorem hexDigit_hexChar {d : Nat} (h : d < 16) : hexDigit (hexChar d) = some d := by
  have hall : ∀ d : Fin 16, hexDigit (hexChar d) = some d.val := by decide
  exact hall ⟨d, h⟩

theorem spells_unicodeEscape {u : Nat} (h : u < 0x10000) : Spells L (unicodeEscape u) [u] := by
  intro before rest
  -- one digit of the escape that is not its last one
  have hmore : ∀ d n v cs, d < 16 → n ≠ 3 →
      (Lexer.unicode before n v).run L (hexChar d :: cs) =
        (Lexer.unicode before (n + 1) (v * 16 + d)).run L cs := by
    intro d n v cs hd hn
    show ((hexDigit (hexChar d)).map _).bind _ = _
    rw [hexDigit_hexChar hd]
    simp only [hn, Option.map_some, Option.bind_some, if_false]
    exact Option.map_id'
  -- the last digit completes the code unit
  have hlast : ∀ d v cs, d < 16 → (Lexer.unicode before 3 v).run L (hexChar d :: cs) =
      (Lexer.text (before ++ [v * 16 + d])).run L cs := by
    intro d v cs hd
    show ((hexDigit (hexChar d)).map _).bind _ = _
    rw [hexDigit_hexChar hd]
    exact Option.map_id'
  have hbegin : ∀ cs, (Lexer.text before).run L ('\\' :: 'u' :: cs) =
      (Lexer.unicode before 0 0).run L cs := by
    intro cs
    show Option.map _ (Option.map _ ((Lexer.unicode before 0 0).run L cs)) = _
    rw [Option.map_map]
    exact Option.map_id'
  rw [unicodeEscape]
  simp only [List.cons_append, List.nil_append]
  rw [hbegin, hmore _ 0 _ _ (Nat.mod_lt _ (by decide)) (by decide),
    hmore _ 1 _ _ (Nat.mod_lt _ (by decide)) (by decide),
    hmore _ 2 _ _ (Nat.mod_lt _ (by decide)) (by decide), hlast _ _ _ (Nat.mod_lt _ (by decide))]
  have hvalue : (((0 * 16 + u / 0x1000 % 16) * 16 + u / 0x100 % 16) * 16 + u / 0x10 % 16) * 16 +
      u % 16 = u := by omega
  rw [hvalue]

theorem spells_shortEscape {c e : Char} (h : shortEscape c = some e) :
    Spells L ['\\', e] [c.toNat] := by
  intro before rest
  have hback : e ≠ 'u' ∧ unescape e = some c.toNat := by
    unfold shortEscape at h
    split_ifs at h with h₁ h₂ h₃ h₄ h₅ h₆ h₇ <;> cases h
    · exact ⟨by decide, by rw [h₁]; rfl⟩
    · exact ⟨by decide, by rw [h₂]; rfl⟩
    · exact ⟨by decide, by rw [h₃]; rfl⟩
    · exact ⟨by decide, by rw [h₄]; rfl⟩
    · exact ⟨by decide, by rw [h₅]; rfl⟩
    · exact ⟨by decide, by rw [h₆]; rfl⟩
    · exact ⟨by decide, by rw [h₇]; rfl⟩
  have hbegin : ∀ cs, (Lexer.text before).run L ('\\' :: cs) = (Lexer.escape before).run L cs :=
    fun cs => Option.map_id'
  show (Lexer.text before).run L ('\\' :: (e :: rest)) = _
  rw [hbegin]
  show ((if e = 'u' then _ else (unescape e).map _ : Option _).bind _) = _
  rw [if_neg hback.1, hback.2]
  exact Option.map_id'

theorem spells_plain {c : Char} (hquote : c ≠ '"') (hback : c ≠ '\\') (h : 0x20 ≤ c.toNat) :
    Spells L [c] (Utf16.encodeChar c) := by
  intro before rest
  show ((if c = '"' then _ else if c = '\\' then _ else if c.toNat < 0x20 then _ else _ :
    Option _).bind _) = _
  rw [if_neg hquote, if_neg hback, if_neg (Nat.not_lt.mpr h)]
  exact Option.map_id'

theorem shortEscape_none {c : Char} (h : shortEscape c = none) : c ≠ '"' ∧ c ≠ '\\' := by
  constructor <;> rintro rfl <;> cases h

theorem encodeChar_of_small {c : Char} (h : c.toNat < 0x10000) :
    Utf16.encodeChar c = [c.toNat] := if_pos h

theorem shortEscape_small {c e : Char} (h : shortEscape c = some e) : c.toNat < 0x10000 := by
  unfold shortEscape at h
  split_ifs at h with h₁ h₂ h₃ h₄ h₅ h₆ h₇
  · rw [h₁]; decide
  · rw [h₂]; decide
  all_goals omega

theorem spells_escapeChar (c : Char) : Spells L (escapeChar c) (Utf16.encodeChar c) := by
  unfold escapeChar
  split
  · next e h =>
    rw [encodeChar_of_small (shortEscape_small h)]
    exact spells_shortEscape L h
  · next h =>
    split
    · next hcontrol =>
      have hsmall : c.toNat < 0x10000 := Nat.lt_trans hcontrol (by decide)
      rw [encodeChar_of_small hsmall]
      exact spells_unicodeEscape L hsmall
    · next hplain =>
      exact spells_plain L (shortEscape_none h).1 (shortEscape_none h).2 (Nat.not_lt.mp hplain)

theorem spells_escapeAscii (c : Char) : Spells L (escapeAscii c) (Utf16.encodeChar c) := by
  unfold escapeAscii
  split
  · next e h =>
    rw [encodeChar_of_small (shortEscape_small h)]
    exact spells_shortEscape L h
  · next h =>
    split
    · next hplain => exact spells_plain L (shortEscape_none h).1 (shortEscape_none h).2 hplain.1
    · have hunits : ∀ us : List Nat, (∀ u ∈ us, u < 0x10000) →
          Spells L (us.flatMap unicodeEscape) us := by
        intro us hus
        induction us with
        | nil => exact Spells.nil L
        | cons u us ih =>
          exact (spells_unicodeEscape L (hus u List.mem_cons_self)).append L
            (ih fun v hv => hus v (List.mem_cons_of_mem _ hv))
      exact hunits _ (Utf16.encodeChar_lt c)

end Escapes

/-! ## The round trip -/

/-- The lexicon reads what the writer puts down: `f` of a string and `g` of a number. -/
structure Writer.Legible (W : Writer σ' ν') (L : Lexicon σ ν) (f : σ' → σ) (g : ν' → ν) :
    Prop where
  text : ∀ s, ∃ us, Spells L (W.text s) us ∧ L.text us = some (f s)
  wordChars : ∀ n, (W.number n).all isWordChar = true ∧ W.number n ≠ []
  number : ∀ n, Lexer.classify L (W.number n) = some (.number (g n))
  comma : ∀ rest, lex L (W.comma ++ rest) = (lex L rest).map fun ts => .comma :: ts
  colon : ∀ rest, lex L (W.colon ++ rest) = (lex L rest).map fun ts => .colon :: ts
  apart : ∀ rest, Apart (W.comma ++ rest)

/-- Compact separators are read as they are. -/
theorem Writer.legible_of_compact {W : Writer σ' ν'} {L : Lexicon σ ν} {f : σ' → σ} {g : ν' → ν}
    (hcomma : W.comma = [',']) (hcolon : W.colon = [':'])
    (htext : ∀ s, ∃ us, Spells L (W.text s) us ∧ L.text us = some (f s))
    (hchars : ∀ n, (W.number n).all isWordChar = true ∧ W.number n ≠ [])
    (hnumber : ∀ n, Lexer.classify L (W.number n) = some (.number (g n))) : W.Legible L f g where
  text := htext
  wordChars := hchars
  number := hnumber
  comma rest := by rw [hcomma]; rfl
  colon rest := by rw [hcolon]; rfl
  apart rest := by rw [hcomma]; exact apart_cons (by decide) rest

mutual

def map (f : σ' → σ) (g : ν' → ν) : Json σ' ν' → Json σ ν
  | .null => .null
  | .bool b => .bool b
  | .number n => .number (g n)
  | .string s => .string (f s)
  | .array items => .array (mapItems f g items)
  | .object members => .object (mapMembers f g members)

def mapItems (f : σ' → σ) (g : ν' → ν) : List (Json σ' ν') → List (Json σ ν)
  | [] => []
  | item :: items => item.map f g :: mapItems f g items

def mapMembers (f : σ' → σ) (g : ν' → ν) : List (σ' × Json σ' ν') → List (σ × Json σ ν)
  | [] => []
  | (key, value) :: members => (f key, value.map f g) :: mapMembers f g members

end

theorem mapItems_eq (f : σ' → σ) (g : ν' → ν) (items : List (Json σ' ν')) :
    mapItems f g items = items.map (Json.map f g) := by
  induction items with
  | nil => rfl
  | cons item items ih => rw [mapItems, ih, List.map_cons]

theorem mapMembers_eq (f : σ' → σ) (g : ν' → ν) (members : List (σ' × Json σ' ν')) :
    mapMembers f g members = members.map fun m => (f m.1, m.2.map f g) := by
  induction members with
  | nil => rfl
  | cons member members ih => rw [mapMembers, ih, List.map_cons]

/-! ## Values that agree -/

mutual

/-- The same value up to its numbers, which are compared by `same`. -/
def Agree (same : ν' → ν → Prop) : Json σ ν' → Json σ ν → Prop
  | .null, .null => True
  | .bool b, .bool c => b = c
  | .number n, .number m => same n m
  | .string s, .string t => s = t
  | .array items, .array others => ItemsAgree same items others
  | .object members, .object others => MembersAgree same members others
  | _, _ => False

def ItemsAgree (same : ν' → ν → Prop) : List (Json σ ν') → List (Json σ ν) → Prop
  | [], [] => True
  | item :: items, other :: others => Agree same item other ∧ ItemsAgree same items others
  | _, _ => False

def MembersAgree (same : ν' → ν → Prop) :
    List (σ × Json σ ν') → List (σ × Json σ ν) → Prop
  | [], [] => True
  | (key, value) :: members, (key', value') :: others =>
    key = key' ∧ Agree same value value' ∧ MembersAgree same members others
  | _, _ => False

end

mutual

/-- Every number in the value satisfies `p`. -/
def EveryNumber (p : ν → Prop) : Json σ ν → Prop
  | .number n => p n
  | .array items => ItemsEveryNumber p items
  | .object members => MembersEveryNumber p members
  | _ => True

def ItemsEveryNumber (p : ν → Prop) : List (Json σ ν) → Prop
  | [] => True
  | item :: items => EveryNumber p item ∧ ItemsEveryNumber p items

def MembersEveryNumber (p : ν → Prop) : List (σ × Json σ ν) → Prop
  | [] => True
  | (_, value) :: members => EveryNumber p value ∧ MembersEveryNumber p members

end

mutual

theorem agree_map {same : ν' → ν → Prop} {g : ν' → ν} (j : Json σ ν') :
    Agree same j (j.map id g) ↔ EveryNumber (fun n => same n (g n)) j := by
  cases j with
  | null => exact Iff.rfl
  | bool b => exact iff_of_true rfl trivial
  | number n => exact Iff.rfl
  | string s => exact iff_of_true rfl trivial
  | array items => exact itemsAgree_map items
  | object members => exact membersAgree_map members

theorem itemsAgree_map {same : ν' → ν → Prop} {g : ν' → ν} (items : List (Json σ ν')) :
    ItemsAgree same items (mapItems id g items) ↔
      ItemsEveryNumber (fun n => same n (g n)) items := by
  cases items with
  | nil => exact Iff.rfl
  | cons item items => exact and_congr (agree_map item) (itemsAgree_map items)

theorem membersAgree_map {same : ν' → ν → Prop} {g : ν' → ν} (members : List (σ × Json σ ν')) :
    MembersAgree same members (mapMembers id g members) ↔
      MembersEveryNumber (fun n => same n (g n)) members := by
  cases members with
  | nil => exact Iff.rfl
  | cons member members =>
    obtain ⟨key, value⟩ := member
    exact (and_iff_right rfl).trans (and_congr (agree_map value) (membersAgree_map members))

end

section RoundTrip

variable {W : Writer σ' ν'} {L : Lexicon σ ν} {f : σ' → σ} {g : ν' → ν}

/-- The texts that come after a value in a container. -/
theorem apart_moreItems (h : W.Legible L f g) (items : List (Json σ' ν')) (rest : List Char) :
    Apart ((moreItemTokens items).flatMap W.spell ++ rest) := by
  cases items with
  | nil => exact apart_cons (by decide) _
  | cons item items =>
    rw [moreItemTokens, List.flatMap_cons, List.append_assoc]
    exact h.apart _

theorem apart_moreMembers (h : W.Legible L f g) (members : List (σ' × Json σ' ν'))
    (rest : List Char) : Apart ((moreMemberTokens members).flatMap W.spell ++ rest) := by
  cases members with
  | nil => exact apart_cons (by decide) _
  | cons member members =>
    rw [moreMemberTokens, List.flatMap_cons, List.append_assoc]
    exact h.apart _

/-- A string is read, whatever follows. -/
theorem lex_spell_string (h : W.Legible L f g) (s : σ') (rest : List Char) :
    lex L (W.spell (.string s) ++ rest) = (lex L rest).map fun ts => .string (f s) :: ts := by
  obtain ⟨us, hspells, hread⟩ := h.text s
  rw [← lex_string L hspells hread rest, Writer.spell, List.cons_append, List.append_assoc]
  rfl

theorem lex_name (h : W.Legible L f g) (s : σ') (rest : List Char) :
    lex L (W.spell (.string s) ++ (W.colon ++ rest)) =
      (lex L rest).map fun ts => .string (f s) :: .colon :: ts := by
  rw [lex_spell_string h, h.colon, Option.map_map]
  rfl

mutual

theorem lex_tokens (h : W.Legible L f g) (j : Json σ' ν') {rest : List Char} (hrest : Apart rest) :
    lex L (j.tokens.flatMap W.spell ++ rest) =
      (lex L rest).map fun ts => (j.map f g).tokens ++ ts := by
  -- one case for each kind of value; a word needs `hrest`, which tells where it ends
  cases j with
  | null =>
    show lex L ("null".toList ++ rest) = _
    exact lex_word L (by decide) (by decide) hrest rfl
  | bool b =>
    cases b with
    | true =>
      show lex L ("true".toList ++ rest) = _
      exact lex_word L (by decide) (by decide) hrest rfl
    | false =>
      show lex L ("false".toList ++ rest) = _
      exact lex_word L (by decide) (by decide) hrest rfl
  | number n =>
    rw [tokens, List.flatMap_singleton]
    exact lex_word L (h.wordChars n).1 (h.wordChars n).2 hrest (h.number n)
  | string s =>
    rw [tokens, List.flatMap_singleton]
    exact lex_spell_string h s rest
  | array items =>
    have hbegin : lex L ((Json.array items).tokens.flatMap W.spell ++ rest) =
        (lex L ((itemTokens items).flatMap W.spell ++ rest)).map fun ts => .openArray :: ts := rfl
    rw [hbegin, lex_itemTokens h items, Option.map_map]
    rfl
  | object members =>
    have hbegin : lex L ((Json.object members).tokens.flatMap W.spell ++ rest) =
        (lex L ((memberTokens members).flatMap W.spell ++ rest)).map
          fun ts => .openObject :: ts := rfl
    rw [hbegin, lex_memberTokens h members, Option.map_map]
    rfl

theorem lex_itemTokens (h : W.Legible L f g) (items : List (Json σ' ν')) {rest : List Char} :
    lex L ((itemTokens items).flatMap W.spell ++ rest) =
      (lex L rest).map fun ts => itemTokens (mapItems f g items) ++ ts := by
  cases items with
  | nil => rfl
  | cons item items =>
    rw [itemTokens, List.flatMap_append, List.append_assoc,
      lex_tokens h item (apart_moreItems h items rest), lex_moreItemTokens h items,
      Option.map_map, mapItems, itemTokens]
    refine congrArg (fun F => Option.map F (lex L rest)) (funext fun ts => ?_)
    exact (List.append_assoc ..).symm

theorem lex_moreItemTokens (h : W.Legible L f g) (items : List (Json σ' ν')) {rest : List Char} :
    lex L ((moreItemTokens items).flatMap W.spell ++ rest) =
      (lex L rest).map fun ts => moreItemTokens (mapItems f g items) ++ ts := by
  cases items with
  | nil => rfl
  | cons item items =>
    rw [moreItemTokens, List.flatMap_cons, List.flatMap_append, List.append_assoc,
      List.append_assoc, Writer.spell, h.comma, lex_tokens h item (apart_moreItems h items rest),
      lex_moreItemTokens h items, Option.map_map, Option.map_map, mapItems, moreItemTokens]
    refine congrArg (fun F => Option.map F (lex L rest)) (funext fun ts => ?_)
    exact congrArg _ (List.append_assoc ..).symm

theorem lex_memberTokens (h : W.Legible L f g) (members : List (σ' × Json σ' ν'))
    {rest : List Char} :
    lex L ((memberTokens members).flatMap W.spell ++ rest) =
      (lex L rest).map fun ts => memberTokens (mapMembers f g members) ++ ts := by
  cases members with
  | nil => rfl
  | cons member members =>
    obtain ⟨key, value⟩ := member
    rw [memberTokens, List.flatMap_cons, List.flatMap_cons, List.flatMap_append, List.append_assoc,
      List.append_assoc, List.append_assoc]
    show lex L (W.spell (.string key) ++ (W.colon ++ _)) = _
    rw [lex_name h, lex_tokens h value (apart_moreMembers h members rest),
      lex_moreMemberTokens h members, Option.map_map, Option.map_map, mapMembers, memberTokens]
    refine congrArg (fun F => Option.map F (lex L rest)) (funext fun ts => ?_)
    exact congrArg (fun us => _ :: _ :: us) (List.append_assoc ..).symm

theorem lex_moreMemberTokens (h : W.Legible L f g) (members : List (σ' × Json σ' ν'))
    {rest : List Char} :
    lex L ((moreMemberTokens members).flatMap W.spell ++ rest) =
      (lex L rest).map fun ts => moreMemberTokens (mapMembers f g members) ++ ts := by
  cases members with
  | nil => rfl
  | cons member members =>
    obtain ⟨key, value⟩ := member
    rw [moreMemberTokens, List.flatMap_cons, List.flatMap_cons, List.flatMap_cons,
      List.flatMap_append, List.append_assoc, List.append_assoc, List.append_assoc,
      List.append_assoc]
    show lex L (W.comma ++ (W.spell (.string key) ++ (W.colon ++ _))) = _
    rw [h.comma, lex_name h, lex_tokens h value (apart_moreMembers h members rest),
      lex_moreMemberTokens h members, Option.map_map, Option.map_map, Option.map_map, mapMembers,
      moreMemberTokens]
    refine congrArg (fun F => Option.map F (lex L rest)) (funext fun ts => ?_)
    exact congrArg (fun us => _ :: _ :: _ :: us) (List.append_assoc ..).symm

end

/-- What a legible writer puts down is read back. -/
theorem read_write (h : W.Legible L f g) (j : Json σ' ν') :
    read L (W.write j) = some (j.map f g) := by
  have hlex := lex_tokens h j apart_nil
  rw [List.append_nil] at hlex
  rw [read, Writer.write, hlex]
  show parse ((j.map f g).tokens ++ []) = _
  rw [List.append_nil]
  exact parse_tokens _

end RoundTrip

end Json

end FluxFast.Theory
