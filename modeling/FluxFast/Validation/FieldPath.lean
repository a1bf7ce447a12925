import FluxFast.Theory.JsonText
import Mathlib

/-!
# FieldPath — the text of a validation path

`formatValidationPath` of the client.  A path is unambiguous: its text gives the segments back.
-/

namespace FluxFast.Validation

open FluxFast.Theory

/-- A string is its UTF-16 code units; a number is a safe integer that is not negative. -/
inductive PathSegment
  | number (n : Fin (2 ^ 53))
  | string (units : List UInt16)
  deriving DecidableEq

def isIdentifierStart (n : Nat) : Bool :=
  (65 ≤ n && n ≤ 90) || n = 95 || n = 36 || (97 ≤ n && n ≤ 122)

def isIdentifierPart (n : Nat) : Bool := isIdentifierStart n || (48 ≤ n && n ≤ 57)

/-- `/^[A-Za-z_$][A-Za-z0-9_$]*$/`. -/
def isIdentifier : List Nat → Bool
  | [] => false
  | n :: ns => isIdentifierStart n && ns.all isIdentifierPart

/-- `$`. -/
def dollar : List Nat := [36]

def isSurrogate (n : Nat) : Bool := Utf16.isHigh n || Utf16.isLow n

/-- A code point between the quotes of a JSON text; a surrogate that stands alone is escaped. -/
def quotePoint (p : Nat) : List Char :=
  if isSurrogate p then Json.unicodeEscape p else Json.escapeChar (Char.ofNat p)

/-- `JSON.stringify` of a string, as code units. -/
def stringify (units : List Nat) : List Nat :=
  Utf16.encode ('"' :: ((Utf16.codePoints units).flatMap quotePoint ++ ['"']))

def PathSegment.append (first : Bool) : PathSegment → List Nat
  | .number n => Utf16.encode ('[' :: (Nat.toDigits 10 n ++ [']']))
  | .string units =>
    let units := units.map UInt16.toNat
    if isIdentifier units && !(first && units = dollar) then
      (if first then [] else Utf16.encode ['.']) ++ units
    else Utf16.encode ['['] ++ stringify units ++ Utf16.encode [']']

/-- The text as code units. -/
def formatValidationPath : List PathSegment → List Nat
  | [] => dollar
  | segment :: path => segment.append true ++ path.flatMap (PathSegment.append false)

/-! ## Code points -/

/-- The code units of a code point, a surrogate that stands alone included. -/
def unitsOf (p : Nat) : List Nat :=
  if p < 0x10000 then [p] else [0xd800 + (p - 0x10000) / 0x400, 0xdc00 + (p - 0x10000) % 0x400]

theorem unitsOf_join {high low : Nat} (hhigh : Utf16.isHigh high = true)
    (hlow : Utf16.isLow low = true) : unitsOf (Utf16.join high low) = [high, low] := by
  simp only [Utf16.isHigh, Utf16.isLow, Bool.and_eq_true, decide_eq_true_eq] at hhigh hlow
  have hlarge : ¬Utf16.join high low < 0x10000 := by
    unfold Utf16.join
    omega
  have hfirst : 0xd800 + (Utf16.join high low - 0x10000) / 0x400 = high := by
    unfold Utf16.join
    omega
  have hsecond : 0xdc00 + (Utf16.join high low - 0x10000) % 0x400 = low := by
    unfold Utf16.join
    omega
  unfold unitsOf
  rw [if_neg hlarge, hfirst, hsecond]

/-- The code points of code units give the units back. -/
theorem flatMap_codePoints {us : List Nat} (hus : ∀ u ∈ us, u < 0x10000) :
    (Utf16.codePoints us).flatMap unitsOf = us := by
  induction us using Utf16.codePoints.induct with
  | case1 => rfl
  | case2 u =>
    have hu := hus u List.mem_cons_self
    simp [Utf16.codePoints, unitsOf, hu]
  | case3 u v us hpair ih =>
    simp only [Bool.and_eq_true] at hpair
    have hrest := ih fun w hw => hus w (List.mem_cons_of_mem _ (List.mem_cons_of_mem _ hw))
    rw [Utf16.codePoints, hpair.1, hpair.2]
    simp only [Bool.and_self, if_true, List.flatMap_cons]
    rw [hrest, unitsOf_join hpair.1 hpair.2]
    rfl
  | case4 u v us hpair ih =>
    have hu := hus u List.mem_cons_self
    have hrest := ih fun w hw => hus w (List.mem_cons_of_mem _ hw)
    rw [Utf16.codePoints, if_neg hpair, List.flatMap_cons, hrest, unitsOf, if_pos hu]
    rfl

/-- Code units are characters, code points are below the last one. -/
theorem codePoints_lt {us : List Nat} (hus : ∀ u ∈ us, u < 0x10000) :
    ∀ p ∈ Utf16.codePoints us, p < 0x110000 := by
  -- by the recursion of `codePoints`: a pair of surrogates, or one unit
  induction us using Utf16.codePoints.induct with
  | case1 => simp [Utf16.codePoints]
  | case2 u =>
    have hu := hus u List.mem_cons_self
    intro p hp
    rw [Utf16.codePoints, List.mem_singleton] at hp
    omega
  | case3 u v us hpair ih =>
    simp only [Bool.and_eq_true] at hpair
    have hrest := ih fun w hw => hus w (List.mem_cons_of_mem _ (List.mem_cons_of_mem _ hw))
    intro p hp
    rw [Utf16.codePoints, hpair.1, hpair.2] at hp
    simp only [Bool.and_self, if_true, List.mem_cons] at hp
    rcases hp with hp | hp
    -- a pair stands for at most `0x10FFFF`
    · simp only [Utf16.isHigh, Utf16.isLow, Bool.and_eq_true, decide_eq_true_eq] at hpair
      unfold Utf16.join at hp
      omega
    · exact hrest p hp
  | case4 u v us hpair ih =>
    have hu := hus u List.mem_cons_self
    have hrest := ih fun w hw => hus w (List.mem_cons_of_mem _ hw)
    intro p hp
    rw [Utf16.codePoints, if_neg hpair, List.mem_cons] at hp
    rcases hp with rfl | hp
    · omega
    · exact hrest p hp

theorem isIdentifierPart_of_isIdentifier {ns : List Nat} (h : isIdentifier ns = true) :
    ∀ n ∈ ns, isIdentifierPart n = true := by
  cases ns with
  | nil => cases h
  | cons n ns =>
    simp only [isIdentifier, Bool.and_eq_true, List.all_eq_true] at h
    intro m hm
    rcases List.mem_cons.mp hm with rfl | hm
    · simp [isIdentifierPart, h.1]
    · exact h.2 m hm

theorem lt_of_isIdentifierPart {n : Nat} (h : isIdentifierPart n = true) : n < 128 := by
  simp only [isIdentifierPart, isIdentifierStart, Bool.or_eq_true, Bool.and_eq_true,
    decide_eq_true_eq] at h
  omega

/-- ASCII is its own code points. -/
theorem codePoints_of_lt {us : List Nat} (hus : ∀ u ∈ us, u < 128) : Utf16.codePoints us = us := by
  induction us using Utf16.codePoints.induct with
  | case1 => rfl
  | case2 u => rfl
  | case3 u v us hpair ih =>
    have hu := hus u List.mem_cons_self
    simp only [Utf16.isHigh, Bool.and_eq_true, decide_eq_true_eq] at hpair
    omega
  | case4 u v us hpair ih =>
    rw [Utf16.codePoints, if_neg hpair, ih fun w hw => hus w (List.mem_cons_of_mem _ hw)]

/-- Whether a name is an identifier can be read off its code points. -/
theorem isIdentifier_codePoints {us : List Nat} (hus : ∀ u ∈ us, u < 0x10000) :
    isIdentifier (Utf16.codePoints us) = isIdentifier us := by
  have hsame : ∀ ns : List Nat, isIdentifier ns = true → ∀ n ∈ ns, n < 128 := fun ns h n hn =>
    lt_of_isIdentifierPart (isIdentifierPart_of_isIdentifier h n hn)
  cases hunits : isIdentifier us with
  | true => rw [codePoints_of_lt (hsame us hunits), hunits]
  | false =>
    cases hpoints : isIdentifier (Utf16.codePoints us) with
    | false => rfl
    | true =>
      -- small code points are the units themselves
      have hback := flatMap_codePoints hus
      have hsingle : (Utf16.codePoints us).flatMap unitsOf = Utf16.codePoints us := by
        have hsmall := hsame _ hpoints
        generalize Utf16.codePoints us = ps at hsmall
        induction ps with
        | nil => rfl
        | cons p ps ih =>
          have hp := hsmall p List.mem_cons_self
          rw [List.flatMap_cons, ih fun q hq => hsmall q (List.mem_cons_of_mem _ hq), unitsOf,
            if_pos (by omega)]
          rfl
      rw [← hback, hsingle] at hunits
      rw [hunits] at hpoints
      cases hpoints

/-! ## The text of a path -/

/-- A segment as both sides see it, with the code points of a name. -/
inductive FieldSegment
  | number (n : Nat)
  | name (points : List Nat)

def PathSegment.field : PathSegment → FieldSegment
  | .number n => .number n
  | .string units => .name (Utf16.codePoints (units.map UInt16.toNat))

def FieldSegment.text (first : Bool) : FieldSegment → List Char
  | .number n => '[' :: (Nat.toDigits 10 n ++ [']'])
  | .name points =>
    if isIdentifier points && !(first && points = dollar) then
      (if first then [] else ['.']) ++ points.map Char.ofNat
    else '[' :: '"' :: (points.flatMap quotePoint ++ ['"', ']'])

/-- The text of the segments, the first of which is not led by a dot. -/
def pathText : List FieldSegment → List Char
  | [] => ['$']
  | segment :: path => segment.text true ++ path.flatMap (FieldSegment.text false)

theorem encode_append (cs ds : List Char) :
    Utf16.encode (cs ++ ds) = Utf16.encode cs ++ Utf16.encode ds := List.flatMap_append

/-- ASCII as characters and as code units. -/
theorem encode_map_ofNat {us : List Nat} (hus : ∀ u ∈ us, u < 128) :
    Utf16.encode (us.map Char.ofNat) = us := by
  induction us with
  | nil => rfl
  | cons u us ih =>
    have hu := hus u List.mem_cons_self
    have hchar : (Char.ofNat u).toNat = u := by
      have hvalid : u.isValidChar := .inl (by omega)
      rw [Char.ofNat, dif_pos hvalid]
      rfl
    have hrest : Utf16.encode (us.map Char.ofNat) = us :=
      ih fun v hv => hus v (List.mem_cons_of_mem _ hv)
    show Utf16.encodeChar (Char.ofNat u) ++ Utf16.encode (us.map Char.ofNat) = u :: us
    rw [hrest, Utf16.encodeChar, hchar, if_pos (by omega)]
    rfl

theorem toNat_lt_of_mem {units : List UInt16} : ∀ u ∈ units.map UInt16.toNat, u < 0x10000 := by
  intro u hu
  obtain ⟨v, -, rfl⟩ := List.mem_map.mp hu
  exact v.toNat_lt

theorem append_eq (first : Bool) (segment : PathSegment) :
    segment.append first = Utf16.encode (segment.field.text first) := by
  cases segment with
  | number n => rfl
  | string units =>
    have hus : ∀ u ∈ units.map UInt16.toNat, u < 0x10000 := toNat_lt_of_mem
    simp only [PathSegment.append, PathSegment.field, FieldSegment.text]
    generalize units.map UInt16.toNat = us at hus
    rw [isIdentifier_codePoints hus]
    cases hident : isIdentifier us with
    | false =>
      simp only [Bool.false_and, Bool.false_eq_true, if_false]
      rw [stringify, ← encode_append, ← encode_append]
      simp
    | true =>
      have hsmall : ∀ u ∈ us, u < 128 := fun u hu =>
        lt_of_isIdentifierPart (isIdentifierPart_of_isIdentifier hident u hu)
      rw [codePoints_of_lt hsmall]
      split
      · rw [encode_append, encode_map_ofNat hsmall]
        cases first <;> rfl
      · rw [stringify, codePoints_of_lt hsmall, ← encode_append, ← encode_append]
        simp

/-- The path as code units is the text of its fields. -/
theorem formatValidationPath_eq (path : List PathSegment) :
    formatValidationPath path = Utf16.encode (pathText (path.map PathSegment.field)) := by
  cases path with
  | nil => rfl
  | cons segment path =>
    have hrest : path.flatMap (PathSegment.append false) =
        Utf16.encode ((path.map PathSegment.field).flatMap (FieldSegment.text false)) := by
      induction path with
      | nil => rfl
      | cons next path ih =>
        rw [List.flatMap_cons, List.map_cons, List.flatMap_cons, encode_append, ih, append_eq]
    show segment.append true ++ path.flatMap (PathSegment.append false) = _
    rw [hrest, append_eq, ← encode_append]
    rfl

/-! ## Reading a path -/

/-- The code point in front of a text between quotes, and the rest of it. -/
def readPoint : List Char → Option (Nat × List Char)
  | '\\' :: 'u' :: a :: b :: c :: d :: rest => do
    let a ← Json.hexDigit a
    let b ← Json.hexDigit b
    let c ← Json.hexDigit c
    let d ← Json.hexDigit d
    return (((a * 16 + b) * 16 + c) * 16 + d, rest)
  | '\\' :: e :: rest => (Json.unescape e).map fun p => (p, rest)
  | c :: rest => some (c.toNat, rest)
  | [] => none

theorem readPoint_unicodeEscape {p : Nat} (hp : p < 0x10000) (rest : List Char) :
    readPoint (Json.unicodeEscape p ++ rest) = some (p, rest) := by
  have hdigit : ∀ n, Json.hexDigit (Json.hexChar (n % 16)) = some (n % 16) :=
    fun n => Json.hexDigit_hexChar (Nat.mod_lt _ (by decide))
  have hvalue : ((p / 0x1000 % 16 * 16 + p / 0x100 % 16) * 16 + p / 0x10 % 16) * 16 + p % 16 = p := by
    omega
  simp only [Json.unicodeEscape, List.cons_append, List.nil_append, readPoint, hdigit,
    Option.bind_eq_bind, Option.bind_some, hvalue]
  rfl

theorem readPoint_shortEscape {c e : Char} (h : Json.shortEscape c = some e) (rest : List Char) :
    readPoint ('\\' :: e :: rest) = some (c.toNat, rest) := by
  unfold Json.shortEscape at h
  split_ifs at h with h₁ h₂ h₃ h₄ h₅ h₆ h₇ <;> cases h
  · rw [h₁]; rfl
  · rw [h₂]; rfl
  · rw [h₃]; rfl
  · rw [h₄]; rfl
  · rw [h₅]; rfl
  · rw [h₆]; rfl
  · rw [h₇]; rfl

theorem readPoint_plain {c : Char} (hc : c ≠ '\\') (rest : List Char) :
    readPoint (c :: rest) = some (c.toNat, rest) := by
  unfold readPoint
  split
  · next heq => exact absurd (List.cons.inj heq).1 hc
  · next heq => exact absurd (List.cons.inj heq).1 hc
  · next heq =>
    obtain ⟨rfl, rfl⟩ := List.cons.inj heq
    rfl
  · next heq => cases heq

theorem readPoint_escapeChar (c : Char) (rest : List Char) :
    readPoint (Json.escapeChar c ++ rest) = some (c.toNat, rest) := by
  unfold Json.escapeChar
  split
  · next e h => exact readPoint_shortEscape h rest
  · next h =>
    split
    · exact readPoint_unicodeEscape (by omega) rest
    · exact readPoint_plain (Json.shortEscape_none h).2 rest

theorem toNat_ofNat {p : Nat} (hp : p < 0x110000) (h : isSurrogate p = false) :
    (Char.ofNat p).toNat = p := by
  have hvalid : p.isValidChar := by
    simp only [isSurrogate, Utf16.isHigh, Utf16.isLow, Bool.or_eq_false_iff, Bool.and_eq_false_iff,
      decide_eq_false_iff_not] at h
    unfold Nat.isValidChar
    omega
  rw [Char.ofNat, dif_pos hvalid]
  rfl

theorem readPoint_quotePoint {p : Nat} (hp : p < 0x110000) (rest : List Char) :
    readPoint (quotePoint p ++ rest) = some (p, rest) := by
  unfold quotePoint
  cases h : isSurrogate p with
  | true =>
    rw [if_pos rfl]
    refine readPoint_unicodeEscape ?_ rest
    simp only [isSurrogate, Utf16.isHigh, Utf16.isLow, Bool.or_eq_true, Bool.and_eq_true,
      decide_eq_true_eq] at h
    omega
  | false =>
    rw [if_neg Bool.false_ne_true, readPoint_escapeChar, toNat_ofNat hp h]

/-- No code point is written with a quote in front. -/
theorem quotePoint_head (p : Nat) : ∃ c cs, quotePoint p = c :: cs ∧ c ≠ '"' := by
  unfold quotePoint Json.escapeChar
  split
  · exact ⟨'\\', _, rfl, by decide⟩
  · split
    · exact ⟨'\\', _, rfl, by decide⟩
    · next h =>
      split
      · exact ⟨'\\', _, rfl, by decide⟩
      · exact ⟨_, [], rfl, (Json.shortEscape_none h).1⟩

/-- A quoted name ends where its closing quote stands. -/
theorem quoted_cancel {ps qs : List Nat} (hps : ∀ p ∈ ps, p < 0x110000)
    (hqs : ∀ q ∈ qs, q < 0x110000) {x y : List Char}
    (h : ps.flatMap quotePoint ++ '"' :: x = qs.flatMap quotePoint ++ '"' :: y) : ps = qs ∧ x = y := by
  have hempty : ∀ (q : Nat) (qs : List Nat) (x y : List Char),
      '"' :: x ≠ (q :: qs).flatMap quotePoint ++ '"' :: y := by
    intro q qs x y heq
    obtain ⟨c, cs, hquote, hc⟩ := quotePoint_head q
    rw [List.flatMap_cons, hquote] at heq
    exact hc (List.cons.inj heq).1.symm
  induction ps generalizing qs with
  | nil =>
    cases qs with
    | nil => exact ⟨rfl, (List.cons.inj h).2⟩
    | cons q qs => exact absurd h (hempty q qs x y)
  | cons p ps ih =>
    cases qs with
    | nil => exact absurd h.symm (hempty p ps y x)
    | cons q qs =>
      rw [List.flatMap_cons, List.flatMap_cons, List.append_assoc, List.append_assoc] at h
      have hread := congrArg readPoint h
      rw [readPoint_quotePoint (hps p List.mem_cons_self),
        readPoint_quotePoint (hqs q List.mem_cons_self)] at hread
      obtain ⟨rfl, hrest⟩ := Prod.mk.inj (Option.some.inj hread)
      obtain ⟨rfl, rfl⟩ := ih (fun p hp => hps p (List.mem_cons_of_mem _ hp))
        (fun q hq => hqs q (List.mem_cons_of_mem _ hq)) hrest
      exact ⟨rfl, rfl⟩

/-- What follows a segment. -/
def Ends (cs : List Char) : Prop := ∀ c ∈ cs.head?, c = '.' ∨ c = '['

/-- A run of characters ends where the first other one stands. -/
theorem run_cancel {p : Char → Bool} {cs ds x y : List Char} (hcs : ∀ c ∈ cs, p c = true)
    (hds : ∀ d ∈ ds, p d = true) (hx : ∀ c ∈ x.head?, p c = false) (hy : ∀ c ∈ y.head?, p c = false)
    (h : cs ++ x = ds ++ y) : cs = ds ∧ x = y := by
  have hstop : ∀ z : List Char, (∀ c ∈ z.head?, p c = false) → z.takeWhile p = [] := by
    intro z hz
    cases z with
    | nil => rfl
    | cons c z => exact List.takeWhile_cons_of_neg (by simp [hz c rfl])
  have htake := congrArg (List.takeWhile p) h
  rw [List.takeWhile_append_of_pos hcs, List.takeWhile_append_of_pos hds, hstop x hx, hstop y hy,
    List.append_nil, List.append_nil] at htake
  obtain rfl := htake
  exact ⟨rfl, List.append_cancel_left h⟩

/-- A name of code points. -/
def FieldSegment.Valid : FieldSegment → Prop
  | .number _ => True
  | .name points => ∀ p ∈ points, p < 0x110000

def isPlain (points : List Nat) (first : Bool) : Bool :=
  isIdentifier points && !(first && points = dollar)

/-- The three shapes of a segment. -/
theorem text_cases (first : Bool) (segment : FieldSegment) :
    (∃ n, segment = .number n ∧ segment.text first = '[' :: (Nat.toDigits 10 n ++ [']'])) ∨
    (∃ points, segment = .name points ∧ isPlain points first = true ∧
      segment.text first = (if first then [] else ['.']) ++ points.map Char.ofNat) ∨
    ∃ points, segment = .name points ∧ isPlain points first = false ∧
      segment.text first = '[' :: '"' :: (points.flatMap quotePoint ++ ['"', ']']) := by
  cases segment with
  | number n => exact .inl ⟨n, rfl, rfl⟩
  | name points =>
    cases hplain : isPlain points first with
    | true => exact .inr (.inl ⟨points, rfl, hplain, if_pos hplain⟩)
    | false =>
      refine .inr (.inr ⟨points, rfl, hplain, if_neg ?_⟩)
      show ¬isPlain points first = true
      rw [hplain]
      exact Bool.false_ne_true

theorem toDigits_injective : Function.Injective (Nat.toDigits 10) := by
  intro n m h
  have hvalue := congrArg (fun digits => Nat.ofDigitChars 10 digits 0) h
  simpa only [Nat.ofDigitChars_ten_toDigits] using hvalue

theorem isDigit_of_mem {n : Nat} : ∀ c ∈ Nat.toDigits 10 n, c.isDigit = true :=
  fun _ hc => Nat.isDigit_of_mem_toDigits (by decide) (by decide) hc

def isNameChar (c : Char) : Bool := isIdentifierPart c.toNat

/-- An identifier is a run of characters that are no delimiters. -/
theorem nameChars {points : List Nat} (h : isIdentifier points = true) :
    ∀ c ∈ points.map Char.ofNat, isNameChar c = true := by
  intro c hc
  obtain ⟨p, hp, rfl⟩ := List.mem_map.mp hc
  have hpart := isIdentifierPart_of_isIdentifier h p hp
  have hsmall := lt_of_isIdentifierPart hpart
  have hplain : isSurrogate p = false := by
    simp only [isSurrogate, Utf16.isHigh, Utf16.isLow, Bool.or_eq_false_iff, Bool.and_eq_false_iff,
      decide_eq_false_iff_not]
    omega
  rw [isNameChar, toNat_ofNat (by omega) hplain]
  exact hpart

theorem map_toNat_ofNat {points : List Nat} (h : isIdentifier points = true) :
    (points.map Char.ofNat).map Char.toNat = points := by
  have hsmall : ∀ p ∈ points, p < 128 := fun p hp =>
    lt_of_isIdentifierPart (isIdentifierPart_of_isIdentifier h p hp)
  have hcode := Utf16.codePoints_encode (points.map Char.ofNat)
  rw [encode_map_ofNat hsmall, codePoints_of_lt hsmall] at hcode
  exact hcode.symm

theorem isNameChar_of_ends {cs : List Char} (h : Ends cs) : ∀ c ∈ cs.head?, isNameChar c = false := by
  intro c hc
  rcases h c hc with rfl | rfl <;> decide

/-- An identifier does not begin with a bracket. -/
theorem plain_ne_bracket {first : Bool} {points : List Nat} (h : isPlain points first = true)
    (x y : List Char) :
    (if first then [] else ['.']) ++ points.map Char.ofNat ++ x ≠ '[' :: y := by
  intro heq
  cases first with
  | false =>
    have hdot := (List.cons.inj heq).1
    exact absurd hdot (by decide)
  | true =>
    unfold isPlain at h
    simp only [Bool.and_eq_true] at h
    cases points with
    | nil => cases h.1
    | cons p points =>
      have hname := nameChars h.1 (Char.ofNat p) List.mem_cons_self
      have hhead : Char.ofNat p = '[' := (List.cons.inj heq).1
      rw [hhead] at hname
      exact absurd hname (by decide)

theorem isPlain_identifier {first : Bool} {points : List Nat} (h : isPlain points first = true) :
    isIdentifier points = true := by
  unfold isPlain at h
  rw [Bool.and_eq_true] at h
  exact h.1

/-- A segment can be told from the text that it begins. -/
theorem text_cancel {first : Bool} {s t : FieldSegment} (hs : s.Valid) (ht : t.Valid)
    {x y : List Char} (hx : Ends x) (hy : Ends y) (h : s.text first ++ x = t.text first ++ y) :
    s = t ∧ x = y := by
  -- a bracket is no digit, so a number in brackets ends there
  have hclose : ∀ z : List Char, ∀ c ∈ (']' :: z).head?, c.isDigit = false := by
    intro z c hc
    cases hc
    decide
  -- a number does not start with a quotation mark
  have hdigit : ∀ (n : Nat) (z w : List Char), Nat.toDigits 10 n ++ ']' :: z ≠ '"' :: w := by
    intro n z w heq
    cases hdigits : Nat.toDigits 10 n with
    | nil => exact Nat.toDigits_ne_nil hdigits
    | cons d ds =>
      have hd := isDigit_of_mem d (hdigits ▸ List.mem_cons_self)
      rw [hdigits] at heq
      rw [(List.cons.inj heq).1] at hd
      exact absurd hd (by decide)
  -- the first character tells a name, a number and a quoted name apart
  rcases text_cases first s with ⟨n, rfl, hn⟩ | ⟨ps, rfl, hps, hsp⟩ | ⟨ps, rfl, -, hsq⟩
  · rcases text_cases first t with ⟨m, rfl, hm⟩ | ⟨qs, rfl, hqs, htp⟩ | ⟨qs, rfl, -, htq⟩
    · rw [hn, hm] at h
      simp only [List.cons_append, List.append_assoc, List.nil_append, List.cons.injEq,
        true_and] at h
      -- two numbers of the same digits
      obtain ⟨hdigits, hrest⟩ := run_cancel isDigit_of_mem isDigit_of_mem (hclose _) (hclose _) h
      rw [toDigits_injective hdigits]
      exact ⟨rfl, (List.cons.inj hrest).2⟩
    · rw [hn, htp] at h
      exact absurd h.symm (plain_ne_bracket hqs _ _)
    · rw [hn, htq] at h
      simp only [List.cons_append, List.append_assoc, List.nil_append, List.cons.injEq,
        true_and] at h
      exact absurd h (hdigit n _ _)
  · rcases text_cases first t with ⟨m, rfl, hm⟩ | ⟨qs, rfl, hqs, htp⟩ | ⟨qs, rfl, -, htq⟩
    · rw [hsp, hm] at h
      exact absurd h (plain_ne_bracket hps _ _)
    · rw [hsp, htp, List.append_assoc, List.append_assoc] at h
      have hrest := List.append_cancel_left h
      -- two names of the same characters
      obtain ⟨hname, hxy⟩ := run_cancel (nameChars (isPlain_identifier hps))
        (nameChars (isPlain_identifier hqs)) (isNameChar_of_ends hx) (isNameChar_of_ends hy) hrest
      have hpoints := congrArg (List.map Char.toNat) hname
      rw [map_toNat_ofNat (isPlain_identifier hps), map_toNat_ofNat (isPlain_identifier hqs)]
        at hpoints
      exact ⟨by rw [hpoints], hxy⟩
    · rw [hsp, htq] at h
      exact absurd h (plain_ne_bracket hps _ _)
  · rcases text_cases first t with ⟨m, rfl, hm⟩ | ⟨qs, rfl, hqs, htp⟩ | ⟨qs, rfl, -, htq⟩
    · rw [hsq, hm] at h
      simp only [List.cons_append, List.append_assoc, List.nil_append, List.cons.injEq,
        true_and] at h
      exact absurd h.symm (hdigit m _ _)
    · rw [hsq, htp] at h
      exact absurd h.symm (plain_ne_bracket hqs _ _)
    · rw [hsq, htq] at h
      simp only [List.cons_append, List.append_assoc, List.nil_append, List.cons.injEq,
        true_and] at h
      -- two quoted names end at the same quotation mark
      obtain ⟨rfl, hrest⟩ := quoted_cancel hs ht h
      exact ⟨rfl, (List.cons.inj hrest).2⟩

theorem ends_flatMap (path : List FieldSegment) : Ends (path.flatMap (FieldSegment.text false)) := by
  cases path with
  | nil => exact fun c hc => by cases hc
  | cons segment path =>
    intro c hc
    rw [List.flatMap_cons] at hc
    rcases text_cases false segment with ⟨n, -, h⟩ | ⟨ps, -, -, h⟩ | ⟨ps, -, -, h⟩
    · rw [h] at hc
      exact .inr (Option.some.inj hc).symm
    · rw [h] at hc
      exact .inl (Option.some.inj hc).symm
    · rw [h] at hc
      exact .inr (Option.some.inj hc).symm

theorem text_ne_nil (segment : FieldSegment) : segment.text false ≠ [] := by
  rcases text_cases false segment with ⟨n, -, h⟩ | ⟨ps, -, -, h⟩ | ⟨ps, -, -, h⟩
  · rw [h]
    exact List.cons_ne_nil _ _
  · rw [h]
    exact List.cons_ne_nil _ _
  · rw [h]
    exact List.cons_ne_nil _ _

theorem flatMap_text_injective {path other : List FieldSegment} (hpath : ∀ s ∈ path, s.Valid)
    (hother : ∀ s ∈ other, s.Valid)
    (h : path.flatMap (FieldSegment.text false) = other.flatMap (FieldSegment.text false)) :
    path = other := by
  induction path generalizing other with
  | nil =>
    cases other with
    | nil => rfl
    | cons t other => exact absurd (List.append_eq_nil_iff.mp h.symm).1 (text_ne_nil t)
  | cons s path ih =>
    cases other with
    | nil => exact absurd (List.append_eq_nil_iff.mp h).1 (text_ne_nil s)
    | cons t other =>
      obtain ⟨rfl, hrest⟩ := text_cancel (hpath s List.mem_cons_self) (hother t List.mem_cons_self)
        (ends_flatMap path) (ends_flatMap other) h
      rw [ih (fun s hs => hpath s (List.mem_cons_of_mem _ hs))
        (fun s hs => hother s (List.mem_cons_of_mem _ hs)) hrest]

/-- The text of a path that is not empty gives its segments back. -/
theorem pathText_injective {path other : List FieldSegment} (hne : path ≠ []) (hne' : other ≠ [])
    (hpath : ∀ s ∈ path, s.Valid) (hother : ∀ s ∈ other, s.Valid)
    (h : pathText path = pathText other) : path = other := by
  cases path with
  | nil => exact absurd rfl hne
  | cons s path =>
    cases other with
    | nil => exact absurd rfl hne'
    | cons t other =>
      obtain ⟨rfl, hrest⟩ := text_cancel (hpath s List.mem_cons_self) (hother t List.mem_cons_self)
        (ends_flatMap path) (ends_flatMap other) h
      rw [flatMap_text_injective (fun s hs => hpath s (List.mem_cons_of_mem _ hs))
        (fun s hs => hother s (List.mem_cons_of_mem _ hs)) hrest]

theorem field_valid (segment : PathSegment) : segment.field.Valid := by
  cases segment with
  | number n => trivial
  | string units => exact codePoints_lt toNat_lt_of_mem

theorem field_injective : Function.Injective PathSegment.field := by
  intro s t h
  cases s with
  | number n =>
    cases t with
    | number m =>
      injection h with h
      rw [Fin.ext h]
    | string units => cases h
  | string units =>
    cases t with
    | number m => cases h
    | string others =>
      injection h with h
      have hback := congrArg (List.flatMap unitsOf) h
      rw [flatMap_codePoints toNat_lt_of_mem, flatMap_codePoints toNat_lt_of_mem] at hback
      rw [List.map_injective_iff.mpr (fun u v huv => UInt16.toNat_inj.mp huv) hback]

end FluxFast.Validation
