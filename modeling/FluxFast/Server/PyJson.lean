import FluxFast.Core.JsJson
import FluxFast.Server.PyText

/-!
# PyJson — the `json` module of Python

A Python string is the list of its code points: an escape can name a surrogate that stands alone.
`loads` refuses an object with a duplicate name, as `_reject_duplicate_json_keys` makes it do, and
a text that is nested deeper than the interpreter allows.
-/

namespace FluxFast.Server

open FluxFast.Theory

namespace PyJson

abbrev PyString := List Nat

def points (s : String) : PyString := s.toList.map Char.toNat

/-- What the interpreter allows; a flat object can always be read. -/
structure Interpreter where
  nesting : Nat
  flat : 1 ≤ nesting

/-- Digits of an integer literal that `int` accepts. -/
def maxIntegerDigits : Nat := 4300

/-- The words that `json.loads` reads as numbers. -/
def isNumber (word : List Char) : Bool :=
  word = "NaN".toList || word = "Infinity".toList || word = "-Infinity".toList ||
    (Json.isNumber word &&
      (word.any (fun c => c = '.' || c = 'e' || c = 'E') ||
        (word.filter Char.isDigit).length ≤ maxIntegerDigits))

/-- The values of numbers are of no concern here. -/
def lexicon : Json.Lexicon PyString Unit where
  text units := some (Utf16.codePoints units)
  number word := if isNumber word then some () else none

def loads (interpreter : Interpreter) (text : List Char) : Option (Json PyString Unit) :=
  (Json.read lexicon text).bind fun j =>
    if j.distinct && j.depth ≤ interpreter.nesting then some j else none

/-! ## Written by Python and read by a browser -/

/-- The finite numbers of Python and the doubles of the browser.  What `json.dumps` writes is a
number, and `JSON.parse` reads it as `value`, the double nearest to it. -/
structure Numbers (ν μ : Type) where
  isInteger : ν → Bool
  render : ν → List Char
  value : ν → μ
  /-- The double is that number. -/
  same : ν → μ → Prop
  host : Core.JsHost μ
  isNumber_render : ∀ n, Json.isNumber (render n) = true
  parse_render : ∀ n, host.parseNumber (render n) = value n

section Writers

variable {ν μ : Type} (numbers : Numbers ν μ)

/-- `json.dumps` with compact separators, all but ASCII escaped. -/
def asciiWriter : Json.Writer String ν where
  text s := s.toList.flatMap Json.escapeAscii
  number := numbers.render

/-- The same with `ensure_ascii=False`. -/
def unicodeWriter : Json.Writer String ν where
  text s := s.toList.flatMap Json.escapeChar
  number := numbers.render

theorem legible_of_escape {W : Json.Writer String ν} {escape : Char → List Char}
    (htext : ∀ s, W.text s = s.toList.flatMap escape) (hnumber : W.number = numbers.render)
    (hcomma : W.comma = [',']) (hcolon : W.colon = [':'])
    (hescape : ∀ c, Json.Spells (Core.JsJson.lexicon numbers.host) (escape c)
      (Utf16.encodeChar c)) :
    W.Legible (Core.JsJson.lexicon numbers.host) id numbers.value := by
  refine Json.Writer.legible_of_compact hcomma hcolon (fun s => ?_) (fun n => ?_) fun n => ?_
  · refine ⟨Utf16.encode s.toList, ?_, ?_⟩
    · rw [htext]
      exact Json.spells_flatMap _ hescape s.toList
    · show some (String.ofList (Utf16.toWellFormed _)) = some s
      rw [Utf16.toWellFormed_encode, String.ofList_toList]
  · rw [hnumber]
    obtain ⟨hall, hhead⟩ := Json.isNumber_spec (numbers.isNumber_render n)
    refine ⟨hall, fun hnil => ?_⟩
    rw [hnil] at hhead
    cases hhead
  · rw [hnumber, Json.classify_number _ (numbers.isNumber_render n)]
    show (if Json.isNumber (numbers.render n) = true then
      some (numbers.host.parseNumber (numbers.render n)) else none).map Token.number = _
    rw [if_pos (numbers.isNumber_render n), numbers.parse_render]
    rfl

theorem parse_asciiWriter (j : Json String ν) :
    Core.JsJson.parse numbers.host ((asciiWriter numbers).write j) =
      some (j.map id numbers.value) :=
  Json.read_write (legible_of_escape numbers (fun _ => rfl) rfl rfl rfl
    (Json.spells_escapeAscii _)) j

theorem parse_unicodeWriter (j : Json String ν) :
    Core.JsJson.parse numbers.host ((unicodeWriter numbers).write j) =
      some (j.map id numbers.value) :=
  Json.read_write (legible_of_escape numbers (fun _ => rfl) rfl rfl rfl
    (Json.spells_escapeChar _)) j

/-! ## Printable characters -/

def isPrintable (c : Char) : Bool := 0x20 ≤ c.toNat && c.toNat < 0x7f

theorem isPrintable_hexChar {d : Nat} (h : d < 16) : isPrintable (Json.hexChar d) = true := by
  have hall : ∀ d : Fin 16, isPrintable (Json.hexChar d) = true := by decide
  exact hall ⟨d, h⟩

theorem isPrintable_unicodeEscape {u : Nat} {c : Char} (h : c ∈ Json.unicodeEscape u) :
    isPrintable c = true := by
  simp only [Json.unicodeEscape, List.mem_cons, List.not_mem_nil, or_false] at h
  rcases h with rfl | rfl | rfl | rfl | rfl | rfl
  · decide
  · decide
  all_goals exact isPrintable_hexChar (Nat.mod_lt _ (by decide))

theorem isPrintable_escapeAscii {c d : Char} (h : d ∈ Json.escapeAscii c) :
    isPrintable d = true := by
  unfold Json.escapeAscii at h
  split at h
  · next e he =>
    have hprintable : isPrintable e = true := by
      unfold Json.shortEscape at he
      split_ifs at he <;> cases he <;> decide
    rcases List.mem_cons.mp h with rfl | h
    · decide
    · rwa [List.mem_singleton.mp h]
  · split at h
    · next hplain =>
      rw [List.mem_singleton.mp h, isPrintable, Bool.and_eq_true, decide_eq_true_eq,
        decide_eq_true_eq]
      exact hplain
    · obtain ⟨u, -, hd⟩ := List.mem_flatMap.mp h
      exact isPrintable_unicodeEscape hd

theorem isPrintable_wordChar {c : Char} (h : Json.isWordChar c = true) : isPrintable c = true := by
  simp only [Json.isWordChar, Char.isAlphanum, Char.isAlpha, Char.isUpper, Char.isLower,
    Char.isDigit, Bool.or_eq_true, Bool.and_eq_true, decide_eq_true_eq, ge_iff_le,
    UInt32.le_iff_toNat_le] at h
  rcases h with (((hletter | hdigit) | rfl) | rfl) | rfl
  · have hlow : 0x41 ≤ c.toNat ∧ c.toNat ≤ 0x7a := by
      rcases hletter with ⟨hfrom, hto⟩ | ⟨hfrom, hto⟩
      · exact ⟨hfrom, Nat.le_trans hto (by decide)⟩
      · exact ⟨Nat.le_trans (by decide) hfrom, hto⟩
    simp only [isPrintable, Bool.and_eq_true, decide_eq_true_eq]
    omega
  · have hdigits : 0x30 ≤ c.toNat ∧ c.toNat ≤ 0x39 := hdigit
    simp only [isPrintable, Bool.and_eq_true, decide_eq_true_eq]
    omega
  all_goals decide

/-- Only printable ASCII is written. -/
theorem isPrintable_write {j : Json String ν} {c : Char} (h : c ∈ (asciiWriter numbers).write j) :
    isPrintable c = true := by
  obtain ⟨t, -, hc⟩ := List.mem_flatMap.mp h
  cases t with
  | number n =>
    have hall := (Json.isNumber_spec (numbers.isNumber_render n)).1
    exact isPrintable_wordChar (List.all_eq_true.mp hall c hc)
  | string s =>
    rcases List.mem_cons.mp hc with rfl | hc
    · decide
    · rcases List.mem_append.mp hc with hc | hc
      · obtain ⟨d, -, hd⟩ := List.mem_flatMap.mp hc
        exact isPrintable_escapeAscii hd
      · rw [List.mem_singleton.mp hc]
        decide
  | bool b =>
    cases b with
    | false => exact List.all_eq_true.mp (by decide : "false".toList.all isPrintable = true) c hc
    | true => exact List.all_eq_true.mp (by decide : "true".toList.all isPrintable = true) c hc
  | null => exact List.all_eq_true.mp (by decide : "null".toList.all isPrintable = true) c hc
  | openArray | closeArray | openObject | closeObject | comma | colon =>
    rw [List.mem_singleton.mp hc]
    decide

end Writers

end PyJson

end FluxFast.Server
