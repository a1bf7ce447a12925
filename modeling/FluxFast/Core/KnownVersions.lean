import FluxFast.Core.Transport
import FluxFast.Theory.Base64
import FluxFast.Theory.JsonText
import FluxFast.Theory.Utf8

/-!
# KnownVersions — the `X-FluxFast-Known` header

The client selects safe entries of what it holds, puts them down as JSON, and sends the base64url
of the UTF-8 bytes; it sends no header when nothing is selected or the JSON is too long.
-/

namespace FluxFast.Core

open FluxFast.Theory

namespace Transport

/-- An object whose members are strings. -/
def versionsObject (known : Versions) : Json String Empty :=
  .object (known.entries.map fun e => (e.1, .string e.2))

/-- `JSON.stringify` of texts: there are no numbers. -/
def stringify : Json.Writer String Empty where
  text s := s.toList.flatMap Json.escapeChar
  number := nofun

def encodeKnownVersionSelection (safe : Versions) : Option String :=
  let bytes := Utf8.encode (stringify.write (versionsObject safe))
  if safe.size = 0 then none
  else if maxKnownBytes < bytes.length then none
  else some (String.ofList (Base64.encode bytes))

/-- `encodeKnownVersions`. -/
def encodeKnownVersions (known : Versions) : Option String :=
  encodeKnownVersionSelection (selectKnownVersions known)

/-! ## The selection -/

def isSafeEntry (e : String × String) : Bool :=
  isSafeResourceKey e.1 && isSafeVersion e.2 && namesMember e.1

theorem entries_selectKnownVersions (known : Versions) :
    (selectKnownVersions known).entries =
      (known.entries.filter isSafeEntry).take maxKnownResources := by
  have h := OrderedMap.entries_foldl_limited maxKnownResources isSafeEntry known.nodup
    (m := .empty) (fun _ _ => List.not_mem_nil)
  simp only [isSafeEntry, ← Bool.and_assoc] at h
  exact h

theorem size_selectKnownVersions (known : Versions) :
    (selectKnownVersions known).size ≤ maxKnownResources := by
  rw [OrderedMap.size, entries_selectKnownVersions]
  exact List.length_take_le _ _

theorem isSafeEntry_of_mem {known : Versions} {e : String × String}
    (he : e ∈ (selectKnownVersions known).entries) : isSafeEntry e = true := by
  rw [entries_selectKnownVersions] at he
  exact (List.mem_filter.mp (List.mem_of_mem_take he)).2

/-! ## Bytes -/

theorem utf8Size_eq (c : Char) : c.utf8Size = Text.charBytes c := by
  have hone : c.val ≤ 0x7F ↔ c.toNat < 0x80 := UInt32.le_iff_toNat_le.trans Nat.lt_succ_iff.symm
  have htwo : c.val ≤ 0x7FF ↔ c.toNat < 0x800 := UInt32.le_iff_toNat_le.trans Nat.lt_succ_iff.symm
  have hthree : c.val ≤ 0xFFFF ↔ c.toNat < 0x10000 :=
    UInt32.le_iff_toNat_le.trans Nat.lt_succ_iff.symm
  show (if c.val ≤ 0x7F then 1 else if c.val ≤ 0x7FF then 2 else if c.val ≤ 0xFFFF then 3 else 4) = _
  simp only [hone, htwo, hthree]
  rfl

theorem length_utf8 (cs : List Char) : (Utf8.encode cs).length = (cs.map Text.charBytes).sum := by
  rw [Utf8.length_encode]
  exact congrArg List.sum (List.map_congr_left fun c _ => utf8Size_eq c)

theorem length_utf8_append (cs ds : List Char) :
    (Utf8.encode (cs ++ ds)).length = (Utf8.encode cs).length + (Utf8.encode ds).length := by
  rw [Utf8.encode_append, List.length_append]

/-- A character that is not a control character takes one more byte when it is escaped. -/
theorem length_escapeChar {c : Char} (h : 0x20 ≤ c.toNat) :
    (Utf8.encode (Json.escapeChar c)).length =
      Text.charBytes c + if c = '"' ∨ c = '\\' then 1 else 0 := by
  rw [length_utf8]
  by_cases hquote : c = '"'
  · subst hquote
    decide
  by_cases hback : c = '\\'
  · subst hback
    decide
  have hnone : Json.shortEscape c = none := by
    unfold Json.shortEscape
    rw [if_neg hquote, if_neg hback, if_neg (by omega), if_neg (by omega), if_neg (by omega),
      if_neg (by omega), if_neg (by omega)]
  rw [Json.escapeChar, hnone]
  simp only [if_neg (Nat.not_lt.mpr h), hquote, hback, or_self, if_false]
  simp

theorem length_escaped {cs : List Char} (h : ∀ c ∈ cs, 0x20 ≤ c.toNat) :
    (Utf8.encode (cs.flatMap Json.escapeChar)).length =
      (cs.map Text.charBytes).sum + (cs.filter fun c => c = '"' || c = '\\').length := by
  induction cs with
  | nil => rfl
  | cons c cs ih =>
    rw [List.flatMap_cons, length_utf8_append, length_escapeChar (h c List.mem_cons_self),
      ih fun d hd => h d (List.mem_cons_of_mem _ hd), List.map_cons, List.sum_cons]
    by_cases hc : c = '"' ∨ c = '\\'
    · rw [if_pos hc, List.filter_cons_of_pos (by simpa using hc), List.length_cons]
      omega
    · rw [if_neg hc, List.filter_cons_of_neg (by simpa using hc)]
      omega

theorem length_spell_string {s : String} (h : Text.hasControlCharacters s = false) :
    (Utf8.encode (stringify.spell (.string s))).length = Text.quotedBytes s := by
  have hplain : ∀ c ∈ s.toList, 0x20 ≤ c.toNat := by
    intro c hc
    by_contra hlow
    have hcontrol := List.any_eq_false.mp h c hc
    simp only [Bool.or_eq_true, decide_eq_true_eq, not_or] at hcontrol
    exact hlow (Nat.not_lt.mp hcontrol.1)
  have hquote : (Utf8.encode ['"']).length = 1 := by decide
  rw [Json.Writer.spell, ← List.singleton_append, length_utf8_append, length_utf8_append, hquote]
  show 1 + ((Utf8.encode (s.toList.flatMap Json.escapeChar)).length + 1) = _
  rw [length_escaped hplain, Text.quotedBytes, Text.utf8Bytes]
  omega

/-- Members, each with the comma or the brace after it. -/
theorem length_moreMembers {es : List (String × String)}
    (h : ∀ e ∈ es, Text.hasControlCharacters e.1 = false ∧ Text.hasControlCharacters e.2 = false) :
    (Utf8.encode ((Json.moreMemberTokens (es.map fun e => (e.1, Json.string e.2))).flatMap
      stringify.spell)).length =
      1 + (es.map fun e => Text.quotedBytes e.1 + 1 + Text.quotedBytes e.2).sum + es.length := by
  have hbrace : (Utf8.encode ['\x7d']).length = 1 := by decide
  have hcomma : (Utf8.encode [',']).length = 1 := by decide
  have hcolon : (Utf8.encode [':']).length = 1 := by decide
  induction es with
  | nil => exact hbrace
  | cons e es ih =>
    obtain ⟨hkey, hvalue⟩ := h e List.mem_cons_self
    have hrest := ih fun e' he' => h e' (List.mem_cons_of_mem _ he')
    rw [List.map_cons, Json.moreMemberTokens, List.flatMap_cons, List.flatMap_cons,
      List.flatMap_cons, List.flatMap_append, length_utf8_append, length_utf8_append,
      length_utf8_append, length_utf8_append, length_spell_string hkey, Json.tokens,
      List.flatMap_singleton, length_spell_string hvalue, hrest, List.map_cons, List.sum_cons,
      List.length_cons]
    show (Utf8.encode [',']).length + (_ + ((Utf8.encode [':']).length + _)) = _
    rw [hcomma, hcolon]
    omega

/-- The bytes that the client counts before it sends the header. -/
theorem length_stringify {known : Versions}
    (h : ∀ e ∈ known.entries,
      Text.hasControlCharacters e.1 = false ∧ Text.hasControlCharacters e.2 = false) :
    (Utf8.encode (stringify.write (versionsObject known))).length = stringifiedBytes known := by
  have hopen : (Utf8.encode ['\x7b']).length = 1 := by decide
  have hcolon : (Utf8.encode [':']).length = 1 := by decide
  rw [Json.Writer.write, versionsObject, Json.tokens, List.flatMap_cons, length_utf8_append,
    stringifiedBytes, OrderedMap.size]
  show (Utf8.encode ['\x7b']).length + _ = _
  rw [hopen]
  cases hes : known.entries with
  | nil => decide
  | cons e es =>
    rw [hes] at h
    obtain ⟨hkey, hvalue⟩ := h e List.mem_cons_self
    have hrest := length_moreMembers fun e' he' => h e' (List.mem_cons_of_mem _ he')
    rw [List.map_cons, Json.memberTokens, List.flatMap_cons, List.flatMap_cons,
      List.flatMap_append, length_utf8_append, length_utf8_append, length_utf8_append,
      length_spell_string hkey, Json.tokens, List.flatMap_singleton, length_spell_string hvalue,
      hrest, List.map_cons, List.sum_cons, List.length_cons]
    show 1 + (_ + ((Utf8.encode [':']).length + _)) = _
    rw [hcolon]
    omega

end Transport

end FluxFast.Core
