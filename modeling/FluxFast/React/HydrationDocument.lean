import FluxFast.Codegen.RouteUrls
import FluxFast.Server.PyJson
import FluxFast.Theory.Markers

/-!
# HydrationDocument — the document of a server render and the payload in it

`renderDocument` puts the markup and the payload into the template; `hydrateFluxApplication` reads the
payload back from the document.  Strings are code units.
-/

namespace FluxFast.React

open FluxFast.Codegen FluxFast.Theory FluxFast.Validation

/-- `String(n)` of a finite number, and the number of a literal.  `value` is the number as JSON has
it, where minus zero is zero. -/
structure JsonNumbers (N : Type) where
  render : N → List Char
  parse : List Char → N
  value : N → N
  isNumber_render : ∀ n, Json.isNumber (render n) = true
  parse_render : ∀ n, parse (render n) = value n

def units (cs : List Char) : JsString := (Utf16.encode cs).map UInt16.ofNat

section Document

variable {N : Type} (numbers : JsonNumbers N)

/-! ## The payload -/

/-- `JSON.stringify`. -/
def writer : Json.Writer JsString N where
  text s := (Utf16.codePoints (s.map UInt16.toNat)).flatMap quotePoint
  number := numbers.render

/-- `[<>&\u2028\u2029]`. -/
def isHtmlSpecial (c : Char) : Bool :=
  c = '<' || c = '>' || c = '&' || c = '\u2028' || c = '\u2029'

/-- The replacement of `safePayload`. -/
def escapeHtml (c : Char) : List Char :=
  if isHtmlSpecial c then Json.unicodeEscape c.toNat else [c]

def safePayload (props : Json JsString N) : List Char :=
  ((writer numbers).write props).flatMap escapeHtml

/-! ## The document -/

inductive DocumentMarker
  | ssr
  | payload
  deriving DecidableEq

/-- `SSR_MARKER` and `PAYLOAD_MARKER`. -/
def marker : DocumentMarker → JsString
  | .ssr => jsText "<!--fluxfast:ssr-->"
  | .payload => jsText "<!--fluxfast:payload-->"

/-- `text.split(separator)`; a round takes away at least one unit. -/
def split (separator : JsString) : Nat → JsString → List JsString
  | 0, text => [text]
  | fuel + 1, text =>
    match indexOf separator text with
    | none => [text]
    | some i => text.take i :: split separator fuel (text.drop (i + separator.length))

/-- The marker that the text begins with. -/
def markerAt (text : JsString) : Option DocumentMarker :=
  if (marker .ssr).isPrefixOf text then some .ssr
  else if (marker .payload).isPrefixOf text then some .payload
  else none

/-- The first match of the two markers, with the text before and after it. -/
def firstMarker : JsString → Option (JsString × DocumentMarker × JsString)
  | [] => none
  | c :: rest =>
    match markerAt (c :: rest) with
    | some k => some ([], k, (c :: rest).drop (marker k).length)
    | none => (firstMarker rest).map fun (front, k, back) => (c :: front, k, back)

/-- `template.split(/(<!--fluxfast:ssr-->|<!--fluxfast:payload-->)/g)`. -/
def splitMarkers : Nat → JsString → List JsString
  | 0, text => [text]
  | fuel + 1, text =>
    match firstMarker text with
    | none => [text]
    | some (front, k, back) => front :: marker k :: splitMarkers fuel back

def openingTag : JsString := jsText "<script id=\"fluxfast-page\" type=\"application/json\">"

def closingTag : JsString := jsText "</script>"

def payloadElement (props : Json JsString N) : JsString :=
  openingTag ++ (units (safePayload numbers props) ++ closingTag)

/-- What stands in the place of a marker. -/
def filling (markup : JsString) (props : Json JsString N) : DocumentMarker → JsString
  | .ssr => markup
  | .payload => payloadElement numbers props

def replacePart (markup : JsString) (props : Json JsString N) (part : JsString) : JsString :=
  if part = marker .ssr then markup
  else if part = marker .payload then payloadElement numbers props
  else part

def checkMarker (template : JsString) (k : DocumentMarker) : Except String Unit :=
  if (split (marker k) template.length template).length = 2 then .ok ()
  else .error "FluxFast template requires exactly one SSR and payload marker"

def renderDocument (template markup : JsString) (props : Json JsString N) : Except String JsString := do
  checkMarker template .ssr
  checkMarker template .payload
  return ((splitMarkers template.length template).map (replacePart numbers markup props)).flatten

/-! ## Reading the document -/

/-- `JSON.parse`. -/
def lexicon : Json.Lexicon JsString N where
  text us := some (us.map UInt16.ofNat)
  number word := if Json.isNumber word then some (numbers.parse word) else none

def parsePayload (text : JsString) : Option (Json JsString N) :=
  (Utf16.decode (text.map UInt16.toNat)).bind (Json.read (lexicon numbers))

/-- The text of a script element that begins here.  An HTML parser normalizes line endings, replaces
a null character and goes on to the closing tag; `none` stands for any other `<`. -/
def scriptText (afterReturn : Bool) : JsString → Option JsString
  | [] => none
  | c :: rest =>
    if c = 60 then if closingTag.isPrefixOf (c :: rest) then some [] else none
    else if c = 10 && afterReturn then scriptText false rest
    else (scriptText (c = 13) rest).map
      ((if c = 13 then 10 else if c = 0 then 0xfffd else c) :: ·)

/-- A member of an object; of two with one name `JSON.parse` keeps the last. -/
def member (name : JsString) (members : List (JsString × Json JsString N)) : Option (Json JsString N) :=
  (members.reverse.find? fun m => m.1 = name).map Prod.snd

/-- `initialEnvelope`. -/
def initialEnvelope : JsString := jsText "initialEnvelope"

/-- The envelope that `hydrateFluxApplication` starts from; `none` where the payload or its envelope is
refused.  The checks of the cache configuration and of the development metadata, which may still
throw behind these, are not part of it. -/
def hydratedEnvelope (assertPageEnvelope : Json JsString N → Bool) (text : JsString) :
    Option (Json JsString N) :=
  match parsePayload numbers text with
  | some (.object members) =>
    (member initialEnvelope members).bind fun envelope =>
      if assertPageEnvelope envelope then some envelope else none
  | _ => none

/-! ## Escaping and quoting -/

section Payload

theorem isHtmlSpecial_of_printed {c : Char} (h : c = '\\' ∨ c = 'u' ∨ ∃ d < 16, c = Json.hexChar d) :
    isHtmlSpecial c = false := by
  have hdigits : ∀ d : Fin 16, isHtmlSpecial (Json.hexChar d) = false := by decide
  rcases h with rfl | rfl | ⟨d, hd, rfl⟩
  · decide
  · decide
  · exact hdigits ⟨d, hd⟩

theorem mem_unicodeEscape {u : Nat} {c : Char} (h : c ∈ Json.unicodeEscape u) :
    c = '\\' ∨ c = 'u' ∨ ∃ d < 16, c = Json.hexChar d := by
  simp only [Json.unicodeEscape, List.mem_cons, List.not_mem_nil, or_false] at h
  rcases h with rfl | rfl | rfl | rfl | rfl | rfl
  · exact .inl rfl
  · exact .inr (.inl rfl)
  all_goals exact .inr (.inr ⟨_, Nat.mod_lt _ (by decide), rfl⟩)

theorem flatMap_escapeHtml {cs : List Char} (h : ∀ c ∈ cs, isHtmlSpecial c = false) :
    cs.flatMap escapeHtml = cs := by
  induction cs with
  | nil => rfl
  | cons c cs ih =>
    have hc := h c List.mem_cons_self
    rw [List.flatMap_cons, ih fun d hd => h d (List.mem_cons_of_mem _ hd), escapeHtml, hc]
    rfl

/-- Nothing that HTML gives a meaning to is left. -/
theorem isHtmlSpecial_of_escaped {cs : List Char} {d : Char} (h : d ∈ cs.flatMap escapeHtml) :
    isHtmlSpecial d = false := by
  obtain ⟨c, -, hd⟩ := List.mem_flatMap.mp h
  unfold escapeHtml at hd
  split_ifs at hd with hc
  · exact isHtmlSpecial_of_printed (mem_unicodeEscape hd)
  · rw [List.mem_singleton.mp hd]
    exact Bool.not_eq_true _ ▸ hc

variable (L : Json.Lexicon JsString N)

theorem spells_unicodeEscape {u : Nat} (h : u < 0x10000) :
    Json.Spells L ((Json.unicodeEscape u).flatMap escapeHtml) [u] := by
  rw [flatMap_escapeHtml fun c hc => isHtmlSpecial_of_printed (mem_unicodeEscape hc)]
  exact Json.spells_unicodeEscape L h

/-- A character written by `JSON.stringify` and escaped again is still that character. -/
theorem spells_escapeChar (c : Char) :
    Json.Spells L ((Json.escapeChar c).flatMap escapeHtml) (Utf16.encodeChar c) := by
  unfold Json.escapeChar
  split
  -- a short escape holds no character that HTML treats specially
  · next e h =>
    have hnone : ['\\', e].all (fun d => !isHtmlSpecial d) = true := by
      unfold Json.shortEscape at h
      split_ifs at h <;> cases h <;> decide
    have hplain : ∀ d ∈ ['\\', e], isHtmlSpecial d = false := fun d hd => by
      simpa only [Bool.not_eq_true'] using List.all_eq_true.mp hnone d hd
    rw [flatMap_escapeHtml hplain, Json.encodeChar_of_small (Json.shortEscape_small h)]
    exact Json.spells_shortEscape L h
  · next h =>
    -- a control character is written by its code, and that escape is plain text
    split
    · next hcontrol =>
      have hsmall : c.toNat < 0x10000 := Nat.lt_trans hcontrol (by decide)
      rw [Json.encodeChar_of_small hsmall]
      exact spells_unicodeEscape L hsmall
    · next hplain =>
      rw [List.flatMap_singleton, escapeHtml]
      split_ifs with hspecial
      · -- all five are in the basic plane
        have hsmall : c.toNat < 0x10000 := by
          simp only [isHtmlSpecial, Bool.or_eq_true, decide_eq_true_eq] at hspecial
          rcases hspecial with (((rfl | rfl) | rfl) | rfl) | rfl <;> decide
        rw [Json.encodeChar_of_small hsmall]
        exact Json.spells_unicodeEscape L hsmall
      · exact Json.spells_plain L (Json.shortEscape_none h).1 (Json.shortEscape_none h).2
          (Nat.not_lt.mp hplain)

theorem spells_quotePoint {p : Nat} (hp : p < 0x110000) :
    Json.Spells L ((quotePoint p).flatMap escapeHtml) (unitsOf p) := by
  unfold quotePoint
  cases h : isSurrogate p with
  | true =>
    have hsmall : p < 0x10000 := by
      simp only [isSurrogate, Utf16.isHigh, Utf16.isLow, Bool.or_eq_true, Bool.and_eq_true,
        decide_eq_true_eq] at h
      omega
    rw [if_pos rfl, unitsOf, if_pos hsmall]
    exact spells_unicodeEscape L hsmall
  | false =>
    have hunits : Utf16.encodeChar (Char.ofNat p) = unitsOf p := by
      rw [Utf16.encodeChar, unitsOf, toNat_ofNat hp h]
    rw [if_neg Bool.false_ne_true, ← hunits]
    exact spells_escapeChar L (Char.ofNat p)

theorem spells_points {ps : List Nat} (h : ∀ p ∈ ps, p < 0x110000) :
    Json.Spells L ((ps.flatMap quotePoint).flatMap escapeHtml) (ps.flatMap unitsOf) := by
  induction ps with
  | nil => exact Json.Spells.nil L
  | cons p ps ih =>
    rw [List.flatMap_cons, List.flatMap_append, List.flatMap_cons]
    exact (spells_quotePoint L (h p List.mem_cons_self)).append L
      (ih fun q hq => h q (List.mem_cons_of_mem _ hq))

theorem map_ofNat_toNat (s : JsString) : (s.map UInt16.toNat).map UInt16.ofNat = s := by
  rw [List.map_map]
  exact (List.map_congr_left fun c _ => UInt16.ofNat_toNat).trans (List.map_id s)

theorem printed_of_unicodeEscape {u : Nat} {c : Char} (h : c ∈ Json.unicodeEscape u) :
    0x20 ≤ c.toNat := by
  have hdigits : ∀ d : Fin 16, 0x20 ≤ (Json.hexChar d).toNat := by decide
  rcases mem_unicodeEscape h with rfl | rfl | ⟨d, hd, rfl⟩
  · decide
  · decide
  · exact hdigits ⟨d, hd⟩

/-- The writer whose text is escaped as it is written. -/
def safeWriter : Json.Writer JsString N where
  text s := ((writer numbers).text s).flatMap escapeHtml
  number := numbers.render

theorem number_chars (n : N) : (numbers.render n).all Json.isWordChar = true ∧ numbers.render n ≠ [] := by
  obtain ⟨hall, hhead⟩ := Json.isNumber_spec (numbers.isNumber_render n)
  refine ⟨hall, fun hnil => ?_⟩
  rw [hnil] at hhead
  cases hhead

theorem isHtmlSpecial_wordChar {c : Char} (h : Json.isWordChar c = true) : isHtmlSpecial c = false := by
  by_contra hspecial
  rw [Bool.not_eq_false] at hspecial
  simp only [isHtmlSpecial, Bool.or_eq_true, decide_eq_true_eq] at hspecial
  rcases hspecial with (((rfl | rfl) | rfl) | rfl) | rfl <;> exact absurd h (by decide)

/-- Only what stands between quotes has anything to escape. -/
theorem safePayload_eq (props : Json JsString N) :
    safePayload numbers props = (safeWriter numbers).write props := by
  rw [safePayload, Json.Writer.write, Json.Writer.write, List.flatMap_assoc]
  refine List.flatMap_congr fun t _ => ?_
  cases t with
  | number n =>
    exact flatMap_escapeHtml fun c hc =>
      isHtmlSpecial_wordChar (List.all_eq_true.mp (number_chars numbers n).1 c hc)
  | string s =>
    show ('"' :: ((writer numbers).text s ++ ['"'])).flatMap escapeHtml = _
    rw [List.flatMap_cons, List.flatMap_append]
    rfl
  | bool b =>
    cases b with
    | false => exact (by decide : "false".toList.flatMap escapeHtml = "false".toList)
    | true => exact (by decide : "true".toList.flatMap escapeHtml = "true".toList)
  | null => exact (by decide : "null".toList.flatMap escapeHtml = "null".toList)
  | openArray | closeArray | openObject | closeObject | comma | colon => rfl

theorem legible : (safeWriter numbers).Legible (lexicon numbers) id numbers.value := by
  refine Json.Writer.legible_of_compact rfl rfl (fun s => ?_) (number_chars numbers) fun n => ?_
  · have hunits : ∀ u ∈ s.map UInt16.toNat, u < 0x10000 := toNat_lt_of_mem
    refine ⟨s.map UInt16.toNat, ?_, congrArg some (map_ofNat_toNat s)⟩
    have hspells := spells_points (lexicon numbers) (codePoints_lt hunits)
    rwa [flatMap_codePoints hunits] at hspells
  · show Json.Lexer.classify (lexicon numbers) (numbers.render n) = _
    rw [Json.classify_number _ (numbers.isNumber_render n)]
    show (if Json.isNumber (numbers.render n) = true then some (numbers.parse (numbers.render n))
      else none).map Token.number = _
    rw [if_pos (numbers.isNumber_render n), numbers.parse_render]
    rfl

theorem toNat_units (cs : List Char) : (units cs).map UInt16.toNat = Utf16.encode cs := by
  rw [units, List.map_map]
  refine (List.map_congr_left fun u hu => ?_).trans (List.map_id _)
  obtain ⟨c, -, hc⟩ := List.mem_flatMap.mp hu
  exact UInt16.toNat_ofNat_of_lt (Utf16.encodeChar_lt c u hc)

/-- Parsing the payload gives the value of the props. -/
theorem parsePayload_safePayload (props : Json JsString N) :
    parsePayload numbers (units (safePayload numbers props)) = some (props.map id numbers.value) := by
  rw [parsePayload, toNat_units, Utf16.decode_encode, safePayload_eq]
  exact Json.read_write (legible numbers) props

/-! ## The payload in its element -/

theorem printed_of_escape {c d : Char} (h : c ∈ Json.escapeChar d) : 0x20 ≤ c.toNat := by
  unfold Json.escapeChar at h
  split at h
  · next e he =>
    have hprinted : 0x20 ≤ e.toNat := by
      unfold Json.shortEscape at he
      split_ifs at he <;> cases he <;> decide
    rcases List.mem_cons.mp h with rfl | h
    · decide
    · rwa [List.mem_singleton.mp h]
  · split at h
    · exact printed_of_unicodeEscape h
    · next hplain =>
      rw [List.mem_singleton.mp h]
      exact Nat.not_lt.mp hplain

/-- No control character is written. -/
theorem printed_of_safePayload {props : Json JsString N} {c : Char}
    (h : c ∈ safePayload numbers props) : 0x20 ≤ c.toNat := by
  -- What the writer prints is printable: every token on its own.
  have hwritten : ∀ d ∈ (writer numbers).write props, 0x20 ≤ d.toNat := by
    intro d hd
    obtain ⟨t, -, ht⟩ := List.mem_flatMap.mp hd
    cases t with
    | number n =>
      have hword := List.all_eq_true.mp (number_chars numbers n).1 d ht
      have hprinted := Server.PyJson.isPrintable_wordChar hword
      simp only [Server.PyJson.isPrintable, Bool.and_eq_true, decide_eq_true_eq] at hprinted
      exact hprinted.1
    | string s =>
      rcases List.mem_cons.mp ht with rfl | ht
      · decide
      · rcases List.mem_append.mp ht with ht | ht
        -- a string is quoted code unit by code unit
        · obtain ⟨p, -, hp⟩ := List.mem_flatMap.mp ht
          unfold quotePoint at hp
          split_ifs at hp
          · exact printed_of_unicodeEscape hp
          · exact printed_of_escape hp
        · rw [List.mem_singleton.mp ht]
          decide
    | bool b =>
      cases b with
      | false => exact of_decide_eq_true (List.all_eq_true.mp
          (by decide : "false".toList.all (0x20 ≤ ·.toNat) = true) d ht)
      | true => exact of_decide_eq_true (List.all_eq_true.mp
          (by decide : "true".toList.all (0x20 ≤ ·.toNat) = true) d ht)
    | null => exact of_decide_eq_true (List.all_eq_true.mp
        (by decide : "null".toList.all (0x20 ≤ ·.toNat) = true) d ht)
    | openArray | closeArray | openObject | closeObject | comma | colon =>
      rw [List.mem_singleton.mp ht]
      decide
  -- escaping for HTML writes escapes or the character itself
  obtain ⟨d, hd, hc⟩ := List.mem_flatMap.mp h
  unfold escapeHtml at hc
  split_ifs at hc
  · exact printed_of_unicodeEscape hc
  · rw [List.mem_singleton.mp hc]
    exact hwritten d hd

theorem mem_encodeChar {c : Char} {u : Nat} (h : u ∈ Utf16.encodeChar c) :
    u = c.toNat ∨ 0xd800 ≤ u := by
  simp only [Utf16.encodeChar] at h
  split_ifs at h
  · exact .inl (List.mem_singleton.mp h)
  · simp only [List.mem_cons, List.not_mem_nil, or_false] at h
    right
    rcases h with h | h <;> omega

/-- The units of the payload: none is `<`, and none is changed by an HTML parser. -/
theorem mem_units_safePayload {props : Json JsString N} {u : UInt16}
    (h : u ∈ units (safePayload numbers props)) : u ≠ 60 ∧ u ≠ 10 ∧ u ≠ 13 ∧ u ≠ 0 := by
  obtain ⟨n, hn, rfl⟩ := List.mem_map.mp h
  obtain ⟨c, hc, hunit⟩ := List.mem_flatMap.mp hn
  have hsmall := Utf16.encodeChar_lt c n hunit
  have hprinted := printed_of_safePayload numbers hc
  have hangle : c.toNat ≠ 60 := fun heq => by
    rw [safePayload] at hc
    have hspecial := isHtmlSpecial_of_escaped hc
    rw [Char.toNat_inj.mp (heq.trans (by decide : 60 = '<'.toNat))] at hspecial
    exact absurd hspecial (by decide)
  have hbound : n ≠ 60 ∧ 0x20 ≤ n := by
    rcases mem_encodeChar hunit with rfl | hsurrogate
    · exact ⟨hangle, hprinted⟩
    · exact ⟨by omega, by omega⟩
  have hne : ∀ k : Nat, k < 0x10000 → n ≠ k → UInt16.ofNat n ≠ UInt16.ofNat k := by
    intro k hk hnk heq
    have htoNat := congrArg UInt16.toNat heq
    rw [UInt16.toNat_ofNat', UInt16.toNat_ofNat', Nat.mod_eq_of_lt hsmall, Nat.mod_eq_of_lt hk]
      at htoNat
    exact hnk htoNat
  exact ⟨hne 60 (by decide) hbound.1, hne 10 (by decide) (by omega), hne 13 (by decide) (by omega),
    hne 0 (by decide) (by omega)⟩

/-- A text that an HTML parser takes as it is ends at the first closing tag. -/
theorem scriptText_append {text : JsString} (h : ∀ u ∈ text, u ≠ 60 ∧ u ≠ 10 ∧ u ≠ 13 ∧ u ≠ 0)
    (rest : JsString) : scriptText false (text ++ (closingTag ++ rest)) = some text := by
  induction text with
  | nil =>
    have hfirst : closingTag ++ rest = 60 :: (closingTag.tail ++ rest) := by
      rw [← List.cons_append]
      exact congrArg (· ++ rest) (by decide)
    have hclosing : closingTag.isPrefixOf (60 :: (closingTag.tail ++ rest)) = true := by
      rw [← hfirst]
      exact List.isPrefixOf_iff_prefix.mpr (List.prefix_append _ _)
    rw [List.nil_append, hfirst, scriptText, if_pos rfl, if_pos hclosing]
  | cons u text ih =>
    obtain ⟨hangle, hlf, hcr, hnull⟩ := h u List.mem_cons_self
    have hrest := ih fun v hv => h v (List.mem_cons_of_mem _ hv)
    have hplain : decide (u = 13) = false := decide_eq_false hcr
    rw [List.cons_append, scriptText, if_neg hangle, Bool.and_false, if_neg Bool.false_ne_true,
      hplain, hrest, if_neg hcr, if_neg hnull]
    rfl

theorem scriptText_payloadElement (props : Json JsString N) (rest : JsString) :
    scriptText false ((payloadElement numbers props).drop openingTag.length ++ rest) =
      some (units (safePayload numbers props)) := by
  rw [payloadElement, List.drop_left, List.append_assoc]
  exact scriptText_append (fun u hu => mem_units_safePayload numbers hu) rest

/-! ## What hydration starts from -/

theorem member_map {name : JsString} {members : List (JsString × Json JsString N)}
    {f : N → N} : member name (Json.mapMembers id f members) =
      (member name members).map (Json.map id f) := by
  rw [member, member, Json.mapMembers_eq, ← List.map_reverse, List.find?_map, Option.map_map,
    Option.map_map]
  rfl

theorem hydratedEnvelope_safePayload (assertPageEnvelope : Json JsString N → Bool)
    (members : List (JsString × Json JsString N)) :
    hydratedEnvelope numbers assertPageEnvelope (units (safePayload numbers (.object members))) =
      ((member initialEnvelope members).map (Json.map id numbers.value)).bind fun envelope =>
        if assertPageEnvelope envelope then some envelope else none := by
  rw [hydratedEnvelope, parsePayload_safePayload, ← member_map]
  rfl

end Payload

/-! ## The markers of a template -/

section Template

theorem marker_tokens : Template.Tokens marker 60 where
  head k := by
    cases k with
    | ssr => exact ⟨(marker .ssr).tail, by decide, by decide⟩
    | payload => exact ⟨(marker .payload).tail, by decide, by decide⟩
  apart := by
    -- the letters after the colon differ
    have hssr : ∀ x, (marker .ssr ++ x)[13]? = some 115 := fun x => by
      rw [List.getElem?_append_left (by decide)]
      decide
    have hpayload : ∀ x, (marker .payload ++ x)[13]? = some 112 := fun x => by
      rw [List.getElem?_append_left (by decide)]
      decide
    intro k l x y h
    have hletter := congrArg (fun s => s[13]?) h
    cases k <;> cases l
    · rfl
    · exact absurd ((hssr x).symm.trans (hletter.trans (hpayload y))) (by decide)
    · exact absurd ((hpayload x).symm.trans (hletter.trans (hssr y))) (by decide)
    · rfl

theorem marker_ne_nil (k : DocumentMarker) : marker k ≠ [] := Markers.token_ne_nil marker_tokens k

def ExactlyOne (template : JsString) (k : DocumentMarker) : Prop :=
  ∃ i, ∀ j, Occurs (marker k) template j ↔ j = i

theorem length_split_one {separator text : JsString} {fuel : Nat} :
    (split separator fuel text).length = 1 ↔ fuel = 0 ∨ indexOf separator text = none := by
  cases fuel with
  | zero => exact iff_of_true rfl (.inl rfl)
  | succ fuel =>
    rw [split]
    cases indexOf separator text with
    | none => exact iff_of_true rfl (.inr rfl)
    | some i =>
      have hpos : 0 < (split separator fuel (text.drop (i + separator.length))).length := by
        cases fuel with
        | zero => exact Nat.zero_lt_one
        | succ fuel =>
          rw [split]
          split <;> exact Nat.zero_lt_succ _
      simp only [List.length_cons, Nat.add_eq_right, reduceCtorEq, or_self, iff_false,
        Nat.add_one_ne_zero]
      omega

/-- Two pieces are what one marker leaves. -/
theorem length_split_two (template : JsString) (k : DocumentMarker) :
    (split (marker k) template.length template).length = 2 ↔ ExactlyOne template k := by
  have hne := marker_ne_nil k
  have hpos := List.length_pos_of_ne_nil hne
  cases hlength : template.length with
  | zero =>
    refine iff_of_false (fun h => absurd h (Nat.succ_ne_succ_iff.mpr Nat.zero_ne_one)) ?_
    rintro ⟨i, hi⟩
    obtain ⟨x, y, rfl, -⟩ := (occurs_iff hne).mp ((hi i).mpr rfl)
    simp only [List.length_append] at hlength
    omega
  | succ fuel =>
    rw [split]
    cases hfound : indexOf (marker k) template with
    | none =>
      refine iff_of_false (by simp) ?_
      rintro ⟨i, hi⟩
      exact (indexOf_none hne).mp hfound i ((hi i).mpr rfl)
    | some i =>
      obtain ⟨front, back, rfl, rfl, hfirst⟩ := indexOf_eq_some hne hfound
      have hdrop : (front ++ marker k ++ back).drop (front.length + (marker k).length) = back := by
        rw [← List.length_append, List.drop_left]
      have hlong : fuel ≠ 0 := by
        have hmarker : 1 < (marker k).length := by cases k <;> decide
        simp only [List.length_append] at hlength
        omega
      have hfront : ¬marker k <:+: front := fun hin => hfirst (hin.trans (by
        rw [List.dropLast_append_of_ne_nil hne]
        exact (List.prefix_append _ _).isInfix))
      show (_ :: split (marker k) fuel _).length = 2 ↔ _
      have hone : (split (marker k) fuel back).length + 1 = 2 ↔
          (split (marker k) fuel back).length = 1 := by omega
      rw [hdrop, List.length_cons, hone, length_split_one, or_iff_right hlong]
      constructor
      · intro hback
        refine ⟨front.length, fun j => ?_⟩
        rw [occurs_iff hne]
        constructor
        · rintro ⟨x, y, hsplit, rfl⟩
          rw [List.append_assoc] at hsplit
          rcases Markers.split_cases marker_tokens hsplit with ⟨a', rfl⟩ | ⟨-, rfl, -⟩ | ⟨b', -, rfl⟩
          · exact absurd ⟨x, a', rfl⟩ hfront
          · rfl
          · exact absurd ⟨b', y, List.append_assoc ..⟩ ((indexOf_eq_none_iff hne).mp hback)
        · rintro rfl
          exact ⟨front, back, List.append_assoc .., rfl⟩
      · rintro ⟨i, hi⟩
        have hhere := (hi front.length).mp
          ((occurs_iff hne).mpr ⟨front, back, List.append_assoc .., rfl⟩)
        rw [indexOf_none hne]
        intro j hj
        -- a second place, behind the first
        have hplace := (hi _).mp (occurs_drop (i := (front ++ marker k).length) (by
          rwa [List.drop_left]))
        rw [List.length_append] at hplace
        omega

theorem checkMarker_iff (template : JsString) (k : DocumentMarker) :
    checkMarker template k = .ok () ↔ ExactlyOne template k := by
  rw [← length_split_two, checkMarker]
  split_ifs with h
  · exact iff_of_true rfl h
  · exact iff_of_false nofun h

theorem markerAt_eq (text : JsString) (k : DocumentMarker) :
    markerAt text = some k ↔ marker k <+: text := by
  have hssr := @List.isPrefixOf_iff_prefix _ _ _ (marker .ssr) text
  have hpayload := @List.isPrefixOf_iff_prefix _ _ _ (marker .payload) text
  have hboth : marker .ssr <+: text → ¬marker .payload <+: text := by
    rintro ⟨x, rfl⟩ ⟨y, hy⟩
    exact absurd (marker_tokens.apart hy) (by decide)
  unfold markerAt
  cases k <;> split_ifs <;> simp_all

theorem markerAt_none {text : JsString} (h : ∀ k, ¬marker k <+: text) : markerAt text = none := by
  cases hk : markerAt text with
  | none => rfl
  | some k => exact absurd ((markerAt_eq text k).mp hk) (h k)

theorem firstMarker_free {text : JsString} (h : Markers.Free marker text) :
    firstMarker text = none := by
  induction text with
  | nil => rfl
  | cons c text ih =>
    have hrest := ih fun k hk => h k (hk.trans (List.suffix_cons ..).isInfix)
    rw [firstMarker, markerAt_none fun k hk => h k hk.isInfix, hrest]
    rfl

theorem firstMarker_append {front : JsString} (h : Markers.Free marker front) (k : DocumentMarker)
    (back : JsString) : firstMarker (front ++ (marker k ++ back)) = some (front, k, back) := by
  induction front with
  | nil =>
    obtain ⟨first, rest, hmarker⟩ := List.exists_cons_of_ne_nil (marker_ne_nil k)
    have hat : markerAt (marker k ++ back) = some k :=
      (markerAt_eq _ k).mpr (List.prefix_append _ _)
    have hdrop : (marker k ++ back).drop (marker k).length = back := List.drop_left ..
    rw [List.nil_append]
    rw [hmarker, List.cons_append] at hat hdrop ⊢
    rw [firstMarker, hat]
    show some (_, _, List.drop (marker k).length _) = _
    rw [hmarker, hdrop]
  | cons c front ih =>
    have hrest := ih fun l hl => h l (hl.trans (List.suffix_cons ..).isInfix)
    have hat : markerAt (c :: (front ++ (marker k ++ back))) = none := by
      refine markerAt_none fun l hl => ?_
      obtain ⟨y, hy⟩ := hl
      rcases Markers.split_cases marker_tokens (a := c :: front) (x := []) hy.symm with
        ⟨a', ha⟩ | ⟨-, hnil, -⟩ | ⟨b', hnil, -⟩
      · exact h l ⟨[], a', ha.symm⟩
      · cases hnil
      · cases hnil
    rw [List.cons_append, firstMarker, hat, hrest]
    rfl

/-- The five parts of a template. -/
theorem splitMarkers_eq {a b c : JsString} (ha : Markers.Free marker a) (hb : Markers.Free marker b)
    (hc : Markers.Free marker c) (k l : DocumentMarker) (fuel : Nat) :
    splitMarkers (fuel + 2) (a ++ (marker k ++ (b ++ (marker l ++ c)))) =
      [a, marker k, b, marker l, c] := by
  have hlast : splitMarkers fuel c = [c] := by
    cases fuel with
    | zero => rfl
    | succ fuel => rw [splitMarkers, firstMarker_free hc]
  rw [splitMarkers, firstMarker_append ha]
  show a :: marker k :: splitMarkers (fuel + 1) _ = _
  rw [splitMarkers, firstMarker_append hb]
  show a :: marker k :: b :: marker l :: splitMarkers fuel c = _
  rw [hlast]

theorem replacePart_free {markup part : JsString} {props : Json JsString N}
    (h : Markers.Free marker part) : replacePart numbers markup props part = part := by
  have hne : ∀ k, part ≠ marker k := fun k heq => h k (heq ▸ List.infix_rfl)
  rw [replacePart, if_neg (hne .ssr), if_neg (hne .payload)]

theorem replacePart_marker (markup : JsString) (props : Json JsString N) (k : DocumentMarker) :
    replacePart numbers markup props (marker k) = filling numbers markup props k := by
  cases k with
  | ssr => rw [replacePart, if_pos rfl, filling]
  | payload => rw [replacePart, if_neg (by decide), if_pos rfl, filling]

/-- The parts between two different markers that stand once each. -/
theorem parts_of_exactlyOne {template : JsString} (hssr : ExactlyOne template .ssr)
    (hpayload : ExactlyOne template .payload) :
    ∃ k l a b c, k ≠ l ∧ template = a ++ (marker k ++ (b ++ (marker l ++ c))) ∧
      Markers.Free marker a ∧ Markers.Free marker b ∧ Markers.Free marker c := by
  obtain ⟨i, hi⟩ := hssr
  obtain ⟨j, hj⟩ := hpayload
  -- whichever marker comes first opens the region, and the other one closes it
  have hordered : ∀ {k l : DocumentMarker} {i j : Nat}, k ≠ l →
      (∀ n, Occurs (marker k) template n ↔ n = i) → (∀ n, Occurs (marker l) template n ↔ n = j) →
      i < j → ∃ k l a b c, k ≠ l ∧ template = a ++ (marker k ++ (b ++ (marker l ++ c))) ∧
        Markers.Free marker a ∧ Markers.Free marker b ∧ Markers.Free marker c := by
    intro k l i j hkl hi hj hij
    let pick : Marker → DocumentMarker := fun m => match m with | .start => k | .stop => l
    have hpick : ∀ m, m = k ∨ m = l := by
      intro m
      cases m <;> cases k <;> cases l <;> simp_all
    have htokens : Template.Tokens (marker ∘ pick) 60 := by
      refine ⟨fun m => marker_tokens.head (pick m), ?_⟩
      intro m n x y h
      have hkey := marker_tokens.apart h
      cases m <;> cases n <;> first | rfl | exact absurd hkey hkl | exact absurd hkey.symm hkl
    have hfree : ∀ {s : JsString}, Markers.Free (marker ∘ pick) s → Markers.Free marker s := by
      intro s hs m
      rcases hpick m with rfl | rfl
      · exact hs .start
      · exact hs .stop
    obtain ⟨a, b, c, htext, ha, hb, hc, -, -⟩ :=
      Markers.region_of_paired htokens (s := template) (i := i) (j := j) ⟨hi, hj, hij⟩
    exact ⟨k, l, a, b, c, hkl, htext, hfree ha, hfree hb, hfree hc⟩
  rcases Nat.lt_trichotomy i j with hlt | heq | hgt
  · exact hordered (by decide) hi hj hlt
  · obtain ⟨x, hx⟩ := (hi i).mpr rfl
    obtain ⟨y, hy⟩ := (hj i).mpr heq
    exact absurd (marker_tokens.apart (hx.trans hy.symm)) (by decide)
  · exact hordered (by decide) hj hi hgt

/-- The template with its two markers replaced, whichever comes first. -/
def Filled (fill : DocumentMarker → JsString) (template document : JsString) : Prop :=
  ∃ k l a b c, k ≠ l ∧ template = a ++ (marker k ++ (b ++ (marker l ++ c))) ∧
    document = a ++ (fill k ++ (b ++ (fill l ++ c)))

theorem renderDocument_eq {template : JsString} (hssr : ExactlyOne template .ssr)
    (hpayload : ExactlyOne template .payload) (markup : JsString) (props : Json JsString N) :
    ∃ document, renderDocument numbers template markup props = .ok document ∧
      Filled (filling numbers markup props) template document := by
  obtain ⟨k, l, a, b, c, hkl, htext, ha, hb, hc⟩ := parts_of_exactlyOne hssr hpayload
  obtain ⟨fuel, hfuel⟩ : ∃ fuel, template.length = fuel + 2 := by
    have hmarker : 2 ≤ (marker k).length := by cases k <;> decide
    have hlength := congrArg List.length htext
    simp only [List.length_append] at hlength
    exact ⟨template.length - 2, by omega⟩
  refine ⟨a ++ (filling numbers markup props k ++ (b ++ (filling numbers markup props l ++ c))), ?_,
    k, l, a, b, c, hkl, htext, rfl⟩
  have hfirst := (checkMarker_iff template .ssr).mpr hssr
  have hsecond := (checkMarker_iff template .payload).mpr hpayload
  have hparts : splitMarkers template.length template = [a, marker k, b, marker l, c] := by
    rw [hfuel, htext]
    exact splitMarkers_eq ha hb hc k l fuel
  rw [renderDocument, hfirst, hsecond, hparts]
  show Except.ok _ = Except.ok _
  simp only [List.map_cons, List.map_nil, replacePart_free numbers ha, replacePart_free numbers hb,
    replacePart_free numbers hc, replacePart_marker, List.flatten_cons, List.flatten_nil,
    List.append_nil]

/-- Every other template is refused. -/
theorem renderDocument_refused {template : JsString}
    (h : ¬(ExactlyOne template .ssr ∧ ExactlyOne template .payload)) (markup : JsString)
    (props : Json JsString N) : ∃ message, renderDocument numbers template markup props = .error message := by
  have hcheck : ∀ k, ¬ExactlyOne template k → checkMarker template k =
      .error "FluxFast template requires exactly one SSR and payload marker" := fun k hk =>
    if_neg fun hlength => hk ((length_split_two template k).mp hlength)
  by_cases hssr : ExactlyOne template .ssr
  · rw [renderDocument, (checkMarker_iff template .ssr).mpr hssr,
      hcheck .payload fun hpayload => h ⟨hssr, hpayload⟩]
    exact ⟨_, rfl⟩
  · rw [renderDocument, hcheck .ssr hssr]
    exact ⟨_, rfl⟩

end Template

/-- What a rendered document promises. -/
structure FaithfulDocument (template markup : JsString) (props : Json JsString N) : Prop where
  /-- Markup and payload stand in the place of the markers. -/
  filled : ∃ document, renderDocument numbers template markup props = .ok document ∧
    Filled (filling numbers markup props) template document
  inert : ∀ c ∈ safePayload numbers props, isHtmlSpecial c = false
  /-- The element ends at its own closing tag, whatever follows. -/
  ends : ∀ rest, scriptText false ((payloadElement numbers props).drop openingTag.length ++ rest) =
    some (units (safePayload numbers props))
  parsed : parsePayload numbers (units (safePayload numbers props)) =
    some (props.map id numbers.value)
  /-- Hydration checks the envelope of the props and starts from it. -/
  envelope : ∀ assertPageEnvelope members, props = .object members →
    hydratedEnvelope numbers assertPageEnvelope (units (safePayload numbers props)) =
      ((member initialEnvelope members).map (Json.map id numbers.value)).bind fun envelope =>
        if assertPageEnvelope envelope then some envelope else none

theorem renderDocument_faithful {template : JsString} (hssr : ExactlyOne template .ssr)
    (hpayload : ExactlyOne template .payload) (markup : JsString) (props : Json JsString N) :
    FaithfulDocument numbers template markup props where
  filled := renderDocument_eq numbers hssr hpayload markup props
  inert _ hc := isHtmlSpecial_of_escaped hc
  ends := scriptText_payloadElement numbers props
  parsed := parsePayload_safePayload numbers props
  envelope assertPageEnvelope members := by
    rintro rfl
    exact hydratedEnvelope_safePayload numbers assertPageEnvelope members

end Document

/-- Zero is the only number. -/
def onlyZero : JsonNumbers Unit where
  render _ := ['0']
  parse _ := ()
  value := id
  isNumber_render _ := by decide
  parse_render _ := rfl

def smallTemplate : JsString := jsText "<p><!--fluxfast:ssr--></p><!--fluxfast:payload-->"

/-- Markup with a marker and an envelope with a closing tag. -/
theorem renderDocument_faithful_small : FaithfulDocument onlyZero smallTemplate
    (jsText "<!--fluxfast:payload-->")
    (.object [(initialEnvelope, .array [.string (jsText "</script>&"), .number ()])]) :=
  renderDocument_faithful onlyZero
    ⟨3, only_of_indexOf (marker_ne_nil .ssr) (by decide) (by decide)⟩
    ⟨26, only_of_indexOf (marker_ne_nil .payload) (by decide) (by decide)⟩ _ _

end FluxFast.React
