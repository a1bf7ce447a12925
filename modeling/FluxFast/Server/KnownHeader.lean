import FluxFast.Core.KnownVersions
import FluxFast.Server.Headers
import FluxFast.Server.PyJson
import Mathlib

/-!
# KnownHeader — the versions that a client says it holds

`parse_known_header` and `encode_known_header`.  The parser takes any header; what it cannot decode
counts as no versions at all, and an entry that breaks a limit is dropped.
-/

namespace FluxFast.Server

open FluxFast.Core FluxFast.Theory

namespace Headers

open PyJson

def maxDecodedBytes : Nat := 16 * 1024
def maxVersionLength : Nat := 128
def maxEncodedChars : Nat := (maxDecodedBytes + 2) / 3 * 4 + 4

/-- The test of both functions on an entry. -/
def isSafeKnown (e : PyString × PyString) : Bool :=
  !e.1.all PyText.isStrippedPoint && e.1.length ≤ maxKeyLength && e.2.length ≤ maxVersionLength &&
    !e.1.contains ','.toNat && !e.1.any PyText.isControlPoint && !e.2.any PyText.isControlPoint

def limitKnown (entries : List (PyString × PyString)) : OrderedMap PyString PyString :=
  entries.foldl (fun result e =>
    if result.size < maxKnownResources && isSafeKnown e then result.set e.1 e.2 else result) .empty

/-- The members whose value is a string. -/
def stringMembers (members : List (PyString × Json PyString Unit)) : List (PyString × PyString) :=
  members.filterMap fun m =>
    match m.2 with
    | .string value => some (m.1, value)
    | _ => none

/-- The JSON text that a header carries. -/
def decodedText (header : String) : Option (List Char) :=
  let encoded := PyText.stripChars header.toList
  if maxEncodedChars < encoded.length then none
  else
    (Base64.decode (Base64.pad encoded)).bind fun bytes =>
      if maxDecodedBytes < bytes.length then none else Utf8.decode bytes

def parseKnownHeader (interpreter : Interpreter) (header : Option String) :
    OrderedMap PyString PyString :=
  match header with
  | none => .empty
  | some value =>
    if PyText.blank value then .empty
    else
      match (decodedText value).bind (loads interpreter) with
      | some (.object members) => limitKnown (stringMembers members)
      | _ => .empty

/-- `json.dumps` with its default escapes and compact separators. -/
def dumps : Json.Writer String Empty where
  text s := s.toList.flatMap Json.escapeAscii
  number := nofun

def entryPoints (e : String × String) : PyString × PyString := (points e.1, points e.2)

def limitVersions (known : Versions) : Versions :=
  known.entries.foldl (fun limited e =>
    if limited.size < maxKnownResources && isSafeKnown (entryPoints e) then limited.set e.1 e.2
    else limited) .empty

def encodeKnownHeader (known : Versions) : String :=
  let bytes := Utf8.encode (dumps.write (Transport.versionsObject (limitVersions known)))
  if maxDecodedBytes < bytes.length then "" else String.ofList (Base64.encode bytes)

/-! ## What a header yields -/

theorem entries_limitKnown {entries : List (PyString × PyString)}
    (h : (entries.map Prod.fst).Nodup) :
    (limitKnown entries).entries = (entries.filter isSafeKnown).take maxKnownResources :=
  OrderedMap.entries_foldl_limited maxKnownResources isSafeKnown h fun _ _ => List.not_mem_nil

/-- Whatever is yielded was among the entries. -/
theorem mem_of_limitKnown {entries : List (PyString × PyString)} {k v : PyString}
    (h : (limitKnown entries).get? k = some v) : (k, v) ∈ entries := by
  have hsub : ∀ j u, (limitKnown entries).get? j = some u → (j, u) ∈ entries := by
    refine foldl_invariant (I := fun (result : OrderedMap PyString PyString) =>
      ∀ j u, result.get? j = some u → (j, u) ∈ entries) entries ?_ (by simp)
    intro result e he hresult j u hj
    split at hj
    · rw [OrderedMap.get?_set] at hj
      split at hj
      · next hje =>
        rw [hje, ← Option.some.inj hj]
        exact he
      · exact hresult j u hj
    · exact hresult j u hj
  exact hsub k v h

theorem mem_stringMembers {members : List (PyString × Json PyString Unit)} {k v : PyString} :
    (k, v) ∈ stringMembers members ↔ (k, .string v) ∈ members := by
  rw [stringMembers, List.mem_filterMap]
  constructor
  · rintro ⟨⟨name, value⟩, hmem, hvalue⟩
    cases value <;> cases hvalue
    exact hmem
  · exact fun hmem => ⟨_, hmem, rfl⟩

theorem loads_eq_some {interpreter : Interpreter} {text : List Char} {j : Json PyString Unit}
    (h : loads interpreter text = some j) :
    Json.read lexicon text = some j ∧ j.distinct = true := by
  obtain ⟨j', hread, hif⟩ := Option.bind_eq_some_iff.mp h
  split at hif <;> cases hif
  next hcond =>
  rw [Bool.and_eq_true] at hcond
  exact ⟨hread, hcond.1⟩

/-- A version that a header yields is the one that its text assigns to the key, and the text
assigns no other. -/
theorem parseKnownHeader_assigned {interpreter : Interpreter} {header : Option String}
    {k v : PyString} (h : (parseKnownHeader interpreter header).get? k = some v) :
    ∃ value text members, header = some value ∧ decodedText value = some text ∧
      Json.read lexicon text = some (.object members) ∧
        ∀ j, (k, j) ∈ members ↔ j = .string v := by
  unfold parseKnownHeader at h
  split at h
  · cases h
  · next value =>
    split at h
    · cases h
    · split at h
      · next members hloads =>
        obtain ⟨text, htext, hloads⟩ := Option.bind_eq_some_iff.mp hloads
        obtain ⟨hread, hdistinct⟩ := loads_eq_some hloads
        have hmem := mem_stringMembers.mp (mem_of_limitKnown h)
        simp only [Json.distinct, Bool.and_eq_true, decide_eq_true_eq] at hdistinct
        refine ⟨value, text, members, rfl, htext, hread, fun j => ⟨fun hj => ?_, ?_⟩⟩
        · exact congrArg Prod.snd (List.inj_on_of_nodup_map hdistinct.1 hj hmem rfl)
        · rintro rfl
          exact hmem
      · cases h

/-! ## A header that was written -/

theorem points_injective : Function.Injective points := fun _ _ h =>
  String.toList_inj.mp (List.map_injective_iff.mpr (fun _ _ hcd => Char.toNat_inj.mp hcd) h)

theorem entryPoints_keys (es : List (String × String)) :
    (es.map entryPoints).map Prod.fst = (es.map Prod.fst).map points := by
  rw [List.map_map, List.map_map]
  rfl

/-- The characters of base64 are not white space. -/
theorem isStripped_charOf {s : Nat} (h : s < 64) : isStripped (Base64.charOf s) = false := by
  have hall : ∀ s : Fin 64, isStripped (Base64.charOf s) = false := by decide
  exact hall ⟨s, h⟩

theorem isStripped_encode (bytes : List UInt8) : ∀ c ∈ Base64.encode bytes, isStripped c = false := by
  intro c hc
  obtain ⟨s, hs, rfl⟩ := List.mem_map.mp hc
  refine isStripped_charOf (Base64.sextets_lt _ (fun b hb => ?_) s hs)
  obtain ⟨x, -, rfl⟩ := List.mem_map.mp hb
  exact x.toNat_lt

theorem stripChars_of_plain {cs : List Char} (h : ∀ c ∈ cs, isStripped c = false) :
    PyText.stripChars cs = cs := by
  have hdrop : cs.dropWhile isStripped = cs := by
    cases cs with
    | nil => rfl
    | cons c cs => exact List.dropWhile_cons_of_neg (by simp [h c List.mem_cons_self])
  rw [PyText.stripChars, hdrop]
  rw [List.rdropWhile_eq_self_iff]
  exact fun hne => by simp [h _ (List.getLast_mem hne)]

theorem decodedText_encode {text : List Char}
    (h : (Utf8.encode text).length ≤ maxDecodedBytes) :
    decodedText (String.ofList (Base64.encode (Utf8.encode text))) = some text := by
  have hlength : (Base64.encode (Utf8.encode text)).length ≤ maxEncodedChars := by
    rw [Base64.length_encode]
    unfold maxEncodedChars maxDecodedBytes at *
    omega
  unfold decodedText
  dsimp only
  rw [String.toList_ofList, stripChars_of_plain (isStripped_encode _), if_neg (Nat.not_lt.mpr hlength),
    Base64.decode_pad_encode, Option.bind_some, if_neg (Nat.not_lt.mpr h), Utf8.decode_encode]

/-- A writer that escapes character by character is read as the code points of its strings. -/
theorem legible_escape {W : Json.Writer String Empty} {escape : Char → List Char}
    (htext : ∀ s, W.text s = s.toList.flatMap escape) (hcomma : W.comma = [','])
    (hcolon : W.colon = [':'])
    (hescape : ∀ c, Json.Spells lexicon (escape c) (Utf16.encodeChar c)) :
    W.Legible lexicon points (fun n => nomatch n) := by
  refine Json.Writer.legible_of_compact hcomma hcolon (fun s => ?_) (fun n => n.elim)
    (fun n => n.elim)
  refine ⟨Utf16.encode s.toList, ?_, congrArg some (Utf16.codePoints_encode _)⟩
  rw [htext]
  exact Json.spells_flatMap lexicon hescape s.toList

section Written

variable {W : Json.Writer String Empty} (hW : W.Legible lexicon points (fun n => nomatch n))
  (interpreter : Interpreter) {known : Versions}

include hW

theorem loads_versionsObject :
    loads interpreter (W.write (Transport.versionsObject known)) =
      some (.object (known.entries.map fun e => (points e.1, .string (points e.2)))) := by
  have hmap : (Transport.versionsObject known).map points (fun n => nomatch n : Empty → Unit) =
      .object (known.entries.map fun e => (points e.1, .string (points e.2))) := by
    rw [Transport.versionsObject, Json.map, Json.mapMembers_eq, List.map_map]
    rfl
  have hdistinct : Json.distinct (.object (known.entries.map fun e =>
      (points e.1, Json.string (ν := Unit) (points e.2)))) = true := by
    rw [Json.distinct, Bool.and_eq_true, decide_eq_true_eq, List.map_map]
    constructor
    · have hkeys := known.nodup.map points_injective
      rwa [List.map_map] at hkeys
    · induction known.entries with
      | nil => rfl
      | cons e es ih => exact ih
  have hdepth : Json.depth (.object (known.entries.map fun e =>
      (points e.1, Json.string (ν := Unit) (points e.2)))) ≤ interpreter.nesting := by
    have hzero : Json.membersDepth (known.entries.map fun e =>
        (points e.1, Json.string (ν := Unit) (points e.2))) = 0 := by
      induction known.entries with
      | nil => rfl
      | cons e es ih => exact ih ▸ rfl
    rw [Json.depth, hzero]
    exact interpreter.flat
  rw [loads, Json.read_write hW, Option.bind_some, hmap, hdistinct, if_pos]
  simpa using hdepth

/-- A header whose entries keep the limits is read back whole. -/
theorem parseKnownHeader_written
    (hsize : (Utf8.encode (W.write (Transport.versionsObject known))).length ≤ maxDecodedBytes)
    (hsafe : ∀ e ∈ known.entries, isSafeKnown (entryPoints e) = true)
    (hcount : known.size ≤ maxKnownResources) :
    (parseKnownHeader interpreter (some (String.ofList (Base64.encode
      (Utf8.encode (W.write (Transport.versionsObject known))))))).entries =
        known.entries.map entryPoints := by
  set text := W.write (Transport.versionsObject known) with htext
  -- base64 has no blanks, so the header is not taken for an empty one
  have hblank : PyText.blank (String.ofList (Base64.encode (Utf8.encode text))) = false := by
    have hne : Base64.encode (Utf8.encode text) ≠ [] := by
      intro hnil
      have hlength := congrArg List.length hnil
      have htextLength : 1 ≤ (Utf8.encode text).length := by
        rw [htext, Json.Writer.write, Transport.versionsObject, Json.tokens, List.flatMap_cons,
          Transport.length_utf8_append]
        have hopen : (Utf8.encode ['\x7b']).length = 1 := by decide
        show 1 ≤ (Utf8.encode ['\x7b']).length + _
        omega
      rw [Base64.length_encode, List.length_nil] at hlength
      omega
    obtain ⟨c, cs, hcs⟩ := List.exists_cons_of_ne_nil hne
    have hplain := isStripped_encode (Utf8.encode text) c (hcs ▸ List.mem_cons_self)
    rw [PyText.blank, String.toList_ofList, hcs, List.all_cons, hplain]
    rfl
  -- every member is a string, so none is left out as no version
  have hmembers : stringMembers (known.entries.map fun e => (points e.1, .string (points e.2))) =
      known.entries.map entryPoints := by
    induction known.entries with
    | nil => rfl
    | cons e es ih => exact congrArg (entryPoints e :: ·) ih
  have hnodup : ((known.entries.map entryPoints).map Prod.fst).Nodup := by
    rw [entryPoints_keys]
    exact known.nodup.map points_injective
  -- every entry passes the server's own check
  have hkept : (known.entries.map entryPoints).filter isSafeKnown = known.entries.map entryPoints :=
    List.filter_eq_self.mpr fun p hp => by
      obtain ⟨e, he, rfl⟩ := List.mem_map.mp hp
      exact hsafe e he
  -- decoding and reading give the object back, member by member
  have hloaded : (decodedText (String.ofList (Base64.encode (Utf8.encode text)))).bind
      (loads interpreter) =
      some (.object (known.entries.map fun e => (points e.1, .string (points e.2)))) := by
    rw [decodedText_encode hsize, Option.bind_some, htext, loads_versionsObject hW]
  unfold parseKnownHeader
  dsimp only
  rw [if_neg (by rw [hblank]; exact Bool.false_ne_true), hloaded]
  dsimp only
  rw [hmembers, entries_limitKnown hnodup, hkept, List.take_of_length_le]
  rwa [List.length_map]

end Written

/-! ## What the two encoders keep -/

/-- A character that Python strips is a control character or white space for JavaScript too. -/
theorem isSpace_of_isStripped {c : Char} (h : isStripped c = true) (hcontrol : isControl c = false) :
    Text.isSpace c = true := by
  simp only [isStripped, PyText.isStrippedPoint, isControl, PyText.isControlPoint, Text.isSpace,
    Bool.or_eq_true, Bool.and_eq_true, decide_eq_true_eq, Bool.or_eq_false_iff,
    Bool.and_eq_false_iff, decide_eq_false_iff_not] at *
  omega

theorem any_points (p : Nat → Bool) (s : String) :
    (points s).any p = s.toList.any fun c => p c.toNat := List.any_map

theorem all_points (p : Nat → Bool) (s : String) :
    (points s).all p = s.toList.all fun c => p c.toNat := List.all_map

theorem length_points (s : String) : (points s).length = s.length := by
  rw [points, List.length_map, String.length_toList]

theorem any_isControlPoint {s : String} (h : Text.hasControlCharacters s = false) :
    (points s).any PyText.isControlPoint = false := by
  rw [any_points]
  exact (PyText.hasControlCharacters_eq s).symm.trans h

/-- What the client takes for safe, the server does. -/
theorem isSafeKnown_of_isSafeEntry {e : String × String} (h : Transport.isSafeEntry e = true) :
    isSafeKnown (entryPoints e) = true := by
  simp only [Transport.isSafeEntry, Transport.isSafeResourceKey, Transport.isSafeVersion,
    Bool.and_eq_true, Bool.not_eq_true', decide_eq_true_eq] at h
  obtain ⟨⟨⟨⟨⟨hblank, hkey⟩, hcomma⟩, hcontrol⟩, hversion, hversionControl⟩, -⟩ := h
  -- what Python strips is a space or a control character, and both are refused
  have hnonblank : (points e.1).all PyText.isStrippedPoint = false := by
    rw [Bool.eq_false_iff]
    intro hall
    rw [all_points] at hall
    refine Bool.eq_false_iff.mp hblank (List.all_eq_true.mpr fun c hc => ?_)
    refine isSpace_of_isStripped (List.all_eq_true.mp hall c hc) ?_
    have hnone := List.any_eq_false.mp ((PyText.hasControlCharacters_eq e.1).symm.trans hcontrol) c hc
    exact Bool.eq_false_iff.mpr hnone
  have hnoComma : (points e.1).contains ','.toNat = false := by
    rw [Bool.eq_false_iff]
    intro hmem
    obtain ⟨c, hc, hcomma'⟩ := List.mem_map.mp (List.contains_iff_mem.mp hmem)
    have hnone := List.any_eq_false.mp hcomma c hc
    exact hnone (decide_eq_true (Char.toNat_inj.mp hcomma'))
  -- the server counts code points, the client code units, and there are no more of the former
  have hkeyLength : (points e.1).length ≤ maxKeyLength := by
    rw [length_points]
    exact (PyText.length_le_jsLength e.1).trans hkey
  have hversionLength : (points e.2).length ≤ maxVersionLength := by
    rw [length_points]
    exact (PyText.length_le_jsLength e.2).trans hversion
  simp only [isSafeKnown, entryPoints, hnonblank, hkeyLength, hversionLength, hnoComma,
    any_isControlPoint hcontrol, any_isControlPoint hversionControl, Bool.not_false, decide_true,
    Bool.and_self]

theorem entries_limitVersions (known : Versions) :
    (limitVersions known).entries =
      (known.entries.filter fun e => isSafeKnown (entryPoints e)).take maxKnownResources :=
  OrderedMap.entries_foldl_limited maxKnownResources (fun e => isSafeKnown (entryPoints e))
    known.nodup (m := .empty) fun _ _ => List.not_mem_nil

theorem limitVersions_sub {known : Versions} {k v : String}
    (h : (limitVersions known).get? k = some v) : known.get? k = some v := by
  have hmem := OrderedMap.get?_eq_some_iff.mp h
  rw [entries_limitVersions] at hmem
  exact OrderedMap.get?_eq_some_iff.mpr (List.mem_filter.mp (List.mem_of_mem_take hmem)).1

theorem legible_stringify :
    Transport.stringify.Legible lexicon points (fun n => nomatch n) :=
  legible_escape (fun _ => rfl) rfl rfl (Json.spells_escapeChar lexicon)

theorem legible_dumps : dumps.Legible lexicon points (fun n => nomatch n) :=
  legible_escape (fun _ => rfl) rfl rfl (Json.spells_escapeAscii lexicon)

/-- The client sends its whole selection or no header at all. -/
theorem parseKnownHeader_client (interpreter : Interpreter) (known : Versions) :
    (parseKnownHeader interpreter (Transport.encodeKnownVersions known)).entries =
      if Transport.stringifiedBytes (Transport.selectKnownVersions known) ≤ Transport.maxKnownBytes
      then (Transport.selectKnownVersions known).entries.map entryPoints else [] := by
  set safe := Transport.selectKnownVersions known with hsafe
  have hentry : ∀ e ∈ safe.entries, Transport.isSafeEntry e = true :=
    fun e he => Transport.isSafeEntry_of_mem he
  -- the size that the client compares is the one that the server will see
  have hbytes : (Utf8.encode (Transport.stringify.write (Transport.versionsObject safe))).length =
      Transport.stringifiedBytes safe := by
    refine Transport.length_stringify fun e he => ?_
    have he := hentry e he
    simp only [Transport.isSafeEntry, Transport.isSafeResourceKey, Transport.isSafeVersion,
      Bool.and_eq_true, Bool.not_eq_true'] at he
    exact ⟨he.1.1.2, he.1.2.2⟩
  unfold Transport.encodeKnownVersions Transport.encodeKnownVersionSelection
  rw [← hsafe]
  dsimp only
  rw [hbytes]
  -- no versions: no header is sent
  by_cases hempty : safe.size = 0
  · rw [if_pos hempty, List.eq_nil_of_length_eq_zero hempty]
    simp [parseKnownHeader, OrderedMap.empty]
  · rw [if_neg hempty]
    -- too large: the header is not sent either, and the server reads nothing
    by_cases hfits : Transport.stringifiedBytes safe ≤ Transport.maxKnownBytes
    · rw [if_neg (Nat.not_lt.mpr hfits), if_pos hfits]
      exact parseKnownHeader_written legible_stringify interpreter (hbytes ▸ hfits)
        (fun e he => isSafeKnown_of_isSafeEntry (hentry e he))
        (Transport.size_selectKnownVersions known)
    · rw [if_pos (Nat.not_le.mp hfits), if_neg hfits]
      rfl

theorem parseKnownHeader_server (interpreter : Interpreter) (known : Versions) :
    (parseKnownHeader interpreter (some (encodeKnownHeader known))).entries =
      if (Utf8.encode (dumps.write (Transport.versionsObject (limitVersions known)))).length ≤
        maxDecodedBytes then (limitVersions known).entries.map entryPoints else [] := by
  unfold encodeKnownHeader
  dsimp only
  by_cases hfits : (Utf8.encode (dumps.write
      (Transport.versionsObject (limitVersions known)))).length ≤ maxDecodedBytes
  · rw [if_neg (Nat.not_lt.mpr hfits), if_pos hfits]
    refine parseKnownHeader_written legible_dumps interpreter hfits (fun e he => ?_) ?_
    · rw [entries_limitVersions] at he
      exact (List.mem_filter.mp (List.mem_of_mem_take he)).2
    · rw [OrderedMap.size, entries_limitVersions]
      exact List.length_take_le _ _
  · rw [if_pos (Nat.not_le.mp hfits), if_neg hfits]
    rfl

/-! ## Both encoders and the parser -/

/-- The client sends its selection or, when the JSON is too long, nothing; the server's encoder
does the same; and no header makes the parser yield a version that its text does not assign. -/
theorem known_header_round_trip (interpreter : Interpreter) :
    (∀ known : Versions,
      ((∀ k v, (Transport.selectKnownVersions known).get? k = some v → known.get? k = some v) ∧
        (Transport.selectKnownVersions known).size ≤ maxKnownResources) ∧
      (parseKnownHeader interpreter (Transport.encodeKnownVersions known)).entries =
        if Transport.stringifiedBytes (Transport.selectKnownVersions known) ≤
          Transport.maxKnownBytes
        then (Transport.selectKnownVersions known).entries.map entryPoints else []) ∧
    (∀ known : Versions,
      ((∀ k v, (limitVersions known).get? k = some v → known.get? k = some v) ∧
        (limitVersions known).size ≤ maxKnownResources) ∧
      (parseKnownHeader interpreter (some (encodeKnownHeader known))).entries =
        if (Utf8.encode (dumps.write (Transport.versionsObject (limitVersions known)))).length ≤
          maxDecodedBytes then (limitVersions known).entries.map entryPoints else []) ∧
    ∀ header k v, (parseKnownHeader interpreter header).get? k = some v →
      ∃ value text members, header = some value ∧ decodedText value = some text ∧
        Json.read lexicon text = some (.object members) ∧
          ∀ j, (k, j) ∈ members ↔ j = .string v := by
  refine ⟨fun known => ⟨⟨fun k v => Transport.selectKnownVersions_sub, ?_⟩, ?_⟩,
    fun known => ⟨⟨fun k v => limitVersions_sub, ?_⟩, ?_⟩, fun header k v => ?_⟩
  · exact Transport.size_selectKnownVersions known
  · exact parseKnownHeader_client interpreter known
  · rw [OrderedMap.size, entries_limitVersions]
    exact List.length_take_le _ _
  · exact parseKnownHeader_server interpreter known
  · exact parseKnownHeader_assigned

def crowdedVersion : String := String.ofList (List.replicate 128 '€')

theorem toList_crowdedVersion : crowdedVersion.toList = List.replicate 128 '€' :=
  String.toList_ofList

/-- Forty-three Chinese characters. -/
def crowdedKeys : List Char := (List.range 43).map fun i => Char.ofNat (0x4e00 + i)

/-- A key of each of them, with a version of 128 euro signs. -/
def crowdedKnown : Versions where
  entries := crowdedKeys.map fun c => (String.ofList [c], crowdedVersion)
  nodup := by
    rw [List.map_map]
    have hkeys : crowdedKeys.Nodup := by decide
    exact hkeys.map fun c d hcd => List.head_eq_of_cons_eq (String.ofList_injective hcd)

theorem isSafeVersion_crowded : Transport.isSafeVersion crowdedVersion = true := by
  have hlength : ((List.replicate 128 '€').flatMap Text.charUnits).length = 128 := by decide +kernel
  unfold Transport.isSafeVersion Text.jsLength Text.codeUnits Text.hasControlCharacters
  rw [toList_crowdedVersion, hlength, List.any_replicate]
  decide

theorem isSafeResourceKey_crowded {c : Char} (hc : c ∈ crowdedKeys) :
    Transport.isSafeResourceKey (String.ofList [c]) = true := by
  have hkeys : (crowdedKeys.all fun c => !Text.isSpace c && (Text.charUnits c).length = 1 &&
      c ≠ ',' && 0x9f < c.toNat) = true := by decide
  have hkey := List.all_eq_true.mp hkeys c hc
  simp only [Bool.and_eq_true, Bool.not_eq_true', decide_eq_true_eq] at hkey
  obtain ⟨⟨⟨hspace, hlength⟩, hcomma⟩, hplain⟩ := hkey
  have hcontrol : (c.toNat < 0x20 || (0x7f ≤ c.toNat && c.toNat ≤ 0x9f)) = false := by
    simp only [Bool.or_eq_false_iff, Bool.and_eq_false_iff, decide_eq_false_iff_not]
    omega
  simp [Transport.isSafeResourceKey, Text.blank, Text.jsLength, Text.codeUnits, Text.hasComma,
    Text.hasControlCharacters, Transport.maxKeyLength, hspace, hlength, hcomma, hcontrol]

theorem entries_select_crowded :
    (Transport.selectKnownVersions crowdedKnown).entries = crowdedKnown.entries := by
  have hsafe : ∀ e ∈ crowdedKnown.entries, Transport.isSafeEntry e = true := by
    intro e he
    obtain ⟨c, hc, rfl⟩ := List.mem_map.mp he
    have hmember : namesMember (String.ofList [c]) = true := by
      apply decide_eq_true
      intro h
      have hlength := congrArg String.length h
      rw [String.length_ofList] at hlength
      cases hlength
    rw [Transport.isSafeEntry, isSafeResourceKey_crowded hc, isSafeVersion_crowded, hmember]
    rfl
  rw [Transport.entries_selectKnownVersions, List.filter_eq_self.mpr hsafe]
  exact List.take_of_length_le (by decide)

/-- 392 bytes for each entry. -/
theorem stringifiedBytes_crowded :
    Transport.maxKnownBytes <
      Transport.stringifiedBytes (Transport.selectKnownVersions crowdedKnown) := by
  have hversion : Text.quotedBytes crowdedVersion = 386 := by
    rw [Text.quotedBytes, Text.utf8Bytes, toList_crowdedVersion]
    decide +kernel
  have hkeys : (crowdedKeys.map fun c => Text.quotedBytes (String.ofList [c]) + 1 + 386).sum =
      43 * 392 := by
    simp only [Text.quotedBytes, Text.utf8Bytes, String.toList_ofList]
    decide
  rw [Transport.stringifiedBytes, OrderedMap.size, entries_select_crowded]
  simp only [crowdedKnown, List.map_map, Function.comp_def, hversion, hkeys]
  unfold Transport.maxKnownBytes
  omega

/-- The whole map is selected, and what arrives is empty. -/
theorem known_header_withheld :
    (parseKnownHeader ⟨1000, by decide⟩ (Transport.encodeKnownVersions crowdedKnown)).entries ≠
      (Transport.selectKnownVersions crowdedKnown).entries.map entryPoints := by
  rw [parseKnownHeader_client, if_neg (Nat.not_le.mpr stringifiedBytes_crowded),
    entries_select_crowded]
  exact fun h => List.cons_ne_nil _ _ h.symm

end Headers

end FluxFast.Server
