import FluxFast.Server.PyJson
import FluxFast.Validation.FieldPath

/-!
# ValidationLocations — the locations of validation errors

`_normalize_validation_location` without a route.  The server names a field as the client does.
-/

namespace FluxFast.Server

open FluxFast.Theory FluxFast.Validation PyJson

/-- What a location is made of; `other` is anything but a string or an integer. -/
inductive LocationPart
  | str (s : PyString)
  | int (n : Int)
  | other

def transportPrefixes : List PyString :=
  ["body", "query", "path", "header", "cookie"].map points

def rootLocation : PyString := points "general"

/-- `json.dumps(segment, ensure_ascii=False)`, which writes surrogates as they are. -/
def dumpsString (segment : PyString) : PyString :=
  points "\"" ++ segment.flatMap (fun p =>
    if isSurrogate p then [p] else (Json.escapeChar (Char.ofNat p)).map Char.toNat) ++ points "\""

def quoteSegment (segment : PyString) : PyString :=
  (dumpsString segment).flatMap fun p =>
    if isSurrogate p then (Json.unicodeEscape p).map Char.toNat else [p]

/-- The loop over the segments; `none` where one is neither a string nor an integer. -/
def joinSegments (index : Nat) : List LocationPart → Option PyString
  | [] => some []
  | .int n :: rest => (joinSegments (index + 1) rest).map (points ("[" ++ toString n ++ "]") ++ ·)
  | .str segment :: rest =>
    let text :=
      if isIdentifier segment && !(index = 0 && segment = dollar) then
        if index = 0 then segment else points "." ++ segment
      else points "[" ++ quoteSegment segment ++ points "]"
    (joinSegments (index + 1) rest).map (text ++ ·)
  | .other :: _ => none

def isTransportPrefix : LocationPart → Bool
  | .str s => transportPrefixes.contains s
  | _ => false

/-- `location` is `none` where it is neither a list nor a tuple. -/
def normalizeValidationLocation (location : Option (List LocationPart))
    (errorType : Option String) : PyString :=
  if errorType = some "json_invalid" then rootLocation
  else
    match location with
    | none | some [] => rootLocation
    | some (first :: rest) =>
      match if isTransportPrefix first then rest else first :: rest with
      | [] => rootLocation
      | segments => (joinSegments 0 segments).getD rootLocation

/-! ## Both sides -/

/-- A field in a location of the server. -/
def locationPart : FieldSegment → LocationPart
  | .number n => .int n
  | .name points => .str points

/-- A code point between the quotes, with surrogates replaced afterwards. -/
theorem quotePoint_eq (p : Nat) :
    (if isSurrogate p then [p] else (Json.escapeChar (Char.ofNat p)).map Char.toNat).flatMap
      (fun q => if isSurrogate q then (Json.unicodeEscape q).map Char.toNat else [q]) =
    (quotePoint p).map Char.toNat := by
  unfold quotePoint
  cases h : isSurrogate p with
  | true => simp only [if_true, List.flatMap_cons, List.flatMap_nil, h, List.append_nil]
  | false =>
    simp only [Bool.false_eq_true, if_false]
    generalize Json.escapeChar (Char.ofNat p) = cs
    -- no character is a surrogate
    induction cs with
    | nil => rfl
    | cons c cs ih =>
      have hc : isSurrogate c.toNat = false := by
        have hvalid := c.valid
        simp only [isSurrogate, Utf16.isHigh, Utf16.isLow, Bool.or_eq_false_iff,
          Bool.and_eq_false_iff, decide_eq_false_iff_not]
        unfold UInt32.isValidChar Nat.isValidChar at hvalid
        unfold Char.toNat
        omega
      rw [List.map_cons, List.flatMap_cons, ih, hc]
      rfl

theorem quoteSegment_eq (segment : PyString) :
    quoteSegment segment = ('"' :: (segment.flatMap quotePoint ++ ['"'])).map Char.toNat := by
  have hinner : (segment.flatMap fun p =>
      if isSurrogate p then [p] else (Json.escapeChar (Char.ofNat p)).map Char.toNat).flatMap
        (fun q => if isSurrogate q then (Json.unicodeEscape q).map Char.toNat else [q]) =
      (segment.flatMap quotePoint).map Char.toNat := by
    induction segment with
    | nil => rfl
    | cons p segment ih =>
      rw [List.flatMap_cons, List.flatMap_append, quotePoint_eq, ih, List.flatMap_cons,
        List.map_append]
  unfold quoteSegment dumpsString
  rw [List.flatMap_append, List.flatMap_append, hinner, List.map_cons, List.map_append]
  rfl

theorem points_toString (n : Nat) :
    points ("[" ++ toString (n : Int) ++ "]") = ('[' :: (Nat.toDigits 10 n ++ [']'])).map Char.toNat := by
  show (("[" ++ Nat.repr n ++ "]").toList).map Char.toNat = _
  rw [String.toList_append, String.toList_append, Nat.toList_repr]
  rfl

/-- One segment of the loop, at the front and after it. -/
theorem joinSegments_cons (index : Nat) (segment : FieldSegment) (rest : List LocationPart) :
    joinSegments index (locationPart segment :: rest) = (joinSegments (index + 1) rest).map
      ((segment.text (decide (index = 0))).map Char.toNat ++ ·) := by
  cases segment with
  | number n =>
    rw [locationPart, joinSegments, points_toString]
    rfl
  | name name =>
    rw [locationPart, joinSegments, FieldSegment.text]
    by_cases hplain : (isIdentifier name && !(decide (index = 0) && decide (name = dollar))) = true
    · rw [if_pos hplain, if_pos hplain, List.map_append, map_toNat_ofNat (isPlain_identifier hplain)]
      by_cases hindex : index = 0
      · simp only [hindex, decide_true, if_true, List.map_nil, List.nil_append]
      · simp only [hindex, decide_false, Bool.false_eq_true, if_false]
        rfl
    · rw [if_neg hplain, if_neg hplain, quoteSegment_eq]
      simp [points]

/-- The segments after one another are the text of the path. -/
theorem joinSegments_eq (index : Nat) (path : List FieldSegment) :
    joinSegments (index + 1) (path.map locationPart) =
      some ((path.flatMap (FieldSegment.text false)).map Char.toNat) := by
  induction path generalizing index with
  | nil => rfl
  | cons segment path ih =>
    rw [List.map_cons, joinSegments_cons, ih, List.flatMap_cons, List.map_append]
    rfl

/-- A location behind a transport prefix is named by the text of its path. -/
theorem normalizeValidationLocation_eq {transport : PyString} (h : transport ∈ transportPrefixes)
    {path : List FieldSegment} (hne : path ≠ []) {errorType : Option String}
    (htype : errorType ≠ some "json_invalid") :
    normalizeValidationLocation (some (.str transport :: path.map locationPart)) errorType =
      (pathText path).map Char.toNat := by
  cases path with
  | nil => exact absurd rfl hne
  | cons segment path =>
    have hprefix : isTransportPrefix (.str transport) = true := List.contains_iff_mem.mpr h
    have hjoin : joinSegments 0 (locationPart segment :: path.map locationPart) =
        some ((pathText (segment :: path)).map Char.toNat) := by
      rw [joinSegments_cons, joinSegments_eq, pathText, List.map_append]
      rfl
    unfold normalizeValidationLocation
    rw [if_neg htype]
    dsimp only
    rw [if_pos hprefix]
    show (joinSegments 0 (locationPart segment :: path.map locationPart)).getD rootLocation = _
    rw [hjoin]
    rfl

/-- Different locations have different names, whatever their prefixes. -/
theorem normalizeValidationLocation_injective {transport transport' : PyString}
    (h : transport ∈ transportPrefixes) (h' : transport' ∈ transportPrefixes)
    {path other : List FieldSegment} (hne : path ≠ []) (hne' : other ≠ [])
    (hpath : ∀ s ∈ path, s.Valid) (hother : ∀ s ∈ other, s.Valid) {errorType errorType' : Option String}
    (htype : errorType ≠ some "json_invalid") (htype' : errorType' ≠ some "json_invalid")
    (heq : normalizeValidationLocation (some (.str transport :: path.map locationPart)) errorType =
      normalizeValidationLocation (some (.str transport' :: other.map locationPart)) errorType') :
    path = other := by
  rw [normalizeValidationLocation_eq h hne htype, normalizeValidationLocation_eq h' hne' htype'] at heq
  exact pathText_injective hne hne' hpath hother
    (List.map_injective_iff.mpr (fun _ _ => Char.toNat_inj.mp) heq)

/-- Both sides give a field one name, the client as code units and the server as code points, and no
other field has it. -/
theorem field_names_agree {transport : PyString} (htransport : transport ∈ transportPrefixes)
    {path : List PathSegment} (hne : path ≠ []) {errorType : Option String}
    (htype : errorType ≠ some "json_invalid") :
    normalizeValidationLocation
        (some (.str transport :: path.map fun s => locationPart s.field)) errorType =
      Utf16.codePoints (formatValidationPath path) ∧
    (∀ other : List PathSegment, other ≠ [] →
      formatValidationPath path = formatValidationPath other → path = other) ∧
    ∀ transport' ∈ transportPrefixes, ∀ (other : List FieldSegment) (errorType' : Option String),
      other ≠ [] → (∀ s ∈ other, s.Valid) → errorType' ≠ some "json_invalid" →
      normalizeValidationLocation (some (.str transport' :: other.map locationPart)) errorType' =
        normalizeValidationLocation
          (some (.str transport :: path.map fun s => locationPart s.field)) errorType →
      other = path.map PathSegment.field := by
  have hfields : path.map PathSegment.field ≠ [] := fun h => hne (List.map_eq_nil_iff.mp h)
  have hvalid : ∀ s ∈ path.map PathSegment.field, s.Valid := by
    intro s hs
    obtain ⟨segment, -, rfl⟩ := List.mem_map.mp hs
    exact field_valid segment
  have hmap : (path.map fun s => locationPart s.field) =
      (path.map PathSegment.field).map locationPart := by
    rw [List.map_map]
    rfl
  rw [hmap]
  refine ⟨?_, ?_, ?_⟩
  -- the two sides write the same text
  · rw [normalizeValidationLocation_eq htransport hfields htype, formatValidationPath_eq,
      Utf16.codePoints_encode]
  -- the text of the browser names its path
  · intro other hother h
    rw [formatValidationPath_eq, formatValidationPath_eq] at h
    have hotherFields : other.map PathSegment.field ≠ [] :=
      fun h => hother (List.map_eq_nil_iff.mp h)
    have hotherValid : ∀ s ∈ other.map PathSegment.field, s.Valid := by
      intro s hs
      obtain ⟨segment, -, rfl⟩ := List.mem_map.mp hs
      exact field_valid segment
    have htext := pathText_injective hfields hotherFields hvalid hotherValid
      (Utf16.encode_injective h)
    exact List.map_injective_iff.mpr field_injective htext
  -- the text of the server names its path, and the transport is not part of it
  · intro transport' htransport' other errorType' hother hotherValid htype' h
    exact normalizeValidationLocation_injective htransport' htransport hother hfields hotherValid
      hvalid htype' htype h

/-- Below `body`, a name with a dot and the name `$`. -/
theorem field_names_agree_body :
    normalizeValidationLocation
        (some (.str (points "body") ::
          [PathSegment.string [36], .string [97, 46], .number 3].map fun s => locationPart s.field))
        (some "missing") =
      Utf16.codePoints (formatValidationPath [.string [36], .string [97, 46], .number 3]) :=
  (field_names_agree (by decide) (by simp) (by decide)).1

end FluxFast.Server
