import FluxFast.Server.PyJson
import FluxFast.Server.RedisCacheCodec
import FluxFast.Theory.Exceptions
import FluxFast.Theory.JsonChecked
import FluxFast.Theory.JsonNumbers
import FluxFast.Theory.Utf8

/-!
# RedisCachePayload — the bytes of a cached resource

`RedisResourceCodec` of `_redis_cache_codec.py` down to the bytes: strict UTF-8, `json.dumps` and
`json.loads`, and every exception that they raise.  A decoded resource can be encoded again unless
its payload spells a number beyond the range of a float or a surrogate that stands alone, or nests
its value deeper than the serializer goes: the decoder lets these through.
-/

namespace FluxFast.Server.RedisCachePayload

open FluxFast.Theory PyJson

/-! ## Exceptions -/

inductive PyException where
  | redisCacheCodecError (message : String)
  | redisCacheDecodeError (message : String)
  | redisCachePayloadTooLargeError (message : String)
  | typeError
  | valueError
  | jsonDecodeError
  | unicodeDecodeError
  | unicodeEncodeError
  | overflowError
  | recursionError
  | other (name : String)

namespace PyException

/-- `RedisCacheCodecError` and its subclasses. -/
def isCodecError : PyException → Bool
  | .redisCacheCodecError _ | .redisCacheDecodeError _ | .redisCachePayloadTooLargeError _ => true
  | _ => false

/-- `ValueError` and its subclasses. -/
def isValueError : PyException → Bool
  | .valueError | .jsonDecodeError | .unicodeDecodeError | .unicodeEncodeError => true
  | e => e.isCodecError

def isUnicodeDecodeError : PyException → Bool
  | .unicodeDecodeError => true
  | _ => false

def isUnicodeEncodeError : PyException → Bool
  | .unicodeEncodeError => true
  | _ => false

/-- `(json.JSONDecodeError, RecursionError, ValueError)`. -/
def isLoadsError : PyException → Bool
  | .recursionError => true
  | e => e.isValueError

/-- `(RecursionError, TypeError, ValueError, OverflowError)`. -/
def isDumpsError : PyException → Bool
  | .recursionError | .typeError | .overflowError => true
  | e => e.isValueError

end PyException

/-! ## Values -/

inductive PyNumber (F : Type) where
  | int (n : Int)
  | float (x : F)
  deriving DecidableEq

/-- The floats of Python.  `float(word)` may be infinite; `repr` of a finite float has a fraction or
an exponent, and `float` reads it back. -/
structure Floats (F : Type) where
  parse : List Char → F
  repr : F → List Char
  isFinite : F → Bool
  /-- `x == 1`. -/
  isOne : F → Bool
  isNumber_repr : ∀ x, isFinite x = true → Json.isNumber (repr x) = true
  isFloat_repr : ∀ x, isFinite x = true → Json.isFloat (repr x) = true
  parse_repr : ∀ x, isFinite x = true → parse (repr x) = x

abbrev PyValue (F : Type) := Json PyString (PyNumber F)

/-- No surrogate stands alone. -/
def IsText (s : PyString) : Prop := ∀ n ∈ s, n.isValidChar

namespace PyNumber

variable {F : Type} (floats : Floats F)

/-- `int` for a literal without fraction and exponent, else `float`.  `NaN` and the infinities are
refused by `_reject_json_constant`, and `int` refuses a literal of too many digits. -/
def read (word : List Char) : Option (PyNumber F) :=
  if Json.isNumber word then
    if Json.isFloat word then some (.float (floats.parse word))
    else if (Json.digitsOf word).length ≤ maxIntegerDigits then some (.int (Json.parseInt word))
    else none
  else none

/-- `json.dumps` with `allow_nan=False` writes the number; `repr` refuses too many digits. -/
def isPrintable : PyNumber F → Bool
  | .int n => (Json.digitsOf (Json.reprInt n)).length ≤ maxIntegerDigits
  | .float x => floats.isFinite x

def print : PyNumber F → List Char
  | .int n => Json.reprInt n
  | .float x => floats.repr x

/-- No float is infinite or `nan`. -/
def IsFinite : PyNumber F → Prop
  | .int _ => True
  | .float x => floats.isFinite x = true

variable {floats}

theorem isNumber_print {n : PyNumber F} (h : n.isPrintable floats = true) :
    Json.isNumber (n.print floats) = true := by
  cases n with
  | int n => exact Json.isNumber_reprInt n
  | float x => exact floats.isNumber_repr x h

theorem read_print {n : PyNumber F} (h : n.isPrintable floats = true) :
    read floats (n.print floats) = some n := by
  rw [read, if_pos (isNumber_print h)]
  cases n with
  | int n =>
    have hdigits : (Json.digitsOf (Json.reprInt n)).length ≤ maxIntegerDigits := of_decide_eq_true h
    show (if Json.isFloat (Json.reprInt n) = true then _ else
      if (Json.digitsOf (Json.reprInt n)).length ≤ maxIntegerDigits then
        some (PyNumber.int (Json.parseInt (Json.reprInt n))) else none) = _
    rw [Json.isFloat_reprInt, if_neg Bool.false_ne_true, if_pos hdigits, Json.parseInt_reprInt]
  | float x =>
    show (if Json.isFloat (floats.repr x) = true then
      some (PyNumber.float (floats.parse (floats.repr x))) else _) = _
    rw [if_pos (floats.isFloat_repr x h), floats.parse_repr x h]

/-- What was read can be written, if it is finite. -/
theorem isPrintable_of_read {word : List Char} {n : PyNumber F} (h : read floats word = some n)
    (hfinite : n.IsFinite floats) : n.isPrintable floats = true := by
  unfold read at h
  split_ifs at h with hnumber hfloat hdigits
  · cases h
    exact hfinite
  · cases h
    exact decide_eq_true (Json.length_digits_parseInt_le (by decide) hdigits)

end PyNumber

/-! ## `json` -/

section JsonModule

variable {F : Type} (floats : Floats F)

def toChar? (n : Nat) : Option Char := if h : n.isValidChar then some (Char.ofNatAux n h) else none

/-- The characters of a string that UTF-8 can encode. -/
def toChars? (s : PyString) : Option (List Char) := s.mapM toChar?

theorem toChar?_eq_some_iff {n : Nat} {c : Char} : toChar? n = some c ↔ c.toNat = n := by
  unfold toChar?
  split
  · next h =>
    rw [Option.some.injEq]
    constructor
    · rintro rfl
      rfl
    · rintro rfl
      rfl
  · next h =>
    refine iff_of_false (Option.some_ne_none c).symm ?_
    rintro rfl
    exact h c.valid

theorem toChars?_eq_some_iff {s : PyString} {cs : List Char} :
    toChars? s = some cs ↔ cs.map Char.toNat = s := by
  induction s generalizing cs with
  | nil => simp [toChars?]
  | cons n s ih =>
    rw [toChars?, List.mapM_cons]
    constructor
    · intro h
      obtain ⟨c, hc, hrest⟩ := Option.bind_eq_some_iff.mp h
      obtain ⟨ds, hds, hcs⟩ := Option.bind_eq_some_iff.mp hrest
      cases hcs
      rw [List.map_cons, toChar?_eq_some_iff.mp hc, ih.mp hds]
    · cases cs with
      | nil => exact nofun
      | cons c ds =>
        intro h
        obtain ⟨hc, hds⟩ := List.cons.inj h
        rw [toChar?_eq_some_iff.mpr hc]
        show (toChars? s).bind _ = _
        rw [ih.mpr hds]
        rfl

theorem toChars?_isSome_iff {s : PyString} : (toChars? s).isSome ↔ IsText s := by
  induction s with
  | nil => exact iff_of_true rfl (List.forall_mem_nil _)
  | cons n s ih =>
    rw [IsText, List.forall_mem_cons, ← IsText, ← ih, toChars?, List.mapM_cons]
    unfold toChar?
    split
    · next h =>
      show ((toChars? s).bind _).isSome = true ↔ _
      cases toChars? s with
      | none => simp
      | some ds => simpa using h
    · next h => exact iff_of_false Bool.false_ne_true fun hboth => h hboth.1

def lexicon : Json.Lexicon PyString (PyNumber F) where
  text units := some (Utf16.codePoints units)
  number := PyNumber.read floats

/-- A number that `json.dumps` writes. -/
abbrev Printable := { n : PyNumber F // n.isPrintable floats = true }

def printable? (n : PyNumber F) : Option (Printable floats) :=
  if h : n.isPrintable floats = true then some ⟨n, h⟩ else none

/-- Compact separators and `ensure_ascii=False`. -/
def writer : Json.Writer (List Char) (Printable floats) where
  text cs := cs.flatMap Json.escapeChar
  number n := n.val.print floats

theorem legible : (writer floats).Legible (lexicon floats) (List.map Char.toNat) Subtype.val := by
  refine Json.Writer.legible_of_compact rfl rfl (fun cs => ?_) (fun n => ?_) fun n => ?_
  · refine ⟨Utf16.encode cs, Json.spells_flatMap _ (Json.spells_escapeChar _) cs, ?_⟩
    exact congrArg some (Utf16.codePoints_encode cs)
  · obtain ⟨hall, hhead⟩ := Json.isNumber_spec (PyNumber.isNumber_print n.property)
    refine ⟨hall, fun hnil => ?_⟩
    rw [show n.val.print floats = [] from hnil] at hhead
    cases hhead
  · show Json.Lexer.classify (lexicon floats) (n.val.print floats) = _
    rw [Json.classify_number _ (PyNumber.isNumber_print n.property)]
    show (PyNumber.read floats (n.val.print floats)).map _ = _
    rw [PyNumber.read_print n.property]
    rfl

variable (interpreter : Interpreter)

/-- `json.dumps(payload, …).encode("utf-8")`.  A number that cannot be written is a `ValueError`,
and so is a surrogate that stands alone. -/
def dumps (payload : PyValue F) : Except PyException (List UInt8) :=
  if interpreter.nesting < payload.depth then .error .recursionError
  else
    match payload.convert toChars? (printable? floats) with
    | none => .error .valueError
    | some written => .ok (Utf8.encode ((writer floats).write written))

/-- `json.loads(text, parse_constant=_reject_json_constant)`: of the members of one name the last
one stays. -/
def loads (text : List Char) : Except PyException (PyValue F) :=
  match Json.read (lexicon floats) text with
  | none => .error .jsonDecodeError
  | some j => if interpreter.nesting < j.depth then .error .recursionError else .ok j.dedupe

/-- Every leaf of the value can be written. -/
def Writable (j : PyValue F) : Prop := j.Every IsText fun n => n.isPrintable floats = true

variable {floats interpreter}

theorem writable_iff {j : PyValue F} :
    (j.convert toChars? (printable? floats)).isSome ↔ Writable floats j := by
  rw [Json.convert_isSome_iff, Writable]
  have htext : (fun s => (toChars? s).isSome = true) = IsText :=
    funext fun s => propext toChars?_isSome_iff
  have hnumber : (fun n => (printable? floats n).isSome = true) =
      fun n => n.isPrintable floats = true := by
    funext n
    unfold printable?
    split
    · next h => exact propext (iff_of_true rfl h)
    · next h => exact propext (iff_of_false nofun h)
  rw [htext, hnumber]

/-- `json.dumps` succeeds on a shallow value whose leaves can be written. -/
theorem dumps_isOk_iff {j : PyValue F} : (∃ bytes, dumps floats interpreter j = .ok bytes) ↔
    j.depth ≤ interpreter.nesting ∧ Writable floats j := by
  unfold dumps
  split
  · next h => exact iff_of_false nofun fun hboth => absurd hboth.1 (Nat.not_le.mpr h)
  · next h =>
    rw [and_iff_right (Nat.not_lt.mp h), ← writable_iff]
    cases j.convert toChars? (printable? floats) with
    | none => exact iff_of_false nofun nofun
    | some written => exact iff_of_true ⟨_, rfl⟩ rfl

/-- `json.loads` reads back what `json.dumps` wrote. -/
theorem loads_of_dumps {j : PyValue F} {bytes : List UInt8}
    (h : dumps floats interpreter j = .ok bytes) (hdistinct : j.distinct = true) :
    ∃ text, bytes = Utf8.encode text ∧ loads floats interpreter text = .ok j := by
  unfold dumps at h
  split at h
  · cases h
  · next hdepth =>
    split at h
    · cases h
    · next written hwritten =>
      cases h
      refine ⟨_, rfl, ?_⟩
      have hback : written.map (List.map Char.toNat) Subtype.val = j := by
        refine Json.map_of_convert (fun s cs hs => toChars?_eq_some_iff.mp hs) (fun n m hm => ?_) j
          hwritten
        unfold printable? at hm
        split at hm
        · cases hm
          rfl
        · cases hm
      rw [loads, Json.read_write (legible floats), hback]
      show (if interpreter.nesting < j.depth then _ else Except.ok j.dedupe) = _
      rw [if_neg hdepth, Json.dedupe_of_distinct j hdistinct]

theorem isLoadsError_of_loads {text : List Char} {e : PyException}
    (h : loads floats interpreter text = .error e) : e.isLoadsError = true := by
  unfold loads at h
  split at h
  · cases h
    rfl
  · split at h
    · cases h
      rfl
    · cases h

theorem loads_eq_ok_iff {text : List Char} {j : PyValue F} :
    loads floats interpreter text = .ok j ↔ ∃ j', Json.read (lexicon floats) text = some j' ∧
      j'.depth ≤ interpreter.nesting ∧ j'.dedupe = j := by
  unfold loads
  cases Json.read (lexicon floats) text with
  | none => exact iff_of_false nofun fun ⟨j', hj', _⟩ => nomatch hj'
  | some j' =>
    by_cases hdepth : interpreter.nesting < j'.depth
    · refine iff_of_false (fun h => ?_) ?_
      · have herror : Except.error PyException.recursionError = Except.ok j :=
          (if_pos hdepth).symm.trans h
        cases herror
      · rintro ⟨j'', hj'', hle, -⟩
        cases hj''
        exact absurd hdepth (Nat.not_lt.mpr hle)
    · show (if interpreter.nesting < j'.depth then _ else Except.ok j'.dedupe) = _ ↔ _
      rw [if_neg hdepth, Except.ok.injEq]
      constructor
      · exact fun h => ⟨j', rfl, Nat.not_lt.mp hdepth, h⟩
      · rintro ⟨j'', hj'', -, h⟩
        cases hj''
        exact h

/-- Every number was spelled. -/
abbrev Spelled (floats : Floats F) (j : PyValue F) : Prop :=
  j.Every (fun _ => True) fun n => ∃ word, PyNumber.read floats word = some n

theorem spelled_of_loads {text : List Char} {j : PyValue F}
    (h : loads floats interpreter text = .ok j) : Spelled floats j := by
  obtain ⟨j', hread, -, rfl⟩ := loads_eq_ok_iff.mp h
  exact Json.Every.dedupe j'
    (Json.every_of_read hread (fun _ _ _ => trivial) fun word n hn => ⟨word, hn⟩)

/-- Strings without lone surrogates and finite floats. -/
abbrev Clean (floats : Floats F) (j : PyValue F) : Prop :=
  j.Every IsText fun n => n.IsFinite floats

/-- A value that was read can be written, if its strings and its floats can. -/
theorem writable_of_clean {j : PyValue F} (hspelled : Spelled floats j) (h : Clean floats j) :
    Writable floats j := by
  refine Json.Every.combine (fun s hs _ => hs) (fun n hn hword => ?_) j h hspelled
  obtain ⟨word, hword⟩ := hword
  exact PyNumber.isPrintable_of_read hword hn

theorem clean_of_writable {j : PyValue F} (h : Writable floats j) : Clean floats j := by
  refine Json.Every.mono (fun s hs => hs) (fun n hn => ?_) h
  cases n with
  | int n => trivial
  | float x => exact hn

end JsonModule

/-! ## The codec -/

structure CachedResource (V : Type) where
  version : PyString
  value : V
  tags : List PyString

structure DecodedRedisResource (F : Type) where
  version : PyString
  value : PyValue F
  tags : List PyString

inductive Payload where
  | bytes (payload : List UInt8)
  | text (payload : PyString)

/-- The interpreter, and `to_jsonable`: it gives distinct names to the members of an object, and leaves
a JSON value as it is if and only if its guard against recursion does not stop it. -/
structure Runtime (V F : Type) where
  floats : Floats F
  interpreter : Interpreter
  toJsonable : V → Except PyException (PyValue F)
  ofJson : PyValue F → V
  guard : Nat
  distinct_toJsonable : ∀ v j, toJsonable v = .ok j → j.distinct = true
  toJsonable_ofJson_iff : ∀ j : PyValue F, j.distinct = true → Clean floats j →
    (toJsonable (ofJson j) = .ok j ↔ j.depth ≤ guard)

section Checks

variable {F : Type} (floats : Floats F)

def isVersion (version : PyString) : Bool :=
  !version.all PyText.isStrippedPoint && version.length ≤ maxVersionLength

/-- `_validate_version`. -/
def validateVersion (version : PyValue F) (error : String → PyException) :
    Except PyException PyString :=
  match version with
  | .string s =>
    if isVersion s then .ok s
    else .error (error ("Redis cache entry version must be a non-empty string " ++
      "of at most 128 characters"))
  | _ => .error (error ("Redis cache entry version must be a non-empty string " ++
      "of at most 128 characters"))

def tag? : PyValue F → Option PyString
  | .string s => if s = [] then none else some s
  | _ => none

/-- `_validate_tags`. -/
def validateTags (tags : PyValue F) (error : String → PyException) :
    Except PyException (List PyString) :=
  match tags with
  | .array items =>
    match items.mapM tag? with
    | some tags => .ok tags
    | none => .error (error "Redis cache entry tags must be a list of non-empty strings")
  | _ => .error (error "Redis cache entry tags must be a list of non-empty strings")

/-- `_check_size`. -/
def checkBytes (maxValueBytes size : Nat) : Except PyException Unit :=
  if maxValueBytes < size then
    .error (.redisCachePayloadTooLargeError
      ("Redis cache entry exceeds " ++ toString maxValueBytes ++ " bytes"))
  else .ok ()

/-- `decoded[name]` of an object that has the member. -/
def member (members : List (PyString × PyValue F)) (name : String) : PyValue F :=
  (OrderedMap.lookup (points name) members).getD .null

/-- `set(decoded) == _PAYLOAD_FIELDS`. -/
def hasPayloadFields (members : List (PyString × PyValue F)) : Bool :=
  (members.map Prod.fst).all (· ∈ payloadFields.map points) &&
    payloadFields.all fun name => points name ∈ members.map Prod.fst

/-- `decoded["schema"] == REDIS_CACHE_SCHEMA`, and no boolean. -/
def isSchema : PyValue F → Bool
  | .number (.int n) => n = redisCacheSchema
  | .number (.float x) => floats.isOne x
  | _ => false

/-- The checks of `decode` on a JSON object. -/
def decodeMembers (members : List (PyString × PyValue F)) :
    Except PyException (DecodedRedisResource F) :=
  if hasPayloadFields members then
    if isSchema floats (member members "schema") then do
      let version ← validateVersion (member members "version") .redisCacheDecodeError
      let tags ← validateTags (member members "tags") .redisCacheDecodeError
      return ⟨version, member members "value", tags⟩
    else .error (.redisCacheDecodeError "Redis cache entry has an unknown schema")
  else .error (.redisCacheDecodeError "Redis cache entry has missing or unsupported fields")

def payloadMembers (version : PyString) (value : PyValue F) (tags : List PyString) :
    List (PyString × PyValue F) :=
  [(points "schema", .number (.int redisCacheSchema)), (points "version", .string version),
    (points "value", value), (points "tags", .array (tags.map .string))]

/-- The text of a payload, if its size is allowed. -/
def readText (maxValueBytes : Nat) : Payload → Except PyException (List Char)
  | .bytes payload => do
    checkBytes maxValueBytes payload.length
    catching PyException.isUnicodeDecodeError
      (.redisCacheDecodeError "Redis cache entry is not valid UTF-8")
      (match Utf8.decode payload with
        | some text => .ok text
        | none => .error .unicodeDecodeError)
  | .text payload => do
    let text ← catching PyException.isUnicodeEncodeError
      (.redisCacheDecodeError "Redis cache entry is not valid UTF-8")
      (match toChars? payload with
        | some text => .ok text
        | none => .error .unicodeEncodeError)
    checkBytes maxValueBytes (Utf8.encode text).length
    return text

end Checks

section Codec

variable {V F : Type} (runtime : Runtime V F) (maxValueBytes : Nat)

/-- `RedisResourceCodec.encode`. -/
def encode (resource : CachedResource V) : Except PyException (List UInt8) := do
  let _ ← validateVersion (F := F) (.string resource.version) .redisCacheCodecError
  let _ ← validateTags (F := F) (.array (resource.tags.map .string)) .redisCacheCodecError
  let encoded ← catching PyException.isDumpsError
    (.redisCacheCodecError "resource value cannot be encoded as safe JSON") do
      let value ← runtime.toJsonable resource.value
      dumps runtime.floats runtime.interpreter
        (.object (payloadMembers resource.version value resource.tags))
  checkBytes maxValueBytes encoded.length
  return encoded

/-- `RedisResourceCodec.decode`. -/
def decode (payload : Payload) : Except PyException (DecodedRedisResource F) := do
  let text ← readText maxValueBytes payload
  let decoded ← catching PyException.isLoadsError
    (.redisCacheDecodeError "Redis cache entry is not valid JSON")
    (loads runtime.floats runtime.interpreter text)
  match decoded with
  | .object members => decodeMembers runtime.floats members
  | _ => .error (.redisCacheDecodeError "Redis cache entry must be a JSON object")

end Codec

/-! ## What the checks accept -/

section Accepted

variable {F : Type} {floats : Floats F}

theorem validateVersion_eq_ok {v : PyValue F} {error : String → PyException} {version : PyString} :
    validateVersion v error = .ok version ↔ v = .string version ∧ isVersion version = true := by
  unfold validateVersion
  split
  · next s =>
    split
    · next h =>
      rw [Except.ok.injEq, Json.string.injEq]
      constructor
      · rintro rfl
        exact ⟨rfl, h⟩
      · exact fun hs => hs.1
    · next h =>
      refine iff_of_false nofun ?_
      rintro ⟨hs, hversion⟩
      cases hs
      exact h hversion
  · next hv =>
    refine iff_of_false nofun ?_
    rintro ⟨rfl, -⟩
    exact hv version rfl

theorem tag?_eq_some_iff {v : PyValue F} {tag : PyString} :
    tag? v = some tag ↔ v = .string tag ∧ tag ≠ [] := by
  unfold tag?
  split
  · next s =>
    rw [Json.string.injEq]
    split
    · next h =>
      refine iff_of_false nofun ?_
      rintro ⟨rfl, hne⟩
      exact hne h
    · next h =>
      rw [Option.some.injEq]
      constructor
      · rintro rfl
        exact ⟨rfl, h⟩
      · exact fun hs => hs.1
  · next hv =>
    refine iff_of_false nofun ?_
    rintro ⟨rfl, -⟩
    exact hv tag rfl

theorem mapM_tag?_eq_some_iff {items : List (PyValue F)} {tags : List PyString} :
    items.mapM tag? = some tags ↔ items = tags.map .string ∧ ∀ tag ∈ tags, tag ≠ [] := by
  induction items generalizing tags with
  | nil =>
    cases tags with
    | nil => simp
    | cons tag tags => simp
  | cons item items ih =>
    rw [List.mapM_cons]
    constructor
    · intro h
      obtain ⟨tag, htag, hrest⟩ := Option.bind_eq_some_iff.mp h
      obtain ⟨rest, hmap, hcons⟩ := Option.bind_eq_some_iff.mp hrest
      cases hcons
      obtain ⟨rfl, hne⟩ := tag?_eq_some_iff.mp htag
      obtain ⟨rfl, hall⟩ := ih.mp hmap
      exact ⟨rfl, List.forall_mem_cons.mpr ⟨hne, hall⟩⟩
    · rintro ⟨h, hall⟩
      cases tags with
      | nil => cases h
      | cons tag tags =>
        obtain ⟨rfl, rfl⟩ := List.cons.inj h
        rw [tag?_eq_some_iff.mpr ⟨rfl, hall tag List.mem_cons_self⟩]
        show (List.mapM tag? (tags.map Json.string)).bind _ = _
        rw [ih.mpr ⟨rfl, fun t ht => hall t (List.mem_cons_of_mem _ ht)⟩]
        rfl

theorem validateTags_eq_ok {v : PyValue F} {error : String → PyException}
    {tags : List PyString} : validateTags v error = .ok tags ↔
      v = .array (tags.map .string) ∧ ∀ tag ∈ tags, tag ≠ [] := by
  unfold validateTags
  split
  · next items =>
    rw [Json.array.injEq, ← mapM_tag?_eq_some_iff]
    cases items.mapM tag? with
    | none => exact iff_of_false nofun nofun
    | some tags' => rw [Except.ok.injEq, Option.some.injEq]
  · next hv =>
    refine iff_of_false nofun ?_
    rintro ⟨rfl, -⟩
    exact hv _ rfl

theorem validateVersion_error {v : PyValue F} {error : String → PyException} {e : PyException}
    (h : validateVersion v error = .error e) : ∃ message, e = error message := by
  unfold validateVersion at h
  split at h
  · split at h
    · cases h
    · cases h
      exact ⟨_, rfl⟩
  · cases h
    exact ⟨_, rfl⟩

theorem validateTags_error {v : PyValue F} {error : String → PyException} {e : PyException}
    (h : validateTags v error = .error e) : ∃ message, e = error message := by
  unfold validateTags at h
  split at h
  · split at h
    · cases h
    · cases h
      exact ⟨_, rfl⟩
  · cases h
    exact ⟨_, rfl⟩

theorem checkBytes_eq_ok {bound size : Nat} : checkBytes bound size = .ok () ↔ size ≤ bound := by
  unfold checkBytes
  split
  · next h => exact iff_of_false nofun (Nat.not_le.mpr h)
  · next h => exact iff_of_true rfl (Nat.not_lt.mp h)

theorem decodeMembers_eq_ok_iff {members : List (PyString × PyValue F)}
    {r : DecodedRedisResource F} : decodeMembers floats members = .ok r ↔
      hasPayloadFields members = true ∧ isSchema floats (member members "schema") = true ∧
        (member members "version" = .string r.version ∧ isVersion r.version = true) ∧
        (member members "tags" = .array (r.tags.map .string) ∧ ∀ tag ∈ r.tags, tag ≠ []) ∧
        member members "value" = r.value := by
  obtain ⟨version, value, tags⟩ := r
  unfold decodeMembers
  split
  · next hfields =>
    split
    · next hschema =>
      rw [and_iff_right hfields, and_iff_right hschema, except_bind_ok]
      constructor
      · rintro ⟨version', hversion, hrest⟩
        obtain ⟨tags', htags, hrest⟩ := except_bind_ok.mp hrest
        cases hrest
        exact ⟨validateVersion_eq_ok.mp hversion, validateTags_eq_ok.mp htags, rfl⟩
      · rintro ⟨hversion, htags, rfl⟩
        refine ⟨version, validateVersion_eq_ok.mpr hversion, except_bind_ok.mpr ?_⟩
        exact ⟨tags, validateTags_eq_ok.mpr htags, rfl⟩
    · next hschema => exact iff_of_false nofun fun h => hschema h.2.1
  · next hfields => exact iff_of_false nofun fun h => hfields h.1

theorem decodeMembers_error {members : List (PyString × PyValue F)} {e : PyException}
    (h : decodeMembers floats members = .error e) : e.isCodecError = true := by
  unfold decodeMembers at h
  split at h
  · split at h
    · rcases except_bind_error.mp h with hversion | ⟨version, -, h⟩
      · obtain ⟨message, rfl⟩ := validateVersion_error hversion
        rfl
      · rcases except_bind_error.mp h with htags | ⟨tags, -, h⟩
        · obtain ⟨message, rfl⟩ := validateTags_error htags
          rfl
        · cases h
    · cases h
      rfl
  · cases h
    rfl

end Accepted

/-! ## Members -/

section Members

variable {F : Type} {floats : Floats F} {members : List (PyString × PyValue F)}

theorem member_mem (name : String) :
    member members name = .null ∨ (points name, member members name) ∈ members := by
  unfold member
  cases h : OrderedMap.lookup (points name) members with
  | none => exact .inl rfl
  | some value => exact .inr (OrderedMap.lookup_mem h)

theorem every_member {p : PyString → Prop} {q : PyNumber F → Prop}
    (h : (Json.object members).Every p q) (name : String) : (member members name).Every p q := by
  rcases @member_mem F members name with hnull | hmem
  · rw [hnull]
    trivial
  · exact (Json.membersEvery_iff.mp h _ hmem).2

theorem depth_member_lt (name : String) :
    (member members name).depth < (Json.object members).depth := by
  rcases @member_mem F members name with hnull | hmem
  · rw [hnull]
    exact Nat.succ_pos _
  · exact Nat.lt_succ_of_le (Json.membersDepth_le_iff.mp (Nat.le_refl _) _ hmem)

theorem distinct_member (h : (Json.object members).distinct = true) (name : String) :
    (member members name).distinct = true := by
  rcases @member_mem F members name with hnull | hmem
  · rw [hnull]
    rfl
  · exact Json.membersDistinct_iff.mp (Bool.and_eq_true_iff.mp h).2 _ hmem

theorem itemsDepth_strings (tags : List PyString) :
    Json.itemsDepth (tags.map (Json.string : PyString → PyValue F)) = 0 := by
  induction tags with
  | nil => rfl
  | cons tag tags ih =>
    rw [List.map_cons, Json.itemsDepth, ih]
    rfl

theorem itemsDistinct_strings (tags : List PyString) :
    Json.itemsDistinct (tags.map (Json.string : PyString → PyValue F)) = true := by
  induction tags with
  | nil => rfl
  | cons tag tags ih =>
    rw [List.map_cons, Json.itemsDistinct, ih]
    rfl

theorem depth_payload (version : PyString) (value : PyValue F) (tags : List PyString) :
    (Json.object (payloadMembers version value tags)).depth = max value.depth 1 + 1 := by
  simp [payloadMembers, Json.depth, Json.membersDepth, itemsDepth_strings]

theorem distinct_payload {version : PyString} {value : PyValue F} {tags : List PyString}
    (h : value.distinct = true) :
    (Json.object (payloadMembers version value tags)).distinct = true := by
  have hnames : (payloadFields.map points).Nodup := by decide
  rw [Json.distinct, Bool.and_eq_true, decide_eq_true_eq]
  refine ⟨hnames, ?_⟩
  simp [payloadMembers, Json.membersDistinct, Json.distinct, itemsDistinct_strings, h]

theorem isText_points (s : String) : IsText (points s) := by
  intro n hn
  obtain ⟨c, -, rfl⟩ := List.mem_map.mp hn
  exact c.valid

theorem writable_payload_iff {version : PyString} {value : PyValue F} {tags : List PyString} :
    Writable floats (.object (payloadMembers version value tags)) ↔
      IsText version ∧ Writable floats value ∧ ∀ tag ∈ tags, IsText tag := by
  have hone : (PyNumber.int redisCacheSchema).isPrintable floats = true := by
    show decide ((Json.digitsOf (Json.reprInt 1)).length ≤ maxIntegerDigits) = true
    decide
  have htags : Json.ItemsEvery IsText (fun n : PyNumber F => n.isPrintable floats = true)
      (tags.map Json.string) ↔ ∀ tag ∈ tags, IsText tag := by
    rw [Json.itemsEvery_iff, List.forall_mem_map]
    exact Iff.rfl
  have hmembers : Writable floats (.object (payloadMembers version value tags)) ↔
      ((IsText (points "schema") ∧ (PyNumber.int redisCacheSchema).isPrintable floats = true) ∧
        (IsText (points "version") ∧ IsText version) ∧
        (IsText (points "value") ∧ Writable floats value) ∧
        (IsText (points "tags") ∧ Json.ItemsEvery IsText
          (fun n : PyNumber F => n.isPrintable floats = true) (tags.map Json.string)) ∧ True) := by
    simp only [Writable, payloadMembers, Json.Every, Json.MembersEvery, and_assoc]
  rw [hmembers, htags]
  simp [isText_points, hone]

/-- The checks find in a payload what was put there. -/
theorem decodeMembers_payload {version : PyString} {value : PyValue F} {tags : List PyString}
    (hversion : isVersion version = true) (htags : ∀ tag ∈ tags, tag ≠ []) :
    decodeMembers floats (payloadMembers version value tags) = .ok ⟨version, value, tags⟩ := by
  refine decodeMembers_eq_ok_iff.mpr ⟨?_, ?_, ⟨?_, hversion⟩, ⟨?_, htags⟩, ?_⟩
  · show ((payloadFields.map points).all (· ∈ payloadFields.map points) &&
      payloadFields.all fun name => points name ∈ payloadFields.map points) = true
    decide
  · rfl
  · rfl
  · rfl
  · rfl

end Members

/-! ## Round trips -/

section RoundTrip

variable {V F : Type} (runtime : Runtime V F) (maxValueBytes : Nat)

/-- A resource that the encoder accepts is decoded as it was, with the JSON form of its value. -/
def RoundTrips : Prop :=
  ∀ resource encoded, encode runtime maxValueBytes resource = .ok encoded →
    ∃ value, runtime.toJsonable resource.value = .ok value ∧
      decode runtime maxValueBytes (.bytes encoded) =
        .ok ⟨resource.version, value, resource.tags⟩

/-- Encoded again within any bound that leaves room for it, the resource is decoded to itself. -/
def Recoverable (r : DecodedRedisResource F) : Prop :=
  ∃ encoded : List UInt8, ∀ bound, encoded.length ≤ bound →
    encode runtime bound ⟨r.version, runtime.ofJson r.value, r.tags⟩ = .ok encoded ∧
      decode runtime bound (.bytes encoded) = .ok r

/-- A payload is refused by a codec error or gives a resource that can be encoded again. -/
def Separated (payload : Payload) : Prop :=
  match decode runtime maxValueBytes payload with
  | .error e => e.isCodecError = true
  | .ok r => Recoverable runtime r

/-- The payload is a JSON object that passes every check. -/
structure Accepts (payload : Payload) (members : List (PyString × PyValue F)) : Prop where
  text : ∃ text, readText maxValueBytes payload = .ok text ∧
    loads runtime.floats runtime.interpreter text = .ok (.object members)
  fields : hasPayloadFields members = true
  schema : isSchema runtime.floats (member members "schema") = true
  version : ∃ version, member members "version" = .string version ∧ isVersion version = true
  tags : ∃ tags : List PyString, member members "tags" = .array (tags.map .string) ∧
    ∀ tag ∈ tags, tag ≠ []

/-- No surrogate stands alone, no float is infinite, and the value is not too deep for the
serializer. -/
structure Storable (members : List (PyString × PyValue F)) : Prop where
  version : Clean runtime.floats (member members "version")
  value : Clean runtime.floats (member members "value")
  tags : Clean runtime.floats (member members "tags")
  shallow : (member members "value").depth ≤ runtime.guard

variable {runtime maxValueBytes}

theorem array_strings_inj {tags tags' : List PyString}
    (h : (Json.array (tags.map .string) : PyValue F) = .array (tags'.map .string)) :
    tags = tags' :=
  List.map_injective_iff.mpr (fun _ _ => Json.string.inj) (Json.array.inj h)

/-- The version and the tags of an accepted payload are what the encoder asks for. -/
theorem Accepts.valid {payload : Payload} {members : List (PyString × PyValue F)}
    (h : Accepts runtime maxValueBytes payload members) {version : PyString}
    {tags : List PyString} (hversion : member members "version" = .string version)
    (htags : member members "tags" = .array (tags.map .string)) :
    isVersion version = true ∧ ∀ tag ∈ tags, tag ≠ [] := by
  obtain ⟨version', heq, hvalid⟩ := h.version
  obtain ⟨tags', heq', hvalid'⟩ := h.tags
  rw [hversion] at heq
  rw [htags] at heq'
  rw [Json.string.inj heq, array_strings_inj heq']
  exact ⟨hvalid, hvalid'⟩

theorem decode_eq_ok_iff {payload : Payload} {r : DecodedRedisResource F} :
    decode runtime maxValueBytes payload = .ok r ↔ ∃ members,
      Accepts runtime maxValueBytes payload members ∧
        member members "version" = .string r.version ∧ member members "value" = r.value ∧
          member members "tags" = .array (r.tags.map .string) := by
  unfold decode
  rw [except_bind_ok]
  constructor
  · rintro ⟨text, htext, h⟩
    obtain ⟨decoded, hloads, h⟩ := except_bind_ok.mp h
    cases decoded with
    | object members =>
      obtain ⟨hfields, hschema, hversion, htags, hvalue⟩ := decodeMembers_eq_ok_iff.mp h
      refine ⟨members, ⟨⟨text, htext, catching_eq_ok.mp hloads⟩, hfields, hschema,
        ⟨r.version, hversion⟩, ⟨r.tags, htags⟩⟩, hversion.1, hvalue, htags.1⟩
    | null | bool | number | string | array => cases h
  · rintro ⟨members, haccepts, hversion, hvalue, htags⟩
    obtain ⟨text, htext, hloads⟩ := haccepts.text
    refine ⟨text, htext, except_bind_ok.mpr ⟨_, catching_eq_ok.mpr hloads, ?_⟩⟩
    obtain ⟨hvalid, hvalid'⟩ := haccepts.valid hversion htags
    exact decodeMembers_eq_ok_iff.mpr ⟨haccepts.fields, haccepts.schema, ⟨hversion, hvalid⟩,
      ⟨htags, hvalid'⟩, hvalue⟩

theorem encode_eq_ok_iff {resource : CachedResource V} {encoded : List UInt8} :
    encode runtime maxValueBytes resource = .ok encoded ↔
      isVersion resource.version = true ∧ (∀ tag ∈ resource.tags, tag ≠ []) ∧
        (∃ value, runtime.toJsonable resource.value = .ok value ∧
          dumps runtime.floats runtime.interpreter
            (.object (payloadMembers resource.version value resource.tags)) = .ok encoded) ∧
        encoded.length ≤ maxValueBytes := by
  unfold encode
  rw [except_bind_ok]
  constructor
  · rintro ⟨version, hversion, h⟩
    obtain ⟨tags, htags, h⟩ := except_bind_ok.mp h
    obtain ⟨written, hwritten, h⟩ := except_bind_ok.mp h
    obtain ⟨_, hsize, h⟩ := except_bind_ok.mp h
    cases h
    obtain ⟨heq, hvalid⟩ := validateVersion_eq_ok.mp hversion
    obtain ⟨heq', hvalid'⟩ := validateTags_eq_ok.mp htags
    refine ⟨Json.string.inj heq ▸ hvalid, array_strings_inj heq' ▸ hvalid', ?_,
      checkBytes_eq_ok.mp hsize⟩
    exact except_bind_ok.mp (catching_eq_ok.mp hwritten)
  · rintro ⟨hversion, htags, hwritten, hsize⟩
    refine ⟨resource.version, validateVersion_eq_ok.mpr ⟨rfl, hversion⟩, except_bind_ok.mpr ?_⟩
    refine ⟨resource.tags, validateTags_eq_ok.mpr ⟨rfl, htags⟩, except_bind_ok.mpr ?_⟩
    refine ⟨encoded, catching_eq_ok.mpr (except_bind_ok.mpr hwritten), except_bind_ok.mpr ?_⟩
    exact ⟨(), checkBytes_eq_ok.mpr hsize, rfl⟩

/-- What was written within the bound is decoded to what was written. -/
theorem decode_of_dumps {version : PyString} {value : PyValue F} {tags : List PyString}
    {encoded : List UInt8} (hversion : isVersion version = true) (htags : ∀ tag ∈ tags, tag ≠ [])
    (hdistinct : value.distinct = true) (hsize : encoded.length ≤ maxValueBytes)
    (h : dumps runtime.floats runtime.interpreter (.object (payloadMembers version value tags)) =
      .ok encoded) :
    decode runtime maxValueBytes (.bytes encoded) = .ok ⟨version, value, tags⟩ := by
  obtain ⟨text, rfl, hloads⟩ := loads_of_dumps h (distinct_payload hdistinct)
  refine except_bind_ok.mpr ⟨text, ?_, except_bind_ok.mpr ⟨_, catching_eq_ok.mpr hloads, ?_⟩⟩
  · refine except_bind_ok.mpr ⟨(), checkBytes_eq_ok.mpr hsize, catching_eq_ok.mpr ?_⟩
    rw [Utf8.decode_encode]
  · exact decodeMembers_payload hversion htags

theorem roundTrips : RoundTrips runtime maxValueBytes := by
  intro resource encoded h
  obtain ⟨hversion, htags, ⟨value, hvalue, hdumps⟩, hsize⟩ := encode_eq_ok_iff.mp h
  refine ⟨value, hvalue, ?_⟩
  exact decode_of_dumps hversion htags (runtime.distinct_toJsonable _ _ hvalue) hsize hdumps

theorem isCodecError_of_readText {payload : Payload} {e : PyException}
    (h : readText maxValueBytes payload = .error e) : e.isCodecError = true := by
  -- a payload that is too large is refused by the codec's own error
  have hsize : ∀ size, checkBytes maxValueBytes size = .error e → e.isCodecError = true := by
    intro size h
    unfold checkBytes at h
    split at h
    · cases h
      rfl
    · cases h
  cases payload with
  -- bytes are measured, then decoded; a text is encoded first, and measured then
  | bytes payload =>
    rcases except_bind_error.mp h with h | ⟨_, -, h⟩
    · exact hsize _ h
    · rw [catching_eq_error (fun e he => ?_) h]
      · rfl
      · split at he
        · cases he
        · cases he
          rfl
  | text payload =>
    rcases except_bind_error.mp h with h | ⟨text, -, h⟩
    · rw [catching_eq_error (fun e he => ?_) h]
      · rfl
      · split at he
        · cases he
        · cases he
          rfl
    · rcases except_bind_error.mp h with h | ⟨_, -, h⟩
      · exact hsize _ h
      · cases h

/-- Nothing but a codec error escapes. -/
theorem isCodecError_of_decode {payload : Payload} {e : PyException}
    (h : decode runtime maxValueBytes payload = .error e) : e.isCodecError = true := by
  rcases except_bind_error.mp h with h | ⟨text, -, h⟩
  · exact isCodecError_of_readText h
  · rcases except_bind_error.mp h with h | ⟨decoded, -, h⟩
    · rw [catching_eq_error (fun e he => isLoadsError_of_loads he) h]
      rfl
    · cases decoded with
      | object members => exact decodeMembers_error h
      | null | bool | number | string | array =>
        cases h
        rfl

/-- What `json.loads` says of the members of an accepted payload. -/
theorem Accepts.read {payload : Payload} {members : List (PyString × PyValue F)}
    (h : Accepts runtime maxValueBytes payload members) :
    (Json.object members).distinct = true ∧
      (Json.object members).depth ≤ runtime.interpreter.nesting ∧
        Spelled runtime.floats (.object members) := by
  obtain ⟨text, -, hloads⟩ := h.text
  obtain ⟨j, hread, hdepth, hdedupe⟩ := loads_eq_ok_iff.mp hloads
  refine ⟨?_, ?_, spelled_of_loads hloads⟩
  · rw [← hdedupe]
    exact Json.distinct_dedupe j
  · rw [← hdedupe]
    exact Nat.le_trans (Json.depth_dedupe_le j) hdepth

/-- An accepted payload gives a resource that can be encoded again exactly if it is storable. -/
theorem recoverable_iff {payload : Payload} {members : List (PyString × PyValue F)}
    (haccepts : Accepts runtime maxValueBytes payload members) {r : DecodedRedisResource F}
    (hversion : member members "version" = .string r.version)
    (hvalue : member members "value" = r.value)
    (htags : member members "tags" = .array (r.tags.map .string)) :
    Recoverable runtime r ↔ Storable runtime members := by
  have hvalid := haccepts.valid hversion htags
  obtain ⟨hdistinct, hdepth, hspelled⟩ := haccepts.read
  have hcleanTags : Clean runtime.floats (member members "tags") ↔ ∀ tag ∈ r.tags, IsText tag := by
    rw [htags, Clean, Json.Every, Json.itemsEvery_iff, List.forall_mem_map]
    exact Iff.rfl
  have hcleanVersion : Clean runtime.floats (member members "version") ↔ IsText r.version := by
    rw [hversion]
    exact Iff.rfl
  -- What can be read back was stored by `encode`, so its text could be written.
  constructor
  · rintro ⟨encoded, h⟩
    obtain ⟨hencode, hdecode⟩ := h encoded.length (Nat.le_refl _)
    obtain ⟨value, htoJsonable, hback⟩ := roundTrips _ _ hencode
    -- the value that is read is the one that was written
    have hsame : value = r.value := by
      rw [hback] at hdecode
      exact congrArg DecodedRedisResource.value (Except.ok.inj hdecode)
    obtain ⟨-, -, ⟨value', htoJsonable', hdumps⟩, -⟩ := encode_eq_ok_iff.mp hencode
    cases htoJsonable.symm.trans htoJsonable'
    obtain ⟨hversionText, hwritable, htagsText⟩ :=
      writable_payload_iff.mp (dumps_isOk_iff.mp ⟨_, hdumps⟩).2
    subst hsame
    have hclean : Clean runtime.floats r.value := clean_of_writable hwritable
    have hvalueDistinct : r.value.distinct = true := hvalue ▸ distinct_member hdistinct "value"
    -- the three parts of the payload are texts and values that JSON can carry
    refine ⟨hcleanVersion.mpr hversionText, ?_, hcleanTags.mpr htagsText, ?_⟩
    · rw [hvalue]
      exact hclean
    · rw [hvalue]
      exact (runtime.toJsonable_ofJson_iff r.value hvalueDistinct hclean).mp htoJsonable
  -- And conversely: what can be stored is encoded, under every bound that its text meets.
  · intro h
    have hvalueDistinct : r.value.distinct = true := hvalue ▸ distinct_member hdistinct "value"
    have htoJsonable : runtime.toJsonable (runtime.ofJson r.value) = .ok r.value :=
      (runtime.toJsonable_ofJson_iff _ hvalueDistinct (hvalue ▸ h.value)).mpr (hvalue ▸ h.shallow)
    have hwritable : Writable runtime.floats r.value :=
      writable_of_clean (hvalue ▸ every_member hspelled "value") (hvalue ▸ h.value)
    -- the payload is one level deeper than its value, and so was the payload that was read
    have hnesting : (Json.object (payloadMembers r.version r.value r.tags)).depth ≤
        runtime.interpreter.nesting := by
      have hvalueDepth := @depth_member_lt F members "value"
      have htagsDepth := @depth_member_lt F members "tags"
      rw [hvalue] at hvalueDepth
      rw [htags, Json.depth, itemsDepth_strings] at htagsDepth
      rw [depth_payload]
      omega
    obtain ⟨encoded, hdumps⟩ := dumps_isOk_iff.mpr ⟨hnesting, writable_payload_iff.mpr
      ⟨hcleanVersion.mp h.version, hwritable, hcleanTags.mp h.tags⟩⟩
    refine ⟨encoded, fun bound hbound => ⟨?_, ?_⟩⟩
    · exact encode_eq_ok_iff.mpr ⟨hvalid.1, hvalid.2, ⟨r.value, htoJsonable, hdumps⟩, hbound⟩
    · exact decode_of_dumps hvalid.1 hvalid.2 hvalueDistinct hbound hdumps

/-- The encoder's own payloads are always separated from the rest; a payload from elsewhere is, if
the members that pass the checks are storable. -/
theorem separated_iff_storable (payload : Payload) :
    (RoundTrips runtime maxValueBytes ∧ Separated runtime maxValueBytes payload) ↔
      ∀ members, Accepts runtime maxValueBytes payload members → Storable runtime members := by
  rw [and_iff_right roundTrips, Separated]
  constructor
  · intro h members haccepts
    obtain ⟨version, hversion, -⟩ := haccepts.version
    obtain ⟨tags, htags, -⟩ := haccepts.tags
    have hdecoded : decode runtime maxValueBytes payload =
        .ok ⟨version, member members "value", tags⟩ :=
      decode_eq_ok_iff.mpr ⟨members, haccepts, hversion, rfl, htags⟩
    rw [hdecoded] at h
    exact (recoverable_iff haccepts hversion rfl htags).mp h
  · intro h
    split
    · next e he => exact isCodecError_of_decode he
    · next r hr =>
      obtain ⟨members, haccepts, hversion, hvalue, htags⟩ := decode_eq_ok_iff.mp hr
      exact (recoverable_iff haccepts hversion hvalue htags).mpr (h members haccepts)

end RoundTrip

/-- JSON values are their own form on the wire, nested as deep as the serializer allows. -/
def jsonRuntime : Runtime (PyValue Unit) Unit where
  floats :=
    { parse := fun _ => ()
      repr := fun _ => "0.0".toList
      isFinite := fun _ => true
      isOne := fun _ => false
      isNumber_repr := fun _ _ => by decide
      isFloat_repr := fun _ _ => by decide
      parse_repr := fun _ _ => rfl }
  interpreter := ⟨1000, by decide⟩
  toJsonable j := if j.distinct = true ∧ j.depth ≤ 255 then .ok j else .error .valueError
  ofJson j := j
  guard := 255
  distinct_toJsonable v j h := by
    split at h
    · next hv =>
      cases h
      exact hv.1
    · cases h
  toJsonable_ofJson_iff j hdistinct _ := by
    constructor
    · intro h
      by_contra hdeep
      rw [if_neg fun hboth => hdeep hboth.2] at h
      cases h
    · exact fun hdepth => if_pos ⟨hdistinct, hdepth⟩

/-- A payload whose value is a surrogate that stands alone, spelled by an escape. -/
def surrogatePayload : List Char :=
  "\x7b\"schema\":1,\"version\":\"v\",\"value\":\"\\ud800\",\"tags\":[]\x7d".toList

def surrogateMembers : List (PyString × PyValue Unit) :=
  payloadMembers (points "v") (.string [0xd800]) []

theorem loads_surrogatePayload :
    loads jsonRuntime.floats jsonRuntime.interpreter surrogatePayload =
      .ok (.object surrogateMembers) := by
  have hlex : Json.lex (lexicon jsonRuntime.floats) surrogatePayload =
      some (Json.object surrogateMembers).tokens := by decide
  have hread : Json.read (lexicon jsonRuntime.floats) surrogatePayload =
      some (.object surrogateMembers) := by
    rw [Json.read, hlex, Option.bind_some, Json.parse_tokens]
  refine loads_eq_ok_iff.mpr ⟨_, hread, by decide, Json.dedupe_of_distinct _ ?_⟩
  exact distinct_payload rfl

/-- An escape can spell a surrogate that stands alone: the decoder lets it through, and the encoder
cannot write it. -/
theorem not_separated_surrogate : ¬ Separated jsonRuntime 1024
    (.bytes (Utf8.encode surrogatePayload)) := by
  have hdecoded : decode jsonRuntime 1024 (.bytes (Utf8.encode surrogatePayload)) =
      .ok ⟨points "v", .string [0xd800], []⟩ := by
    refine except_bind_ok.mpr ⟨surrogatePayload, ?_, except_bind_ok.mpr ?_⟩
    · refine except_bind_ok.mpr ⟨(), checkBytes_eq_ok.mpr (by decide), catching_eq_ok.mpr ?_⟩
      rw [Utf8.decode_encode]
    · exact ⟨_, catching_eq_ok.mpr loads_surrogatePayload,
        decodeMembers_payload (by decide) nofun⟩
  rw [Separated, hdecoded]
  rintro ⟨encoded, h⟩
  obtain ⟨-, -, ⟨value, hvalue, hdumps⟩, -⟩ :=
    encode_eq_ok_iff.mp (h encoded.length (Nat.le_refl _)).1
  cases hvalue
  have htext : IsText [0xd800] :=
    (writable_payload_iff.mp (dumps_isOk_iff.mp ⟨_, hdumps⟩).2).2.1
  exact absurd (htext 0xd800 List.mem_cons_self) (by decide)

end FluxFast.Server.RedisCachePayload
