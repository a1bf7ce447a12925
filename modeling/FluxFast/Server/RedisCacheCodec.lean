import FluxFast.Server.PyText
import FluxFast.Server.RedisCache

/-!
# RedisCacheCodec — the payload of a resource

`RedisResourceCodec` of `_redis_cache_codec.py`: one JSON object with the schema number, the version,
the value and the tags.  A payload is its UTF-8 text.  `json.dumps`, `json.loads` and the conversion
of Python values to and from JSON are parameters; `JsonLibrary.Reads` is what `json` promises.
-/

namespace FluxFast.Server

/-- What `json.loads` returns.  A float is its exact value; minus zero is apart. -/
inductive PyJson where
  | null
  | bool (b : Bool)
  | int (n : Int)
  | float (x : ℚ)
  | minusZero
  | str (s : String)
  | list (items : List PyJson)
  | dict (fields : List (String × PyJson))

/-- `json`, and `to_jsonable` with the Python value that a JSON value is. -/
structure JsonLibrary (V : Type) where
  dumps : PyJson → Option String
  loads : String → Option PyJson
  toJsonable : V → Option PyJson
  ofJson : PyJson → V

/-- What was written is read back. -/
def JsonLibrary.Reads {V : Type} (lib : JsonLibrary V) : Prop :=
  ∀ j text, lib.dumps j = some text → lib.loads text = some j

/-- The value is its own representation on the wire. -/
def JsonLibrary.OnWire {V : Type} (lib : JsonLibrary V) (value : V) : Prop :=
  ∀ j, lib.toJsonable value = some j → lib.ofJson j = value

/-! ## Checks -/

def redisCacheSchema : Int := 1

def payloadFields : List String := ["schema", "version", "value", "tags"]

def maxVersionLength : Nat := 128

/-- `_validate_version`; `none` stands for a value that is no string. -/
def validVersion : Option String → Bool
  | none => false
  | some version =>
    version.toList.any (fun c => !isStripped c) && version.length ≤ maxVersionLength

def validateVersion (version : Option String) : Except String Unit :=
  if validVersion version then .ok ()
  else .error ("Redis cache entry version must be a non-empty string " ++
    "of at most 128 characters")

/-- `_validate_tags` on a list of strings. -/
def validTags (tags : List String) : Bool := tags.all (· ≠ "")

def validateTags (tags : List String) : Except String Unit :=
  if validTags tags then .ok ()
  else .error "Redis cache entry tags must be a list of non-empty strings"

/-- `_check_size`. -/
def checkSize (maxValueBytes : Nat) (text : String) : Except String Unit :=
  if maxValueBytes < text.utf8ByteSize then
    .error ("Redis cache entry exceeds " ++ toString maxValueBytes ++ " bytes")
  else .ok ()

namespace PyJson

def str? : PyJson → Option String
  | .str s => some s
  | _ => none

/-- `decoded["tags"]` as a list of strings. -/
def strings? : PyJson → Option (List String)
  | .list items => items.mapM str?
  | _ => none

/-- `decoded["schema"] == REDIS_CACHE_SCHEMA`, and no boolean. -/
def isSchema : PyJson → Bool
  | .int n => n = redisCacheSchema
  | .float x => x = redisCacheSchema
  | _ => false

def field (fields : List (String × PyJson)) (name : String) : PyJson :=
  (fields.lookup name).getD .null

theorem mapM_str (tags : List String) : (tags.map str).mapM str? = some tags := by
  induction tags with
  | nil => rfl
  | cons tag tags ih =>
    rw [List.map_cons, List.mapM_cons, ih]
    rfl

end PyJson

/-! ## The codec -/

section Codec

variable {V : Type} (lib : JsonLibrary V) (maxValueBytes : Nat)

def payloadOf (version : String) (value : PyJson) (tags : List String) : PyJson :=
  .dict [("schema", .int redisCacheSchema), ("version", .str version), ("value", value),
    ("tags", .list (tags.map .str))]

def encode (version : String) (value : V) (tags : List String) : Except String String := do
  validateVersion (some version)
  validateTags tags
  match (lib.toJsonable value).bind fun j => lib.dumps (payloadOf version j tags) with
  | none => throw "resource value cannot be encoded as safe JSON"
  | some encoded =>
    checkSize maxValueBytes encoded
    return encoded

def decode (payload : String) : Except String (String × V × List String) := do
  -- the size first, before anything is parsed
  checkSize maxValueBytes payload
  match lib.loads payload with
  | none => throw "Redis cache entry is not valid JSON"
  | some (.dict fields) =>
    -- exactly the four fields, in any order
    if (fields.map Prod.fst).all (· ∈ payloadFields) && payloadFields.all (· ∈ fields.map Prod.fst) then
      if (PyJson.field fields "schema").isSchema then
        let version := (PyJson.field fields "version").str?
        let tags := (PyJson.field fields "tags").strings?
        -- `validateVersion` refuses what is no string
        validateVersion version
        match tags with
        | none => throw "Redis cache entry tags must be a list of non-empty strings"
        | some tags =>
          validateTags tags
          return (version.getD "", lib.ofJson (PyJson.field fields "value"), tags)
      else throw "Redis cache entry has an unknown schema"
    else throw "Redis cache entry has missing or unsupported fields"
  | some _ => throw "Redis cache entry must be a JSON object"

def jsonCodec : RedisResourceCodec V String where
  encode := encode lib maxValueBytes
  decode := decode lib maxValueBytes

variable {lib maxValueBytes} {version payload : String} {value : V} {tags : List String}

/-- What an accepted entry passed. -/
theorem encode_eq_ok (h : encode lib maxValueBytes version value tags = .ok payload) :
    -- The checks of `encode` in their order; each of them has passed.
    validateVersion (some version) = .ok () ∧ validateTags tags = .ok () ∧
      checkSize maxValueBytes payload = .ok () ∧
      ∃ j, lib.toJsonable value = some j ∧ lib.dumps (payloadOf version j tags) = some payload := by
  unfold encode at h
  cases hversion : validateVersion (some version) with
  | error message =>
    rw [hversion] at h
    cases h
  | ok u =>
    cases htags : validateTags tags with
    | error message =>
      rw [hversion, htags] at h
      cases h
    | ok u' =>
      rw [hversion, htags] at h
      cases hencoded : (lib.toJsonable value).bind
          fun j => lib.dumps (payloadOf version j tags) with
      | none =>
        rw [hencoded] at h
        cases h
      | some encoded =>
        rw [hencoded] at h
        cases hsize : checkSize maxValueBytes encoded with
        | error message =>
          simp only [hsize] at h
          cases h
        | ok u'' =>
          simp only [hsize] at h
          cases h
          exact ⟨rfl, rfl, hsize, Option.bind_eq_some_iff.mp hencoded⟩

/-- An accepted entry is read back as it was written, with its value in the form of the wire. -/
theorem decode_encode (hreads : lib.Reads) (hwire : lib.OnWire value)
    (h : encode lib maxValueBytes version value tags = .ok payload) :
    decode lib maxValueBytes payload = .ok (version, value, tags) := by
  obtain ⟨hversion, htags, hsize, j, hj, hdumps⟩ := encode_eq_ok h
  have hfields : (PyJson.field [("schema", .int redisCacheSchema), ("version", .str version),
      ("value", j), ("tags", .list (tags.map .str))] "tags").strings? = some tags :=
    PyJson.mapM_str tags
  unfold decode
  rw [hsize, hreads _ _ hdumps]
  show Except.bind (validateVersion (some version)) _ = _
  rw [hversion]
  show (match PyJson.strings? (PyJson.field _ "tags") with | none => _ | some tags => _) = _
  rw [hfields]
  show Except.bind (validateTags tags) _ = _
  rw [htags]
  show Except.ok (version, lib.ofJson j, tags) = _
  rw [hwire j hj]

end Codec

end FluxFast.Server
