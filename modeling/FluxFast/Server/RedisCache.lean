import FluxFast.Server.MemoryCache
import FluxFast.Server.RedisKeyspace
import FluxFast.Theory.Double
import FluxFast.Theory.Redis
import FluxFast.Theory.Runs

/-!
# RedisCache — the shared resource cache

`RedisResourceCache` of `redis_cache.py`.  Its three scripts run atomically in the server, at one
reading of the server's clock.  Lifetimes are doubles; the numbers of the scripts and the scores of
the indexes are exact integers, in milliseconds.  The codec of the payloads is a parameter.
-/

namespace FluxFast.Server

open FluxFast.Theory

/-! ## The scripts -/

/-- `string.sub(text, 1, string.len(before)) == before`. -/
def hasPrefix (before text : String) : Bool := before.toList.isPrefixOf text.toList

/-- `string.sub(text, string.len(before) + 1)`. -/
def dropPrefix (before text : String) : String := String.ofList (text.toList.drop before.length)

section Scripts

variable {B : Type}

/-- Drop the expired members of an index and let it live as long as its last member. -/
def refreshTag (now : Nat) (db : Redis B) (tagKey : String) : Redis B :=
  let db := db.zremrangebyscore tagKey now
  match db.zlast tagKey with
  | none => db.del tagKey
  | some score => db.pexpireat now tagKey score

/-- The body of the loop over the old tags of a resource, which every script has. -/
def leaveTag (now : Nat) (tagPrefix resourceKey : String) (db : Redis B) (tagKey : String) :
    Redis B :=
  if hasPrefix tagPrefix tagKey then refreshTag now (db.zrem tagKey resourceKey) tagKey else db

def leaveTags (now : Nat) (tagPrefix resourceKey membershipKey : String) (db : Redis B) : Redis B :=
  (db.smembers membershipKey).foldl (leaveTag now tagPrefix resourceKey) db

/-- The body of the loop over the new tags. -/
def joinTag (now expiresAt : Nat) (resourceKey membershipKey : String) (db : Redis B)
    (tagKey : String) : Redis B :=
  let db := db.zremrangebyscore tagKey now
  let db := db.zadd tagKey expiresAt resourceKey
  let db := db.sadd membershipKey tagKey
  refreshTag now db tagKey

/-- `_SET_WITH_TAGS_SCRIPT`. -/
def setWithTags (now : Nat) (tagPrefix resourceKey membershipKey : String) (tagKeys : List String)
    (payload : B) (ttlMs : Nat) (db : Redis B) : Redis B :=
  let expiresAt := now + ttlMs
  let db := leaveTags now tagPrefix resourceKey membershipKey db
  let db := db.set resourceKey payload expiresAt
  let db := db.del membershipKey
  let db := tagKeys.foldl (joinTag now expiresAt resourceKey membershipKey) db
  if tagKeys = [] then db else db.pexpireat now membershipKey expiresAt

/-- `_DELETE_WITH_TAGS_SCRIPT`. -/
def deleteWithTags (now : Nat) (tagPrefix resourceKey membershipKey : String) (db : Redis B) :
    Redis B :=
  let db := leaveTags now tagPrefix resourceKey membershipKey db
  (db.del resourceKey).del membershipKey

/-- The body of the loop over the resources of an invalidated tag. -/
def removeResource (now : Nat) (resourcePrefix membershipPrefix tagPrefix : String) (db : Redis B)
    (resourceKey : String) : Redis B :=
  if hasPrefix resourcePrefix resourceKey then
    let membershipKey := membershipPrefix ++ dropPrefix resourcePrefix resourceKey
    let db := leaveTags now tagPrefix resourceKey membershipKey db
    (db.del resourceKey).del membershipKey
  else db

/-- `_INVALIDATE_TAG_SCRIPT`. -/
def invalidateTagScript (now : Nat) (resourcePrefix membershipPrefix tagPrefix targetTagKey : String)
    (db : Redis B) : Redis B :=
  let db := db.zremrangebyscore targetTagKey now
  let resourceKeys := db.zmembers targetTagKey
  let db := resourceKeys.foldl (removeResource now resourcePrefix membershipPrefix tagPrefix) db
  db.del targetTagKey

end Scripts

/-! ## The cache -/

/-- `RedisResourceCodec`; an error is the message of the codec error. -/
structure RedisResourceCodec (V B : Type) where
  encode : String → V → List String → Except String B
  decode : B → Except String (String × V × List String)

/-- `_normalize_ttl_ms`. -/
def normalizeTtlMs (ttl : Double) : Option Nat :=
  if ttl ≤ 0 then none else some (max 1 ⌈(ttl * .round 1000).value⌉.toNat)

structure RedisResourceCache (V B : Type) where
  keyspace : RedisCacheKeyspace
  codec : RedisResourceCodec V B
  blake2b : List UInt8 → String

namespace RedisResourceCache

variable {V B : Type} (c : RedisResourceCache V B)

/-- `_delete_resource`, on a server at the time `now`. -/
def deleteResource (now : Nat) (key : String) (db : Redis B) : Except String (Redis B) := do
  let resourceKey ← c.keyspace.resourceKey c.blake2b key
  let membershipKey ← c.keyspace.resourceTagsKey c.blake2b key
  return deleteWithTags now c.keyspace.tagPrefix resourceKey membershipKey (db.purge now)

/-- The key in Redis, the membership key and the tag keys of one resource. -/
def scriptKeys (key : String) (tags : List String) :
    Except String (String × String × List String) := do
  let resourceKey ← c.keyspace.resourceKey c.blake2b key
  let membershipKey ← c.keyspace.resourceTagsKey c.blake2b key
  let tagKeys ← tags.mapM (c.keyspace.tagKey c.blake2b)
  return (resourceKey, membershipKey, unique tagKeys)

def set (now : Nat) (key : String) (resource : CachedResource V Double) (ttl : Double) (db : Redis B) :
    Except String (Redis B) := do
  let _ ← c.keyspace.resourceKey c.blake2b key
  match normalizeTtlMs ttl with
  | none => c.deleteResource now key db
  | some ttlMs =>
    match c.codec.encode resource.version resource.value resource.tags with
    | .error message => throw message
    | .ok payload =>
      let (resourceKey, membershipKey, tagKeys) ← c.scriptKeys key resource.tags
      return setWithTags now c.keyspace.tagPrefix resourceKey membershipKey tagKeys payload ttlMs
        (db.purge now)

def delete (now : Nat) (key : String) (db : Redis B) : Except String (Redis B) :=
  c.deleteResource now key db

def invalidateTag (now : Nat) (tag : String) (db : Redis B) : Except String (Redis B) := do
  let tagKey ← c.keyspace.tagKey c.blake2b tag
  return invalidateTagScript now c.keyspace.resourcePrefix c.keyspace.resourceTagsPrefix
    c.keyspace.tagPrefix tagKey (db.purge now)

/-- `GET` and `PTTL` in one transaction at `now`; `monotonic` is the reading of the local clock. -/
def get (now : Nat) (monotonic : Double) (key : String) (db : Redis B) :
    Except String (Redis B × Option (CachedResource V Double)) := do
  let resourceKey ← c.keyspace.resourceKey c.blake2b key
  match (db.purge now).strings resourceKey with
  | none => return (db.purge now, none)
  | some stored =>
    let ttlMs := (stored.expiresAt.getD 0 : Int) - now
    if ttlMs ≤ 0 then return (← c.deleteResource now key db, none)
    else
      match c.codec.decode stored.value with
      | .error _ => return (← c.deleteResource now key db, none)
      | .ok (version, value, tags) =>
        let expiresAt := monotonic + .round (ttlMs / 1000)
        return (db.purge now, some { version, value, expiresAt, tags })

end RedisResourceCache

end FluxFast.Server
