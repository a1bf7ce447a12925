import FluxFast.Server.MemoryCacheInvariant
import FluxFast.Server.RedisCacheCodec
import FluxFast.Server.RedisCluster
import Mathlib.Data.List.Infix

/-!
# CacheAgreement — the memory cache and the Redis cache

The same calls on both caches, one after the other, at the readings of one millisecond clock.  Both
keep a shelf of leases: the memory cache as long as it is not full, the Redis cache for entries that
its codec reads back.  The deadlines of the one are sums of doubles, those of the other are products
of doubles rounded up to milliseconds; both track the exact ones, but for the millisecond in which a
lease ends.
-/

namespace FluxFast.Server

open FluxFast.Theory

/-- A lifetime in seconds. -/
def seconds (ms : Int) : Double := .round (ms / 1000)

/-- Milliseconds for nine thousand years. -/
def clockLimit : Nat := 2 ^ 48

/-- `time`, on a clock that is read to an eighth of a millisecond. -/
structure MillisecondClock where
  monotonic : Nat → Double
  close : ∀ ms < clockLimit, |(monotonic ms).value * 1000 - ms| ≤ 1 / 8

inductive CacheCall (V : Type) where
  | advance (ms : Nat)
  | get (key : String)
  | set (key : String) (resource : CachedResource V Double) (ttlMs : Int)
  | delete (key : String)
  | invalidateTag (tag : String)

namespace CacheCall

variable {V : Type} (time : MillisecondClock)

def clock (now : Nat) : CacheCall V → Nat
  | .advance ms => now + ms
  | _ => now

/-- One call on the memory cache, with what it returns if it is a `get`. -/
def onMemory (now : Nat) (m : MemoryResourceCache V Double) :
    CacheCall V → MemoryResourceCache V Double × List (Option (CachedResource V Double))
  | .advance _ => (m, [])
  | .get key =>
    let (m, answer) := m.get (time.monotonic now) key
    (m, [answer])
  | .set key resource ttlMs => (m.set (time.monotonic now) key resource (seconds ttlMs), [])
  | .delete key => (m.delete key, [])
  | .invalidateTag tag => (m.invalidateTag tag, [])

/-- The same on the Redis cache. -/
def onRedis {B : Type} (c : RedisResourceCache V B) (now : Nat) (db : Redis B) :
    CacheCall V → Except String (Redis B × List (Option (CachedResource V Double)))
  | .advance _ => .ok (db, [])
  | .get key => do
    let (db, answer) ← c.get now (time.monotonic now) key db
    return (db, [answer])
  | .set key resource ttlMs => do return (← c.set now key resource (seconds ttlMs) db, [])
  | .delete key => do return (← c.delete now key db, [])
  | .invalidateTag tag => do return (← c.invalidateTag now tag db, [])

/-- All calls in turn: the cache, the clock and the answers of the `get` calls. -/
def runMemory (now : Nat) (m : MemoryResourceCache V Double) : List (CacheCall V) →
    MemoryResourceCache V Double × Nat × List (Option (CachedResource V Double))
  | [] => (m, now, [])
  | call :: calls =>
    let (m, answer) := call.onMemory time now m
    let (m, now, answers) := runMemory (call.clock now) m calls
    (m, now, answer ++ answers)

def runRedis {B : Type} (c : RedisResourceCache V B) (now : Nat) (db : Redis B) :
    List (CacheCall V) → Except String (Redis B × Nat × List (Option (CachedResource V Double)))
  | [] => .ok (db, now, [])
  | call :: calls => do
    let (db, answer) ← call.onRedis time c now db
    let (db, now, answers) ← runRedis c (call.clock now) db calls
    return (db, now, answer ++ answers)

/-- Keys and tags are not empty, and what is written is accepted by the codec and is its own
representation on the wire. -/
def Accepted (lib : JsonLibrary V) (maxValueBytes : Nat) : CacheCall V → Prop
  | .advance _ => True
  | .get key | .delete key => key ≠ ""
  | .set key resource ttlMs => key ≠ "" ∧ ttlMs < clockLimit ∧ lib.OnWire resource.value ∧
      ∃ payload, encode lib maxValueBytes resource.version resource.value resource.tags = .ok payload
  | .invalidateTag tag => tag ≠ ""

/-- Neither `ttl * 1000` nor `time.monotonic() + ttl` is rounded up past the whole millisecond. -/
def Sharp (now ttlMs : Nat) : Prop :=
  (seconds ttlMs * .round 1000).value ≤ ttlMs ∧
    time.monotonic now + seconds ttlMs ≤ time.monotonic (now + ttlMs)

instance (now ttlMs : Nat) : Decidable (Sharp time now ttlMs) := inferInstanceAs (Decidable (_ ∧ _))

/-- The key and the millisecond in which its lifetime ends, where the end is not sharp. -/
def edges (now : Nat) : CacheCall V → List (String × Nat)
  | .set key _ ttlMs =>
    if 0 < ttlMs ∧ ¬Sharp time now ttlMs.toNat then [(key, now + ttlMs.toNat)] else []
  | _ => []

def runEdges (now : Nat) : List (CacheCall V) → List (String × Nat)
  | [] => []
  | call :: calls => call.edges time now ++ runEdges (call.clock now) calls

/-- No `get` of a key comes at an edge of it. -/
def Clear (known : List (String × Nat)) (now : Nat) : List (CacheCall V) → Prop
  | [] => True
  | call :: calls =>
    (∀ key, call = .get key → (key, now) ∉ known) ∧
      Clear (known ++ call.edges time now) (call.clock now) calls

/-- Version, value and tags of an answer. -/
def seen (answer : Option (CachedResource V Double)) : Option ((String × V) × List String) :=
  answer.map fun entry => ((entry.version, entry.value), entry.tags)

end CacheCall

/-! ## The memory cache keeps a shelf -/

namespace MemoryResourceCache

section Shelf

variable {V T : Type} {m : MemoryResourceCache V T} {bound : Int}

/-- Everything that is stored. -/
def shelf (m : MemoryResourceCache V T) : Shelf String (String × V) String T :=
  fun key => (m.cache.get? key).map CachedResource.lease

theorem shelf_removeInternal (m : MemoryResourceCache V T) (key : String) :
    (m.removeInternal key).shelf = m.shelf.drop key := by
  funext k
  show ((m.removeInternal key).cache.get? k).map _ = Function.update m.shelf key none k
  rw [cache_removeInternal, OrderedMap.get?_delete]
  by_cases hk : k = key
  · subst hk
    simp
  · simp [hk, shelf]

theorem get?_filter_entries {p : CachedResource V T → Bool} {m' : MemoryResourceCache V T}
    (h : m'.cache.entries = m.cache.entries.filter fun e => p e.2) (key : String) :
    m'.cache.get? key = (m.cache.get? key).filter p := by
  ext entry
  rw [OrderedMap.get?_eq_some_iff, h, List.mem_filter, Option.filter_eq_some_iff,
    OrderedMap.get?_eq_some_iff]

theorem shelf_invalidateTag (h : Sound bound m) (tag : String) :
    (m.invalidateTag tag).shelf = m.shelf.dropTag tag := by
  funext k
  show ((m.invalidateTag tag).cache.get? k).map _ = ((m.cache.get? k).map _).filter _
  rw [get?_filter_entries (p := fun e => tag ∉ e.tags) (entries_invalidateTag (h.indexes tag))]
  cases m.cache.get? k with
  | none => rfl
  | some entry =>
    rw [Option.map_some, Option.filter_some, Option.filter_some]
    show Option.map _ (if decide (tag ∉ entry.tags) = true then _ else _) =
      if decide (tag ∉ entry.tags) = true then _ else _
    split
    · rfl
    · rfl

variable [LinearOrder T]

/-- What a `get` returns is what is alive on the shelf. -/
theorem get_eq_alive (m : MemoryResourceCache V T) (now : T) (key : String) :
    ((m.get now key).2).map CachedResource.lease = m.shelf.alive now key ∧
      Shelf.Agree now (m.get now key).1.shelf m.shelf := by
  rcases get_cases m now key with ⟨hnone, hmiss⟩ | ⟨entry, hentry, hle, hexpired⟩ |
    ⟨entry, hentry, hlt, hhit⟩
  · rw [hmiss, Shelf.alive, shelf, hnone]
    exact ⟨rfl, fun _ => rfl⟩
  · have hdead : m.shelf.alive now key = none := by
      rw [Shelf.alive, shelf, hentry, Option.map_some, Option.filter_some]
      exact if_neg fun h => absurd (of_decide_eq_true h) (not_lt.mpr hle)
    rw [hexpired, shelf_removeInternal, hdead]
    refine ⟨rfl, fun k => ?_⟩
    by_cases hk : k = key
    · subst hk
      rw [hdead]
      simp [Shelf.alive, Shelf.drop]
    · simp [Shelf.alive, Shelf.drop, hk]
  · rw [hhit]
    refine ⟨?_, fun k => ?_⟩
    · refine (Shelf.alive_eq_some_iff.mpr ⟨?_, hlt⟩).symm
      rw [shelf, hentry]
      rfl
    · show Shelf.alive (fun k => ((m.cache.moveToEnd key).get? k).map _) now k = _
      simp only [OrderedMap.get?_moveToEnd]
      rfl

variable [Add T] [Zero T]

theorem shelf_set (h : Sound bound m) (hroom : (m.cache.size : Int) < bound) (now : T)
    (key : String) (resource : CachedResource V T) {ttl : T} (httl : ¬ttl ≤ 0) :
    (m.set now key resource ttl).shelf =
      m.shelf.put key ⟨(resource.version, resource.value), resource.tags, now + ttl⟩ := by
  have hentries := entries_set h now key resource httl
  have hsize : ((m.cache.delete key).size : Int) < bound := by
    have hle := OrderedMap.size_delete_le m.cache key
    omega
  rw [if_pos hsize] at hentries
  have hget : ∀ k, (m.set now key resource ttl).cache.get? k =
      ((m.cache.delete key).set key { resource with expiresAt := now + ttl }).get? k := by
    intro k
    have hnot : key ∉ (m.cache.delete key).keys :=
      fun hmem => (OrderedMap.mem_keys_delete.mp hmem).1 rfl
    have hsame : (m.set now key resource ttl).cache.entries =
        ((m.cache.delete key).set key { resource with expiresAt := now + ttl }).entries := by
      rw [hentries, OrderedMap.set, dif_neg hnot]
    ext entry
    rw [OrderedMap.get?_eq_some_iff, OrderedMap.get?_eq_some_iff, hsame]
  funext k
  show ((m.set now key resource ttl).cache.get? k).map _ = Function.update m.shelf key (some _) k
  rw [hget, OrderedMap.get?_set, OrderedMap.get?_delete]
  by_cases hk : k = key
  · subst hk
    simp [CachedResource.lease]
  · simp [hk, shelf]

end Shelf

end MemoryResourceCache

/-! ## The Redis cache keeps a shelf -/

namespace Cluster

section Live

variable {V B : Type} {c : RedisResourceCache V B} {now : Nat} {db db' : Redis B} {key k : String}

theorem live_later {later : Nat} (hle : now ≤ later) (db : Redis B) (r : String) :
    live later db r = (live now db r).filter fun x => later < x.2 := by
  ext ⟨value, mark⟩
  rw [Option.filter_eq_some_iff, live_eq_some_iff, live_eq_some_iff]
  constructor
  · rintro ⟨x, hx, hvalue, hmark, hlt⟩
    exact ⟨⟨x, hx, hvalue, hmark, hle.trans_lt hlt⟩, decide_eq_true hlt⟩
  · rintro ⟨⟨x, hx, hvalue, hmark, -⟩, hlt⟩
    exact ⟨x, hx, hvalue, hmark, of_decide_eq_true hlt⟩

theorem live_of_strings {r : String} (h : db'.strings r = db.strings r) :
    live now db' r = live now db r := by
  rw [live, live, h]

variable (hblake : Function.Injective c.blake2b)
include hblake

theorem live_deleteWithTags (husable : Usable now c.keyspace.tagPrefix db) :
    live now (deleteWithTags now c.keyspace.tagPrefix (payloadKey c k) (membershipKey c k) db)
      (payloadKey c key) = if key = k then none else live now db (payloadKey c key) := by
  split
  · next heq =>
    subst heq
    have hne : payloadKey c key ≠ membershipKey c key := c.keyspace.key_ne (by decide) _ _
    have hnone : (deleteWithTags now c.keyspace.tagPrefix (payloadKey c key) (membershipKey c key)
        db).strings (payloadKey c key) = none :=
      (Function.update_of_ne hne _ _).trans (Function.update_self _ _ _)
    rw [live, hnone]
    rfl
  · next hne =>
    exact live_of_strings (spares_deleteWithTags husable (digest_ne hblake hne)).string

theorem live_setWithTags (husable : Usable now c.keyspace.tagPrefix db) (tags : List String)
    (payload : B) {ttlMs : Nat} (httl : 0 < ttlMs) :
    live now (setWithTags now c.keyspace.tagPrefix (payloadKey c k) (membershipKey c k)
      (tagKeysOf c tags) payload ttlMs db) (payloadKey c key) =
      if key = k then some (payload, now + ttlMs) else live now db (payloadKey c key) := by
  split
  · next heq =>
    subst heq
    refine live_eq_some_iff.mpr ⟨_, strings_setWithTags payload now _ hasPrefix_tagKeysOf ttlMs db,
      rfl, rfl, ?_⟩
    omega
  · next hne =>
    exact live_of_strings (spares_setWithTags payload husable hasPrefix_tagKeysOf httl
      (digest_ne hblake hne)).string

end Live

/-! ## Calls that raise no error -/

section Success

variable {V B : Type} (c : RedisResourceCache V B) (now : Nat) (db : Redis B) {key tag : String}

theorem deleteResource_of_ne (hkey : key ≠ "") :
    c.deleteResource now key db = .ok (deleteWithTags now c.keyspace.tagPrefix (payloadKey c key)
      (membershipKey c key) (db.purge now)) := by
  unfold RedisResourceCache.deleteResource
  rw [RedisCacheKeyspace.resourceKey_of_ne hkey, RedisCacheKeyspace.resourceTagsKey_of_ne hkey]
  rfl

theorem invalidateTag_of_ne (htag : tag ≠ "") :
    c.invalidateTag now tag db = .ok (invalidateTagScript now c.keyspace.resourcePrefix
      c.keyspace.resourceTagsPrefix c.keyspace.tagPrefix (tagKey c tag) (db.purge now)) := by
  unfold RedisResourceCache.invalidateTag
  rw [RedisCacheKeyspace.tagKey_of_ne htag]
  rfl

theorem mapM_tagKey_of_ne {tags : List String} (htags : ∀ tag ∈ tags, tag ≠ "") :
    tags.mapM (c.keyspace.tagKey c.blake2b) = .ok (tags.map (tagKey c)) := by
  induction tags with
  | nil => rfl
  | cons tag tags ih =>
    rw [List.mapM_cons, RedisCacheKeyspace.tagKey_of_ne (htags tag List.mem_cons_self),
      ih fun t ht => htags t (List.mem_cons_of_mem _ ht)]
    rfl

theorem scriptKeys_of_ne (hkey : key ≠ "") {tags : List String} (htags : ∀ tag ∈ tags, tag ≠ "") :
    c.scriptKeys key tags = .ok (payloadKey c key, membershipKey c key, tagKeysOf c tags) := by
  unfold RedisResourceCache.scriptKeys
  rw [RedisCacheKeyspace.resourceKey_of_ne hkey, RedisCacheKeyspace.resourceTagsKey_of_ne hkey,
    mapM_tagKey_of_ne c htags]
  rfl

variable {resource : CachedResource V Double} {ttl : Double}

theorem set_of_no_lifetime (hkey : key ≠ "") (httl : normalizeTtlMs ttl = none) :
    c.set now key resource ttl db = .ok (deleteWithTags now c.keyspace.tagPrefix
      (payloadKey c key) (membershipKey c key) (db.purge now)) := by
  unfold RedisResourceCache.set
  rw [RedisCacheKeyspace.resourceKey_of_ne hkey, httl]
  exact deleteResource_of_ne c now db hkey

theorem set_of_lifetime (hkey : key ≠ "") (htags : ∀ tag ∈ resource.tags, tag ≠ "") {ttlMs : Nat}
    (httl : normalizeTtlMs ttl = some ttlMs) {payload : B}
    (hencode : c.codec.encode resource.version resource.value resource.tags = .ok payload) :
    c.set now key resource ttl db = .ok (setWithTags now c.keyspace.tagPrefix (payloadKey c key)
      (membershipKey c key) (tagKeysOf c resource.tags) payload ttlMs (db.purge now)) := by
  unfold RedisResourceCache.set
  rw [RedisCacheKeyspace.resourceKey_of_ne hkey, httl]
  dsimp only [bind, Except.bind]
  rw [hencode]
  dsimp only
  rw [scriptKeys_of_ne c hkey htags]
  rfl

/-- A `get` of an entry with time left that the codec reads. -/
theorem get_of_live (monotonic : Double) (hkey : key ≠ "") {payload : B} {mark : Nat} {version : String}
    {value : V} {tags : List String} (hlive : live now db (payloadKey c key) = some (payload, mark))
    (hdecode : c.codec.decode payload = .ok (version, value, tags)) :
    ∃ expiresAt, c.get now monotonic key db =
      .ok (db.purge now, some { version, value, expiresAt, tags }) := by
  use monotonic + .round (((mark : Int) - now : Int) / 1000)
  rw [← live_purge] at hlive
  obtain ⟨x, hx, hvalue, hmark, hlt⟩ := live_eq_some_iff.mp hlive
  subst hvalue
  have hahead : ¬((mark : Int) - now ≤ 0) := by omega
  unfold RedisResourceCache.get
  rw [RedisCacheKeyspace.resourceKey_of_ne hkey]
  dsimp only [bind, Except.bind]
  rw [show (db.purge now).strings (c.keyspace.key .resource (c.blake2b (PercentEncoding.utf8 key))) =
    some x from hx]
  simp only [hmark, Option.getD_some, if_neg hahead, hdecode]
  rfl

/-- A `get` of a key without time left answers nothing, and at most deletes the key. -/
theorem get_of_not_live (monotonic : Double) (hkey : key ≠ "")
    (hlive : live now db (payloadKey c key) = none) :
    ∃ db', c.get now monotonic key db = .ok (db', none) ∧ (db' = db.purge now ∨
      db' = deleteWithTags now c.keyspace.tagPrefix (payloadKey c key) (membershipKey c key)
        (db.purge now)) := by
  unfold RedisResourceCache.get
  rw [RedisCacheKeyspace.resourceKey_of_ne hkey]
  dsimp only [bind, Except.bind]
  -- A payload that is not live is missing, or its mark has passed; then the script deletes it.
  cases hx : (db.purge now).strings (c.keyspace.key .resource (c.blake2b (PercentEncoding.utf8 key)))
    with
  | none => exact ⟨_, rfl, .inl rfl⟩
  | some stored =>
    -- a payload without a mark counts as marked at zero
    have hpast : (stored.expiresAt.getD 0 : Int) - now ≤ 0 := by
      cases hmark : stored.expiresAt with
      | none =>
        show ((0 : Nat) : Int) - now ≤ 0
        omega
      | some mark =>
        have hnot : ¬now < mark := by
          intro hlt
          have hsome : live now (db.purge now) (payloadKey c key) = some (stored.value, mark) :=
            live_eq_some_iff.mpr ⟨stored, hx, rfl, hmark, hlt⟩
          rw [live_purge, hlive] at hsome
          cases hsome
        -- the remaining time is not positive
        show (mark : Int) - now ≤ 0
        omega
    simp only [if_pos hpast, deleteResource_of_ne c now db hkey]
    exact ⟨_, rfl, .inr rfl⟩

end Success

/-! ## The shelf of the Redis cache -/

section Shelved

variable {V B : Type} {c : RedisResourceCache V B}

/-- The lease that a payload with its expiry is. -/
def leaseOf (c : RedisResourceCache V B) (x : B × Nat) : Option (Lease (String × V) String Nat) :=
  match c.codec.decode x.1 with
  | .error _ => none
  | .ok (version, value, tags) => some ⟨(version, value), tags, x.2⟩

/-- The Redis cache holds what is alive on the shelf. -/
structure Shelved (c : RedisResourceCache V B) (now : Nat) (db : Redis B)
    (latest : String → Option (List String)) (s : Shelf String (String × V) String Nat) : Prop where
  kept : ∀ key, Kept c key { db, now, latest }
  stored : ∀ key, key ≠ "" →
    (live now db (payloadKey c key)).map (leaseOf c) = (s.alive now key).map some
  tagged : ∀ key, key ≠ "" → ∀ l, s.alive now key = some l → latest key = some l.tags

variable {now : Nat} {db : Redis B} {latest : String → Option (List String)}
  {s s' : Shelf String (String × V) String Nat} {key : String}

theorem Shelved.usable (h : Shelved c now db latest s) :
    Usable now c.keyspace.tagPrefix (db.purge now) := (h.kept "").usable

theorem shelved_initial (c : RedisResourceCache V B) (now : Nat) :
    Shelved c now {} (fun _ => none) (Shelf.bare : Shelf String (String × V) String Nat) where
  kept key := by
    have h := (kept_initial c key).advance now
    rwa [show ({ now := now, db := {}, latest := fun _ => none } : Cluster B) =
      { ({} : Cluster B) with now := 0 + now } by rw [Nat.zero_add]]
  stored _ _ := rfl
  tagged _ _ _ h := by cases h

theorem Shelved.of_agree (h : Shelved c now db latest s) (hagree : Shelf.Agree now s' s) :
    Shelved c now db latest s' where
  kept := h.kept
  stored key hkey := by rw [hagree key]; exact h.stored key hkey
  tagged key hkey l hl := h.tagged key hkey l (by rw [← hagree key]; exact hl)

/-- A key has no time left on either side, or the same lease on both. -/
theorem Shelved.cases (h : Shelved c now db latest s) (hkey : key ≠ "") :
    (live now db (payloadKey c key) = none ∧ s.alive now key = none) ∨
      ∃ x l, live now db (payloadKey c key) = some x ∧ s.alive now key = some l ∧
        leaseOf c x = some l := by
  have hstored := h.stored key hkey
  cases hlive : live now db (payloadKey c key) with
  | none =>
    rw [hlive] at hstored
    exact .inl ⟨rfl, Option.map_eq_none_iff.mp hstored.symm⟩
  | some x =>
    rw [hlive] at hstored
    obtain ⟨l, hl, hx⟩ := Option.map_eq_some_iff.mp hstored.symm
    exact .inr ⟨x, l, rfl, hl, hx.symm⟩

theorem leaseOf_eq_some {x : B × Nat} {l : Lease (String × V) String Nat} (h : leaseOf c x = some l) :
    c.codec.decode x.1 = .ok (l.content.1, l.content.2, l.tags) ∧ l.deadline = x.2 := by
  unfold leaseOf at h
  cases hdecode : c.codec.decode x.1 with
  | error message =>
    rw [hdecode] at h
    cases h
  | ok entry =>
    rw [hdecode] at h
    cases h
    exact ⟨rfl, rfl⟩

/-! ### What each call does to both -/

theorem Shelved.advance (h : Shelved c now db latest s) (ms : Nat) :
    Shelved c (now + ms) db latest s where
  kept key := (h.kept key).advance ms
  stored key hkey := by
    have hle : now ≤ now + ms := Nat.le_add_right _ _
    have hlater : s.alive (now + ms) key =
        (s.alive now key).filter fun l => now + ms < l.deadline := by
      ext l
      rw [Option.filter_eq_some_iff, Shelf.alive_eq_some_iff, Shelf.alive_eq_some_iff]
      constructor
      · rintro ⟨hl, hlt⟩
        exact ⟨⟨hl, hle.trans_lt hlt⟩, decide_eq_true hlt⟩
      · rintro ⟨⟨hl, -⟩, hlt⟩
        exact ⟨hl, of_decide_eq_true hlt⟩
    rw [live_later hle, hlater]
    rcases h.cases hkey with ⟨hlive, halive⟩ | ⟨x, l, hlive, halive, hx⟩
    · rw [hlive, halive]
      rfl
    · rw [hlive, halive, Option.filter_some, Option.filter_some, (leaseOf_eq_some hx).2]
      split
      · exact congrArg some hx
      · rfl
  tagged key hkey l hl := by
    refine h.tagged key hkey l ?_
    rw [Shelf.alive_eq_some_iff] at hl ⊢
    exact ⟨hl.1, lt_of_le_of_lt (Nat.le_add_right _ _) hl.2⟩

theorem Shelved.purge (h : Shelved c now db latest s) : Shelved c now (db.purge now) latest s where
  kept key := kept_of_db (h.kept key).usable (h.kept key).held
  stored key hkey := by rw [live_purge]; exact h.stored key hkey
  tagged := h.tagged

variable {k : String} (hblake : Function.Injective c.blake2b)
include hblake

theorem Shelved.delete (h : Shelved c now db latest s) (k : String) :
    Shelved c now (deleteWithTags now c.keyspace.tagPrefix (payloadKey c k) (membershipKey c k)
      (db.purge now)) latest (s.drop k) where
  kept key := (h.kept key).delete hblake (fun _ => rfl) rfl
  stored key hkey := by
    rw [live_deleteWithTags hblake h.usable, Shelf.alive_drop]
    split
    · rfl
    · rw [live_purge]
      exact h.stored key hkey
  tagged key hkey l hl := by
    rw [Shelf.alive_drop] at hl
    split at hl
    · cases hl
    · exact h.tagged key hkey l hl

theorem Shelved.set (h : Shelved c now db latest s) {resource : CachedResource V Double} {payload : B}
    {ttl : Double} {ttlMs : Nat} (hpos : 0 < ttlMs)
    (hset : c.set now k resource ttl db = .ok (setWithTags now c.keyspace.tagPrefix
      (payloadKey c k) (membershipKey c k) (tagKeysOf c resource.tags) payload ttlMs
      (db.purge now)))
    (hdecode : c.codec.decode payload = .ok (resource.version, resource.value, resource.tags)) :
    Shelved c now (setWithTags now c.keyspace.tagPrefix (payloadKey c k) (membershipKey c k)
      (tagKeysOf c resource.tags) payload ttlMs (db.purge now))
      (Function.update latest k (some resource.tags))
      (s.put k ⟨(resource.version, resource.value), resource.tags, now + ttlMs⟩) where
  kept key := (h.kept key).set hblake hset
  stored key hkey := by
    -- the new lease ends later than now, so it is alive at once
    have hahead : now < now + ttlMs := by omega
    rw [live_setWithTags hblake h.usable _ _ hpos, Shelf.alive_put, if_pos hahead]
    split
    · rw [Option.map_some, leaseOf, hdecode]
      rfl
    · rw [live_purge]
      exact h.stored key hkey
  tagged key hkey l hl := by
    rw [Shelf.alive_put] at hl
    split at hl
    -- the tags of the written key are the new ones, of every other key the old ones
    · next heq =>
      split at hl
      · cases hl
        rw [heq, Function.update_self]
      · cases hl
    · next hne =>
      rw [Function.update_of_ne hne]
      exact h.tagged key hkey l hl

theorem Shelved.invalidateTag (h : Shelved c now db latest s) {tag : String} {db' : Redis B}
    (hdb : c.invalidateTag now tag db = .ok db') : Shelved c now db' latest (s.dropTag tag) where
  kept key := (h.kept key).invalidateTag hdb
  stored key hkey := by
    have hview : live now (view { db, now, latest }) (payloadKey c key) =
        live now db (payloadKey c key) := live_purge now db _
    rw [Shelf.alive_dropTag]
    rcases h.cases hkey with ⟨hlive, halive⟩ | ⟨x, l, hlive, halive, hx⟩
    · rw [halive, (h.kept key).not_live_invalidateTag hdb (hview.trans hlive)]
      rfl
    · rw [halive, (h.kept key).live_invalidateTag hblake hdb (h.tagged key hkey l halive)
        (hview.trans hlive), Option.filter_some]
      by_cases htag : tag ∈ l.tags
      · simp [htag]
      · simp [htag, hx]
  tagged key hkey l hl := by
    rw [Shelf.alive_dropTag, Option.filter_eq_some_iff] at hl
    exact h.tagged key hkey l hl.1

end Shelved

end Cluster

/-! ## The deadlines of both -/

section Deadlines

/-- A lifetime in doubles, in milliseconds. -/
theorem seconds_close {ttlMs : Nat} (hlimit : ttlMs < clockLimit) :
    |(seconds ttlMs).value * 1000 - ttlMs| ≤ 1 / 32 := by
  have herror := Double.abs_round_sub_le ((ttlMs : Int) / 1000)
  have hlimit' : (ttlMs : ℚ) < 2 ^ 48 := by
    unfold clockLimit at hlimit
    exact_mod_cast hlimit
  have hpos : (0 : ℚ) ≤ ttlMs := Nat.cast_nonneg _
  rw [Int.cast_natCast, abs_of_nonneg (by positivity : (0 : ℚ) ≤ ttlMs / 1000), abs_le] at herror
  rw [seconds, Int.cast_natCast, abs_le]
  constructor <;> linarith [herror.1, herror.2]

theorem seconds_le_zero_iff {ttlMs : Int} : seconds ttlMs ≤ 0 ↔ ttlMs ≤ 0 := by
  rw [seconds, Double.round_le_zero_iff, div_le_iff₀ (by norm_num)]
  norm_num

/-- The lifetime for Redis is the exact one, or one more where the product is rounded up. -/
theorem normalizeTtlMs_seconds {ttlMs : Nat} (hpos : 0 < ttlMs) (hlimit : ttlMs < clockLimit) :
    ∃ k, normalizeTtlMs (seconds ttlMs) = some k ∧ ttlMs ≤ k ∧ k ≤ ttlMs + 1 ∧
      ((seconds ttlMs * .round 1000).value ≤ ttlMs → k = ttlMs) := by
  have hclose := abs_le.mp (seconds_close hlimit)
  have hlimit' : (ttlMs : ℚ) < 2 ^ 48 := by
    unfold clockLimit at hlimit
    exact_mod_cast hlimit
  have hone : (1 : ℚ) ≤ ttlMs := by exact_mod_cast hpos
  have hthousand : (Double.round 1000).value = 1000 := by with_unfolding_all decide
  -- the product is less than a millisecond off
  have hproduct : |(seconds ttlMs * .round 1000).value - ttlMs| ≤ 1 / 8 := by
    have hnonneg : 0 ≤ (seconds ttlMs).value * 1000 := by linarith [hclose.1]
    have herror := Double.abs_round_sub_le ((seconds ttlMs).value * 1000)
    rw [abs_of_nonneg hnonneg, abs_le] at herror
    rw [Double.mul_eq, hthousand, abs_le]
    constructor <;> linarith [herror.1, herror.2, hclose.1, hclose.2]
  rw [abs_le] at hproduct
  have hlow : (ttlMs : Int) ≤ ⌈(seconds ttlMs * .round 1000).value⌉ := by
    have hlt : ((ttlMs : Int) : ℚ) - 1 < ⌈(seconds ttlMs * .round 1000).value⌉ := by
      rw [Int.cast_natCast]
      linarith [Int.le_ceil (seconds ttlMs * .round 1000).value, hproduct.1]
    have hlt' : (ttlMs : Int) - 1 < ⌈(seconds ttlMs * .round 1000).value⌉ := by exact_mod_cast hlt
    omega
  have hhigh : ⌈(seconds ttlMs * .round 1000).value⌉ ≤ (ttlMs : Int) + 1 := by
    rw [Int.ceil_le]
    push_cast
    linarith [hproduct.2]
  have hpositive : ¬seconds ttlMs ≤ 0 := by
    rw [seconds_le_zero_iff]
    omega
  refine ⟨⌈(seconds ttlMs * .round 1000).value⌉.toNat, ?_, by omega, by omega, fun hle => ?_⟩
  · rw [normalizeTtlMs, if_neg hpositive, max_eq_right (by omega)]
  · have hceil : ⌈(seconds ttlMs * .round 1000).value⌉ ≤ (ttlMs : Int) := by
      rw [Int.ceil_le]
      exact_mod_cast hle
    omega

variable (time : MillisecondClock)

theorem MillisecondClock.bounds {t : Nat} (hlimit : t < clockLimit) :
    (t : ℚ) - 1 / 8 ≤ (time.monotonic t).value * 1000 ∧
      (time.monotonic t).value * 1000 ≤ t + 1 / 8 := by
  have hclose := abs_le.mp (time.close t hlimit)
  constructor <;> linarith [hclose.1, hclose.2]

theorem MillisecondClock.monotone {t u : Nat} (hle : t ≤ u) (hlimit : u < clockLimit) :
    time.monotonic t ≤ time.monotonic u := by
  rcases Nat.eq_or_lt_of_le hle with rfl | hlt
  · exact le_refl _
  · have hstep : (t : ℚ) + 1 ≤ u := by exact_mod_cast hlt
    rw [Double.le_iff]
    linarith [(time.bounds (hle.trans_lt hlimit)).2, (time.bounds hlimit).1]

/-- The deadline of the memory cache. -/
theorem marks_monotonic {now ttlMs : Nat} (hnow : now < clockLimit) (hlimit : ttlMs < clockLimit) :
    Shelf.Marks time.monotonic clockLimit (CacheCall.Sharp time now ttlMs)
      (time.monotonic now + seconds ttlMs) (now + ttlMs) := by
  -- Both errors, of the reading and of the length, are far below half a millisecond.
  have hsum : |(time.monotonic now + seconds ttlMs).value * 1000 - (now + ttlMs : Nat)| ≤ 1 / 2 := by
    -- how far the length in seconds is from its milliseconds
    have hclose := abs_le.mp (seconds_close hlimit)
    have hreading := time.bounds hnow
    -- how far the sum is from the sum of the rationals
    have herror := Double.abs_round_sub_le ((time.monotonic now).value + (seconds ttlMs).value)
    have hnow' : (now : ℚ) < 2 ^ 48 := by
      unfold clockLimit at hnow
      exact_mod_cast hnow
    have hlimit' : (ttlMs : ℚ) < 2 ^ 48 := by
      unfold clockLimit at hlimit
      exact_mod_cast hlimit
    have hsize : |(time.monotonic now).value + (seconds ttlMs).value| ≤ 2 ^ 40 := by
      have hnow'' : (0 : ℚ) ≤ now := Nat.cast_nonneg _
      have hlimit'' : (0 : ℚ) ≤ ttlMs := Nat.cast_nonneg _
      rw [abs_le]
      constructor <;> linarith [hclose.1, hclose.2, hreading.1, hreading.2]
    have herror' := abs_le.mp (herror.trans (div_le_div_of_nonneg_right hsize (by positivity)))
    rw [Double.add_eq, abs_le]
    push_cast
    constructor <;> linarith [herror'.1, herror'.2, hclose.1, hclose.2, hreading.1, hreading.2]
  rw [abs_le] at hsum
  -- a mark and a reading are whole milliseconds, so half a one decides nothing
  refine ⟨fun t ht hlt => ?_, fun t ht hlt => ?_, fun hsharp _ => hsharp.2⟩
  · have hstep : (t : ℚ) + 1 ≤ (now + ttlMs : Nat) := by exact_mod_cast hlt
    rw [Double.lt_iff]
    linarith [(time.bounds ht).2, hsum.1]
  · have hstep : ((now + ttlMs : Nat) : ℚ) + 1 ≤ t := by exact_mod_cast hlt
    rw [Double.le_iff]
    linarith [(time.bounds ht).1, hsum.2]

/-- The expiry in Redis. -/
theorem marks_id {now ttlMs k : Nat} {sharp : Prop} (hlow : ttlMs ≤ k) (hhigh : k ≤ ttlMs + 1)
    (hsharp : sharp → k = ttlMs) : Shelf.Marks id clockLimit sharp (now + k) (now + ttlMs) where
  before t _ hlt := by
    show t < now + k
    omega
  after t _ hlt := by
    show now + k ≤ t
    omega
  sharp h _ := by
    show now + k ≤ now + ttlMs
    rw [hsharp h]

end Deadlines
/-! ## The same calls on both -/

section Agreement

open Cluster

variable {V : Type} (ks : RedisCacheKeyspace) (blake2b : List UInt8 → String)
  (lib : JsonLibrary V) (maxValueBytes : Nat)

/-- `RedisResourceCache(client, namespace=…, max_value_bytes=…)`. -/
def redisCache : RedisResourceCache V String where
  keyspace := ks
  codec := jsonCodec lib maxValueBytes
  blake2b := blake2b

variable {ks blake2b lib maxValueBytes}

/-- Both caches track what the calls so far leave alive. -/
structure Agreeing (bound : Int) (time : MillisecondClock) (c : RedisResourceCache V String)
    (edges : List (String × Nat)) (now : Nat) (m : MemoryResourceCache V Double)
    (db : Redis String) : Prop where
  sound : m.Sound bound
  shelved : ∃ latest s a, Shelved c now db latest s ∧
    Shelf.Tracks id clockLimit (fun key e => (key, e) ∈ edges) now s a ∧
    Shelf.Tracks time.monotonic clockLimit (fun key e => (key, e) ∈ edges) now m.shelf a

variable {c : RedisResourceCache V String} {bound : Int} {time : MillisecondClock}
  {edges : List (String × Nat)} {now : Nat} {m : MemoryResourceCache V Double}
  {db : Redis String} {key tag : String}

theorem Agreeing.advance (h : Agreeing bound time c edges now m db) {ms : Nat}
    (hlimit : now + ms < clockLimit) : Agreeing bound time c edges (now + ms) m db := by
  obtain ⟨latest, s, a, hshelved, hredis, hmemory⟩ := h.shelved
  have hle : now ≤ now + ms := Nat.le_add_right _ _
  exact ⟨h.sound, latest, s, a, hshelved.advance ms, hredis.later (fun _ _ hle _ => hle) hle hlimit,
    hmemory.later (fun _ _ hle hlimit => time.monotone hle hlimit) hle hlimit⟩

theorem Agreeing.get (h : Agreeing bound time c edges now m db)
    (hblake : Function.Injective c.blake2b) (hkey : key ≠ "") (hlimit : now < clockLimit)
    (hclear : (key, now) ∉ edges) :
    ∃ db' answer, c.get now (time.monotonic now) key db = .ok (db', answer) ∧
      CacheCall.seen answer = CacheCall.seen (m.get (time.monotonic now) key).2 ∧
      Agreeing bound time c edges now (m.get (time.monotonic now) key).1 db' := by
  obtain ⟨latest, s, a, hshelved, hredis, hmemory⟩ := h.shelved
  obtain ⟨hanswer, hagree⟩ := m.get_eq_alive (time.monotonic now) key
  have hsound := MemoryResourceCache.sound_get h.sound (time.monotonic now) key
  have hmemory' := hmemory.of_agree hagree
  -- what both shelves hold is what is alive in milliseconds
  have hseen : CacheCall.seen (m.get (time.monotonic now) key).2 =
      (s.alive now key).map fun l => (l.content, l.tags) := by
    have hsame := (hmemory.alive_eq hlimit hclear).trans (hredis.alive_eq hlimit hclear).symm
    rw [← hanswer, Option.map_map] at hsame
    exact hsame
  rcases hshelved.cases hkey with ⟨hlive, halive⟩ | ⟨⟨payload, mark⟩, l, hlive, halive, hx⟩
  · rw [halive] at hseen
    obtain ⟨db', hget, hdb⟩ := get_of_not_live c now db (time.monotonic now) hkey hlive
    refine ⟨db', none, hget, hseen.symm, hsound, latest, s, a, ?_, hredis, hmemory'⟩
    rcases hdb with rfl | rfl
    · exact hshelved.purge
    · -- deleting a key without time left
      refine (hshelved.delete hblake key).of_agree fun k => ?_
      rw [Shelf.alive_drop]
      split
      · next heq => rw [heq, halive]
      · rfl
  · obtain ⟨hdecode, -⟩ := leaseOf_eq_some hx
    obtain ⟨expiresAt, hget⟩ := get_of_live c now db (time.monotonic now) hkey hlive hdecode
    rw [halive] at hseen
    exact ⟨_, _, hget, hseen.symm, hsound, latest, s, a, hshelved.purge, hredis, hmemory'⟩

theorem Agreeing.delete (h : Agreeing bound time c edges now m db)
    (hblake : Function.Injective c.blake2b) (hkey : key ≠ "") :
    ∃ db', c.delete now key db = .ok db' ∧ Agreeing bound time c edges now (m.delete key) db' := by
  obtain ⟨latest, s, a, hshelved, hredis, hmemory⟩ := h.shelved
  refine ⟨_, deleteResource_of_ne c now db hkey, MemoryResourceCache.sound_removeInternal h.sound key,
    latest, _, _, hshelved.delete hblake key, hredis.drop key, ?_⟩
  rw [MemoryResourceCache.delete, MemoryResourceCache.shelf_removeInternal]
  exact hmemory.drop key

theorem Agreeing.invalidateTag (h : Agreeing bound time c edges now m db)
    (hblake : Function.Injective c.blake2b) (htag : tag ≠ "") :
    ∃ db', c.invalidateTag now tag db = .ok db' ∧
      Agreeing bound time c edges now (m.invalidateTag tag) db' := by
  obtain ⟨latest, s, a, hshelved, hredis, hmemory⟩ := h.shelved
  have hdb := invalidateTag_of_ne c now db htag
  refine ⟨_, hdb, MemoryResourceCache.sound_invalidateTag h.sound tag, latest, _, _,
    hshelved.invalidateTag hblake hdb, hredis.dropTag tag, ?_⟩
  rw [MemoryResourceCache.shelf_invalidateTag h.sound]
  exact hmemory.dropTag tag

theorem Agreeing.more_edges (h : Agreeing bound time c edges now m db)
    (more : List (String × Nat)) : Agreeing bound time c (edges ++ more) now m db := by
  obtain ⟨latest, s, a, hshelved, hredis, hmemory⟩ := h.shelved
  exact ⟨h.sound, latest, s, a, hshelved, hredis.more_edges fun _ _ => List.mem_append_left _,
    hmemory.more_edges fun _ _ => List.mem_append_left _⟩

theorem Agreeing.set
    (h : Agreeing bound time (redisCache ks blake2b lib maxValueBytes) edges now m db)
    (hblake : Function.Injective blake2b) (hreads : lib.Reads)
    (hroom : (m.cache.size : Int) < bound) {resource : CachedResource V Double} {ttlMs : Int}
    (hlimit : now < clockLimit)
    (haccepted : (CacheCall.set key resource ttlMs).Accepted lib maxValueBytes) :
    ∃ db', (redisCache ks blake2b lib maxValueBytes).set now key resource (seconds ttlMs) db =
        .ok db' ∧
      Agreeing bound time (redisCache ks blake2b lib maxValueBytes)
        (edges ++ (CacheCall.set key resource ttlMs).edges time now) now
        (m.set (time.monotonic now) key resource (seconds ttlMs)) db' := by
  obtain ⟨latest, s, a, hshelved, hredis, hmemory⟩ :=
    (h.more_edges ((CacheCall.set key resource ttlMs).edges time now)).shelved
  obtain ⟨hkey, hshort, hwire, payload, hencode⟩ := haccepted
  have hsound := MemoryResourceCache.sound_set h.sound (time.monotonic now) key resource
    (seconds ttlMs)
  by_cases httl : ttlMs ≤ 0
  · have hnone : normalizeTtlMs (seconds ttlMs) = none := if_pos (seconds_le_zero_iff.mpr httl)
    refine ⟨_, set_of_no_lifetime _ now db hkey hnone, hsound, latest, _, _,
      hshelved.delete hblake key, hredis.drop key, ?_⟩
    rw [MemoryResourceCache.set_of_no_lifetime m _ key resource (seconds_le_zero_iff.mpr httl),
      MemoryResourceCache.shelf_removeInternal]
    exact hmemory.drop key
  · have htags : ∀ tag ∈ resource.tags, tag ≠ "" := by
      have hvalid := (encode_eq_ok hencode).2.1
      unfold validateTags at hvalid
      split at hvalid
      · next hall =>
        intro tag htag
        exact of_decide_eq_true (List.all_eq_true.mp hall tag htag)
      · cases hvalid
    obtain ⟨n, rfl⟩ := Int.eq_ofNat_of_zero_le (by omega : 0 ≤ ttlMs)
    have hpos : 0 < n := by omega
    have hshort' : n < clockLimit := by exact_mod_cast hshort
    obtain ⟨k, hk, hlow, hhigh, hexact⟩ := normalizeTtlMs_seconds hpos hshort'
    -- but at an edge both deadlines are sharp
    have hsharp : (key, now + n) ∉ edges ++ (CacheCall.set key resource (n : Int)).edges time now →
        CacheCall.Sharp time now n := by
      intro hnot
      by_contra hblunt
      refine hnot (List.mem_append_right _ ?_)
      rw [CacheCall.edges, if_pos ⟨by omega, hblunt⟩]
      exact List.mem_singleton_self _
    have hset := set_of_lifetime (redisCache ks blake2b lib maxValueBytes) now db hkey htags hk
      hencode
    refine ⟨_, hset, hsound, Function.update latest key (some resource.tags), _,
      a.put key ⟨(resource.version, resource.value), resource.tags, now + n⟩,
      hshelved.set hblake (by omega) hset (decode_encode hreads hwire hencode),
      hredis.put hlimit key rfl rfl ?_, ?_⟩
    · exact marks_id hlow hhigh fun hnot => hexact (hsharp hnot).1
    · rw [MemoryResourceCache.shelf_set h.sound hroom (time.monotonic now) key resource
        (fun hle => httl (seconds_le_zero_iff.mp hle))]
      refine hmemory.put hlimit key rfl rfl ?_
      have hmarks := marks_monotonic time hlimit hshort'
      exact ⟨hmarks.before, hmarks.after, fun hnot => hmarks.sharp (hsharp hnot)⟩

/-- One call has the same answer on both, and both go on to track the same. -/
theorem agreeing_call
    (h : Agreeing bound time (redisCache ks blake2b lib maxValueBytes) edges now m db)
    (hblake : Function.Injective blake2b) (hreads : lib.Reads)
    (hroom : (m.cache.size : Int) < bound) {call : CacheCall V}
    (haccepted : call.Accepted lib maxValueBytes) (hlimit : call.clock now < clockLimit)
    (hclear : ∀ key, call = .get key → (key, now) ∉ edges) :
    ∃ db' answers, call.onRedis time (redisCache ks blake2b lib maxValueBytes) now db =
        .ok (db', answers) ∧
      answers.map CacheCall.seen = (call.onMemory time now m).2.map CacheCall.seen ∧
      Agreeing bound time (redisCache ks blake2b lib maxValueBytes) (edges ++ call.edges time now)
        (call.clock now) (call.onMemory time now m).1 db' := by
  -- One case for each call: both caches do it, and they agree afterwards.
  cases call with
  | advance ms => exact ⟨db, [], rfl, rfl, (h.advance hlimit).more_edges []⟩
  -- an edge is excluded: there the two clocks may read differently
  | get key =>
    obtain ⟨db', answer, hget, hseen, hnext⟩ := h.get hblake haccepted hlimit (hclear key rfl)
    refine ⟨db', [answer], ?_, congrArg (fun answer => [answer]) hseen, hnext.more_edges []⟩
    show Except.bind (RedisResourceCache.get _ _ _ _ _) _ = _
    rw [hget]
    rfl
  | set key resource ttlMs =>
    obtain ⟨db', hset, hnext⟩ := h.set hblake hreads hroom hlimit haccepted
    refine ⟨db', [], ?_, rfl, hnext⟩
    show Except.bind (RedisResourceCache.set _ _ _ _ _ _) _ = _
    rw [hset]
    rfl
  | delete key =>
    obtain ⟨db', hdelete, hnext⟩ := h.delete hblake haccepted
    refine ⟨db', [], ?_, rfl, hnext.more_edges []⟩
    show Except.bind (RedisResourceCache.delete _ _ _ _) _ = _
    rw [hdelete]
    rfl
  | invalidateTag tag =>
    obtain ⟨db', hinvalidate, hnext⟩ := h.invalidateTag hblake haccepted
    refine ⟨db', [], ?_, rfl, hnext.more_edges []⟩
    show Except.bind (RedisResourceCache.invalidateTag _ _ _ _) _ = _
    rw [hinvalidate]
    rfl

/-- The memory cache is never full before one of the calls. -/
def NeverFull (time : MillisecondClock) (maxEntries : Int) (now : Nat)
    (m : MemoryResourceCache V Double) (calls : List (CacheCall V)) : Prop :=
  ∀ before, before <+: calls →
    ((CacheCall.runMemory time now m before).1.cache.size : Int) < maxEntries

theorem le_runMemory (calls : List (CacheCall V)) :
    now ≤ (CacheCall.runMemory time now m calls).2.1 := by
  induction calls generalizing now m with
  | nil => exact le_refl _
  | cons call calls ih =>
    refine le_trans (b := call.clock now) ?_ ih
    cases call with
    | advance ms => exact Nat.le_add_right _ _
    | _ => exact le_refl _

theorem agreeing_calls {calls : List (CacheCall V)}
    (h : Agreeing bound time (redisCache ks blake2b lib maxValueBytes) edges now m db)
    (hblake : Function.Injective blake2b) (hreads : lib.Reads)
    (haccepted : ∀ call ∈ calls, call.Accepted lib maxValueBytes)
    (hroom : NeverFull time bound now m calls)
    (hlimit : (CacheCall.runMemory time now m calls).2.1 < clockLimit)
    (hclear : CacheCall.Clear time edges now calls) :
    ∃ db' answers, CacheCall.runRedis time (redisCache ks blake2b lib maxValueBytes) now db calls =
        .ok (db', (CacheCall.runMemory time now m calls).2.1, answers) ∧
      answers.map CacheCall.seen =
        (CacheCall.runMemory time now m calls).2.2.map CacheCall.seen ∧
      Agreeing bound time (redisCache ks blake2b lib maxValueBytes)
        (edges ++ CacheCall.runEdges time now calls) (CacheCall.runMemory time now m calls).2.1
        (CacheCall.runMemory time now m calls).1 db' := by
  -- Induction on the calls; edges and the clock are carried along.
  induction calls generalizing now m db edges with
  | nil =>
    refine ⟨db, [], rfl, rfl, ?_⟩
    rw [CacheCall.runEdges, List.append_nil]
    exact h
  | cons call calls ih =>
    -- the clock only goes forward, so what bounds its end bounds it here
    have hlimit' : call.clock now < clockLimit := lt_of_le_of_lt (le_runMemory calls) hlimit
    obtain ⟨db', answers, hcall, hsame, hnext⟩ := agreeing_call h hblake hreads
      (hroom [] List.nil_prefix) (haccepted call List.mem_cons_self) hlimit' hclear.1
    obtain ⟨db'', answers', hrest, hsame', hend⟩ := ih hnext
      (fun call hmem => haccepted call (List.mem_cons_of_mem _ hmem))
      (fun before hbefore => hroom (call :: before) (List.cons_prefix_cons.mpr ⟨rfl, hbefore⟩))
      hlimit hclear.2
    refine ⟨db'', answers ++ answers', ?_, ?_, ?_⟩
    · show Except.bind (call.onRedis _ _ _ _) _ = _
      rw [hcall]
      show Except.bind (CacheCall.runRedis _ _ _ _ _) _ = _
      rw [hrest]
      rfl
    · rw [List.map_append, hsame, hsame', ← List.map_append]
      rfl
    · rw [List.append_assoc] at hend
      exact hend

/-- Python values: those that JSON has, and tuples of them. -/
inductive PyValue where
  | json (j : PyJson)
  | tuple (items : List PyJson)

def PyValue.isTuple : PyValue → Bool
  | .json _ => false
  | .tuple _ => true

/-- `json` on two payloads. -/
def demoLibrary : JsonLibrary PyValue where
  dumps
    | .dict [("schema", .int 1), ("version", .str "v"), ("value", .int 7), ("tags", .list [.str "t"])] =>
      some "\x7b\"schema\":1,\"version\":\"v\",\"value\":7,\"tags\":[\"t\"]\x7d"
    | .dict [("schema", .int 1), ("version", .str "v"), ("value", .list [.int 1, .int 2]),
        ("tags", .list [])] =>
      some "\x7b\"schema\":1,\"version\":\"v\",\"value\":[1,2],\"tags\":[]\x7d"
    | _ => none
  loads text :=
    if text = "\x7b\"schema\":1,\"version\":\"v\",\"value\":7,\"tags\":[\"t\"]\x7d" then
      some (payloadOf "v" (.int 7) ["t"])
    else if text = "\x7b\"schema\":1,\"version\":\"v\",\"value\":[1,2],\"tags\":[]\x7d" then
      some (payloadOf "v" (.list [.int 1, .int 2]) [])
    else none
  toJsonable
    | .json j => some j
    | .tuple items => some (.list items)
  ofJson := .json

theorem demoLibrary_reads : demoLibrary.Reads := by
  intro j text h
  unfold demoLibrary at h ⊢
  dsimp only at h ⊢
  split at h
  · cases h
    rfl
  · cases h
    rfl
  · cases h

def demoRedis : RedisResourceCache PyValue String :=
  redisCache demo.keyspace demo.blake2b demoLibrary 1024

def seven : CachedResource PyValue Double :=
  { version := "v", value := .json (.int 7), expiresAt := 0, tags := ["t"] }

def pair : CachedResource PyValue Double :=
  { version := "v", value := .tuple [.int 1, .int 2], expiresAt := 0 }

/-- A clock that reads the nearest double. -/
def nearestClock : MillisecondClock where
  monotonic ms := seconds ms
  close ms hlimit := (seconds_close hlimit).trans (by norm_num)

/-- An entry is read before and at its expiry, written again and removed by its tag. -/
def sevenCalls : List (CacheCall PyValue) :=
  [.set "a" seven 5, .advance 4, .get "a", .advance 1, .get "a", .set "a" seven 5,
    .invalidateTag "t", .get "a"]

theorem accepted_sevenCalls : ∀ call ∈ sevenCalls, call.Accepted demoLibrary 1024 := by
  have hset : (CacheCall.set "a" seven 5).Accepted demoLibrary 1024 := by
    refine ⟨by decide, by decide, fun j hj => ?_, _, rfl⟩
    cases hj
    rfl
  have hget : (CacheCall.get "a" : CacheCall PyValue).Accepted demoLibrary 1024 :=
    (by decide : "a" ≠ "")
  intro call hmem
  simp only [sevenCalls, List.mem_cons, List.not_mem_nil, or_false] at hmem
  rcases hmem with rfl | rfl | rfl | rfl | rfl | rfl | rfl | rfl
  · exact hset
  · trivial
  · exact hget
  · trivial
  · exact hget
  · exact hset
  · exact (by decide : "t" ≠ "")
  · exact hget

theorem clear_sevenCalls : CacheCall.Clear nearestClock [] 0 sevenCalls := by
  have hfirst : CacheCall.Sharp nearestClock 0 5 := by with_unfolding_all decide
  have hsecond : CacheCall.Sharp nearestClock 5 5 := by with_unfolding_all decide
  simp [sevenCalls, CacheCall.Clear, CacheCall.edges, CacheCall.clock, hfirst, hsecond]

/-- Whether each `get` was a hit, on either cache. -/
def memoryHits (start : Nat) (calls : List (CacheCall PyValue)) : List Bool :=
  (CacheCall.runMemory nearestClock start { maxEntries := 10 } calls).2.2.map Option.isSome

def redisHits (start : Nat) (calls : List (CacheCall PyValue)) : Option (List Bool) :=
  (CacheCall.runRedis nearestClock demoRedis start {} calls).toOption.map fun done =>
    done.2.2.map Option.isSome

end Agreement

end FluxFast.Server
