import FluxFast.Theory.OrderedMap
import Mathlib

/-!
# MemoryCache — the in-process resource cache

`MemoryResourceCache` of `cache.py`.  Each method holds the lock from its first statement to its
last, so a method is one step.  The ordered dictionary is an `OrderedMap`, oldest entry first; a
Python set of keys is a map to `Unit`, whose order stands for the iteration order of the set.  Clock
readings and lifetimes come from any ordered type with an addition, so nothing is assumed of their
arithmetic.
-/

namespace FluxFast.Server

open FluxFast.Theory

structure CachedResource (V T : Type) where
  version : String
  value : V
  expiresAt : T
  tags : List String := []
  deriving DecidableEq

abbrev KeySet := OrderedMap String Unit

structure MemoryResourceCache (V T : Type) where
  maxEntries : Nat
  cache : OrderedMap String (CachedResource V T) := .empty
  tagIndex : OrderedMap String KeySet := .empty

variable {V T : Type} [LinearOrder T] [Add T] [Zero T]

def CachedResource.isExpired (entry : CachedResource V T) (now : T) : Bool :=
  entry.expiresAt ≤ now

namespace MemoryResourceCache

/-- The constructor; `none` is its `ValueError`. -/
def create (maxEntries : Int) : Option (MemoryResourceCache V T) :=
  if maxEntries ≤ 0 then none else some { maxEntries := maxEntries.toNat }

/-- The loop body of `_cleanup_tags`. -/
def discardTag (key : String) (index : OrderedMap String KeySet) (tag : String) :
    OrderedMap String KeySet :=
  match index.get? tag with
  | none => index
  | some keys =>
    let rest := keys.delete key
    if rest.size = 0 then index.delete tag else index.set tag rest

/-- Every caller passes the tags of the entry it removed. -/
def cleanupTags (c : MemoryResourceCache V T) (key : String) (tags : List String) :
    MemoryResourceCache V T :=
  { c with tagIndex := tags.foldl (discardTag key) c.tagIndex }

def removeInternal (c : MemoryResourceCache V T) (key : String) : MemoryResourceCache V T :=
  match c.cache.get? key with
  | none => c
  | some entry => { c with cache := c.cache.delete key }.cleanupTags key entry.tags

def get (c : MemoryResourceCache V T) (now : T) (key : String) :
    MemoryResourceCache V T × Option (CachedResource V T) :=
  match c.cache.get? key with
  | none => (c, none)
  | some entry =>
    if entry.isExpired now then (c.removeInternal key, none)
    else ({ c with cache := c.cache.moveToEnd key }, some entry)

/-- The eviction loop of `set`, for as many rounds as there are entries. -/
def evictLoop : Nat → MemoryResourceCache V T → MemoryResourceCache V T
  | 0, c => c
  | rounds + 1, c =>
    if c.maxEntries ≤ c.cache.size then
      match c.cache.entries with
      | [] => c
      | (oldestKey, oldestEntry) :: _ =>
        evictLoop rounds
          ({ c with cache := c.cache.delete oldestKey }.cleanupTags oldestKey oldestEntry.tags)
    else c

def evictOldest (c : MemoryResourceCache V T) : MemoryResourceCache V T :=
  evictLoop c.cache.size c

/-- The indexing loop of `set`. -/
def addTag (key : String) (index : OrderedMap String KeySet) (tag : String) :
    OrderedMap String KeySet :=
  index.set tag (((index.get? tag).getD .empty).set key ())

def insertEntry (c : MemoryResourceCache V T) (key : String) (entry : CachedResource V T) :
    MemoryResourceCache V T :=
  { c with
    cache := c.cache.set key entry
    tagIndex := entry.tags.foldl (addTag key) c.tagIndex }

def set (c : MemoryResourceCache V T) (now : T) (key : String) (resource : CachedResource V T)
    (ttl : T) : MemoryResourceCache V T :=
  let removed := if c.cache.has key then c.removeInternal key else c
  if ttl ≤ 0 then removed
  else removed.evictOldest.insertEntry key { resource with expiresAt := now + ttl }

def delete (c : MemoryResourceCache V T) (key : String) : MemoryResourceCache V T :=
  c.removeInternal key

def invalidateTag (c : MemoryResourceCache V T) (tag : String) : MemoryResourceCache V T :=
  let keys := ((c.tagIndex.get? tag).getD .empty).keys
  keys.foldl (fun c key => if c.cache.has key then c.removeInternal key else c)
    { c with tagIndex := c.tagIndex.delete tag }

def clear (c : MemoryResourceCache V T) : MemoryResourceCache V T :=
  { c with cache := .empty, tagIndex := .empty }

end MemoryResourceCache

end FluxFast.Server
