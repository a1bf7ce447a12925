import FluxFast.Core.StoreEntries

/-!
# PageCache — page shells for Back and Forward

A recency-ordered cache of page shells.  It keeps the versions a page was shown with; the values
stay in the resource store, so an entry is valid only while the store still agrees with it.
-/

namespace FluxFast.Core

open FluxFast.Theory

structure CachedPage (V : Type) where
  url : String
  component : String
  pageMeta : OrderedMap String V
  resources : Versions
  resourceKeys : List String
  pendingDeferred : List String
  liveKeys : List String

structure PageCacheManifest where
  resourceKeys : List String
  pendingDeferred : List String
  liveKeys : List String := []

structure PageCache (V : Type) where
  entries : OrderedMap String (CachedPage V) := .empty
  maxPages : Nat := 32

namespace PageCache

variable {V : Type}

/-- Delete the oldest pages until at most `maxPages` remain. -/
def evictLoop : Nat → PageCache V → PageCache V
  | 0, c => c
  | fuel + 1, c =>
    if c.maxPages < c.entries.size then
      match c.entries.keys with
      | [] => c
      | oldest :: _ => evictLoop fuel { c with entries := c.entries.delete oldest }
    else c

/-- Write an entry behind all others. -/
def putLast (c : PageCache V) (url : String) (entry : CachedPage V) : PageCache V :=
  { c with entries := (c.entries.delete url).set url entry }

def set (c : PageCache V) (page : PageDescriptor V) (resources : Versions)
    (manifest : Option PageCacheManifest) : PageCache V :=
  let entry : CachedPage V :=
    { url := page.url
      component := page.component
      pageMeta := page.pageMeta.getD .empty
      resources := resources
      resourceKeys := (manifest.map (·.resourceKeys)).getD resources.keys
      pendingDeferred := (manifest.map (·.pendingDeferred)).getD []
      liveKeys := unique ((manifest.map (·.liveKeys)).getD []) }
  let written := c.putLast page.url entry
  written.evictLoop written.entries.size

/-- Whether the store agrees with the entry on every key that is not pending; the store with the
recency of the reads up to the first disagreement. -/
def agrees (entry : CachedPage V) : List String → ResourceStore V → Bool × ResourceStore V
  | [], store => (true, store)
  | key :: keys, store =>
    if key ∈ entry.pendingDeferred then agrees entry keys store
    else
      match entry.resources.get? key with
      | some version =>
        match store.records.get? key with
        | some r =>
          if r.version = version ∧ store.isStale key = false then
            agrees entry keys (store.touchRecord key)
          else (false, store.touchRecord key)
        | none => (false, store)
      | none =>
        if (store.stateOf key).status = .error then agrees entry keys (store.touchState key)
        else (false, store.touchState key)

def getValid (c : PageCache V) (url : String) (store : ResourceStore V) :
    Option (CachedPage V) × PageCache V × ResourceStore V :=
  match c.entries.get? url with
  | none => (none, c, store)
  | some entry =>
    let (valid, touched) := agrees entry entry.resourceKeys store
    if valid then (some entry, c.putLast url entry, touched)
    else (none, { c with entries := c.entries.delete url }, touched)

/-- The versions and pending keys of a page after some of its keys were settled, or `none` where
the page can no longer be restored. -/
def settleKeys (owned : List String) : List String → Versions → List String → ResourceStore V →
    Option (Versions × List String) × ResourceStore V
  | [], versions, pending, store => (some (versions, pending), store)
  | key :: keys, versions, pending, store =>
    if key ∉ owned then settleKeys owned keys versions pending store
    else
      let touched := (store.touchState key).touchRecord key
      match store.freshReady key with
      | some r =>
        settleKeys owned keys (versions.set key r.version) (pending.filter (· ≠ key)) touched
      | none =>
        match (store.stateOf key).status with
        | .error => settleKeys owned keys (versions.delete key) (pending.filter (· ≠ key)) touched
        | .pending => settleKeys owned keys versions pending touched
        | .loading => settleKeys owned keys versions pending touched
        | _ => (none, touched)

def settleResources (c : PageCache V) (url : String) (keys : List String)
    (store : ResourceStore V) : PageCache V × ResourceStore V :=
  match c.entries.get? url with
  | none => (c, store)
  | some entry =>
    let (settled, touched) :=
      settleKeys entry.resourceKeys keys entry.resources entry.pendingDeferred store
    match settled with
    | none => ({ c with entries := c.entries.delete url }, touched)
    | some (versions, pending) =>
      let updated : CachedPage V :=
        { entry with
          resources := versions
          pendingDeferred := entry.resourceKeys.filter (· ∈ pending) }
      (c.putLast url updated, touched)

def clear (c : PageCache V) : PageCache V := { c with entries := .empty }

/-! ## The store behind the cache keeps its entries -/

theorem entry_agrees (entry : CachedPage V) (keys : List String) (store : ResourceStore V)
    (k : String) : (agrees entry keys store).2.entry k = store.entry k := by
  induction keys generalizing store with
  | nil => rfl
  | cons key keys ih =>
    unfold agrees
    split
    · exact ih store
    · split
      · split
        · split
          · rw [ih, ResourceStore.entry_touchRecord]
          · exact ResourceStore.entry_touchRecord ..
        · rfl
      · split
        · rw [ih, ResourceStore.entry_touchState]
        · exact ResourceStore.entry_touchState ..

theorem entry_getValid (c : PageCache V) (url : String) (store : ResourceStore V) (k : String) :
    (c.getValid url store).2.2.entry k = store.entry k := by
  unfold getValid
  split
  · rfl
  · dsimp only
    split <;> exact entry_agrees ..

theorem entry_settleKeys (owned keys : List String) (versions : Versions) (pending : List String)
    (store : ResourceStore V) (k : String) :
    (settleKeys owned keys versions pending store).2.entry k = store.entry k := by
  induction keys generalizing versions pending store with
  | nil => rfl
  | cons key keys ih =>
    have htouched : ((store.touchState key).touchRecord key).entry k = store.entry k := by simp
    unfold settleKeys
    split
    · exact ih ..
    · dsimp only
      split
      · rw [ih, htouched]
      · split
        · rw [ih, htouched]
        · rw [ih, htouched]
        · rw [ih, htouched]
        · exact htouched

theorem entry_settleResources (c : PageCache V) (url : String) (keys : List String)
    (store : ResourceStore V) (k : String) :
    (c.settleResources url keys store).2.entry k = store.entry k := by
  unfold settleResources
  split
  · rfl
  · dsimp only
    split <;> exact entry_settleKeys ..

end PageCache

end FluxFast.Core
