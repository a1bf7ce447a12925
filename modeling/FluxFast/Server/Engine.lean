import FluxFast.Server.MemoryCacheInvariant
import FluxFast.Server.PageWire
import FluxFast.Server.Scope
import FluxFast.Theory.Runs

/-!
# Engine — the resources of a page

`ResourceEngine.resolve_page_resources` of `engine.py`, and a server process whose resolutions share
one cache with the invalidations of `LiveCoordinator`.  A step goes from one `await` to the next, so
whatever another task may do in between is another step.
-/

namespace FluxFast.Server.Engine

open FluxFast.Theory PageWire

variable {ν T : Type}

/-! ## Requests -/

/-- What decides how a resource is resolved; the loader and the contract answer from outside. -/
structure ResourceSpec (T : Type) where
  key : String
  scope : CacheScope
  ttl : T
  tags : List String := []
  defer : Bool := false

structure Request (T : Type) where
  resources : List (ResourceSpec T)
  /-- `Page.__post_init__`. -/
  keys_nodup : (resources.map ResourceSpec.key).Nodup
  knownVersions : OrderedMap String String
  onlyKeys : Option (List String)
  clientSupportsDeferred : Bool
  debug : Bool

/-- `specs_to_process`. -/
def Request.specsToProcess (q : Request T) : List (ResourceSpec T) :=
  match q.onlyKeys with
  | none => q.resources
  | some keys => q.resources.filter fun spec => spec.key ∈ keys

/-- What a loader comes to, once its value is serialized. -/
inductive LoaderOutcome (ν : Type) where
  | value (wireValue : Json String ν)
  | contractError (message : String) (details : Json String ν)
  | exception (text : String)

inductive PageError where
  | scopeError (message : String)
  | cacheError
  | resourceContractError (message : String)
  | resourceError (message : String)

def unresolvedMessage : String := "A deferred resource could not be resolved"

/-- The entry of `resource_errors`; none for a value. -/
def errorDetail (debug : Bool) (key : String) : LoaderOutcome ν → Option (ErrorDetail ν)
  | .value _ => none
  | .contractError message details => some
      { type := "ResourceContractError"
        message := if debug then message else unresolvedMessage
        details := if debug then details else .null }
  | .exception text => some
      { type := "ResourceError"
        message := if debug then "Error loading deferred resource '" ++ key ++ "': " ++ text
          else unresolvedMessage }

/-- The exception that ends the resolution; none for a value. -/
def pageError (key : String) : LoaderOutcome ν → Option PageError
  | .value _ => none
  | .contractError message _ => some (.resourceContractError message)
  | .exception text => some (.resourceError ("Error loading resource '" ++ key ++ "': " ++ text))

/-! ## One resolution -/

/-- An entry of `miss_results`.  `startedAt` is a ghost: the step in which the loader started. -/
structure Miss (ν T : Type) where
  spec : ResourceSpec T
  record : WireRecord ν
  startedAt : Nat

inductive Phase (ν T : Type) where
  | lookingUp (rest : List (ResourceSpec T))
  /-- The tasks of the group that are not done, with the step in which the loader started. -/
  | loading (tasks : List (ResourceSpec T × Option Nat))
  | storing (rest : List (String × Miss ν T))
  | returned
  | raised (e : PageError)

structure Resolving (ν T : Type) where
  request : Request T
  phase : Phase ν T
  resolvedRecords : OrderedMap String (WireRecord ν) := .empty
  deferredKeys : List String := []
  resourceErrors : OrderedMap String (ErrorDetail ν) := .empty
  pendingMisses : List (ResourceSpec T) := []
  missResults : OrderedMap String (Miss ν T) := .empty
  /-- A ghost: what was taken from the cache or from a loader. -/
  taken : List (String × WireRecord ν) := []

/-- The cached values carry the step in which their loader started, another ghost. -/
abbrev Cache (ν T : Type) := MemoryResourceCache (Json String ν × Nat) T

namespace Resolving

/-- `ResourceResolution`. -/
def resolution (r : Resolving ν T) : Resolution ν :=
  ⟨r.resolvedRecords, r.deferredKeys, r.resourceErrors⟩

/-- The loop over `specs_to_process` goes on, or the misses are loaded, if there are any. -/
def lookedUp (r : Resolving ν T) (rest : List (ResourceSpec T)) : Resolving ν T :=
  if rest.isEmpty then
    if r.pendingMisses.isEmpty then { r with phase := .returned }
    else { r with phase := .loading (r.pendingMisses.map fun spec => (spec, none)) }
  else { r with phase := .lookingUp rest }

def start (q : Request T) : Resolving ν T :=
  ({ request := q, phase := .returned } : Resolving ν T).lookedUp q.specsToProcess

/-- The task group goes on, or what it loaded is stored. -/
def loaded (r : Resolving ν T) (tasks : List (ResourceSpec T × Option Nat)) : Resolving ν T :=
  if tasks.isEmpty then
    if r.missResults.entries.isEmpty then { r with phase := .returned }
    else { r with phase := .storing r.missResults.entries }
  else { r with phase := .loading tasks }

def stored (r : Resolving ν T) (rest : List (String × Miss ν T)) : Resolving ν T :=
  if rest.isEmpty then { r with phase := .returned } else { r with phase := .storing rest }

/-- A record is sent unless the client knows its version. -/
def take (r : Resolving ν T) (key : String) (record : WireRecord ν) : Resolving ν T :=
  if r.request.knownVersions.get? key = some record.version then
    { r with taken := r.taken ++ [(key, record)] }
  else
    { r with
      taken := r.taken ++ [(key, record)]
      resolvedRecords := r.resolvedRecords.set key record }

/-- "Cache miss or uncacheable". -/
def miss (r : Resolving ν T) (spec : ResourceSpec T) : Resolving ν T :=
  if spec.defer && r.request.clientSupportsDeferred && r.request.onlyKeys.isNone then
    { r with deferredKeys := r.deferredKeys ++ [spec.key] }
  else { r with pendingMisses := r.pendingMisses ++ [spec] }

def raise (r : Resolving ν T) (e : PageError) : Resolving ν T := { r with phase := .raised e }

end Resolving

section Steps

variable [LinearOrder T] [Add T] [Zero T] (computeVersion : Json String ν → String)

/-- `spec.scope.is_cacheable and spec.ttl > 0`. -/
def ResourceSpec.usesCache (spec : ResourceSpec T) : Bool :=
  spec.scope.isCacheable && decide (0 < spec.ttl)

/-- The body of the first loop; the cache may raise instead of answering. -/
def lookUp (cache : Cache ν T) (now : T) (fails : Bool) (r : Resolving ν T) (spec : ResourceSpec T)
    (rest : List (ResourceSpec T)) : Cache ν T × Resolving ν T :=
  if spec.usesCache then
    match getCacheKey spec.scope spec.key with
    | .error message => (cache, r.raise (.scopeError message))
    | .ok cacheKey =>
      if fails then (cache, r.raise .cacheError)
      else
        match cache.get now cacheKey with
        | (cache, some cached) =>
          (cache, (r.take spec.key ⟨cached.version, cached.value.1⟩).lookedUp rest)
        | (cache, none) => (cache, (r.miss spec).lookedUp rest)
  else (cache, (r.miss spec).lookedUp rest)

/-- The end of `_resolve_single`.  An exception that is not kept for the response cancels the other
tasks. -/
def finishLoader (r : Resolving ν T) (spec : ResourceSpec T) (startedAt : Nat)
    (tasks : List (ResourceSpec T × Option Nat)) (outcome : LoaderOutcome ν) : Resolving ν T :=
  match outcome with
  | .value wireValue =>
    let result : Miss ν T := ⟨spec, ⟨computeVersion wireValue, wireValue⟩, startedAt⟩
    { r with missResults := r.missResults.set spec.key result }.loaded tasks
  | outcome =>
    if spec.defer && r.request.clientSupportsDeferred && r.request.onlyKeys.isSome then
      match errorDetail r.request.debug spec.key outcome with
      | some detail =>
        { r with resourceErrors := r.resourceErrors.set spec.key detail }.loaded tasks
      | none => r
    else
      match pageError spec.key outcome with
      | some e => r.raise e
      | none => r

/-- The body of the last loop. -/
def store (cache : Cache ν T) (now : T) (fails : Bool) (r : Resolving ν T) (key : String)
    (m : Miss ν T) (rest : List (String × Miss ν T)) : Cache ν T × Resolving ν T :=
  if m.spec.usesCache then
    match getCacheKey m.spec.scope m.spec.key with
    | .error message => (cache, r.raise (.scopeError message))
    | .ok cacheKey =>
      if fails then (cache, r.raise .cacheError)
      else
        (cache.set now cacheKey
          { version := m.record.version, value := (m.record.value, m.startedAt),
            expiresAt := now + m.spec.ttl, tags := m.spec.tags } m.spec.ttl,
          (r.take key m.record).stored rest)
  else (cache, (r.take key m.record).stored rest)

/-! ## The process -/

/-- What a resolution waits for. -/
inductive Event (ν : Type) where
  | lookUp (fails : Bool)
  | startLoader (key : String)
  | finishLoader (key : String) (outcome : LoaderOutcome ν)
  | store (fails : Bool)

/-- The step from one `await` to the next, in a cache at some time. -/
def advance (cache : Cache ν T) (now : T) (steps : Nat) (r : Resolving ν T) :
    Event ν → Option (Cache ν T × Resolving ν T)
  | .lookUp fails =>
    match r.phase with
    | .lookingUp (spec :: rest) => some (lookUp cache now fails r spec rest)
    -- a loader starts on its own turn; `steps` says when
    | _ => none
  | .startLoader key =>
    match r.phase with
    | .loading tasks =>
      if (tasks.any fun task => task.1.key = key && task.2.isNone) then
        some (cache, { r with phase := .loading (tasks.map fun task =>
          if task.1.key = key then (task.1, some steps) else task) })
      else none
    | _ => none
  | .finishLoader key outcome =>
    match r.phase with
    | .loading tasks =>
      -- only a loader that has started can finish
      match tasks.find? fun task => task.1.key = key with
      | some (spec, some startedAt) =>
        some (cache, finishLoader computeVersion r spec startedAt
          (tasks.filter fun task => task.1.key ≠ key) outcome)
      | _ => none
    | _ => none
  -- results are stored one after the other, in the order in which the loaders finished
  | .store fails =>
    match r.phase with
    | .storing ((key, m) :: rest) => some (store cache now fails r key m rest)
    | _ => none

/-- A ghost: an invalidation of an identity, the step of its delete, and when the loads that were
under way had started. -/
structure Deletion where
  identity : String
  step : Nat
  underWay : List Nat

structure Process (ν T : Type) where
  cache : Cache ν T
  now : T
  steps : Nat := 0
  resolutions : List (Resolving ν T) := []
  deletions : List Deletion := []

/-- The loads that have started and whose value is not yet stored. -/
def Resolving.loads (r : Resolving ν T) : List (ResourceSpec T × Nat) :=
  match r.phase with
  | .loading tasks =>
    (tasks.filterMap fun task => task.2.map fun startedAt => (task.1, startedAt)) ++
      r.missResults.entries.map fun m => (m.2.spec, m.2.startedAt)
  | .storing rest => rest.map fun m => (m.2.spec, m.2.startedAt)
  | _ => []

/-- The loads under way that may be stored under the identity. -/
def Process.underWay (p : Process ν T) (identity : String) : List Nat :=
  (p.resolutions.flatMap Resolving.loads).filterMap fun load =>
    if load.1.usesCache ∧ getCacheKey load.1.scope load.1.key = .ok identity then some load.2
    else none

inductive Action (ν T : Type) where
  | request (q : Request T)
  | advance (i : Nat) (event : Event ν)
  /-- The delete of `LiveCoordinator.invalidate` and `patch`. -/
  | invalidate (scope : CacheScope) (key : String)
  | invalidateTag (tag : String)
  | clear
  | tick (later : T)

def step (p : Process ν T) (a : Action ν T) : Option (Process ν T) :=
  let p' := { p with steps := p.steps + 1 }
  match a with
  | .request q => some { p' with resolutions := p.resolutions ++ [Resolving.start q] }
  | .advance i event =>
    -- one event of one resolution; the cache is shared by all of them
    p.resolutions[i]?.bind fun r =>
      (advance computeVersion p.cache p.now p.steps r event).map fun (cache, r) =>
        { p' with cache := cache, resolutions := p.resolutions.set i r }
  | .invalidate scope key =>
    -- an identity that is refused deletes nothing
    match getCacheKey scope key with
    | .error _ => none
    | .ok identity => some
        -- the deletion is noted with the loads that are under way
        { p' with
          cache := p.cache.delete identity
          deletions := ⟨identity, p.steps, p.underWay identity⟩ :: p.deletions }
  | .invalidateTag tag => some { p' with cache := p.cache.invalidateTag tag }
  | .clear => some { p' with cache := p.cache.clear }
  | .tick later => if p.now ≤ later then some { p' with now := later } else none

end Steps

end FluxFast.Server.Engine
