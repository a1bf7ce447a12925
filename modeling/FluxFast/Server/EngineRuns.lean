import FluxFast.Server.Engine
import FluxFast.Server.LiveTopic
import FluxFast.Server.ResourceVersions

/-!
# EngineRuns — what a page resolution delivers

Every key that a resolution processes stays accounted for, from the first lookup to the response:
it is still to be settled, or it was taken, deferred or failed, exactly once.  The cache holds
nothing but values under their own versions, so a client that merges a response ends with what the
server took.
-/

namespace FluxFast.Server.Engine

open FluxFast.Theory PageWire MemoryResourceCache

variable {ν T : Type}

/-! ## One resolution -/

section Accounting

variable (computeVersion : Json String ν → String)

def Request.KeepsErrors (q : Request T) (spec : ResourceSpec T) : Prop :=
  spec.defer = true ∧ q.clientSupportsDeferred = true ∧ q.onlyKeys.isSome = true

def Request.Defers (q : Request T) (spec : ResourceSpec T) : Prop :=
  spec.defer = true ∧ q.clientSupportsDeferred = true ∧ q.onlyKeys = none

def Resolving.settledKeys (r : Resolving ν T) : List String :=
  r.taken.map Prod.fst ++ (r.deferredKeys ++ r.resourceErrors.keys)

/-- Every key is still to be settled or settled, once, and what is settled is where it belongs. -/
structure Accounted (r : Resolving ν T) (unsettled : List (ResourceSpec T)) : Prop where
  keys : (unsettled.map ResourceSpec.key ++ r.settledKeys).Perm
    (r.request.specsToProcess.map ResourceSpec.key)
  specs : unsettled ⊆ r.request.specsToProcess
  records : ∀ key record, r.resolvedRecords.get? key = some record ↔
    (key, record) ∈ r.taken ∧ r.request.knownVersions.get? key ≠ some record.version
  deferred : ∀ key ∈ r.deferredKeys, ∃ spec ∈ r.request.specsToProcess,
    spec.key = key ∧ r.request.Defers spec
  errors : ∀ key detail, r.resourceErrors.get? key = some detail →
    ∃ spec ∈ r.request.specsToProcess, spec.key = key ∧ r.request.KeepsErrors spec ∧
      ∃ outcome, errorDetail r.request.debug key outcome = some detail
  versions : ∀ e ∈ r.taken, e.2.version = computeVersion e.2.value

/-- The misses stand under their own keys, with the versions of their values. -/
def Computed (misses : List (String × Miss ν T)) : Prop :=
  ∀ m ∈ misses, m.1 = m.2.spec.key ∧ m.2.record.version = computeVersion m.2.record.value

/-- What holds of a resolution from one step to the next. -/
def Tracked (r : Resolving ν T) : Prop :=
  match r.phase with
  | .lookingUp rest =>
    Accounted computeVersion r (rest ++ r.pendingMisses) ∧ r.missResults.entries = []
  | .loading tasks =>
    Accounted computeVersion r
      (tasks.map Prod.fst ++ r.missResults.entries.map fun m => m.2.spec) ∧
      Computed computeVersion r.missResults.entries
  | .storing rest =>
    Accounted computeVersion r (rest.map fun m => m.2.spec) ∧ Computed computeVersion rest
  | .returned => Accounted computeVersion r []
  | .raised _ => True

variable {computeVersion} {r : Resolving ν T} {spec : ResourceSpec T}
  {unsettled unsettled' : List (ResourceSpec T)}

theorem Request.nodup_keys (q : Request T) : (q.specsToProcess.map ResourceSpec.key).Nodup := by
  unfold Request.specsToProcess
  cases q.onlyKeys with
  | none => exact q.keys_nodup
  | some keys => exact q.keys_nodup.sublist (List.filter_sublist.map _)

namespace Accounted

theorem perm (h : Accounted computeVersion r unsettled) (hperm : unsettled.Perm unsettled') :
    Accounted computeVersion r unsettled' where
  keys := ((hperm.symm.map _).append_right _).trans h.keys
  specs _ hspec := h.specs (hperm.mem_iff.mpr hspec)
  records := h.records
  deferred := h.deferred
  errors := h.errors
  versions := h.versions

theorem nodup (h : Accounted computeVersion r unsettled) :
    (unsettled.map ResourceSpec.key ++ r.settledKeys).Nodup :=
  h.keys.nodup_iff.mpr r.request.nodup_keys

/-- The key of a resource that is still to be settled is not settled. -/
theorem not_mem_settledKeys (h : Accounted computeVersion r (spec :: unsettled)) :
    spec.key ∉ r.settledKeys := fun hkey =>
  (List.nodup_append.mp h.nodup).2.2 spec.key List.mem_cons_self spec.key hkey rfl

/-- A key that leaves the unsettled ones for the end of the settled ones. -/
theorem keys_settle (h : Accounted computeVersion r (spec :: unsettled)) {settled : List String}
    (hperm : settled.Perm (spec.key :: r.settledKeys)) :
    (unsettled.map ResourceSpec.key ++ settled).Perm
      (r.request.specsToProcess.map ResourceSpec.key) :=
  ((hperm.append_left _).trans List.perm_middle).trans h.keys

theorem take (h : Accounted computeVersion r (spec :: unsettled)) {record : WireRecord ν}
    (hversion : record.version = computeVersion record.value) :
    Accounted computeVersion (r.take spec.key record) unsettled := by
  -- a key that is still open was not taken before
  have hnew : ∀ x, (spec.key, x) ∉ r.taken := fun x hx =>
    h.not_mem_settledKeys (List.mem_append_left _ (List.mem_map_of_mem hx))
  have hspecs : unsettled ⊆ r.request.specsToProcess := fun s hs =>
    h.specs (List.mem_cons_of_mem _ hs)
  have hkeys : (unsettled.map ResourceSpec.key ++ ((r.taken ++ [(spec.key, record)]).map Prod.fst ++
      (r.deferredKeys ++ r.resourceErrors.keys))).Perm
        (r.request.specsToProcess.map ResourceSpec.key) := by
    -- the key moves from the open ones to the taken ones
    refine h.keys_settle ?_
    rw [List.map_append, List.append_assoc]
    exact List.perm_middle
  have hversions : ∀ e ∈ r.taken ++ [(spec.key, record)], e.2.version = computeVersion e.2.value := by
    intro e he
    rcases List.mem_append.mp he with hold | hlast
    · exact h.versions e hold
    · rw [List.mem_singleton.mp hlast]
      exact hversion
  have hmem : ∀ key x, (key, x) ∈ r.taken ++ [(spec.key, record)] ↔
      (key, x) ∈ r.taken ∨ (key = spec.key ∧ x = record) := by
    intro key x
    rw [List.mem_append, List.mem_singleton, Prod.mk.injEq]
  unfold Resolving.take
  split
  -- the client knows this version: nothing is sent
  · next hknown =>
    refine ⟨hkeys, hspecs, fun key x => ?_, h.deferred, h.errors, hversions⟩
    rw [hmem, h.records, or_and_right]
    refine ⟨.inl, fun hx => hx.elim id ?_⟩
    rintro ⟨⟨rfl, rfl⟩, hother⟩
    exact absurd hknown hother
  -- otherwise the record is sent under its key
  · next hknown =>
    refine ⟨hkeys, hspecs, fun key x => ?_, h.deferred, h.errors, hversions⟩
    rw [hmem]
    by_cases hkey : key = spec.key
    · subst hkey
      rw [OrderedMap.get?_set_self, Option.some.injEq]
      constructor
      · rintro rfl
        exact ⟨.inr ⟨rfl, rfl⟩, hknown⟩
      · rintro ⟨hold | ⟨-, rfl⟩, -⟩
        · exact absurd hold (hnew x)
        · rfl
    · rw [OrderedMap.get?_set_ne _ _ hkey, h.records]
      simp [hkey]

theorem defer (h : Accounted computeVersion r (spec :: unsettled)) (hdefer : r.request.Defers spec) :
    Accounted computeVersion { r with deferredKeys := r.deferredKeys ++ [spec.key] } unsettled where
  keys := by
    refine h.keys_settle ?_
    show (_ ++ (r.deferredKeys ++ [spec.key] ++ r.resourceErrors.keys)).Perm _
    rw [List.append_assoc, ← List.append_assoc]
    exact List.perm_middle.trans (by rw [List.append_assoc]; rfl)
  specs s hs := h.specs (List.mem_cons_of_mem _ hs)
  records := h.records
  deferred key hkey := by
    rcases List.mem_append.mp hkey with hold | hlast
    · exact h.deferred key hold
    · exact ⟨spec, h.specs List.mem_cons_self, (List.mem_singleton.mp hlast).symm, hdefer⟩
  errors := h.errors
  versions := h.versions

theorem fail (h : Accounted computeVersion r (spec :: unsettled))
    (hkeeps : r.request.KeepsErrors spec) {outcome : LoaderOutcome ν} {detail : ErrorDetail ν}
    (hdetail : errorDetail r.request.debug spec.key outcome = some detail) :
    Accounted computeVersion
      { r with resourceErrors := r.resourceErrors.set spec.key detail } unsettled where
  keys := by
    have hnew : spec.key ∉ r.resourceErrors.keys := fun hkey =>
      h.not_mem_settledKeys (List.mem_append_right _ (List.mem_append_right _ hkey))
    refine h.keys_settle ?_
    show (_ ++ (r.deferredKeys ++ (r.resourceErrors.set spec.key detail).keys)).Perm _
    have hend : r.taken.map Prod.fst ++ (r.deferredKeys ++ (r.resourceErrors.keys ++ [spec.key])) =
        r.settledKeys ++ [spec.key] := by simp [Resolving.settledKeys]
    rw [OrderedMap.keys_set_of_not_mem _ hnew, hend]
    exact List.perm_append_singleton _ _
  specs s hs := h.specs (List.mem_cons_of_mem _ hs)
  records := h.records
  deferred := h.deferred
  errors key d hd := by
    by_cases hkey : key = spec.key
    · subst hkey
      rw [OrderedMap.get?_set_self] at hd
      cases hd
      exact ⟨spec, h.specs List.mem_cons_self, rfl, hkeeps, outcome, hdetail⟩
    · exact h.errors key d ((OrderedMap.get?_set_ne _ _ hkey).symm.trans hd)
  versions := h.versions

end Accounted

/-- The invariant does not read the phase and what belongs to it. -/
theorem Accounted.phase (h : Accounted computeVersion r unsettled) (phase : Phase ν T)
    (pendingMisses : List (ResourceSpec T)) (missResults : OrderedMap String (Miss ν T)) :
    Accounted computeVersion
      { r with phase := phase, pendingMisses := pendingMisses, missResults := missResults }
      unsettled :=
  ⟨h.keys, h.specs, h.records, h.deferred, h.errors, h.versions⟩

theorem tracked_lookedUp {rest : List (ResourceSpec T)}
    (h : Accounted computeVersion r (rest ++ r.pendingMisses)) (hmisses : r.missResults.entries = []) :
    Tracked computeVersion (r.lookedUp rest) := by
  unfold Resolving.lookedUp
  split
  · next hrest =>
    rw [List.isEmpty_iff.mp hrest, List.nil_append] at h
    split
    · next hpending =>
      rw [List.isEmpty_iff.mp hpending] at h
      exact h.phase _ _ _
    · show Accounted _ _ ((r.pendingMisses.map fun spec => (spec, none)).map Prod.fst ++
        r.missResults.entries.map fun m => m.2.spec) ∧ Computed _ r.missResults.entries
      rw [hmisses, List.map_map, List.map_nil, List.append_nil]
      have hsame : r.pendingMisses.map (Prod.fst ∘ fun spec => (spec, (none : Option Nat))) =
          r.pendingMisses := List.map_id _
      rw [hsame]
      exact ⟨h.phase _ _ _, nofun⟩
  · exact ⟨h.phase _ _ _, hmisses⟩

theorem tracked_loaded {tasks : List (ResourceSpec T × Option Nat)}
    (h : Accounted computeVersion r
      (tasks.map Prod.fst ++ r.missResults.entries.map fun m => m.2.spec))
    (hmisses : Computed computeVersion r.missResults.entries) :
    Tracked computeVersion (r.loaded tasks) := by
  unfold Resolving.loaded
  split
  · next htasks =>
    rw [List.isEmpty_iff.mp htasks, List.map_nil, List.nil_append] at h
    split
    · next hentries =>
      rw [List.isEmpty_iff.mp hentries] at h
      exact h.phase _ _ _
    · exact ⟨h.phase _ _ _, hmisses⟩
  · exact ⟨h.phase _ _ _, hmisses⟩

theorem tracked_stored {rest : List (String × Miss ν T)}
    (h : Accounted computeVersion r (rest.map fun m => m.2.spec))
    (hmisses : Computed computeVersion rest) : Tracked computeVersion (r.stored rest) := by
  unfold Resolving.stored
  split
  · next hrest =>
    rw [List.isEmpty_iff.mp hrest] at h
    exact h.phase _ _ _
  · exact ⟨h.phase _ _ _, hmisses⟩

theorem tracked_start (q : Request T) : Tracked computeVersion (Resolving.start (ν := ν) q) := by
  refine tracked_lookedUp ⟨?_, ?_, ?_, nofun, ?_, nofun⟩ rfl
  · show ((q.specsToProcess ++ []).map ResourceSpec.key ++ []).Perm _
    rw [List.append_nil, List.append_nil]
  · show q.specsToProcess ++ [] ⊆ q.specsToProcess
    rw [List.append_nil]
    exact List.Subset.refl _
  · exact fun key record => iff_of_false nofun fun h => nomatch h.1
  · exact fun key detail h => nomatch h

theorem tracked_miss {rest : List (ResourceSpec T)}
    (h : Accounted computeVersion r (spec :: rest ++ r.pendingMisses))
    (hmisses : r.missResults.entries = []) : Tracked computeVersion ((r.miss spec).lookedUp rest) := by
  unfold Resolving.miss
  split
  · next hdefer =>
    rw [Bool.and_eq_true, Bool.and_eq_true, Option.isNone_iff_eq_none] at hdefer
    exact tracked_lookedUp (h.defer ⟨hdefer.1.1, hdefer.1.2, hdefer.2⟩) hmisses
  · refine tracked_lookedUp ?_ hmisses
    have hperm : (spec :: rest ++ r.pendingMisses).Perm (rest ++ (r.pendingMisses ++ [spec])) := by
      rw [← List.append_assoc]
      exact (List.perm_append_singleton _ _).symm
    exact (h.perm hperm).phase _ _ _

theorem pendingMisses_take (r : Resolving ν T) (key : String) (record : WireRecord ν) :
    (r.take key record).pendingMisses = r.pendingMisses := by
  unfold Resolving.take
  split <;> rfl

theorem missResults_take (r : Resolving ν T) (key : String) (record : WireRecord ν) :
    (r.take key record).missResults = r.missResults := by
  unfold Resolving.take
  split <;> rfl

theorem tracked_hit {rest : List (ResourceSpec T)}
    (h : Accounted computeVersion r (spec :: rest ++ r.pendingMisses))
    (hmisses : r.missResults.entries = []) {record : WireRecord ν}
    (hversion : record.version = computeVersion record.value) :
    Tracked computeVersion ((r.take spec.key record).lookedUp rest) := by
  refine tracked_lookedUp ?_ ((missResults_take r _ _).symm ▸ hmisses)
  rw [pendingMisses_take]
  exact h.take hversion

/-! ## The tasks of the group -/

/-- A task out of a group whose keys are different, and the others. -/
theorem perm_of_find? {tasks : List (ResourceSpec T × Option Nat)} {key : String}
    {task : ResourceSpec T × Option Nat}
    (hnodup : (tasks.map fun task => task.1.key).Nodup)
    (hfind : (tasks.find? fun task => task.1.key = key) = some task) :
    task.1.key = key ∧ tasks.Perm (task :: tasks.filter fun task => task.1.key ≠ key) := by
  have hkey : task.1.key = key := by simpa using List.find?_some hfind
  refine ⟨hkey, ?_⟩
  induction tasks with
  | nil => cases hfind
  | cons first tasks ih =>
    obtain ⟨hnew, hrest⟩ := List.nodup_cons.mp hnodup
    by_cases hfirst : first.1.key = key
    · rw [List.find?_cons_of_pos (by simp [hfirst])] at hfind
      cases hfind
      have hothers : tasks.filter (fun task => decide (task.1.key ≠ key)) = tasks :=
        List.filter_eq_self.mpr fun other hother => decide_eq_true fun heq =>
          hnew (List.mem_map.mpr ⟨other, hother, heq.trans hfirst.symm⟩)
      rw [List.filter_cons_of_neg (by simp [hkey]), hothers]
    · rw [List.find?_cons_of_neg (by simp [hfirst])] at hfind
      rw [List.filter_cons_of_pos (by simp [hfirst])]
      exact ((ih hrest hfind).cons first).trans (.swap _ _ _)

theorem Accounted.nodup_tasks {tasks : List (ResourceSpec T × Option Nat)}
    {misses : List (ResourceSpec T)}
    (h : Accounted computeVersion r (tasks.map Prod.fst ++ misses)) :
    (tasks.map fun task => task.1.key).Nodup := by
  have hnodup := (List.nodup_append.mp h.nodup).1
  rw [List.map_append, List.map_map] at hnodup
  exact (List.nodup_append.mp hnodup).1

theorem map_fst_started (tasks : List (ResourceSpec T × Option Nat)) (key : String) (steps : Nat) :
    (tasks.map fun task => if task.1.key = key then (task.1, some steps) else task).map Prod.fst =
      tasks.map Prod.fst := by
  rw [List.map_map]
  refine List.map_congr_left fun task _ => ?_
  show (if task.1.key = key then (task.1, some steps) else task).1 = task.1
  split <;> rfl

section Advance

variable [LinearOrder T] [Add T] [Zero T] {cache : Cache ν T} {now : T} {bound : Int}

/-- What the cache holds stands under its own version. -/
def Versioned (computeVersion : Json String ν → String) (cache : Cache ν T) : Prop :=
  ∀ key entry, cache.cache.get? key = some entry → entry.version = computeVersion entry.value.1

omit [Add T] [Zero T] in
theorem get_eq_some (h : (cache.get now key).2 = some entry) : cache.cache.get? key = some entry := by
  rcases get_cases cache now key with ⟨-, hget⟩ | ⟨_, -, -, hget⟩ | ⟨held, hheld, -, hget⟩
  · rw [hget] at h
    cases h
  · rw [hget] at h
    cases h
  · rw [hget] at h
    cases h
    exact hheld

/-- What a cache holds after an operation it held before, or the operation wrote it. -/
theorem held_of_run {V : Type} {c : MemoryResourceCache V T} (hsound : Sound bound c) {op : Op V T}
    {key : String} {entry : CachedResource V T} (h : (c.run op).cache.get? key = some entry) :
    c.cache.get? key = some entry ∨ ∃ now resource ttl, op = .set now key resource ttl ∧
      entry = { resource with expiresAt := now + ttl } := by
  -- taking out one key leaves the entries of the others
  have hdelete : ∀ {m : OrderedMap String (CachedResource V T)} {gone : String},
      (m.delete gone).get? key = some entry → m.get? key = some entry := by
    intro m gone hget
    rw [OrderedMap.get?_delete] at hget
    split at hget
    · cases hget
    · exact hget
  -- One case for each operation; only a write puts an entry in.
  cases op with
  | get now gone =>
    left
    -- a read that finds an entry may move it, one that finds it expired takes it out
    rcases get_cases c now gone with ⟨-, hget⟩ | ⟨_, -, -, hget⟩ | ⟨_, -, -, hget⟩
    · rw [run, hget] at h
      exact h
    · rw [run, hget, cache_removeInternal] at h
      exact hdelete h
    · rw [run, hget] at h
      exact (OrderedMap.get?_moveToEnd _ _ _).symm.trans h
  | set now written resource ttl =>
    by_cases httl : ttl ≤ 0
    · rw [run, set_of_no_lifetime c now written resource httl, cache_removeInternal] at h
      exact .inl (hdelete h)
    · have hmem := OrderedMap.get?_eq_some_iff.mp h
      rw [run, entries_set hsound now written resource httl] at hmem
      -- writing may evict the oldest entry
      rcases List.mem_append.mp hmem with hold | hlast
      · left
        refine hdelete (OrderedMap.get?_eq_some_iff.mpr ?_ : (c.cache.delete written).get? key = _)
        split at hold
        · exact hold
        · exact List.mem_of_mem_tail hold
      · cases List.mem_singleton.mp hlast
        exact .inr ⟨now, resource, ttl, rfl, rfl⟩
  | delete gone =>
    rw [run, MemoryResourceCache.delete, cache_removeInternal] at h
    exact .inl (hdelete h)
  | invalidateTag tag =>
    have hmem := OrderedMap.get?_eq_some_iff.mp h
    rw [run, entries_invalidateTag (hsound.indexes tag)] at hmem
    exact .inl (OrderedMap.get?_eq_some_iff.mpr (List.mem_of_mem_filter hmem))
  | clear => cases h

/-! ## What a step does to the cache -/

/-- The entry that a miss is stored as. -/
def Miss.entry (m : Miss ν T) (now : T) : CachedResource (Json String ν × Nat) T where
  version := m.record.version
  value := (m.record.value, m.startedAt)
  expiresAt := now + m.spec.ttl
  tags := m.spec.tags

/-- A step reads the cache, or stores a miss. -/
theorem cache_advance {steps : Nat} {event : Event ν} {cache' : Cache ν T} {r' : Resolving ν T}
    (h : advance computeVersion cache now steps r event = some (cache', r')) :
    cache' = cache ∨ (∃ key, cache' = cache.run (.get now key)) ∨
      ∃ name m rest key, r.phase = .storing ((name, m) :: rest) ∧ m.spec.usesCache = true ∧
        getCacheKey m.spec.scope m.spec.key = .ok key ∧
        cache' = cache.run (.set now key (m.entry now) m.spec.ttl) := by
  -- Only looking up and storing touch the cache, and each with one operation of it.
  cases event with
  | lookUp fails =>
    rw [advance] at h
    split at h
    · next spec rest hphase =>
      have hcache := congrArg Prod.fst (Option.some.inj h)
      rw [lookUp] at hcache
      split at hcache
      · split at hcache
        · exact .inl hcache.symm
        · next key hkey =>
          split at hcache
          · exact .inl hcache.symm
          -- found or not, the lookup is a `get`
          · split at hcache
            · next got cached hget =>
              exact .inr (.inl ⟨key, hcache.symm.trans (congrArg Prod.fst hget).symm⟩)
            · next got hget =>
              exact .inr (.inl ⟨key, hcache.symm.trans (congrArg Prod.fst hget).symm⟩)
      · exact .inl hcache.symm
    · cases h
  | startLoader key =>
    rw [advance] at h
    split at h
    · split at h
      · exact .inl (congrArg Prod.fst (Option.some.inj h)).symm
      · cases h
    · cases h
  | finishLoader key outcome =>
    rw [advance] at h
    split at h
    · split at h
      · exact .inl (congrArg Prod.fst (Option.some.inj h)).symm
      · cases h
    · cases h
  | store fails =>
    rw [advance] at h
    split at h
    · next name m rest hphase =>
      -- a failing write leaves the cache as it is
      have hcache := congrArg Prod.fst (Option.some.inj h)
      rw [store] at hcache
      split at hcache
      · next huses =>
        split at hcache
        · exact .inl hcache.symm
        · next key hkey =>
          split at hcache
          · exact .inl hcache.symm
          · exact .inr (.inr ⟨name, m, rest, key, hphase, huses, hkey, hcache.symm⟩)
      · exact .inl hcache.symm
    · cases h

theorem sound_advance {steps : Nat} {event : Event ν} {cache' : Cache ν T} {r' : Resolving ν T}
    (hsound : Sound bound cache)
    (h : advance computeVersion cache now steps r event = some (cache', r')) :
    Sound bound cache' := by
  rcases cache_advance h with rfl | ⟨key, rfl⟩ | ⟨name, m, rest, key, -, -, -, rfl⟩
  · exact hsound
  · exact sound_run hsound _
  · exact sound_run hsound _

/-- Reads and deletes bring nothing into the cache. -/
theorem Versioned.run_drop (hversioned : Versioned computeVersion cache) (hsound : Sound bound cache)
    (op : Op (Json String ν × Nat) T) (hdrop : ∀ now key resource ttl, op ≠ .set now key resource ttl) :
    Versioned computeVersion (cache.run op) := by
  intro key entry hentry
  rcases held_of_run hsound hentry with hold | ⟨now, resource, ttl, hset, -⟩
  · exact hversioned key entry hold
  · exact absurd hset (hdrop now key resource ttl)

theorem versioned_advance {steps : Nat} {event : Event ν} {cache' : Cache ν T}
    {r' : Resolving ν T} (hsound : Sound bound cache) (hversioned : Versioned computeVersion cache)
    (htracked : Tracked computeVersion r)
    (h : advance computeVersion cache now steps r event = some (cache', r')) :
    Versioned computeVersion cache' := by
  rcases cache_advance h with rfl | ⟨key, rfl⟩ | ⟨name, m, rest, key, hphase, -, -, rfl⟩
  · exact hversioned
  · exact hversioned.run_drop hsound _ nofun
  · intro k entry hentry
    rcases held_of_run hsound hentry with hold | ⟨_, _, _, heq, rfl⟩
    · exact hversioned k entry hold
    · cases heq
      rw [Tracked, hphase] at htracked
      exact (htracked.2 (name, m) List.mem_cons_self).2

/-! ## What a step does to the resolution -/

omit [Add T] in
theorem tracked_lookUp {fails : Bool} {rest : List (ResourceSpec T)}
    (hversioned : Versioned computeVersion cache)
    (h : Accounted computeVersion r (spec :: rest ++ r.pendingMisses))
    (hmisses : r.missResults.entries = []) :
    Tracked computeVersion (lookUp cache now fails r spec rest).2 := by
  unfold lookUp
  split
  · split
    · trivial
    · next key hkey =>
      split
      · trivial
      · split
        · next got cached hget =>
          have hsome : (cache.get now key).2 = some cached := hget ▸ rfl
          have hheld : cache.cache.get? key = some cached := get_eq_some hsome
          exact tracked_hit h hmisses (hversioned key cached hheld)
        · exact tracked_miss h hmisses
  · exact tracked_miss h hmisses

omit [LinearOrder T] [Add T] [Zero T] in
theorem Computed.names {misses : List (String × Miss ν T)} (h : Computed computeVersion misses) :
    misses.map Prod.fst = (misses.map fun m => m.2.spec).map ResourceSpec.key := by
  rw [List.map_map]
  exact List.map_congr_left fun m hm => (h m hm).1

omit [LinearOrder T] [Add T] [Zero T] in
theorem tracked_failed {tasks : List (ResourceSpec T × Option Nat)} {outcome : LoaderOutcome ν}
    (h : Accounted computeVersion r
      (spec :: (tasks.map Prod.fst ++ r.missResults.entries.map fun m => m.2.spec)))
    (hmisses : Computed computeVersion r.missResults.entries) (hkeeps : r.request.KeepsErrors spec)
    {detail : ErrorDetail ν}
    (hdetail : errorDetail r.request.debug spec.key outcome = some detail) :
    Tracked computeVersion ({ r with
      resourceErrors := r.resourceErrors.set spec.key detail }.loaded tasks) :=
  tracked_loaded (h.fail hkeeps hdetail) hmisses

omit [LinearOrder T] [Add T] [Zero T] in
theorem tracked_finishLoader {startedAt : Nat} {tasks : List (ResourceSpec T × Option Nat)}
    {outcome : LoaderOutcome ν}
    (h : Accounted computeVersion r
      (spec :: (tasks.map Prod.fst ++ r.missResults.entries.map fun m => m.2.spec)))
    (hmisses : Computed computeVersion r.missResults.entries) :
    Tracked computeVersion (finishLoader computeVersion r spec startedAt tasks outcome) := by
  have hkeeps : (spec.defer && r.request.clientSupportsDeferred && r.request.onlyKeys.isSome) =
      true → r.request.KeepsErrors spec := by
    rw [Bool.and_eq_true, Bool.and_eq_true]
    exact fun hall => ⟨hall.1.1, hall.1.2, hall.2⟩
  -- A value is kept for storing; an error is kept only where the source keeps errors.
  cases outcome with
  | value wireValue =>
    -- the key had no result yet, so the result comes last
    have hnew : spec.key ∉ r.missResults.keys := by
      have hnodup := (List.nodup_append.mp h.nodup).1
      rw [List.map_cons, List.nodup_cons, List.map_append, List.mem_append, not_or,
        ← hmisses.names] at hnodup
      exact hnodup.1.2
    have hentries : (r.missResults.set spec.key
        ⟨spec, ⟨computeVersion wireValue, wireValue⟩, startedAt⟩).entries = r.missResults.entries ++
          [(spec.key, ⟨spec, ⟨computeVersion wireValue, wireValue⟩, startedAt⟩)] :=
      OrderedMap.entries_set_of_not_mem _ hnew
    refine tracked_loaded ?_ ?_
    · show Accounted _ _ (_ ++ (r.missResults.set _ _).entries.map _)
      rw [hentries, List.map_append, ← List.append_assoc]
      exact (h.perm (List.perm_append_singleton _ _).symm).phase _ _ _
    · show Computed _ (r.missResults.set _ _).entries
      rw [hentries]
      intro m hm
      rcases List.mem_append.mp hm with hold | hlast
      · exact hmisses m hold
      · cases List.mem_singleton.mp hlast
        exact ⟨rfl, rfl⟩
  | contractError message details =>
    rw [finishLoader]
    split
    · next hcondition =>
      exact tracked_failed h hmisses (hkeeps hcondition)
        (show errorDetail _ _ (.contractError message details) = _ from rfl)
    · trivial
    · nofun
  | exception text =>
    rw [finishLoader]
    split
    · next hcondition =>
      exact tracked_failed h hmisses (hkeeps hcondition)
        (show errorDetail _ _ (.exception text) = _ from rfl)
    · trivial
    · nofun

theorem tracked_store {fails : Bool} {key : String} {m : Miss ν T} {rest : List (String × Miss ν T)}
    (h : Accounted computeVersion r (m.spec :: rest.map fun m => m.2.spec))
    (hmisses : Computed computeVersion ((key, m) :: rest)) :
    Tracked computeVersion (store cache now fails r key m rest).2 := by
  obtain ⟨⟨hkey, hversion⟩, hrest⟩ := List.forall_mem_cons.mp hmisses
  have htaken : Tracked computeVersion ((r.take key m.record).stored rest) := by
    rw [show key = m.spec.key from hkey]
    exact tracked_stored (h.take hversion) hrest
  unfold store
  split
  · split
    · trivial
    · split
      · trivial
      · exact htaken
  · exact htaken

theorem tracked_advance {steps : Nat} {event : Event ν} {cache' : Cache ν T} {r' : Resolving ν T}
    (hversioned : Versioned computeVersion cache) (htracked : Tracked computeVersion r)
    (h : advance computeVersion cache now steps r event = some (cache', r')) :
    Tracked computeVersion r' := by
  -- One case for each event, each handing over to the lemma of its function.
  cases event with
  | lookUp fails =>
    rw [advance] at h
    split at h
    · next spec rest hphase =>
      rw [Tracked, hphase] at htracked
      have heq : (lookUp cache now fails r spec rest).2 = r' := congrArg Prod.snd (Option.some.inj h)
      rw [← heq]
      exact tracked_lookUp hversioned htracked.1 htracked.2
    · cases h
  | startLoader key =>
    rw [advance] at h
    split at h
    · next tasks hphase =>
      rw [Tracked, hphase] at htracked
      split at h
      · cases h
        show Accounted _ _ ((tasks.map _).map Prod.fst ++ _) ∧ _
        rw [map_fst_started]
        exact ⟨htracked.1.phase _ _ _, htracked.2⟩
      · cases h
    · cases h
  | finishLoader key outcome =>
    rw [advance] at h
    split at h
    · next tasks hphase =>
      rw [Tracked, hphase] at htracked
      split at h
      · next spec startedAt hfind =>
        -- the task that has finished leaves the others in their order
        obtain ⟨-, hperm⟩ := perm_of_find? htracked.1.nodup_tasks hfind
        cases h
        refine tracked_finishLoader (htracked.1.perm ?_) htracked.2
        exact (hperm.map Prod.fst).append_right _
      · cases h
    · cases h
  | store fails =>
    rw [advance] at h
    split at h
    · next key m rest hphase =>
      rw [Tracked, hphase] at htracked
      have heq : (store cache now fails r key m rest).2 = r' :=
        congrArg Prod.snd (Option.some.inj h)
      rw [← heq]
      exact tracked_store htracked.1 htracked.2
    · cases h

end Advance

/-! ## Every run -/

section Runs

variable [LinearOrder T] [Add T] [Zero T] {bound : Int} {p p' : Process ν T}

/-- What every step of the process keeps. -/
structure Consistent (computeVersion : Json String ν → String) (bound : Int) (p : Process ν T) :
    Prop where
  sound : Sound bound p.cache
  versioned : Versioned computeVersion p.cache
  tracked : ∀ r ∈ p.resolutions, Tracked computeVersion r

theorem consistent_step {a : Action ν T} (h : Consistent computeVersion bound p)
    (hstep : step computeVersion p a = some p') : Consistent computeVersion bound p' := by
  -- The cache is changed by operations only, and each of them keeps it sound and versioned.
  cases a with
  | request q =>
    cases hstep
    refine ⟨h.sound, h.versioned, fun r hr => ?_⟩
    rcases List.mem_append.mp hr with hold | hnew
    · exact h.tracked r hold
    · rw [List.mem_singleton.mp hnew]
      exact tracked_start q
  | advance i event =>
    obtain ⟨r, hr, hstep⟩ := Option.bind_eq_some_iff.mp hstep
    -- the other resolutions are where they were
    obtain ⟨⟨cache, r'⟩, hadvance, rfl⟩ := Option.map_eq_some_iff.mp hstep
    have htracked := h.tracked r (List.mem_of_getElem? hr)
    refine ⟨sound_advance h.sound hadvance,
      versioned_advance h.sound h.versioned htracked hadvance, fun x hx => ?_⟩
    rcases List.mem_or_eq_of_mem_set hx with hold | rfl
    · exact h.tracked x hold
    · exact tracked_advance h.versioned htracked hadvance
  | invalidate scope key =>
    rw [step] at hstep
    split at hstep
    · cases hstep
    · next identity hidentity =>
      cases hstep
      exact ⟨sound_run h.sound (.delete identity),
        h.versioned.run_drop h.sound (.delete identity) nofun, h.tracked⟩
  | invalidateTag tag =>
    cases hstep
    exact ⟨sound_run h.sound (.invalidateTag tag),
      h.versioned.run_drop h.sound (.invalidateTag tag) nofun, h.tracked⟩
  | clear =>
    cases hstep
    exact ⟨sound_run h.sound .clear, h.versioned.run_drop h.sound .clear nofun, h.tracked⟩
  | tick later =>
    rw [step] at hstep
    split at hstep
    · cases hstep
      exact ⟨h.sound, h.versioned, h.tracked⟩
    · cases hstep

/-- A process starts with an empty cache. -/
def Process.start (cache : Cache ν T) (now : T) : Process ν T := { cache := cache, now := now }

theorem consistent_run {cache : Cache ν T} {now : T} (hcreate : create bound = some cache)
    (hrun : Run (step computeVersion) Always (Process.start cache now) p) :
    Consistent computeVersion bound p := by
  refine hrun.invariant (fun _ _ _ h _ hstep => consistent_step h hstep)
    ⟨sound_create hcreate, ?_, nofun⟩
  intro key entry hentry
  rw [show (Process.start cache now).cache.cache = .empty from cache_create hcreate] at hentry
  cases hentry

/-! ## Responses -/

inductive Fate where
  | sent | omitted | deferred | failed

/-- Where a response has a key. -/
def LandsIn (res : Resolution ν) (key : String) : Fate → Prop
  | .sent => key ∈ res.resources.keys
  | .omitted => key ∉ res.resources.keys ∧ key ∉ res.deferred ∧ key ∉ res.errors.keys
  | .deferred => key ∈ res.deferred
  | .failed => key ∈ res.errors.keys

/-- What a response says about the resources that were processed. -/
structure Settles (r : Resolving ν T) : Prop where
  one : ∀ spec ∈ r.request.specsToProcess, ∃! fate, LandsIn r.resolution spec.key fate
  others : ∀ key fate, LandsIn r.resolution key fate →
    (∃ spec ∈ r.request.specsToProcess, spec.key = key) ∨ fate = .omitted
  sent : ∀ key record, r.resolvedRecords.get? key = some record →
    (key, record) ∈ r.taken ∧ r.request.knownVersions.get? key ≠ some record.version
  omitted : ∀ spec ∈ r.request.specsToProcess, LandsIn r.resolution spec.key .omitted →
    ∃ record, (spec.key, record) ∈ r.taken ∧
      r.request.knownVersions.get? spec.key = some record.version
  deferred : ∀ key, LandsIn r.resolution key .deferred →
    ∃ spec ∈ r.request.specsToProcess, spec.key = key ∧ r.request.Defers spec
  failed : ∀ key detail, r.resourceErrors.get? key = some detail →
    ∃ spec ∈ r.request.specsToProcess, spec.key = key ∧ r.request.KeepsErrors spec ∧
      ∃ outcome, errorDetail r.request.debug key outcome = some detail

omit [LinearOrder T] [Add T] [Zero T] in
theorem settles_of_accounted {r : Resolving ν T} (h : Accounted computeVersion r []) : Settles r := by
  have hkeys : r.settledKeys.Perm (r.request.specsToProcess.map ResourceSpec.key) := h.keys
  have hnodup : r.settledKeys.Nodup := h.nodup
  -- taken, deferred and failed keys are three disjoint parts of the keys to process
  obtain ⟨-, hrest, hapart⟩ := List.nodup_append.mp hnodup
  obtain ⟨-, -, hapart'⟩ := List.nodup_append.mp hrest
  have hsent : ∀ key, key ∈ r.resolvedRecords.keys → key ∈ r.taken.map Prod.fst := by
    intro key hkey
    obtain ⟨record, hrecord⟩ := OrderedMap.mem_keys_iff.mp hkey
    exact List.mem_map_of_mem ((h.records key record).mp hrecord).1
  have htaken : ∀ key, key ∈ r.taken.map Prod.fst → key ∉ r.deferredKeys ∧
      key ∉ r.resourceErrors.keys := fun key hkey =>
    ⟨fun hdeferred => hapart key hkey key (List.mem_append_left _ hdeferred) rfl,
      fun herror => hapart key hkey key (List.mem_append_right _ herror) rfl⟩
  -- so a key lands in one place
  have hunique : ∀ key fate fate', LandsIn r.resolution key fate → LandsIn r.resolution key fate' →
      fate = fate' := by
    intro key fate fate' hfate hfate'
    have hboth := fun hkey => htaken key (hsent key hkey)
    have hother : key ∈ r.deferredKeys → key ∉ r.resourceErrors.keys :=
      fun hdeferred herror => hapart' key hdeferred key herror rfl
    cases fate <;> cases fate' <;> simp only [LandsIn, Resolving.resolution] at hfate hfate' <;> grind
  have hprocessed : ∀ key, key ∈ r.settledKeys →
      ∃ spec ∈ r.request.specsToProcess, spec.key = key :=
    fun key hkey => List.mem_map.mp (hkeys.mem_iff.mp hkey)
  refine ⟨fun spec hspec => ?_, fun key fate hfate => ?_, fun key record => (h.records key record).mp,
    fun spec hspec hfate => ?_, h.deferred, h.errors⟩
  -- every key lands somewhere: what is taken and not sent is omitted
  · have hsettled : spec.key ∈ r.settledKeys := hkeys.mem_iff.mpr (List.mem_map_of_mem hspec)
    have hexists : ∃ fate, LandsIn r.resolution spec.key fate := by
      by_cases hin : spec.key ∈ r.resolvedRecords.keys
      · exact ⟨.sent, hin⟩
      rcases List.mem_append.mp hsettled with hkey | hkey
      · exact ⟨.omitted, hin, htaken _ hkey⟩
      · rcases List.mem_append.mp hkey with hkey | hkey
        · exact ⟨.deferred, hkey⟩
        · exact ⟨.failed, hkey⟩
    obtain ⟨fate, hfate⟩ := hexists
    exact ⟨fate, hfate, fun fate' hfate' => hunique _ _ _ hfate' hfate⟩
  -- and what is sent, deferred or failed was among the keys to process
  · cases fate with
    | sent => exact .inl (hprocessed key (List.mem_append_left _ (hsent key hfate)))
    | omitted => exact .inr rfl
    | deferred =>
      exact .inl (hprocessed key (List.mem_append_right _ (List.mem_append_left _ hfate)))
    | failed =>
      exact .inl (hprocessed key (List.mem_append_right _ (List.mem_append_right _ hfate)))
  -- an omitted key was taken, and only a known version keeps a taken record back
  · obtain ⟨hin, hdeferred, herrors⟩ := hfate
    have hkey : spec.key ∈ r.taken.map Prod.fst := by
      rcases List.mem_append.mp (hkeys.mem_iff.mpr (List.mem_map_of_mem hspec)) with hkey | hkey
      · exact hkey
      · rcases List.mem_append.mp hkey with hkey | hkey
        · exact absurd hkey hdeferred
        · exact absurd hkey herrors
    obtain ⟨⟨key, record⟩, hrecord, rfl⟩ := List.mem_map.mp hkey
    refine ⟨record, hrecord, ?_⟩
    by_contra hunknown
    exact hin (OrderedMap.mem_keys_of_get? ((h.records _ record).mpr ⟨hrecord, hunknown⟩))

/-- Whenever a resolution returns, each key it processed is settled in one way, and for a reason. -/
theorem returned_settles {cache : Cache ν T} {now : T} (hcreate : create bound = some cache)
    (hrun : Run (step computeVersion) Always (Process.start cache now) p) {r : Resolving ν T}
    (hr : r ∈ p.resolutions) (hreturned : r.phase = .returned) : Settles r := by
  have htracked := (consistent_run hcreate hrun).tracked r hr
  rw [Tracked, hreturned] at htracked
  exact settles_of_accounted htracked

/-! ## The client -/

/-- The records of a response replace those that the client holds. -/
def merge (held : OrderedMap String (WireRecord ν)) (res : Resolution ν) :
    OrderedMap String (WireRecord ν) :=
  res.resources.entries.foldl (fun held e => held.set e.1 e.2) held

theorem get?_merge (held : OrderedMap String (WireRecord ν)) (res : Resolution ν) (key : String) :
    (merge held res).get? key = (res.resources.get? key).or (held.get? key) := by
  have hfold : ∀ (entries : List (String × WireRecord ν)) (held : OrderedMap String (WireRecord ν)),
      (entries.map Prod.fst).Nodup →
      (entries.foldl (fun held e => held.set e.1 e.2) held).get? key =
        (OrderedMap.lookup key entries).or (held.get? key) := by
    intro entries
    induction entries with
    | nil => exact fun _ _ => rfl
    | cons e entries ih =>
      intro held hnodup
      obtain ⟨hnew, hrest⟩ := List.nodup_cons.mp hnodup
      rw [List.foldl_cons, ih _ hrest, OrderedMap.get?_set]
      show _ = (if e.1 = key then _ else OrderedMap.lookup key entries).or _
      by_cases hkey : e.1 = key
      · subst hkey
        rw [OrderedMap.lookup_eq_none_iff.mpr hnew, if_pos rfl, if_pos rfl]
        rfl
      · rw [if_neg hkey, if_neg fun heq => hkey heq.symm]
  exact hfold _ held res.resources.nodup

/-- A client that holds what was issued under the versions it advertises ends with what the server
took, for every key that was neither deferred nor failed. -/
theorem merge_eq_taken (numbers : ResourceVersions.NumberTexts ν) {digest : String → String}
    (hdigest : Function.Injective digest) {cache : Cache ν T} {now : T}
    (hcreate : create bound = some cache)
    (hrun : Run (step (ResourceVersions.computeVersion numbers digest)) Always
      (Process.start cache now) p) {r : Resolving ν T}
    (hr : r ∈ p.resolutions) (hreturned : r.phase = .returned)
    {held : OrderedMap String (WireRecord ν)}
    (hheld : ∀ key version, r.request.knownVersions.get? key = some version →
      ∃ record, held.get? key = some record ∧ record.version = version ∧
        ResourceVersions.computeVersion numbers digest record.value = version)
    {spec : ResourceSpec T} (hspec : spec ∈ r.request.specsToProcess)
    (hdeferred : spec.key ∉ r.deferredKeys) (hfailed : spec.key ∉ r.resourceErrors.keys) :
    ∃ taken got, (spec.key, taken) ∈ r.taken ∧ (merge held r.resolution).get? spec.key = some got ∧
      got.version = taken.version ∧ got.value.canonical = taken.value.canonical := by
  have hconsistent := consistent_run hcreate hrun
  have htracked := hconsistent.tracked r hr
  rw [Tracked, hreturned] at htracked
  have hsettles := settles_of_accounted htracked
  -- What the answer sends wins over what is held; for the rest the held value counts.
  rw [get?_merge]
  show ∃ taken got, _ ∧ (r.resolvedRecords.get? spec.key).or _ = _ ∧ _
  cases hsent : r.resolvedRecords.get? spec.key with
  | some record => exact ⟨record, record, (hsettles.sent _ _ hsent).1, rfl, rfl, rfl⟩
  | none =>
    have homitted : LandsIn r.resolution spec.key .omitted :=
      ⟨OrderedMap.get?_eq_none_iff.mp hsent, hdeferred, hfailed⟩
    obtain ⟨taken, htaken, hknown⟩ := hsettles.omitted spec hspec homitted
    -- the client holds a value of the version that it had named
    obtain ⟨got, hgot, hversion, hissued⟩ := hheld _ _ hknown
    refine ⟨taken, got, htaken, hgot, hversion, ?_⟩
    -- both values hash to that version, so their canonical texts are one
    have hsame : digest (ResourceVersions.canonicalJson numbers got.value) =
        digest (ResourceVersions.canonicalJson numbers taken.value) :=
      hissued.trans (htracked.versions _ htaken)
    exact ResourceVersions.dumps_injective numbers (hdigest hsame)

end Runs

end Accounting

/-! ## Three interleaved requests for one page -/

def profile : ResourceSpec Nat where
  key := "profile"
  scope := { scopeType := .user, identifier := some "1" }
  ttl := 30

def feed : ResourceSpec Nat where
  key := "feed"
  scope := { scopeType := .user, identifier := some "1" }
  ttl := 0
  defer := true

/-- The digest of `"Ada"`, the only value that is loaded. -/
def adaDigest : String → String :=
  tableDigest [(PercentEncoding.utf8 "\"Ada\"", "a75ee5a60eabf6611dcbde180c9c551d")] ∘
    PercentEncoding.utf8

theorem adaDigest_injective : Function.Injective adaDigest :=
  (tableDigest_injective (by decide) (by decide)).comp PercentEncoding.utf8_injective

def homeRequest (knownVersions : OrderedMap String String) (onlyKeys : Option (List String)) :
    Request Nat where
  resources := [profile, feed]
  keys_nodup := by decide
  knownVersions := knownVersions
  onlyKeys := onlyKeys
  clientSupportsDeferred := true
  debug := false

def adaKnown : OrderedMap String String :=
  OrderedMap.empty.set "profile" "a75ee5a60eabf6611dcbde180c9c551d"

/-- A first visit, next to a partial reload of the feed whose loader raises; then a second visit
that advertises what the first one brought. -/
def homeRun : List (Action Empty Nat) :=
  [.request (homeRequest .empty none), .request (homeRequest .empty (some ["feed"])),
    .advance 0 (.lookUp false), .advance 1 (.lookUp false), .advance 0 (.lookUp false),
    .advance 1 (.startLoader "feed"), .advance 0 (.startLoader "profile"),
    .advance 1 (.finishLoader "feed" (.exception "boom")),
    .advance 0 (.finishLoader "profile" (.value (.string "Ada"))), .advance 0 (.store false),
    .request (homeRequest adaKnown none), .advance 2 (.lookUp false), .advance 2 (.lookUp false)]

abbrev adaVersion : Json String Empty → String :=
  ResourceVersions.computeVersion ResourceVersions.noNumbers adaDigest

/-- What became of the three requests: the profile is sent, then omitted; the feed is deferred by
the visits and fails in the reload. -/
theorem home_returned : ∃ p visit reload again,
    exec (step adaVersion) (Process.start { maxEntries := 2 } 0) homeRun = some p ∧
      p.resolutions = [visit, reload, again] ∧
      visit.phase = .returned ∧ reload.phase = .returned ∧ again.phase = .returned ∧
      visit.request = homeRequest .empty none ∧
      reload.request = homeRequest .empty (some ["feed"]) ∧
      again.request = homeRequest adaKnown none ∧
      visit.resolution.resources.entries =
        [("profile", ⟨"a75ee5a60eabf6611dcbde180c9c551d", .string "Ada"⟩)] ∧
      visit.deferredKeys = ["feed"] ∧
      reload.resourceErrors.keys = ["feed"] ∧
      again.resolution.resources.entries = [] ∧
      again.deferredKeys = ["feed"] ∧ again.resourceErrors.keys = [] :=
  ⟨_, _, _, _, rfl, rfl, rfl, rfl, rfl, rfl, rfl, rfl, rfl, rfl, rfl, rfl, rfl, rfl⟩

theorem returned_settles_profile : ∃ visit reload again : Resolving Empty Nat,
    (Settles visit ∧ LandsIn visit.resolution "profile" .sent ∧
      LandsIn visit.resolution "feed" .deferred) ∧
    (Settles reload ∧ LandsIn reload.resolution "feed" .failed) ∧
    Settles again ∧ LandsIn again.resolution "profile" .omitted ∧
      LandsIn again.resolution "feed" .deferred := by
  obtain ⟨p, visit, reload, again, hexec, hresolutions, hvisit, hreload, hagain, -, -, -, hsent,
    hdeferred, hfailed, hnone, hdeferred', herrors⟩ := home_returned
  -- the three requests were interleaved; each has returned
  have hsettles : ∀ r ∈ p.resolutions, r.phase = .returned → Settles r := fun r hr hreturned =>
    @returned_settles Empty Nat adaVersion _ _ _ 2 p { maxEntries := 2 } 0 rfl
      (Run.of_exec hexec) r hr hreturned
  rw [hresolutions] at hsettles
  have hkeys : visit.resolution.resources.keys = ["profile"] := congrArg (List.map Prod.fst) hsent
  have hkeys' : again.resolution.resources.keys = [] := congrArg (List.map Prod.fst) hnone
  refine ⟨visit, reload, again, ⟨hsettles _ (by simp) hvisit, ?_, ?_⟩,
    ⟨hsettles _ (by simp) hreload, ?_⟩, hsettles _ (by simp) hagain, ?_, ?_⟩
  · show "profile" ∈ visit.resolution.resources.keys
    rw [hkeys]
    decide
  · show "feed" ∈ visit.deferredKeys
    rw [hdeferred]
    decide
  · show "feed" ∈ reload.resourceErrors.keys
    rw [hfailed]
    decide
  · show "profile" ∉ again.resolution.resources.keys ∧ "profile" ∉ again.deferredKeys ∧
      "profile" ∉ again.resourceErrors.keys
    rw [hkeys', hdeferred', herrors]
    decide
  · show "feed" ∈ again.deferredKeys
    rw [hdeferred']
    decide

/-- The second visit gets no record, and the client keeps the profile of the first. -/
theorem merge_eq_taken_profile : ∃ visit again : Resolving Empty Nat,
    again.request.knownVersions.get? "profile" = some "a75ee5a60eabf6611dcbde180c9c551d" ∧
    again.resolution.resources.entries = [] ∧
    ∃ taken got, ("profile", taken) ∈ again.taken ∧
      (merge (merge .empty visit.resolution) again.resolution).get? "profile" = some got ∧
      got.version = taken.version ∧ got.value.canonical = taken.value.canonical := by
  obtain ⟨p, visit, reload, again, hexec, hresolutions, -, -, hreturned, -, -, hrequest, hsent,
    -, -, hnone, hdeferred, herrors⟩ := home_returned
  -- the client's map is what the first page sent, so it backs the version that it names
  have hheld : ∀ key version, again.request.knownVersions.get? key = some version →
      ∃ record, (merge .empty visit.resolution).get? key = some record ∧
        record.version = version ∧ adaVersion record.value = version := by
    intro key version hknown
    have hmerged : (merge .empty visit.resolution).entries =
        [("profile", ⟨"a75ee5a60eabf6611dcbde180c9c551d", .string "Ada"⟩)] := by
      unfold merge
      rw [hsent]
      rfl
    rw [hrequest] at hknown
    have hkey : key = "profile" :=
      List.mem_singleton.mp (OrderedMap.mem_keys_of_get? (m := adaKnown) hknown)
    subst hkey
    have hversion : version = "a75ee5a60eabf6611dcbde180c9c551d" := Option.some.inj hknown.symm
    subst hversion
    refine ⟨⟨"a75ee5a60eabf6611dcbde180c9c551d", .string "Ada"⟩, ?_, rfl, rfl⟩
    show OrderedMap.lookup "profile" (merge .empty visit.resolution).entries = _
    rw [hmerged]
    rfl
  have hspec : profile ∈ again.request.specsToProcess := by
    rw [hrequest]
    exact List.mem_cons_self
  refine ⟨visit, again, by rw [hrequest]; rfl, hnone, ?_⟩
  exact @merge_eq_taken Empty Nat _ _ _ 2 p ResourceVersions.noNumbers adaDigest
    adaDigest_injective { maxEntries := 2 } 0 rfl (Run.of_exec hexec) again
    (by rw [hresolutions]; simp) hreturned (merge .empty visit.resolution) hheld profile hspec
    (by rw [hdeferred]; decide) (by rw [herrors]; decide)

end FluxFast.Server.Engine
