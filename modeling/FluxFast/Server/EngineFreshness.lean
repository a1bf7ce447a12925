import FluxFast.Server.EngineRuns

/-!
# EngineFreshness — invalidations and the loads under way

A loader may have started before an invalidation deletes the cached value, and its own value may be
stored after the delete.  These loads are the only way for a value from before an invalidation to be
in the cache after it.
-/

namespace FluxFast.Server.Engine

open FluxFast.Theory PageWire MemoryResourceCache

variable {ν T : Type} {computeVersion : Json String ν → String}

/-! ## Loads -/

section Loads

variable {r : Resolving ν T} {load : ResourceSpec T × Nat}

/-- The loads of a group of tasks and of what it has loaded. -/
def loadsOf (tasks : List (ResourceSpec T × Option Nat)) (misses : List (String × Miss ν T)) :
    List (ResourceSpec T × Nat) :=
  (tasks.filterMap fun task => task.2.map fun startedAt => (task.1, startedAt)) ++
    misses.map fun m => (m.2.spec, m.2.startedAt)

theorem mem_loadsOf {tasks : List (ResourceSpec T × Option Nat)} {misses : List (String × Miss ν T)} :
    load ∈ loadsOf tasks misses ↔ (load.1, some load.2) ∈ tasks ∨
      ∃ m ∈ misses, (m.2.spec, m.2.startedAt) = load := by
  rw [loadsOf, List.mem_append, List.mem_filterMap, List.mem_map]
  refine or_congr_left ⟨?_, fun h => ⟨_, h, rfl⟩⟩
  rintro ⟨⟨spec, startedAt⟩, htask, hload⟩
  obtain ⟨startedAt, rfl, rfl⟩ := Option.map_eq_some_iff.mp hload
  exact htask

theorem loads_lookedUp {rest : List (ResourceSpec T)} (hmisses : r.missResults.entries = []) :
    (r.lookedUp rest).loads = [] := by
  have hwaiting : loadsOf (ν := ν) (r.pendingMisses.map fun spec => (spec, none)) [] = [] := by
    refine List.eq_nil_iff_forall_not_mem.mpr fun load hload => ?_
    rcases mem_loadsOf.mp hload with htask | ⟨m, hm, -⟩
    · obtain ⟨spec, -, heq⟩ := List.mem_map.mp htask
      cases heq
    · cases hm
  unfold Resolving.lookedUp
  split
  · split
    · rfl
    · show loadsOf _ r.missResults.entries = []
      rw [hmisses]
      exact hwaiting
  · rfl

theorem mem_loads_loaded {tasks : List (ResourceSpec T × Option Nat)}
    (h : load ∈ (r.loaded tasks).loads) : load ∈ loadsOf tasks r.missResults.entries := by
  unfold Resolving.loaded at h
  split at h
  · split at h
    · cases h
    · exact List.mem_append_right _ h
  · exact h

theorem mem_loads_stored {rest : List (String × Miss ν T)} (h : load ∈ (r.stored rest).loads) :
    ∃ m ∈ rest, (m.2.spec, m.2.startedAt) = load := by
  unfold Resolving.stored at h
  split at h
  · cases h
  · exact List.mem_map.mp h

/-- What is under way after a loader is done was under way before, its own value included. -/
theorem mem_loads_finishLoader {spec : ResourceSpec T} {startedAt : Nat}
    {tasks : List (ResourceSpec T × Option Nat)} {outcome : LoaderOutcome ν}
    (h : load ∈ (finishLoader computeVersion r spec startedAt tasks outcome).loads) :
    load = (spec, startedAt) ∨ load ∈ loadsOf tasks r.missResults.entries := by
  -- The load that has just finished is the only one that may be new among the results.
  cases outcome with
  | value wireValue =>
    rcases mem_loadsOf.mp (mem_loads_loaded h) with htask | ⟨m, hm, hload⟩
    · exact .inr (mem_loadsOf.mpr (.inl htask))
    · rcases OrderedMap.mem_of_mem_set hm with rfl | hold
      · exact .inl hload.symm
      · exact .inr (mem_loadsOf.mpr (.inr ⟨m, hold, hload⟩))
  -- an error keeps the other loads, or ends the resolution
  | contractError message details =>
    rw [finishLoader] at h
    split at h
    · simp only [errorDetail] at h
      have hloaded := mem_loads_loaded h
      exact .inr hloaded
    · cases h
    · intro wireValue heq
      cases heq
  | exception text =>
    rw [finishLoader] at h
    split at h
    · simp only [errorDetail] at h
      have hloaded := mem_loads_loaded h
      exact .inr hloaded
    · cases h
    · intro wireValue heq
      cases heq

theorem loads_lookUp [LinearOrder T] [Add T] [Zero T] {cache : Cache ν T} {now : T} {fails : Bool}
    {spec : ResourceSpec T} {rest : List (ResourceSpec T)} (hmisses : r.missResults.entries = []) :
    (lookUp cache now fails r spec rest).2.loads = [] := by
  have hmiss : ((r.miss spec).lookedUp rest).loads = [] := by
    apply loads_lookedUp
    unfold Resolving.miss
    split <;> exact hmisses
  unfold lookUp
  split
  · split
    · rfl
    · split
      · rfl
      · split
        · apply loads_lookedUp
          rw [missResults_take]
          exact hmisses
        · exact hmiss
  · exact hmiss

/-- A step ends loads or starts one now. -/
theorem mem_loads_advance [LinearOrder T] [Add T] [Zero T] {cache cache' : Cache ν T} {now : T}
    {steps : Nat} {event : Event ν} {r' : Resolving ν T} (htracked : Tracked computeVersion r)
    (h : advance computeVersion cache now steps r event = some (cache', r'))
    (hload : load ∈ r'.loads) : load ∈ r.loads ∨ load.2 = steps := by
  -- Only starting a loader begins a load, and it begins in this step.
  cases event with
  | lookUp fails =>
    rw [advance] at h
    split at h
    · next spec rest hphase =>
      -- before the loaders start there are no loads at all
      rw [Tracked, hphase] at htracked
      have heq : (lookUp cache now fails r spec rest).2 = r' := congrArg Prod.snd (Option.some.inj h)
      rw [← heq, loads_lookUp htracked.2] at hload
      cases hload
    · cases h
  | startLoader key =>
    rw [advance] at h
    split at h
    · next tasks hphase =>
      have hloads : r.loads = loadsOf tasks r.missResults.entries := by
        unfold Resolving.loads
        rw [hphase]
        rfl
      split at h
      · cases h
        rw [hloads]
        rcases mem_loadsOf.mp hload with htask | hmiss
        -- a task that has just been started, or one that was running already
        · obtain ⟨task, htask, heq⟩ := List.mem_map.mp htask
          split at heq
          · right
            exact (Option.some.inj (congrArg Prod.snd heq)).symm
          · rw [heq] at htask
            exact .inl (mem_loadsOf.mpr (.inl htask))
        · exact .inl (mem_loadsOf.mpr (.inr hmiss))
      · cases h
    · cases h
  | finishLoader key outcome =>
    rw [advance] at h
    split at h
    · next tasks hphase =>
      have hloads : r.loads = loadsOf tasks r.missResults.entries := by
        unfold Resolving.loads
        rw [hphase]
        rfl
      split at h
      · next spec startedAt hfind =>
        cases h
        left
        rw [hloads]
        -- finishing turns a task into a result of the same load
        rcases mem_loads_finishLoader hload with rfl | hothers
        · exact mem_loadsOf.mpr (.inl (List.mem_of_find?_eq_some hfind))
        · exact mem_loadsOf.mpr ((mem_loadsOf.mp hothers).imp_left List.mem_of_mem_filter)
      · cases h
    · cases h
  | store fails =>
    rw [advance] at h
    split at h
    · next key m rest hphase =>
      have heq : (store cache now fails r key m rest).2 = r' :=
        congrArg Prod.snd (Option.some.inj h)
      have hstored : load ∈ ((r.take key m.record).stored rest).loads := by
        rw [← heq] at hload
        unfold store at hload
        split at hload
        · split at hload
          · cases hload
          · split at hload
            · cases hload
            · exact hload
        · exact hload
      left
      show load ∈ r.loads
      -- storing drops the load that was stored and keeps the others
      unfold Resolving.loads
      rw [hphase]
      obtain ⟨m', hm', rfl⟩ := mem_loads_stored hstored
      exact List.mem_map.mpr ⟨m', List.mem_cons_of_mem _ hm', rfl⟩
    · cases h

end Loads

/-! ## Every run -/

section Runs

variable [LinearOrder T] [Add T] [Zero T] {bound : Int} {p p' : Process ν T}

/-- A value that was loaded before an invalidation of its identity is of a load that was under way
then, in the cache as in the loads that are still to be stored. -/
structure Fresh (p : Process ν T) : Prop where
  past : ∀ d ∈ p.deletions, d.step < p.steps
  loads : ∀ d ∈ p.deletions, ∀ startedAt ∈ p.underWay d.identity, startedAt < d.step →
    startedAt ∈ d.underWay
  held : ∀ d ∈ p.deletions, ∀ entry, p.cache.cache.get? d.identity = some entry →
    entry.value.2 < d.step → entry.value.2 ∈ d.underWay

omit [Add T] in
theorem mem_underWay {identity : String} {startedAt : Nat} :
    startedAt ∈ p.underWay identity ↔ ∃ r ∈ p.resolutions, ∃ load ∈ r.loads,
      (load.1.usesCache = true ∧ getCacheKey load.1.scope load.1.key = .ok identity) ∧
        load.2 = startedAt := by
  unfold Process.underWay
  simp only [List.mem_filterMap, List.mem_flatMap, Option.ite_none_right_eq_some,
    Option.some.injEq]
  constructor
  · rintro ⟨load, ⟨r, hr, hload⟩, hidentity, rfl⟩
    exact ⟨r, hr, load, hload, hidentity, rfl⟩
  · rintro ⟨r, hr, load, hload, hidentity, rfl⟩
    exact ⟨load, ⟨r, hr, hload⟩, hidentity, rfl⟩

omit [Add T] in
/-- The invariant survives a step that starts no load before now and brings no value into the cache
but those of loads under way. -/
theorem Fresh.next (h : Fresh p) (hsteps : p.steps < p'.steps)
    (hdeletions : p'.deletions = p.deletions)
    (hloads : ∀ identity, ∀ startedAt ∈ p'.underWay identity,
      startedAt ∈ p.underWay identity ∨ startedAt = p.steps)
    (hheld : ∀ key entry, p'.cache.cache.get? key = some entry →
      p.cache.cache.get? key = some entry ∨ entry.value.2 ∈ p.underWay key) : Fresh p' where
  past d hd := (h.past d (hdeletions ▸ hd)).trans hsteps
  loads d hd startedAt hstartedAt hbefore := by
    rw [hdeletions] at hd
    rcases hloads _ _ hstartedAt with hold | rfl
    · exact h.loads d hd _ hold hbefore
    · exact absurd (h.past d hd) hbefore.asymm
  held d hd entry hentry hbefore := by
    rw [hdeletions] at hd
    rcases hheld _ _ hentry with hold | hload
    · exact h.held d hd entry hold hbefore
    · exact h.loads d hd _ hload hbefore

theorem fresh_advance {i : Nat} {event : Event ν} (hconsistent : Consistent computeVersion bound p)
    (h : Fresh p) (hstep : step computeVersion p (.advance i event) = some p') : Fresh p' := by
  obtain ⟨r, hr, hstep⟩ := Option.bind_eq_some_iff.mp hstep
  obtain ⟨⟨cache, r'⟩, hadvance, rfl⟩ := Option.map_eq_some_iff.mp hstep
  have hmem := List.mem_of_getElem? hr
  have htracked := hconsistent.tracked r hmem
  refine h.next (Nat.lt_succ_self _) rfl ?_ ?_
  · intro identity startedAt hstartedAt
    obtain ⟨x, hx, load, hload, hidentity, rfl⟩ := mem_underWay.mp hstartedAt
    rcases List.mem_or_eq_of_mem_set hx with hold | rfl
    · exact .inl (mem_underWay.mpr ⟨x, hold, load, hload, hidentity, rfl⟩)
    · exact (mem_loads_advance htracked hadvance hload).imp_left fun hold =>
        mem_underWay.mpr ⟨r, hmem, load, hold, hidentity, rfl⟩
  · intro key entry hentry
    rcases cache_advance hadvance with
      rfl | ⟨got, rfl⟩ | ⟨name, m, rest, stored, hphase, huses, hkey, rfl⟩
    · exact .inl hentry
    · exact (held_of_run hconsistent.sound hentry).imp_right fun ⟨_, _, _, hset, _⟩ => nomatch hset
    · rcases held_of_run hconsistent.sound hentry with hold | ⟨_, _, _, hset, rfl⟩
      · exact .inl hold
      · -- the value of a miss that is stored was a load under way
        cases hset
        right
        refine mem_underWay.mpr ⟨r, hmem, (m.spec, m.startedAt), ?_, ⟨huses, hkey⟩, rfl⟩
        unfold Resolving.loads
        rw [hphase]
        exact List.mem_cons_self

theorem fresh_step {a : Action ν T} (hconsistent : Consistent computeVersion bound p) (h : Fresh p)
    (hstep : step computeVersion p a = some p') : Fresh p' := by
  -- every operation but a write only takes entries out
  have hdrop : ∀ (op : Op (Json String ν × Nat) T),
      (∀ now key resource ttl, op ≠ .set now key resource ttl) → ∀ key entry,
        (p.cache.run op).cache.get? key = some entry → p.cache.cache.get? key = some entry := by
    intro op hop key entry hentry
    rcases held_of_run hconsistent.sound hentry with hold | ⟨_, _, _, hset, -⟩
    · exact hold
    · exact absurd hset (hop _ _ _ _)
  cases a with
  -- a new request has no loads yet
  | request q =>
    cases hstep
    refine h.next (Nat.lt_succ_self _) rfl ?_ fun _ _ hentry => .inl hentry
    intro identity startedAt hstartedAt
    obtain ⟨r, hr, load, hload, hidentity, rfl⟩ := mem_underWay.mp hstartedAt
    rcases List.mem_append.mp hr with hold | hnew
    · exact .inl (mem_underWay.mpr ⟨r, hold, load, hload, hidentity, rfl⟩)
    · have hnone : (Resolving.start (ν := ν) q).loads = [] := loads_lookedUp rfl
      rw [List.mem_singleton.mp hnew, hnone] at hload
      cases hload
  | advance i event => exact fresh_advance hconsistent h hstep
  | invalidate scope key =>
    rw [step] at hstep
    split at hstep
    · cases hstep
    · next identity hidentity =>
      cases hstep
      have hdelete := hdrop (.delete identity) fun _ _ _ _ heq => by cases heq
      -- The new deletion: it is the latest, knows the loads under way, and its entry is gone.
      refine ⟨fun d hd => ?_, fun d hd => ?_, fun d hd entry hentry => ?_⟩
      · rcases List.mem_cons.mp hd with rfl | hold
        · exact Nat.lt_succ_self _
        · exact (h.past d hold).trans (Nat.lt_succ_self _)
      · rcases List.mem_cons.mp hd with rfl | hold
        · exact fun startedAt hstartedAt _ => hstartedAt
        · exact h.loads d hold
      · rcases List.mem_cons.mp hd with rfl | hold
        · have hgone : (p.cache.delete identity).cache.get? identity = none := by
            rw [MemoryResourceCache.delete, cache_removeInternal, OrderedMap.get?_delete_self]
          exact absurd (hentry.symm.trans hgone) (Option.some_ne_none _)
        · exact h.held d hold entry (hdelete _ _ hentry)
  | invalidateTag tag =>
    cases hstep
    exact h.next (Nat.lt_succ_self _) rfl (fun _ _ => .inl) fun _ _ hentry =>
      .inl (hdrop (.invalidateTag tag) (fun _ _ _ _ heq => by cases heq) _ _ hentry)
  | clear =>
    cases hstep
    exact h.next (Nat.lt_succ_self _) rfl (fun _ _ => .inl) fun _ _ hentry =>
      .inl (hdrop .clear (fun _ _ _ _ heq => by cases heq) _ _ hentry)
  | tick later =>
    rw [step] at hstep
    split at hstep
    · cases hstep
      exact h.next (Nat.lt_succ_self _) rfl (fun _ _ => .inl) fun _ _ => .inl
    · cases hstep

/-- Whatever the cache answers for an identity was loaded by a loader that started after every
invalidation of the identity, or was under way during one. -/
theorem hit_after_invalidation {cache : Cache ν T} {now : T} (hcreate : create bound = some cache)
    (hrun : Run (step computeVersion) Always (Process.start cache now) p) {d : Deletion}
    (hd : d ∈ p.deletions) {cached : CachedResource (Json String ν × Nat) T}
    (hhit : (p.cache.get p.now d.identity).2 = some cached) :
    d.step ≤ cached.value.2 ∨ cached.value.2 ∈ d.underWay := by
  have hstart : Fresh (Process.start cache now) := ⟨nofun, nofun, nofun⟩
  have hfresh : Consistent computeVersion bound p ∧ Fresh p :=
    hrun.invariant (fun _ _ _ h _ hstep =>
        And.intro (consistent_step h.1 hstep) (fresh_step h.1 h.2 hstep))
      (And.intro (consistent_run hcreate .refl) hstart)
  by_cases hbefore : cached.value.2 < d.step
  · exact .inr (hfresh.2.held d hd cached (get_eq_some hhit) hbefore)
  · exact .inl (Nat.le_of_not_lt hbefore)

end Runs

def profileStraddled : List (Action Empty Nat) :=
  [.request (homeRequest .empty (some ["profile"])), .advance 0 (.lookUp false),
    .advance 0 (.startLoader "profile"), .invalidate profile.scope "profile",
    .advance 0 (.finishLoader "profile" (.value (.string "Ada"))), .advance 0 (.store false)]

theorem profile_straddled : ∃ p cached,
    exec (step adaVersion) (Process.start { maxEntries := 2 } 0) profileStraddled = some p ∧
      ⟨"user:1::profile", 3, [2]⟩ ∈ p.deletions ∧
      (p.cache.get p.now "user:1::profile").2 = some cached ∧ cached.value.2 = 2 :=
  ⟨_, _, rfl, List.mem_cons_self, rfl, rfl⟩

/-- A loader that is under way while its identity is invalidated: the next lookup is answered with
its value. -/
theorem hit_after_invalidation_profile : ∃ (p : Process Empty Nat) (d : Deletion) (cached : _),
    d ∈ p.deletions ∧ (p.cache.get p.now d.identity).2 = some cached ∧
      cached.value.2 < d.step ∧ cached.value.2 ∈ d.underWay := by
  obtain ⟨p, cached, hexec, hd, hhit, hstarted⟩ := profile_straddled
  have hbefore : ¬3 ≤ cached.value.2 := by
    rw [hstarted]
    decide
  exact ⟨p, _, cached, hd, hhit, Nat.lt_of_not_le hbefore,
    (@hit_after_invalidation Empty Nat adaVersion _ _ _ 2 p { maxEntries := 2 } 0 rfl
      (Run.of_exec hexec) _ hd cached hhit).resolve_left hbefore⟩

end FluxFast.Server.Engine
