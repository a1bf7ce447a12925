import FluxFast.Server.LiveTopic
import FluxFast.Server.RedisCacheScripts

/-!
# RedisCluster — any number of workers on one namespace

One action is one atomic script, one `SCAN` or one `UNLINK`; between them the server's clock moves on.
A `clear` is not atomic: it unlinks the keys of a scan in batches, while other workers write.  An
`UNLINK` that takes some of the keys of a resource and leaves others splits the resource.  A
resource that no `UNLINK` has split is whole: its indexes and its membership set say what its latest
write said.
-/

namespace FluxFast.Server

open FluxFast.Theory

/-- `keys[start : start + count] for start in range(0, len(keys), count)`. -/
def batchesOf (count : Nat) (keys : List String) : List (List String) :=
  (List.range ((keys.length + count - 1) / count)).map fun i => (keys.drop (i * count)).take count

/-- A `clear` under way: what is left to unlink of the last scan, and whether its cursor was zero. -/
structure ClearCall where
  batches : List (List String) := []
  cursorZero : Bool := false
  deriving DecidableEq

/-- The server, and `latest`, the tags of the latest write of each resource. -/
structure Cluster (B : Type) where
  db : Redis B := {}
  now : Nat := 0
  clears : List ClearCall := []
  latest : String → Option (List String) := fun _ => none

inductive ClusterAction (V : Type) where
  | advance (ms : Nat)
  | set (key : String) (resource : CachedResource V Double) (ttl : Double)
  | delete (key : String)
  | invalidateTag (tag : String)
  | clear
  | scan (call : Nat) (keys : List String) (cursorZero : Bool)
  | unlink (call : Nat)

namespace Cluster

variable {V B : Type} (c : RedisResourceCache V B)

/-- `UNLINK key …`. -/
def unlinkAll (db : Redis B) (keys : List String) : Redis B := keys.foldl Redis.del db

/-- The keys as they are now. -/
def view (w : Cluster B) : Redis B := w.db.purge w.now

/-- The batch that the next `UNLINK` of a call takes. -/
def nextBatch (w : Cluster B) (call : Nat) : Option (List String) :=
  (w.clears[call]?).bind fun running => running.batches.head?

/-- One command of one worker.  A call that raises an error before its script has no effect. -/
def step (scanCount : Nat) (w : Cluster B) : ClusterAction V → Option (Cluster B)
  | .advance ms => some { w with now := w.now + ms }
  | .set key resource ttl =>
    match c.set w.now key resource ttl w.db with
    | .error _ => some w
    | .ok db => some { w with db, latest := Function.update w.latest key (some resource.tags) }
  | .delete key =>
    match c.delete w.now key w.db with
    | .error _ => some w
    | .ok db => some { w with db }
  | .invalidateTag tag =>
    match c.invalidateTag w.now tag w.db with
    | .error _ => some w
    | .ok db => some { w with db }
  | .clear => some { w with clears := w.clears ++ [{}] }
  | .scan call keys cursorZero =>
    match w.clears[call]? with
    | none => none
    | some running =>
      -- a scan follows the last batch of the one before, until the cursor is zero
      if running.batches = [] ∧ running.cursorZero = false ∧
          (∀ k ∈ keys, w.view.holds k = true ∧ hasPrefix (c.keyspace.keyPrefix ++ ":") k = true) then
        some { w with clears := w.clears.set call ⟨batchesOf scanCount keys, cursorZero⟩ }
      else none
  | .unlink call =>
    match w.clears[call]? with
    | none => none
    | some running =>
      match running.batches with
      | [] => none
      | batch :: rest =>
        some { w with
          db := unlinkAll w.view batch
          clears := w.clears.set call { running with batches := rest } }

/-! ## Splitting a resource -/

/-- The keys of the resource `key`: its payload and its membership set. -/
def payloadKey (key : String) : String :=
  c.keyspace.key .resource (c.blake2b (PercentEncoding.utf8 key))

def membershipKey (key : String) : String :=
  c.keyspace.key .resourceTags (c.blake2b (PercentEncoding.utf8 key))

def tagKey (tag : String) : String :=
  c.keyspace.key .tag (c.blake2b (PercentEncoding.utf8 tag))

/-- Unlinking `batch` takes no part of the resource away from another part that it leaves: not the
membership set or an index of a resource that stays, and not the membership set of a resource that
an index still lists. -/
structure Whole (now : Nat) (db : Redis B) (batch : List String) (key : String) : Prop where
  stays : (db.strings (payloadKey c key)).isSome = true → payloadKey c key ∉ batch →
    ∀ τ ∈ db.smembers (membershipKey c key), τ ∉ batch ∧ membershipKey c key ∉ batch
  listed : membershipKey c key ∈ batch → ∀ τ,
    (Redis.liveEntry now db τ (payloadKey c key)).isSome = true → τ ∈ batch

/-- The action does not split the resource. -/
def Unsplit (key : String) (w : Cluster B) : ClusterAction V → Prop
  | .unlink call => ∀ batch, w.nextBatch call = some batch → Whole c w.now w.view batch key
  | _ => True

end Cluster

/-! ## Unlinking -/

namespace Cluster

section Unlink

variable {B : Type} {db : Redis B} {batch : List String} {now : Nat}

theorem unlinkAll_tables (db : Redis B) (batch : List String) (k : String) :
    (unlinkAll db batch).strings k = (if k ∈ batch then none else db.strings k) ∧
      (unlinkAll db batch).sets k = (if k ∈ batch then none else db.sets k) ∧
      (unlinkAll db batch).zsets k = if k ∈ batch then none else db.zsets k := by
  induction batch generalizing db with
  | nil => exact ⟨rfl, rfl, rfl⟩
  | cons first batch ih =>
    obtain ⟨hstrings, hsets, hzsets⟩ := ih (db.del first)
    unfold unlinkAll at hstrings hsets hzsets ⊢
    rw [List.foldl_cons, hstrings, hsets, hzsets]
    by_cases hk : k = first
    · subst hk
      simp [Redis.del]
    · simp [Redis.del, hk]

theorem liveEntry_unlinkAll (db : Redis B) (batch : List String) (τ member : String) :
    Redis.liveEntry now (unlinkAll db batch) τ member =
      if τ ∈ batch then none else Redis.liveEntry now db τ member := by
  unfold Redis.liveEntry Redis.entry
  rw [(unlinkAll_tables db batch τ).2.2]
  split
  · rfl
  · rfl

theorem usable_unlinkAll {tagPrefix : String} (h : Usable now tagPrefix db) (batch : List String) :
    Usable now tagPrefix (unlinkAll db batch) :=
  foldl_invariant (I := Usable now tagPrefix) batch (fun _ key _ hs => usable_del hs key) h

variable {V : Type} {c : RedisResourceCache V B} {key : String} {latest : Option (List String)}

theorem held_unlinkAll
    (h : Held c.keyspace now db (c.blake2b (PercentEncoding.utf8 key)) latest)
    (hwhole : Whole c now db batch key) :
    Held c.keyspace now (unlinkAll db batch) (c.blake2b (PercentEncoding.utf8 key)) latest where
  -- A payload that stays in the database keeps everything that it needs.
  stored x hx := by
    rw [(unlinkAll_tables db batch _).1] at hx
    split at hx
    · cases hx
    · next hstays =>
      obtain ⟨mark, tagKeys, hmark, hlatest, hmembers, hset, hlive⟩ := h.stored x hx
      have hkept := hwhole.stays (by rw [payloadKey, hx]; rfl) hstays
      have hsets : ∀ τ ∈ tagKeys,
          (unlinkAll db batch).sets (membershipKey c key) = db.sets (membershipKey c key) := by
        intro τ hτ
        rw [(unlinkAll_tables db batch _).2.1, if_neg (hkept τ ((hmembers τ).mpr hτ)).2]
      refine ⟨mark, tagKeys, hmark, hlatest, fun τ => ?_, fun hne => ?_, fun hlt τ hτ => ?_⟩
      · rw [← hmembers τ]
        unfold Redis.smembers
        rw [(unlinkAll_tables db batch _).2.1]
        -- the batch may hold the membership set only if nothing is a member
        by_cases hbatch : c.keyspace.key .resourceTags (c.blake2b (PercentEncoding.utf8 key)) ∈ batch
        · -- a membership set that is unlinked had no member
          rw [if_pos hbatch]
          refine iff_of_false List.not_mem_nil fun hmem => ?_
          exact (hkept τ hmem).2 hbatch
        · rw [if_neg hbatch]
      · obtain ⟨τ, hτ⟩ := List.exists_mem_of_ne_nil _ hne
        obtain ⟨y, hy, hymark⟩ := hset hne
        exact ⟨y, (hsets τ hτ).trans hy, hymark⟩
      · rw [liveEntry_unlinkAll, if_neg (hkept τ ((hmembers τ).mpr hτ)).1]
        exact hlive hlt τ hτ
  -- an entry that stays names a payload whose membership set stays, too
  named τ score hlive := by
    rw [liveEntry_unlinkAll] at hlive
    split at hlive
    · cases hlive
    · next hτ =>
      obtain ⟨y, mark, hy, hmem, hmark, hscore⟩ := h.named τ score hlive
      have hmembership : membershipKey c key ∉ batch :=
        fun hbatch => hτ (hwhole.listed hbatch τ (by rw [payloadKey, hlive]; rfl))
      refine ⟨y, mark, ?_, hmem, hmark, hscore⟩
      rw [(unlinkAll_tables db batch _).2.1]
      exact (if_neg hmembership).trans hy

end Unlink

/-! ## The operations of the cache -/

section Operations

variable {B V : Type} {c : RedisResourceCache V B} {now : Nat} {db db' : Redis B} {key tag : String}
  {resource : CachedResource V Double} {ttl : Double}

theorem deleteResource_eq (h : c.deleteResource now key db = .ok db') :
    db' = deleteWithTags now c.keyspace.tagPrefix (payloadKey c key) (membershipKey c key)
      (db.purge now) := by
  unfold RedisResourceCache.deleteResource at h
  cases hr : c.keyspace.resourceKey c.blake2b key with
  | error message =>
    rw [hr] at h
    cases h
  | ok r =>
    cases hm : c.keyspace.resourceTagsKey c.blake2b key with
    | error message =>
      rw [hr, hm] at h
      cases h
    | ok m =>
      rw [hr, hm] at h
      cases h
      rw [RedisCacheKeyspace.resourceKey_eq hr, RedisCacheKeyspace.resourceTagsKey_eq hm]
      rfl

theorem mapM_tagKey_eq {tags tagKeys : List String}
    (h : tags.mapM (c.keyspace.tagKey c.blake2b) = .ok tagKeys) :
    tagKeys = tags.map (tagKey c) := by
  induction tags generalizing tagKeys with
  | nil =>
    cases h
    rfl
  | cons tag tags ih =>
    rw [List.mapM_cons] at h
    cases htag : c.keyspace.tagKey c.blake2b tag with
    | error message =>
      rw [htag] at h
      cases h
    | ok τ =>
      cases hrest : tags.mapM (c.keyspace.tagKey c.blake2b) with
      | error message =>
        rw [htag, hrest] at h
        cases h
      | ok rest =>
        rw [htag, hrest] at h
        cases h
        rw [List.map_cons, ← ih hrest, RedisCacheKeyspace.tagKey_eq htag]
        rfl

/-- The tag keys of a write. -/
def tagKeysOf (c : RedisResourceCache V B) (tags : List String) : List String :=
  unique (tags.map (tagKey c))

theorem scriptKeys_eq {tags : List String} {keys : String × String × List String}
    (h : c.scriptKeys key tags = .ok keys) :
    keys = (payloadKey c key, membershipKey c key, tagKeysOf c tags) := by
  unfold RedisResourceCache.scriptKeys at h
  cases hr : c.keyspace.resourceKey c.blake2b key with
  | error message =>
    rw [hr] at h
    cases h
  | ok r =>
    cases hm : c.keyspace.resourceTagsKey c.blake2b key with
    | error message =>
      rw [hr, hm] at h
      cases h
    | ok m =>
      cases htags : tags.mapM (c.keyspace.tagKey c.blake2b) with
      | error message =>
        rw [hr, hm, htags] at h
        cases h
      | ok tagKeys =>
        rw [hr, hm, htags] at h
        cases h
        rw [RedisCacheKeyspace.resourceKey_eq hr, RedisCacheKeyspace.resourceTagsKey_eq hm,
          mapM_tagKey_eq htags]
        rfl

/-- A lifetime is rounded up to at least one millisecond. -/
theorem normalizeTtlMs_pos {ttlMs : Nat} (h : normalizeTtlMs ttl = some ttlMs) : 0 < ttlMs := by
  unfold normalizeTtlMs at h
  split at h
  · cases h
  · cases h
    exact Nat.lt_of_lt_of_le Nat.zero_lt_one (Nat.le_max_left _ _)

/-- A successful `set` runs the script that deletes, or the one that writes. -/
theorem set_cases (h : c.set now key resource ttl db = .ok db') :
    -- a lifetime that is none deletes; otherwise the script writes what `encode` gives
    (normalizeTtlMs ttl = none ∧
      db' = deleteWithTags now c.keyspace.tagPrefix (payloadKey c key) (membershipKey c key)
        (db.purge now)) ∨
    ∃ ttlMs payload, normalizeTtlMs ttl = some ttlMs ∧
      c.codec.encode resource.version resource.value resource.tags = .ok payload ∧
      db' = setWithTags now c.keyspace.tagPrefix (payloadKey c key) (membershipKey c key)
        (tagKeysOf c resource.tags) payload ttlMs (db.purge now) := by
  unfold RedisResourceCache.set at h
  -- an error anywhere leaves the database as it was, so `h` excludes it
  cases hr : c.keyspace.resourceKey c.blake2b key with
  | error message =>
    rw [hr] at h
    cases h
  | ok r =>
    rw [hr] at h
    cases httl : normalizeTtlMs ttl with
    | none =>
      rw [httl] at h
      exact .inl ⟨rfl, deleteResource_eq h⟩
    | some ttlMs =>
      rw [httl] at h
      cases hencode : c.codec.encode resource.version resource.value resource.tags with
      | error message =>
        rw [hencode] at h
        cases h
      | ok payload =>
        rw [hencode] at h
        cases hkeys : c.scriptKeys key resource.tags with
        | error message =>
          rw [hkeys] at h
          cases h
        | ok keys =>
          rw [hkeys, scriptKeys_eq hkeys] at h
          cases h
          exact .inr ⟨ttlMs, payload, rfl, rfl, rfl⟩

theorem invalidateTag_eq (h : c.invalidateTag now tag db = .ok db') :
    db' = invalidateTagScript now c.keyspace.resourcePrefix c.keyspace.resourceTagsPrefix
      c.keyspace.tagPrefix (tagKey c tag) (db.purge now) := by
  unfold RedisResourceCache.invalidateTag at h
  cases hτ : c.keyspace.tagKey c.blake2b tag with
  | error message =>
    rw [hτ] at h
    cases h
  | ok τ =>
    rw [hτ] at h
    cases h
    rw [RedisCacheKeyspace.tagKey_eq hτ]
    rfl

theorem hasPrefix_tagKey (c : RedisResourceCache V B) (tag : String) :
    hasPrefix c.keyspace.tagPrefix (tagKey c tag) = true :=
  c.keyspace.hasPrefix_tag _

theorem hasPrefix_tagKeysOf {tags : List String} :
    ∀ τ ∈ tagKeysOf c tags, hasPrefix c.keyspace.tagPrefix τ = true := by
  intro τ hτ
  obtain ⟨tag, -, rfl⟩ := List.mem_map.mp (mem_unique.mp hτ)
  exact hasPrefix_tagKey c tag

end Operations

/-! ## Runs -/

section Runs

variable {B V : Type} {c : RedisResourceCache V B} {w w' : Cluster B} {key : String}
  {scanCount : Nat}

/-- What is kept of one resource along a run that does not split it. -/
structure Kept (c : RedisResourceCache V B) (key : String) (w : Cluster B) : Prop where
  usable : Usable w.now c.keyspace.tagPrefix w.view
  held : Held c.keyspace w.now w.view (c.blake2b (PercentEncoding.utf8 key))
    ((w.latest key).map (tagKeysOf c))

theorem kept_initial (c : RedisResourceCache V B) (key : String) : Kept c key {} where
  usable := ⟨fun _ h => (by cases h), fun _ _ _ _ h => (by cases h)⟩
  held := ⟨fun _ h => (by cases h), fun _ _ h => (by cases h)⟩

theorem purge_purge {db : Redis B} {now later : Nat} (hle : now ≤ later) :
    (db.purge now).purge later = db.purge later := by
  have hfilter : ∀ {α : Type} (x : Option (Keyed α)),
      (x.filter (Keyed.present now)).filter (Keyed.present later) =
        x.filter (Keyed.present later) := by
    intro α x
    rw [Option.filter_filter]
    congr 1
    funext y
    unfold Keyed.present
    cases y.expiresAt with
    | none => rfl
    | some mark =>
      rw [← Bool.decide_and, decide_eq_decide]
      exact ⟨fun h => h.2, fun h => ⟨hle.trans h, h⟩⟩
  unfold Redis.purge
  simp only [hfilter]

theorem Kept.advance (h : Kept c key w) (ms : Nat) :
    Kept c key { w with now := w.now + ms } := by
  have hle : w.now ≤ w.now + ms := Nat.le_add_right _ _
  have hview : Cluster.view { w with now := w.now + ms } = w.view.purge (w.now + ms) :=
    (purge_purge hle).symm
  refine ⟨?_, ?_⟩
  · rw [hview]
    exact usable_purge h.usable hle
  · rw [hview]
    exact h.held.later h.usable hle

/-- A command that leaves the server usable and the resource held. -/
theorem kept_of_db {db : Redis B} {latest : String → Option (List String)}
    {clears : List ClearCall} (husable : Usable w.now c.keyspace.tagPrefix db)
    (hheld : Held c.keyspace w.now db (c.blake2b (PercentEncoding.utf8 key))
      ((latest key).map (tagKeysOf c))) :
    Kept c key { db, now := w.now, clears, latest } where
  usable := usable_purge husable le_rfl
  held := hheld.later husable le_rfl

section Digests

variable {tag k : String} (hblake : Function.Injective c.blake2b)
include hblake

theorem digest_ne (hne : key ≠ k) :
    c.blake2b (PercentEncoding.utf8 key) ≠ c.blake2b (PercentEncoding.utf8 k) :=
  fun h => hne (PercentEncoding.utf8_injective (hblake h))

theorem Kept.delete (h : Kept c key w) {db : Redis B}
    {latest : String → Option (List String)} (hlatest : key ≠ k → latest key = w.latest key)
    (hdb : db = deleteWithTags w.now c.keyspace.tagPrefix (payloadKey c k) (membershipKey c k)
      w.view) : Kept c key { w with db, latest } := by
  subst hdb
  refine kept_of_db (usable_deleteWithTags h.usable _ _) ?_
  by_cases hk : key = k
  · subst hk
    exact (gone_deleteWithTags h.held h.usable).held _
  · rw [hlatest hk]
    exact h.held.spared (spares_deleteWithTags h.usable (digest_ne hblake hk))

theorem Kept.set (h : Kept c key w) {resource : CachedResource V Double} {ttl : Double} {db : Redis B}
    (hset : c.set w.now k resource ttl w.db = .ok db) :
    Kept c key { w with db, latest := Function.update w.latest k (some resource.tags) } := by
  have hother : key ≠ k → Function.update w.latest k (some resource.tags) key = w.latest key :=
    fun hne => Function.update_of_ne hne _ _
  obtain ⟨-, hdb⟩ | ⟨ttlMs, payload, httl, -, hdb⟩ := set_cases hset
  · exact h.delete hblake hother hdb
  · have hpos := normalizeTtlMs_pos httl
    have husable := usable_setWithTags (r := payloadKey c k) (m := membershipKey c k) payload
      h.usable (@hasPrefix_tagKeysOf B V c resource.tags) hpos
      (c.keyspace.untagged (by decide) _)
    subst hdb
    refine kept_of_db husable ?_
    by_cases hk : key = k
    · subst hk
      rw [Function.update_self]
      exact held_setWithTags payload h.held h.usable hasPrefix_tagKeysOf hpos
    · rw [hother hk]
      exact h.held.spared
        (spares_setWithTags payload h.usable hasPrefix_tagKeysOf hpos (digest_ne hblake hk))

end Digests

theorem Kept.invalidateTag (h : Kept c key w) {tag : String} {db : Redis B}
    (hdb : c.invalidateTag w.now tag w.db = .ok db) : Kept c key { w with db } := by
  rw [invalidateTag_eq hdb]
  refine kept_of_db (usable_invalidateTagScript h.usable (tagKey c tag)) ?_
  cases hlive : Redis.liveEntry w.now w.view (tagKey c tag) (payloadKey c key) with
  | none => exact h.held.spared (spares_invalidateTagScript h.usable (hasPrefix_tagKey c tag) hlive)
  | some score =>
    exact (gone_invalidateTagScript h.held h.usable (hasPrefix_tagKey c tag) hlive).held _

theorem kept_step (hblake : Function.Injective c.blake2b) {a : ClusterAction V} (h : Kept c key w)
    (hunsplit : Unsplit c key w a) (hstep : step c scanCount w a = some w') : Kept c key w' := by
  -- One case for each action; a call that is refused changes nothing.
  cases a with
  | advance ms =>
    cases hstep
    exact h.advance ms
  | set k resource ttl =>
    cases hset : c.set w.now k resource ttl w.db with
    | error message =>
      simp only [step, hset, Option.some.injEq] at hstep
      subst hstep
      exact h
    | ok db =>
      simp only [step, hset, Option.some.injEq] at hstep
      subst hstep
      exact h.set hblake hset
  | delete k =>
    cases hdelete : c.delete w.now k w.db with
    | error message =>
      simp only [step, hdelete, Option.some.injEq] at hstep
      subst hstep
      exact h
    | ok db =>
      simp only [step, hdelete, Option.some.injEq] at hstep
      subst hstep
      exact h.delete hblake (fun _ => rfl) (deleteResource_eq hdelete)
  | invalidateTag tag =>
    cases hinvalidate : c.invalidateTag w.now tag w.db with
    | error message =>
      simp only [step, hinvalidate, Option.some.injEq] at hstep
      subst hstep
      exact h
    | ok db =>
      simp only [step, hinvalidate, Option.some.injEq] at hstep
      subst hstep
      exact h.invalidateTag hinvalidate
  | clear =>
    cases hstep
    exact ⟨h.usable, h.held⟩
  | scan call keys cursorZero =>
    unfold step at hstep
    cases hcall : w.clears[call]? with
    | none => simp [hcall] at hstep
    | some running =>
      simp only [hcall] at hstep
      split at hstep
      · cases hstep
        exact ⟨h.usable, h.held⟩
      · cases hstep
  | unlink call =>
    unfold step at hstep
    cases hcall : w.clears[call]? with
    | none => simp [hcall] at hstep
    | some running =>
      cases hbatches : running.batches with
      | nil => simp [hcall, hbatches] at hstep
      | cons batch rest =>
        simp only [hcall, hbatches, Option.some.injEq] at hstep
        subst hstep
        have hnext : w.nextBatch call = some batch := by
          rw [nextBatch, hcall, Option.bind_some, hbatches]
          rfl
        exact kept_of_db (usable_unlinkAll h.usable batch)
          (held_unlinkAll h.held (hunsplit batch hnext))

/-- Along a run that does not split the resource. -/
theorem kept_run (hblake : Function.Injective c.blake2b)
    (hrun : Run (step c scanCount) (Unsplit c key) {} w) : Kept c key w :=
  hrun.invariant (fun _ _ _ h hok hstep => kept_step hblake h hok hstep) (kept_initial c key)

/-! ## The tag indexes -/

/-- The payload of a resource that has time left, with its expiry. -/
def live (now : Nat) (db : Redis B) (r : String) : Option (B × Nat) :=
  (db.strings r).bind fun x =>
    x.expiresAt.bind fun mark => if now < mark then some (x.value, mark) else none

theorem live_eq_some_iff {now mark : Nat} {db : Redis B} {r : String} {value : B} :
    live now db r = some (value, mark) ↔
      ∃ x, db.strings r = some x ∧ x.value = value ∧ x.expiresAt = some mark ∧ now < mark := by
  unfold live
  rw [Option.bind_eq_some_iff]
  constructor
  · rintro ⟨x, hx, hlive⟩
    obtain ⟨mark', hmark, hlive⟩ := Option.bind_eq_some_iff.mp hlive
    split at hlive
    · next hlt =>
      cases hlive
      exact ⟨x, hx, rfl, hmark, hlt⟩
    · cases hlive
  · rintro ⟨x, hx, rfl, hmark, hlt⟩
    refine ⟨x, hx, ?_⟩
    rw [hmark, Option.bind_some, if_pos hlt]

theorem live_purge (now : Nat) (db : Redis B) (r : String) :
    live now (db.purge now) r = live now db r := by
  ext ⟨value, mark⟩
  rw [live_eq_some_iff, live_eq_some_iff]
  constructor
  · rintro ⟨x, hx, hrest⟩
    exact ⟨x, (Option.filter_eq_some_iff.mp hx).1, hrest⟩
  · rintro ⟨x, hx, hvalue, hmark, hlt⟩
    exact ⟨x, Option.filter_eq_some_iff.mpr ⟨hx, present_of_le hmark hlt.le⟩, hvalue, hmark, hlt⟩

/-- The indexes and the membership set of a resource that has time left. -/
theorem Kept.indexed (h : Kept c key w) {value : B} {mark : Nat}
    (hlive : live w.now w.view (payloadKey c key) = some (value, mark)) :
    ∃ tags, w.latest key = some tags ∧
      (∀ tag ∈ tags,
        Redis.liveEntry w.now w.view (tagKey c tag) (payloadKey c key) = some mark) ∧
      (∀ τ, τ ∈ w.view.smembers (membershipKey c key) ↔ τ ∈ tags.map (tagKey c)) ∧
      (tags ≠ [] → ∃ members, w.view.sets (membershipKey c key) = some members ∧
        members.expiresAt = some mark) := by
  obtain ⟨x, hx, -, hmark, hlt⟩ := live_eq_some_iff.mp hlive
  obtain ⟨mark', tagKeys, hmark', hlatest, hmembers, hset, hentries⟩ := h.held.stored x hx
  rw [hmark] at hmark'
  cases hmark'
  obtain ⟨tags, htags, rfl⟩ := Option.map_eq_some_iff.mp hlatest
  have hmem : ∀ τ, τ ∈ tagKeysOf c tags ↔ τ ∈ tags.map (tagKey c) := fun τ => mem_unique
  have hown : ∀ tag ∈ tags, tagKey c tag ∈ tagKeysOf c tags :=
    fun tag htag => (hmem _).mpr (List.mem_map.mpr ⟨tag, htag, rfl⟩)
  refine ⟨tags, htags, fun tag htag => hentries hlt _ (hown tag htag),
    fun τ => (hmembers τ).trans (hmem τ), fun hne => hset fun hnil => ?_⟩
  obtain ⟨tag, htag⟩ := List.exists_mem_of_ne_nil tags hne
  have hτ := hown tag htag
  rw [hnil] at hτ
  cases hτ

/-- An invalidation removes the resource exactly when its latest write carried the tag. -/
theorem Kept.live_invalidateTag (hblake : Function.Injective c.blake2b) (h : Kept c key w)
    {tag : String} {db : Redis B} (hdb : c.invalidateTag w.now tag w.db = .ok db) {value : B}
    {mark : Nat} {tags : List String} (htags : w.latest key = some tags)
    (hlive : live w.now w.view (payloadKey c key) = some (value, mark)) :
    live w.now db (payloadKey c key) = if tag ∈ tags then none else some (value, mark) := by
  obtain ⟨tags', htags', hentries, hmembers, -⟩ := h.indexed hlive
  rw [htags] at htags'
  cases htags'
  obtain ⟨x, hx, hvalue, hmark, hlt⟩ := live_eq_some_iff.mp hlive
  rw [invalidateTag_eq hdb]
  split
  · next htag =>
    have hgone := gone_invalidateTagScript h.held h.usable (hasPrefix_tagKey c tag)
      (hentries tag htag)
    rw [live, payloadKey]
    rw [show w.db.purge w.now = w.view from rfl, hgone.string]
    rfl
  · next htag =>
    -- an index that lists the resource is one of its tags
    have hnone : Redis.liveEntry w.now w.view (tagKey c tag) (payloadKey c key) = none := by
      cases hentry : Redis.liveEntry w.now w.view (tagKey c tag) (payloadKey c key) with
      | none => rfl
      | some score =>
        obtain ⟨y, -, hy, hτ, -, -⟩ := h.held.named _ _ hentry
        have hτ' : tagKey c tag ∈ w.view.smembers (membershipKey c key) := by
          unfold Redis.smembers
          rw [show w.view.sets (membershipKey c key) = some y from hy]
          exact hτ
        obtain ⟨tag', htag', heq⟩ := List.mem_map.mp ((hmembers _).mp hτ')
        have hsame : tag' = tag :=
          PercentEncoding.utf8_injective (hblake (RedisCacheKeyspace.key_inj heq).2.2)
        exact absurd (hsame ▸ htag') htag
    have hspares := spares_invalidateTagScript h.usable (hasPrefix_tagKey c tag) hnone
    exact live_eq_some_iff.mpr ⟨x, hspares.string.trans hx, hvalue, hmark, hlt⟩

theorem Kept.not_live_invalidateTag (h : Kept c key w) {tag : String} {db : Redis B}
    (hdb : c.invalidateTag w.now tag w.db = .ok db)
    (hlive : live w.now w.view (payloadKey c key) = none) :
    live w.now db (payloadKey c key) = none := by
  rw [invalidateTag_eq hdb]
  cases hentry : Redis.liveEntry w.now w.view (tagKey c tag) (payloadKey c key) with
  | none =>
    have hspares := spares_invalidateTagScript h.usable (hasPrefix_tagKey c tag) hentry
    rw [live] at hlive ⊢
    rw [payloadKey] at hlive ⊢
    rw [show w.db.purge w.now = w.view from rfl, hspares.string]
    exact hlive
  | some score =>
    have hgone := gone_invalidateTagScript h.held h.usable (hasPrefix_tagKey c tag) hentry
    rw [live, payloadKey]
    rw [show w.db.purge w.now = w.view from rfl, hgone.string]
    rfl

/-- A resource that no `UNLINK` of a `clear` has split, while it has time left: each index of the
tags of its latest write scores it with its expiry and outlives it, its membership set names exactly
these tags and outlives it; and invalidating a tag removes it exactly when its latest write carried
the tag. -/
theorem unsplit_indexed (hblake : Function.Injective c.blake2b) {value : B} {mark : Nat}
    (hrun : Run (step c scanCount) (Unsplit c key) {} w)
    (hlive : live w.now w.view (payloadKey c key) = some (value, mark)) :
    ∃ tags, w.latest key = some tags ∧
      (∀ tag ∈ tags, w.view.entry (tagKey c tag) (payloadKey c key) = some mark ∧
        ∃ index last, w.view.zsets (tagKey c tag) = some index ∧
          index.expiresAt = some last ∧ mark ≤ last) ∧
      (∀ τ, τ ∈ w.view.smembers (membershipKey c key) ↔ τ ∈ tags.map (tagKey c)) ∧
      (tags ≠ [] → ∃ members, w.view.sets (membershipKey c key) = some members ∧
        members.expiresAt = some mark) ∧
      ∀ tag db, c.invalidateTag w.now tag w.db = .ok db →
        live w.now db (payloadKey c key) =
          if tag ∈ tags then none else some (value, mark) := by
  have hkept := kept_run hblake hrun
  obtain ⟨tags, htags, hentries, hmembers, hset⟩ := hkept.indexed hlive
  refine ⟨tags, htags, fun tag htag => ⟨?_, ?_⟩, hmembers, hset, fun tag db hdb => ?_⟩
  · exact (Redis.liveEntry_eq_some_iff.mp (hentries tag htag)).1
  · exact hkept.usable.covered _ _ _ (by simp) (hentries tag htag)
  · exact hkept.live_invalidateTag hblake hdb htags hlive

end Runs

/-! ## A clear beside a writer -/

/-- The cache of one application, with a codec that keeps what it is given and the digests of the
texts below. -/
def demo : RedisResourceCache Nat (String × Nat × List String) where
  keyspace := ⟨"app", by decide⟩
  codec :=
    { encode := fun version value tags => .ok (version, value, tags)
      decode := .ok }
  blake2b := tableDigest
    [(PercentEncoding.utf8 "a", "8928aae63c84d87ea098564d1e03ad813f107add474e56aedd286349c0c03ea4"),
      (PercentEncoding.utf8 "b", "6e5c1f45cbaf19f94230ba3501c378a5335af71a331b5b5aed62792332288dc3"),
      (PercentEncoding.utf8 "t", "bea4bbfe44f2db4c9e32775c1178c391ee22155316be750be8c9d15606e5df10")]

theorem demo_injective : Function.Injective demo.blake2b :=
  tableDigest_injective (by decide) (by decide)

def write (key : String) (tags : List String) : ClusterAction Nat :=
  .set key { version := "v", value := 0, expiresAt := 0, tags } (.round 60)

/-- A scan finds `a`, its membership set and the index of `t`; then `b` is written with `t`, and the
scanned keys are unlinked. -/
def clearBesideWriter : List (ClusterAction Nat) :=
  [write "a" ["t"], .clear,
    .scan 0 [payloadKey demo "a", membershipKey demo "a", tagKey demo "t"] true,
    write "b" ["t"], .unlink 0]

/-- The same commands, with the write after the unlinking. -/
def clearBeforeWriter : List (ClusterAction Nat) :=
  [write "a" ["t"], .clear,
    .scan 0 [payloadKey demo "a", membershipKey demo "a", tagKey demo "t"] true,
    .unlink 0, write "b" ["t"], .advance 1000]

/-- Nothing of `b` is there to be split. -/
def absent (w : Cluster (String × Nat × List String)) : ClusterAction Nat → Bool
  | .unlink call =>
    (w.view.strings (payloadKey demo "b")).isNone &&
      (w.nextBatch call).all fun batch => !batch.contains (membershipKey demo "b")
  | _ => true

theorem unsplit_of_absent {w : Cluster (String × Nat × List String)} {a : ClusterAction Nat}
    (h : absent w a = true) : Unsplit demo "b" w a := by
  cases a with
  | unlink call =>
    obtain ⟨hstring, hbatch⟩ := Bool.and_eq_true_iff.mp h
    intro batch hnext
    rw [hnext, Option.all_some, Bool.not_eq_true', List.contains_eq_mem, decide_eq_false_iff_not]
      at hbatch
    refine ⟨fun hstored => ?_, fun hmem => absurd hmem hbatch⟩
    rw [Option.isNone_iff_eq_none.mp hstring] at hstored
    cases hstored
  | advance | set | delete | invalidateTag | clear | scan => trivial

/-- `b`, written after the unlinking, is in the index of `t` with its expiry. -/
theorem unsplit_indexed_writtenAfter :
    ∃ (w : Cluster (String × Nat × List String)) (mark : Nat),
      live w.now w.view (payloadKey demo "b") = some (("v", 0, ["t"]), mark) ∧
        w.view.entry (tagKey demo "t") (payloadKey demo "b") = some mark := by
  have hrun : ((execUnder (step demo 500) (fun w a => absent w a = true) {}
      clearBeforeWriter).any fun w =>
        live w.now w.view (payloadKey demo "b") = some (("v", 0, ["t"]), 60000) ∧
          w.latest "b" = some ["t"]) = true := by
    with_unfolding_all decide
  obtain ⟨w, hw, hshown⟩ := (Option.any_eq_true _ _).mp hrun
  obtain ⟨hlive, hlatest⟩ := of_decide_eq_true hshown
  obtain ⟨tags, htags, hindexed, -⟩ := unsplit_indexed demo_injective
    ((Run.of_execUnder hw).mono fun _ _ h => unsplit_of_absent h) hlive
  rw [hlatest] at htags
  cases htags
  exact ⟨w, 60000, hlive, (hindexed "t" List.mem_cons_self).1⟩

/-- The index of `t` no longer lists `b`, which lives and was written with `t`; an invalidation of
`t` leaves it. -/
theorem unlinked_index :
    ∃ w, Run (step demo 500) Always {} w ∧ w.latest "b" = some ["t"] ∧
      (live w.now w.view (payloadKey demo "b")).isSome = true ∧
      w.view.entry (tagKey demo "t") (payloadKey demo "b") = none ∧
      ∃ db, demo.invalidateTag w.now "t" w.db = .ok db ∧
        (live w.now db (payloadKey demo "b")).isSome = true := by
  have hrun : ((exec (step demo 500) {} clearBesideWriter).any fun w =>
      w.latest "b" = some ["t"] ∧ (live w.now w.view (payloadKey demo "b")).isSome = true ∧
        w.view.entry (tagKey demo "t") (payloadKey demo "b") = none ∧
        (demo.invalidateTag w.now "t" w.db).toOption.any (fun db =>
          (live w.now db (payloadKey demo "b")).isSome) = true) = true := by
    with_unfolding_all decide
  obtain ⟨w, hw, hshown⟩ := (Option.any_eq_true _ _).mp hrun
  obtain ⟨hlatest, hlive, hentry, hafter⟩ := of_decide_eq_true hshown
  obtain ⟨db, hdb, hkept⟩ := (Option.any_eq_true _ _).mp hafter
  refine ⟨w, Run.of_exec hw, hlatest, hlive, hentry, db, ?_, hkept⟩
  cases hinvalidate : demo.invalidateTag w.now "t" w.db with
  | error message =>
    rw [hinvalidate] at hdb
    cases hdb
  | ok db' =>
    rw [hinvalidate] at hdb
    exact congrArg _ (Option.some.inj hdb)

end Cluster

end FluxFast.Server
