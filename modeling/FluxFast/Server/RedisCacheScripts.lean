import FluxFast.Server.RedisCacheHeld

/-!
# RedisCacheScripts — what each script leaves behind

For its own resource a script ends with all of it written (`held_setWithTags`) or with nothing left
of it (`gone_deleteWithTags`); every other resource is spared.  An invalidation is a deletion of
each resource that the index of the tag holds.
-/

namespace FluxFast.Server

open FluxFast.Theory

section Scripts

variable {B : Type} {ks : RedisCacheKeyspace} {now : Nat} {db : Redis B} {d e : String}
  {latest : Option (List String)}

/-- The resource under `d`, out of every index. -/
theorem live_leaveTags (h : Held ks now db d latest) (husable : Usable now ks.tagPrefix db)
    (τ : String) :
    Redis.liveEntry now (leaveTags now ks.tagPrefix (ks.key .resource d) (ks.key .resourceTags d) db)
      τ (ks.key .resource d) = none := by
  unfold leaveTags
  refine live_foldl_leaveTag _ husable (fun τ score hlive => ?_) τ
  obtain ⟨y, mark, hy, hτ, -, -⟩ := h.named τ score hlive
  unfold Redis.smembers
  rw [hy]
  exact hτ

theorem spares_leaveTags_digest (hne : d ≠ e) (db : Redis B) :
    SparesDigest ks now d db
      (leaveTags now ks.tagPrefix (ks.key .resource e) (ks.key .resourceTags e) db) :=
  spares_leaveTags (ks.untagged (by decide) d) (ks.untagged (by decide) d)
    (ks.key_ne_of_ne hne) db _

/-- A deleted key that is no tag key takes no entry along. -/
theorem liveEntry_del_untagged (husable : Usable now ks.tagPrefix db) {key : String}
    (hkey : hasPrefix ks.tagPrefix key = false) (τ member : String) :
    Redis.liveEntry now (db.del key) τ member = Redis.liveEntry now db τ member := by
  have hdel := @Redis.entry_del B db key τ member
  by_cases heq : τ = key
  · subst heq
    rw [liveEntry_of_untyped husable.typed hkey, Redis.liveEntry, hdel, if_pos rfl]
    rfl
  · rw [Redis.liveEntry, hdel, if_neg heq]
    rfl

theorem spares_del_digest (husable : Usable now ks.tagPrefix db) {f : RedisCacheKeyspace.Family}
    (hf : f ≠ .tag) (hne : d ≠ e) : SparesDigest ks now d db (db.del (ks.key f e)) where
  string := Function.update_of_ne (fun h => hne (RedisCacheKeyspace.key_inj h).2.2) _ _
  set := Function.update_of_ne (fun h => hne (RedisCacheKeyspace.key_inj h).2.2) _ _
  live τ := liveEntry_del_untagged husable (ks.untagged hf e) τ _

/-! ## Deletion -/

theorem usable_deleteWithTags (husable : Usable now ks.tagPrefix db) (r m : String) :
    Usable now ks.tagPrefix (deleteWithTags now ks.tagPrefix r m db) :=
  usable_del (usable_del (usable_leaveTags husable r m) r) m

theorem gone_deleteWithTags (h : Held ks now db d latest) (husable : Usable now ks.tagPrefix db) :
    Gone ks now
      (deleteWithTags now ks.tagPrefix (ks.key .resource d) (ks.key .resourceTags d) db) d where
  string := by
    have hne : ks.key .resource d ≠ ks.key .resourceTags d := ks.key_ne (by decide) d d
    refine (Function.update_of_ne hne _ _).trans ?_
    exact Function.update_self _ _ _
  live τ := by
    have hleft := usable_leaveTags husable (ks.key .resource d) (ks.key .resourceTags d)
    unfold deleteWithTags
    rw [liveEntry_del_untagged (usable_del hleft _) (ks.untagged (by decide) d),
      liveEntry_del_untagged hleft (ks.untagged (by decide) d)]
    exact live_leaveTags h husable τ

theorem spares_deleteWithTags (husable : Usable now ks.tagPrefix db) (hne : d ≠ e) :
    SparesDigest ks now d db
      (deleteWithTags now ks.tagPrefix (ks.key .resource e) (ks.key .resourceTags e) db) := by
  have hleft := usable_leaveTags husable (ks.key .resource e) (ks.key .resourceTags e)
  refine (spares_leaveTags_digest hne db).trans ?_
  refine (spares_del_digest hleft (f := .resource) (by decide) hne).trans ?_
  exact spares_del_digest (usable_del hleft _) (f := .resourceTags) (by decide) hne

/-! ## Writing -/

section Writing

variable {r m : String} {tagKeys : List String} {mark : Nat}

/-- The loop over the new tags. -/
theorem joined_foldl_joinTag (hmark : now < mark) (hm : m ∉ tagKeys) {joined : List String}
    (h : Joined now mark r m joined db) :
    Joined now mark r m (joined ++ tagKeys) (tagKeys.foldl (joinTag now mark r m) db) := by
  induction tagKeys generalizing db joined with
  | nil => simpa using h
  | cons tagKey tagKeys ih =>
    have hstep := joined_joinTag hmark h fun heq => hm (heq ▸ List.mem_cons_self)
    have hrest := ih (fun hmem => hm (List.mem_cons_of_mem _ hmem)) hstep
    rw [List.append_assoc] at hrest
    exact hrest

theorem usable_foldl_joinTag (r m : String) (mark : Nat) (husable : Usable now ks.tagPrefix db)
    (htags : ∀ τ ∈ tagKeys, hasPrefix ks.tagPrefix τ = true) :
    Usable now ks.tagPrefix (tagKeys.foldl (joinTag now mark r m) db) :=
  foldl_invariant (I := Usable now ks.tagPrefix) _
    (fun _ τ hτ hs => usable_joinTag hs (htags τ hτ) r m) husable

theorem strings_foldl_joinTag (now : Nat) (r m : String) (mark : Nat) {k : String} (hk : k ∉ tagKeys)
    (db : Redis B) :
    (tagKeys.foldl (joinTag now mark r m) db).strings k = db.strings k := by
  induction tagKeys generalizing db with
  | nil => rfl
  | cons tagKey tagKeys ih =>
    refine (ih (fun h => hk (List.mem_cons_of_mem _ h)) _).trans ?_
    exact (others_joinTag db).1 k fun heq => hk (heq ▸ List.mem_cons_self)

theorem spares_foldl_joinTag (hmark : now < mark)
    (htags : ∀ τ ∈ tagKeys, hasPrefix ks.tagPrefix τ = true) (hne : d ≠ e) (db : Redis B) :
    SparesDigest ks now d db
      (tagKeys.foldl (joinTag now mark (ks.key .resource e) (ks.key .resourceTags e)) db) := by
  refine foldl_relates_of_mem Spares.refl Spares.trans tagKeys (fun db τ hτ => ?_) db
  have hτ : ∀ {f : RedisCacheKeyspace.Family}, f ≠ .tag → ks.key f d ≠ τ :=
    fun hf => Ne.symm (ks.ne_of_hasPrefix_tag (htags τ hτ) hf d)
  exact spares_joinTag hmark (hτ (by decide)) (hτ (by decide)) (ks.key_ne_of_ne hne)
    (ks.key_ne_of_ne hne) db

theorem untagged_not_mem (htags : ∀ τ ∈ tagKeys, hasPrefix ks.tagPrefix τ = true)
    {f : RedisCacheKeyspace.Family} (hf : f ≠ .tag) (d : String) : ks.key f d ∉ tagKeys :=
  fun hmem => ks.ne_of_hasPrefix_tag (htags _ hmem) hf d rfl

/-- The server when the loop over the new tags begins: the resource is written, and neither a
membership set nor an index knows it. -/
def written (now : Nat) (tagPrefix r m : String) (payload : B) (mark : Nat) (db : Redis B) :
    Redis B :=
  ((leaveTags now tagPrefix r m db).set r payload mark).del m

variable (payload : B)

theorem usable_written (r m : String) (mark : Nat) (husable : Usable now ks.tagPrefix db) :
    Usable now ks.tagPrefix (written now ks.tagPrefix r m payload mark db) := by
  refine usable_del ?_ m
  exact usable_of_zsets (usable_del (usable_leaveTags husable r m) r) rfl

theorem strings_written (mark : Nat) (hne : r ≠ m) :
    (written now ks.tagPrefix r m payload mark db).strings r = some ⟨payload, some mark⟩ := by
  refine (Function.update_of_ne hne _ _).trans ?_
  exact Function.update_self _ _ _

theorem liveEntry_written (mark : Nat) (husable : Usable now ks.tagPrefix db)
    (hr : hasPrefix ks.tagPrefix r = false) (hm : hasPrefix ks.tagPrefix m = false)
    (τ member : String) :
    Redis.liveEntry now (written now ks.tagPrefix r m payload mark db) τ member =
      Redis.liveEntry now (leaveTags now ks.tagPrefix r m db) τ member := by
  have hleft := usable_leaveTags husable r m
  have hdel := liveEntry_del_untagged hleft hr τ member
  have hset : Usable now ks.tagPrefix ((leaveTags now ks.tagPrefix r m db).set r payload mark) :=
    usable_of_zsets (usable_del hleft r) rfl
  exact (liveEntry_del_untagged hset hm τ member).trans hdel

theorem joined_written (mark : Nat) (h : Held ks now db d latest) (husable : Usable now ks.tagPrefix db) :
    Joined now mark (ks.key .resource d) (ks.key .resourceTags d) []
      (written now ks.tagPrefix (ks.key .resource d) (ks.key .resourceTags d) payload mark db)
    where
  members x := by
    have hnone : (written now ks.tagPrefix (ks.key .resource d) (ks.key .resourceTags d) payload
        mark db).sets (ks.key .resourceTags d) = none := Function.update_self _ _ _
    unfold Redis.smembers
    rw [hnone]
  live τ := by
    rw [liveEntry_written payload mark husable (ks.untagged (by decide) d) (ks.untagged (by decide) d),
      live_leaveTags h husable]
    rfl

theorem spares_written (mark : Nat) (husable : Usable now ks.tagPrefix db) (hne : d ≠ e) :
    SparesDigest ks now d db
      (written now ks.tagPrefix (ks.key .resource e) (ks.key .resourceTags e) payload mark db) where
  string := by
    refine (Function.update_of_ne (ks.key_ne (by decide) d e) _ _).trans ?_
    refine (Function.update_of_ne (ks.key_ne_of_ne hne) _ _).trans ?_
    refine (Function.update_of_ne (ks.key_ne_of_ne hne) _ _).trans ?_
    exact (spares_leaveTags_digest hne db).string
  set := by
    refine (Function.update_of_ne (ks.key_ne_of_ne hne) _ _).trans ?_
    refine (Function.update_of_ne (ks.key_ne (by decide) d e) _ _).trans ?_
    exact (spares_leaveTags_digest hne db).set
  live τ := by
    rw [liveEntry_written payload mark husable (ks.untagged (by decide) e) (ks.untagged (by decide) e)]
    exact (spares_leaveTags_digest hne db).live τ

theorem zsets_pexpireat_untagged (htyped : Typed ks.tagPrefix db) (hmark : now < mark)
    (hm : hasPrefix ks.tagPrefix m = false) : (db.pexpireat now m mark).zsets = db.zsets := by
  funext k
  by_cases hk : k = m
  · subst hk
    have hnone : db.zsets k = none := by
      cases hx : db.zsets k with
      | none => rfl
      | some x =>
        have hbegins := htyped k (by rw [hx]; rfl)
        rw [hm] at hbegins
        cases hbegins
    unfold Redis.pexpireat
    rw [if_neg (Nat.not_le.mpr hmark)]
    simp only [Function.update_self]
    rw [hnone]
    rfl
  · exact zsets_pexpireat_of_ne hk

theorem sets_pexpireat_self (hmark : now < mark) :
    (db.pexpireat now m mark).sets m =
      (db.sets m).map fun y => { y with expiresAt := some mark } := by
  unfold Redis.pexpireat
  rw [if_neg (Nat.not_le.mpr hmark)]
  exact Function.update_self _ _ _

/-- The last step of the script: the membership set of a tagged resource gets its expiry. -/
def finished (now : Nat) (m : String) (tagKeys : List String) (mark : Nat) (db : Redis B) : Redis B :=
  if tagKeys = [] then db else db.pexpireat now m mark

theorem setWithTags_eq (tagPrefix : String) (ttlMs : Nat) (db : Redis B) :
    setWithTags now tagPrefix r m tagKeys payload ttlMs db =
      finished now m tagKeys (now + ttlMs)
        (tagKeys.foldl (joinTag now (now + ttlMs) r m)
          (written now tagPrefix r m payload (now + ttlMs) db)) := rfl

theorem zsets_finished (tagKeys : List String) (htyped : Typed ks.tagPrefix db) (hmark : now < mark)
    (hm : hasPrefix ks.tagPrefix m = false) :
    (finished now m tagKeys mark db).zsets = db.zsets := by
  unfold finished
  split
  · rfl
  · exact zsets_pexpireat_untagged htyped hmark hm

theorem usable_setWithTags (husable : Usable now ks.tagPrefix db)
    (htags : ∀ τ ∈ tagKeys, hasPrefix ks.tagPrefix τ = true) {ttlMs : Nat} (httl : 0 < ttlMs)
    (hm : hasPrefix ks.tagPrefix m = false) :
    Usable now ks.tagPrefix (setWithTags now ks.tagPrefix r m tagKeys payload ttlMs db) := by
  have hloop := usable_foldl_joinTag r m (now + ttlMs)
    (usable_written payload r m (now + ttlMs) husable) htags
  rw [setWithTags_eq]
  exact usable_of_zsets hloop (zsets_finished tagKeys hloop.typed (by omega) hm)

theorem spares_setWithTags (husable : Usable now ks.tagPrefix db)
    (htags : ∀ τ ∈ tagKeys, hasPrefix ks.tagPrefix τ = true) {ttlMs : Nat} (httl : 0 < ttlMs)
    (hne : d ≠ e) :
    SparesDigest ks now d db (setWithTags now ks.tagPrefix (ks.key .resource e)
      (ks.key .resourceTags e) tagKeys payload ttlMs db) := by
  have hmark : now < now + ttlMs := by omega
  have hloop := usable_foldl_joinTag (ks.key .resource e) (ks.key .resourceTags e) (now + ttlMs)
    (usable_written payload (ks.key .resource e) (ks.key .resourceTags e) (now + ttlMs) husable)
    htags
  rw [setWithTags_eq]
  refine (spares_written payload (now + ttlMs) husable hne).trans ?_
  refine (spares_foldl_joinTag hmark htags hne _).trans ?_
  have hzsets := zsets_finished tagKeys hloop.typed hmark
    (ks.untagged (f := .resourceTags) (by decide) e)
  refine ⟨?_, ?_, fun τ => ?_⟩
  · unfold finished
    split
    · rfl
    · exact strings_pexpireat_of_ne (ks.key_ne (by decide) d e)
  · unfold finished
    split
    · rfl
    · exact sets_pexpireat_of_ne (ks.key_ne_of_ne hne)
  · unfold Redis.liveEntry Redis.entry
    rw [hzsets]

theorem strings_setWithTags (now : Nat) (d : String)
    (htags : ∀ τ ∈ tagKeys, hasPrefix ks.tagPrefix τ = true) (ttlMs : Nat) (db : Redis B) :
    (setWithTags now ks.tagPrefix (ks.key .resource d) (ks.key .resourceTags d) tagKeys payload ttlMs
      db).strings (ks.key .resource d) = some ⟨payload, some (now + ttlMs)⟩ := by
  have hne : ks.key .resource d ≠ ks.key .resourceTags d := ks.key_ne (by decide) d d
  have hloop := strings_foldl_joinTag now (ks.key .resource d) (ks.key .resourceTags d)
    (now + ttlMs) (untagged_not_mem htags (f := .resource) (by decide) d)
    (written now ks.tagPrefix (ks.key .resource d) (ks.key .resourceTags d) payload (now + ttlMs) db)
  refine Eq.trans ?_ (hloop.trans (strings_written payload _ hne))
  rw [setWithTags_eq, finished]
  split
  · rfl
  · exact strings_pexpireat_of_ne hne

/-- After a write everything about the resource is as the write says. -/
theorem held_setWithTags (h : Held ks now db d latest) (husable : Usable now ks.tagPrefix db)
    (htags : ∀ τ ∈ tagKeys, hasPrefix ks.tagPrefix τ = true) {ttlMs : Nat} (httl : 0 < ttlMs) :
    Held ks now (setWithTags now ks.tagPrefix (ks.key .resource d) (ks.key .resourceTags d) tagKeys
      payload ttlMs db) d (some tagKeys) := by
  have hmark : now < now + ttlMs := by omega
  have hm : ks.key .resourceTags d ∉ tagKeys := untagged_not_mem htags (by decide) d
  have hloop := usable_foldl_joinTag (ks.key .resource d) (ks.key .resourceTags d) (now + ttlMs)
    (usable_written payload (ks.key .resource d) (ks.key .resourceTags d) (now + ttlMs) husable)
    htags
  have hjoined := joined_foldl_joinTag hmark hm
    (joined_written payload (now + ttlMs) h husable)
  have hstring := strings_setWithTags payload now d htags ttlMs db
  rw [setWithTags_eq] at hstring ⊢
  rw [List.nil_append] at hjoined
  generalize tagKeys.foldl _ _ = db' at hloop hjoined hstring ⊢
  have hzsets := zsets_finished tagKeys hloop.typed hmark
    (ks.untagged (f := .resourceTags) (by decide) d)
  have hlive : ∀ τ, Redis.liveEntry now (finished now (ks.key .resourceTags d) tagKeys
      (now + ttlMs) db') τ (ks.key .resource d) = if τ ∈ tagKeys then some (now + ttlMs) else none := by
    intro τ
    rw [← hjoined.live τ]
    unfold Redis.liveEntry Redis.entry
    rw [hzsets]
  -- the membership set of a tagged resource, with its expiry
  have hset : ∀ τ ∈ tagKeys, ∃ y, (finished now (ks.key .resourceTags d) tagKeys (now + ttlMs)
      db').sets (ks.key .resourceTags d) = some y ∧ y.expiresAt = some (now + ttlMs) ∧
        ∀ x, x ∈ y.value.keys ↔ x ∈ tagKeys := by
    intro τ hτ
    have hmember := (hjoined.members τ).mpr hτ
    have hmembers := hjoined.members
    unfold Redis.smembers at hmember hmembers
    unfold finished
    rw [if_neg (List.ne_nil_of_mem hτ), sets_pexpireat_self hmark]
    cases hy : db'.sets (ks.key .resourceTags d) with
    | none =>
      rw [hy] at hmember
      cases hmember
    | some y =>
      rw [hy] at hmembers
      exact ⟨{ y with expiresAt := some (now + ttlMs) }, rfl, rfl, hmembers⟩
  refine ⟨fun x hx => ?_, fun τ score hscore => ?_⟩
  · rw [hstring] at hx
    cases hx
    refine ⟨now + ttlMs, tagKeys, rfl, rfl, fun τ => ?_, fun hne => ?_, fun _ τ hτ => ?_⟩
    · cases tagKeys with
      | nil => exact hjoined.members τ
      | cons first rest =>
        obtain ⟨y, hy, -, hmembers⟩ := hset first List.mem_cons_self
        unfold Redis.smembers
        rw [hy]
        exact hmembers τ
    · obtain ⟨first, hfirst⟩ := List.exists_mem_of_ne_nil _ hne
      obtain ⟨y, hy, hymark, -⟩ := hset first hfirst
      exact ⟨y, hy, hymark⟩
    · rw [hlive τ, if_pos hτ]
  · rw [hlive τ] at hscore
    split at hscore
    · next hτ =>
      cases hscore
      obtain ⟨y, hy, hymark, hmembers⟩ := hset τ hτ
      exact ⟨y, now + ttlMs, hy, (hmembers τ).mpr hτ, hymark, le_rfl⟩
    · cases hscore

end Writing

/-! ## Invalidation -/

section Invalidation

theorem usable_zremrangebyscore (husable : Usable now ks.tagPrefix db) (key : String) :
    Usable now ks.tagPrefix (db.zremrangebyscore key now) where
  typed τ hτ := by
    by_cases heq : τ = key
    · subst heq
      cases hx : db.zsets τ with
      | none =>
        rw [Redis.zremrangebyscore, hx] at hτ
        rw [hx] at hτ
        cases hτ
      | some x => exact husable.typed τ (by rw [hx]; rfl)
    · rw [(others_zremrangebyscore db key now).2.2 τ heq] at hτ
      exact husable.typed τ hτ
  covered τ member score hskip hlive := by
    have hentry := (Redis.liveEntry_eq_some_iff.mp hlive).1
    rw [liveEntry_zremrangebyscore] at hlive
    obtain ⟨x, mark, hx, hmark, hscore⟩ := husable.covered τ member score hskip hlive
    by_cases heq : τ = key
    · subst heq
      -- the index still has the member, so it was not deleted
      obtain ⟨y, hy, hget⟩ := Redis.entry_eq_some_iff.mp hentry
      refine ⟨y, mark, hy, ?_, hscore⟩
      rw [Redis.zremrangebyscore, hx] at hy
      dsimp only [Redis.putZSet] at hy
      rw [Function.update_self] at hy
      split at hy
      · cases hy
      · cases hy
        exact hmark
    · exact ⟨x, mark, ((others_zremrangebyscore db key now).2.2 τ heq).trans hx, hmark, hscore⟩

theorem spares_zremrangebyscore (db : Redis B) (key : String) {r m : String} :
    Spares now r m db (db.zremrangebyscore key now) where
  string := congrFun (others_zremrangebyscore db key now).1 r
  set := congrFun (others_zremrangebyscore db key now).2.1 m
  live τ := liveEntry_zremrangebyscore db key τ r

/-- A member of an index that looks like a resource key is deleted as a resource. -/
theorem removeResource_key (db : Redis B) (e : String) :
    removeResource now ks.resourcePrefix ks.resourceTagsPrefix ks.tagPrefix db (ks.key .resource e) =
      deleteWithTags now ks.tagPrefix (ks.key .resource e) (ks.key .resourceTags e) db := by
  have hkey := ks.resourcePrefix_append e
  unfold removeResource
  rw [← hkey, if_pos (hasPrefix_append _ _), dropPrefix_append, ks.resourceTagsPrefix_append]
  rfl

theorem removeResource_cases (k : String) :
    (∃ e, k = ks.key .resource e ∧ ∀ db : Redis B,
      removeResource now ks.resourcePrefix ks.resourceTagsPrefix ks.tagPrefix db k =
        deleteWithTags now ks.tagPrefix (ks.key .resource e) (ks.key .resourceTags e) db) ∨
    ∀ db : Redis B,
      removeResource now ks.resourcePrefix ks.resourceTagsPrefix ks.tagPrefix db k = db := by
  cases hbegins : hasPrefix ks.resourcePrefix k with
  | true =>
    have hk : k = ks.key .resource (dropPrefix ks.resourcePrefix k) := by
      rw [← ks.resourcePrefix_append]
      exact eq_append_of_hasPrefix hbegins
    refine .inl ⟨_, hk, fun db => ?_⟩
    rw [← removeResource_key, ← hk]
  | false =>
    refine .inr fun db => ?_
    unfold removeResource
    rw [if_neg (by simp [hbegins])]

variable {keys : List String}

/-- The loop over the resources of a tag. -/
abbrev removeResources (ks : RedisCacheKeyspace) (now : Nat) (keys : List String) (db : Redis B) :
    Redis B :=
  keys.foldl (removeResource now ks.resourcePrefix ks.resourceTagsPrefix ks.tagPrefix) db

theorem usable_removeResources (keys : List String) (husable : Usable now ks.tagPrefix db) :
    Usable now ks.tagPrefix (removeResources ks now keys db) := by
  refine foldl_invariant (I := Usable now ks.tagPrefix) keys (fun db k _ hdb => ?_) husable
  obtain ⟨e, -, heq⟩ | heq := @removeResource_cases B ks now k
  · rw [heq]
    exact usable_deleteWithTags hdb _ _
  · rw [heq]
    exact hdb

theorem spares_removeResources (keys : List String) (husable : Usable now ks.tagPrefix db)
    (hd : ks.key .resource d ∉ keys) :
    SparesDigest ks now d db (removeResources ks now keys db) := by
  induction keys generalizing db with
  | nil => exact Spares.refl db
  | cons k keys ih =>
    have hnext := usable_removeResources [k] husable
    refine Spares.trans ?_ (ih hnext fun hmem => hd (List.mem_cons_of_mem _ hmem))
    obtain ⟨e, rfl, heq⟩ | heq := @removeResource_cases B ks now k
    · have hne : d ≠ e := fun h => hd (h ▸ List.mem_cons_self)
      rw [heq]
      exact spares_deleteWithTags husable hne
    · rw [heq]
      exact Spares.refl db

theorem gone_removeResources_of_gone (h : Gone ks now db d) (husable : Usable now ks.tagPrefix db) :
    Gone ks now (removeResources ks now keys db) d := by
  induction keys generalizing db with
  | nil => exact h
  | cons k keys ih =>
    refine ih ?_ (usable_removeResources [k] husable)
    obtain ⟨e, rfl, heq⟩ | heq := @removeResource_cases B ks now k
    · rw [heq]
      by_cases hne : d = e
      · subst hne
        exact gone_deleteWithTags (h.held none) husable
      · exact h.spared (spares_deleteWithTags husable hne)
    · rw [heq]
      exact h

theorem gone_removeResources (h : Held ks now db d latest) (husable : Usable now ks.tagPrefix db)
    (hd : ks.key .resource d ∈ keys) : Gone ks now (removeResources ks now keys db) d := by
  induction keys generalizing db with
  | nil => cases hd
  | cons k keys ih =>
    have hnext := usable_removeResources [k] husable
    by_cases hk : k = ks.key .resource d
    · subst hk
      refine @gone_removeResources_of_gone B ks now (removeResources ks now [_] db) d keys ?_ hnext
      have hgone := gone_deleteWithTags h husable
      rw [← removeResource_key] at hgone
      exact hgone
    · have hrest := (List.mem_cons.mp hd).resolve_left (Ne.symm hk)
      refine ih (h.spared ?_) hnext hrest
      exact spares_removeResources [k] husable fun hmem =>
        hk (List.mem_singleton.mp hmem).symm

variable {tagKey : String}

theorem usable_invalidateTagScript (husable : Usable now ks.tagPrefix db) (tagKey : String) :
    Usable now ks.tagPrefix (invalidateTagScript now ks.resourcePrefix ks.resourceTagsPrefix
      ks.tagPrefix tagKey db) :=
  usable_del (usable_removeResources _ (usable_zremrangebyscore husable tagKey)) tagKey

/-- The members left after the pruning are those whose score lies ahead. -/
theorem mem_zmembers_pruned (db : Redis B) (key member : String) :
    member ∈ (db.zremrangebyscore key now).zmembers key ↔
      ∃ score, Redis.liveEntry now db key member = some score := by
  rw [Redis.mem_zmembers, Redis.entry_zremrangebyscore, if_pos rfl]
  rfl

/-- A resource that the index of the tag holds is gone. -/
theorem gone_invalidateTagScript (h : Held ks now db d latest)
    (husable : Usable now ks.tagPrefix db) (htag : hasPrefix ks.tagPrefix tagKey = true)
    {score : Nat} (hlive : Redis.liveEntry now db tagKey (ks.key .resource d) = some score) :
    Gone ks now (invalidateTagScript now ks.resourcePrefix ks.resourceTagsPrefix ks.tagPrefix tagKey
      db) d := by
  have hpruned := usable_zremrangebyscore husable tagKey
  have hmem := (mem_zmembers_pruned db tagKey (ks.key .resource d)).mpr ⟨score, hlive⟩
  have hgone := gone_removeResources (h.spared (spares_zremrangebyscore db tagKey)) hpruned hmem
  refine hgone.spared (spares_del ?_ ?_ (hgone.live tagKey))
  · exact Ne.symm (ks.ne_of_hasPrefix_tag htag (by decide) d)
  · exact Ne.symm (ks.ne_of_hasPrefix_tag htag (by decide) d)

/-- Every other resource is as before. -/
theorem spares_invalidateTagScript (husable : Usable now ks.tagPrefix db)
    (htag : hasPrefix ks.tagPrefix tagKey = true)
    (hlive : Redis.liveEntry now db tagKey (ks.key .resource d) = none) :
    SparesDigest ks now d db (invalidateTagScript now ks.resourcePrefix ks.resourceTagsPrefix
      ks.tagPrefix tagKey db) := by
  have hpruned := usable_zremrangebyscore husable tagKey
  have hmem : ks.key .resource d ∉ (db.zremrangebyscore tagKey now).zmembers tagKey := by
    rw [mem_zmembers_pruned, hlive]
    simp
  have hloop : SparesDigest ks now d db (removeResources ks now _ _) :=
    (spares_zremrangebyscore db tagKey).trans (spares_removeResources _ hpruned hmem)
  refine hloop.trans (spares_del ?_ ?_ ((hloop.live tagKey).trans hlive))
  · exact Ne.symm (ks.ne_of_hasPrefix_tag htag (by decide) d)
  · exact Ne.symm (ks.ne_of_hasPrefix_tag htag (by decide) d)

end Invalidation

end Scripts

end FluxFast.Server
