import FluxFast.Server.RedisCache

/-!
# RedisCacheIndex — the scripts keep the tag indexes usable

What the server holds for one resource is its payload, its membership set and its entries in the
tag indexes.  A script about one resource spares every other resource; for its own resource it
first takes it out of every index that the membership set names, which are all that hold it.
-/

namespace FluxFast.Server

open FluxFast.Theory

/-! ## Keys -/

theorem hasPrefix_append (before rest : String) : hasPrefix before (before ++ rest) = true := by
  rw [hasPrefix, List.isPrefixOf_iff_prefix, String.toList_append]
  exact List.prefix_append _ _

theorem dropPrefix_append (before rest : String) : dropPrefix before (before ++ rest) = rest := by
  apply String.toList_injective
  rw [dropPrefix, String.toList_ofList, String.toList_append, ← String.length_toList,
    List.drop_left]

theorem eq_append_of_hasPrefix {before text : String} (h : hasPrefix before text = true) :
    text = before ++ dropPrefix before text := by
  obtain ⟨rest, hrest⟩ := List.isPrefixOf_iff_prefix.mp h
  have htext : text = before ++ String.ofList rest := by
    apply String.toList_injective
    rw [String.toList_append, String.toList_ofList, hrest]
  rw [htext, dropPrefix_append]

namespace RedisCacheKeyspace

variable (ks : RedisCacheKeyspace)

theorem resourcePrefix_append (d : String) : ks.resourcePrefix ++ d = ks.key .resource d := by
  rw [resourcePrefix, key, String.append_assoc, String.append_assoc, String.append_assoc]
  rfl

theorem resourceTagsPrefix_append (d : String) :
    ks.resourceTagsPrefix ++ d = ks.key .resourceTags d := by
  rw [resourceTagsPrefix, key, String.append_assoc, String.append_assoc, String.append_assoc]
  rfl

theorem tagPrefix_append (d : String) : ks.tagPrefix ++ d = ks.key .tag d := by
  rw [tagPrefix, key, String.append_assoc, String.append_assoc, String.append_assoc]
  rfl

theorem key_ne {f g : Family} (h : f ≠ g) (d e : String) : ks.key f d ≠ ks.key g e :=
  fun heq => h (key_inj heq).2.1

theorem key_ne_of_ne {f : Family} {d e : String} (h : d ≠ e) : ks.key f d ≠ ks.key f e :=
  fun heq => h (key_inj heq).2.2

theorem hasPrefix_tag (d : String) : hasPrefix ks.tagPrefix (ks.key .tag d) = true := by
  rw [← tagPrefix_append]
  exact hasPrefix_append _ _

theorem ne_of_hasPrefix_tag {tagKey : String} (h : hasPrefix ks.tagPrefix tagKey = true)
    {f : Family} (hf : f ≠ .tag) (d : String) : tagKey ≠ ks.key f d := by
  rw [eq_append_of_hasPrefix h, tagPrefix_append]
  exact key_ne ks (Ne.symm hf) _ _

end RedisCacheKeyspace

/-! ## Indexes -/

section Indexes

variable {B : Type} {now : Nat} {db : Redis B} {τ key : String}

/-- Only tag keys hold sorted sets. -/
def Typed (tagPrefix : String) (db : Redis B) : Prop :=
  ∀ τ, (db.zsets τ).isSome = true → hasPrefix tagPrefix τ = true

/-- An index outlives the entries that lie ahead, except perhaps the index `skip`. -/
def CoveredBut (now : Nat) (skip : Option String) (db : Redis B) : Prop :=
  ∀ τ member score, some τ ≠ skip → Redis.liveEntry now db τ member = some score →
    ∃ x mark, db.zsets τ = some x ∧ x.expiresAt = some mark ∧ score ≤ mark

theorem zsets_pexpireat_of_ne {mark : Nat} (h : τ ≠ key) :
    (db.pexpireat now key mark).zsets τ = db.zsets τ := by
  unfold Redis.pexpireat Redis.del
  split
  · exact Function.update_of_ne h _ _
  · exact Function.update_of_ne h _ _

theorem strings_pexpireat_of_ne {mark : Nat} (h : τ ≠ key) :
    (db.pexpireat now key mark).strings τ = db.strings τ := by
  unfold Redis.pexpireat Redis.del
  split
  · exact Function.update_of_ne h _ _
  · exact Function.update_of_ne h _ _

theorem sets_pexpireat_of_ne {mark : Nat} (h : τ ≠ key) :
    (db.pexpireat now key mark).sets τ = db.sets τ := by
  unfold Redis.pexpireat Redis.del
  split
  · exact Function.update_of_ne h _ _
  · exact Function.update_of_ne h _ _

/-- Commands on sorted sets touch no other type. -/
theorem others_zremrangebyscore (db : Redis B) (key : String) (max : Nat) :
    (db.zremrangebyscore key max).strings = db.strings ∧
      (db.zremrangebyscore key max).sets = db.sets ∧
      ∀ τ, τ ≠ key → (db.zremrangebyscore key max).zsets τ = db.zsets τ := by
  unfold Redis.zremrangebyscore Redis.putZSet
  cases db.zsets key with
  | none => exact ⟨rfl, rfl, fun _ _ => rfl⟩
  | some x => exact ⟨rfl, rfl, fun τ hτ => Function.update_of_ne hτ _ _⟩

theorem others_zrem (db : Redis B) (key : String) (member : String) :
    (db.zrem key member).strings = db.strings ∧ (db.zrem key member).sets = db.sets ∧
      ∀ τ, τ ≠ key → (db.zrem key member).zsets τ = db.zsets τ := by
  unfold Redis.zrem Redis.putZSet
  cases db.zsets key with
  | none => exact ⟨rfl, rfl, fun _ _ => rfl⟩
  | some x => exact ⟨rfl, rfl, fun τ hτ => Function.update_of_ne hτ _ _⟩

theorem others_zadd (db : Redis B) (key : String) (score : Nat) (member : String) :
    (db.zadd key score member).strings = db.strings ∧ (db.zadd key score member).sets = db.sets ∧
      ∀ τ, τ ≠ key → (db.zadd key score member).zsets τ = db.zsets τ := by
  unfold Redis.zadd Redis.putZSet
  cases db.zsets key with
  | none => exact ⟨rfl, rfl, fun τ hτ => Function.update_of_ne hτ _ _⟩
  | some x => exact ⟨rfl, rfl, fun τ hτ => Function.update_of_ne hτ _ _⟩

/-- The last member of a pruned index lies ahead. -/
theorem lt_zlast {last : Nat} (h : (db.zremrangebyscore key now).zlast key = some last) :
    now < last := by
  obtain ⟨member, hmember⟩ := Redis.zlast_mem h
  rw [Redis.entry_zremrangebyscore, if_pos rfl, Option.filter_eq_some_iff] at hmember
  exact of_decide_eq_true hmember.2

theorem liveEntry_zremrangebyscore (db : Redis B) (key τ member : String) :
    Redis.liveEntry now (db.zremrangebyscore key now) τ member = Redis.liveEntry now db τ member := by
  unfold Redis.liveEntry
  rw [Redis.entry_zremrangebyscore]
  split
  · rw [Option.filter_filter]
    congr 1
    funext score
    simp
  · rfl

theorem liveEntry_refreshTag (db : Redis B) (key τ member : String) :
    Redis.liveEntry now (refreshTag now db key) τ member = Redis.liveEntry now db τ member := by
  refine Eq.trans ?_ (liveEntry_zremrangebyscore db key τ member)
  unfold refreshTag
  dsimp only
  split
  · next hnone =>
    have hempty := Redis.zlast_eq_none_iff.mp hnone
    unfold Redis.liveEntry
    rw [Redis.entry_del]
    split
    · next hτ => rw [hτ, hempty member]
    · rfl
  · next last hlast =>
    unfold Redis.liveEntry
    rw [Redis.entry_pexpireat (lt_zlast hlast)]

theorem others_refreshTag :
    (∀ k, k ≠ key → (refreshTag now db key).strings k = db.strings k) ∧
      (∀ k, k ≠ key → (refreshTag now db key).sets k = db.sets k) ∧
      ∀ k, k ≠ key → (refreshTag now db key).zsets k = db.zsets k := by
  obtain ⟨hstrings, hsets, hzsets⟩ := others_zremrangebyscore db key now
  unfold refreshTag
  dsimp only
  split
  · refine ⟨fun k hk => ?_, fun k hk => ?_, fun k hk => ?_⟩
    · exact (Function.update_of_ne hk _ _).trans (congrFun hstrings k)
    · exact (Function.update_of_ne hk _ _).trans (congrFun hsets k)
    · exact (Function.update_of_ne hk _ _).trans (hzsets k hk)
  · refine ⟨fun k hk => ?_, fun k hk => ?_, fun k hk => ?_⟩
    · exact (strings_pexpireat_of_ne hk).trans (congrFun hstrings k)
    · exact (sets_pexpireat_of_ne hk).trans (congrFun hsets k)
    · exact (zsets_pexpireat_of_ne hk).trans (hzsets k hk)

/-- A refreshed index outlives its members. -/
theorem covered_refreshTag (h : CoveredBut now (some key) db) :
    CoveredBut now none (refreshTag now db key) := by
  intro τ member score _ hlive
  rw [liveEntry_refreshTag] at hlive
  by_cases hτ : τ = key
  · subst hτ
    have hpruned : (db.zremrangebyscore τ now).entry τ member = some score := by
      rw [Redis.entry_zremrangebyscore, if_pos rfl]
      exact hlive
    unfold refreshTag
    dsimp only
    split
    · next hnone =>
      rw [Redis.zlast_eq_none_iff.mp hnone member] at hpruned
      cases hpruned
    · next last hlast =>
      obtain ⟨x, hx, -⟩ := Redis.entry_eq_some_iff.mp hpruned
      refine ⟨{ x with expiresAt := some last }, last, ?_, rfl, Redis.le_zlast hlast hpruned⟩
      unfold Redis.pexpireat
      rw [if_neg (Nat.not_le.mpr (lt_zlast hlast))]
      simp only [Function.update_self]
      rw [hx]
      rfl
  · rw [others_refreshTag.2.2 τ hτ]
    exact h τ member score (by simpa using hτ) hlive

/-- Entries of an index matter to coverage only through that index. -/
theorem CoveredBut.of_others {db' : Redis B} (h : CoveredBut now none db)
    (hzsets : ∀ k, k ≠ key → db'.zsets k = db.zsets k) : CoveredBut now (some key) db' := by
  intro τ member score hτ hlive
  have hne : τ ≠ key := fun heq => hτ (congrArg some heq)
  have hlive' : Redis.liveEntry now db τ member = some score := by
    unfold Redis.liveEntry Redis.entry at hlive ⊢
    rwa [hzsets τ hne] at hlive
  rw [hzsets τ hne]
  exact h τ member score (by simp) hlive'

/-- The server between two scripts. -/
structure Usable (now : Nat) (tagPrefix : String) (db : Redis B) : Prop where
  typed : Typed tagPrefix db
  covered : CoveredBut now none db

variable {tagPrefix r m : String}

theorem Typed.of_others {db' : Redis B} (h : Typed tagPrefix db)
    (hkey : hasPrefix tagPrefix key = true) (hzsets : ∀ k, k ≠ key → db'.zsets k = db.zsets k) :
    Typed tagPrefix db' := by
  intro k hk
  by_cases heq : k = key
  · rw [heq]
    exact hkey
  · rw [hzsets k heq] at hk
    exact h k hk

/-- A change of one index, refreshed. -/
theorem usable_refreshTag {db' : Redis B} (h : Usable now tagPrefix db)
    (hkey : hasPrefix tagPrefix key = true) (hzsets : ∀ k, k ≠ key → db'.zsets k = db.zsets k) :
    Usable now tagPrefix (refreshTag now db' key) where
  typed := (h.typed.of_others hkey hzsets).of_others hkey fun k hk => others_refreshTag.2.2 k hk
  covered := covered_refreshTag (CoveredBut.of_others h.covered hzsets)

theorem usable_of_zsets {db' : Redis B} (h : Usable now tagPrefix db) (hzsets : db'.zsets = db.zsets) :
    Usable now tagPrefix db' where
  typed k hk := h.typed k (by rwa [← hzsets])
  covered τ member score hτ hlive := by
    rw [hzsets]
    refine h.covered τ member score hτ ?_
    unfold Redis.liveEntry Redis.entry at hlive ⊢
    rwa [hzsets] at hlive

theorem usable_del (h : Usable now tagPrefix db) (key : String) : Usable now tagPrefix (db.del key)
    where
  typed k hk := by
    by_cases heq : k = key
    · subst heq
      simp [Redis.del] at hk
    · refine h.typed k ?_
      simpa [Redis.del, Function.update_of_ne heq] using hk
  covered τ member score hτ hlive := by
    rw [Redis.liveEntry, Redis.entry_del] at hlive
    split at hlive
    · cases hlive
    · next heq =>
      have hsame : (db.del key).zsets τ = db.zsets τ := Function.update_of_ne heq _ _
      rw [hsame]
      exact h.covered τ member score hτ hlive

/-! ## What a script does to other resources -/

/-- The resource stored under `r`, with the membership key `m`, is as before. -/
structure Spares (now : Nat) (r m : String) (db db' : Redis B) : Prop where
  string : db'.strings r = db.strings r
  set : db'.sets m = db.sets m
  live : ∀ τ, Redis.liveEntry now db' τ r = Redis.liveEntry now db τ r

theorem Spares.refl (db : Redis B) : Spares now r m db db := ⟨rfl, rfl, fun _ => rfl⟩

theorem Spares.trans {db₁ db₂ db₃ : Redis B} (h : Spares now r m db₁ db₂)
    (h' : Spares now r m db₂ db₃) : Spares now r m db₁ db₃ where
  string := h'.string.trans h.string
  set := h'.set.trans h.set
  live τ := (h'.live τ).trans (h.live τ)

theorem spares_del (hr : r ≠ key) (hm : m ≠ key)
    (hentry : Redis.liveEntry now db key r = none) : Spares now r m db (db.del key) where
  string := Function.update_of_ne hr _ _
  set := Function.update_of_ne hm _ _
  live τ := by
    have hdel := @Redis.entry_del B db key τ r
    unfold Redis.liveEntry at hentry ⊢
    rw [hdel]
    split
    · next heq => rw [heq, hentry, Option.filter_none]
    · rfl

theorem liveEntry_of_untyped (h : Typed tagPrefix db) (hkey : hasPrefix tagPrefix key = false)
    (member : String) : Redis.liveEntry now db key member = none := by
  have hnone : db.zsets key = none := by
    cases hx : db.zsets key with
    | none => rfl
    | some x =>
      have hbegins := h key (by rw [hx]; rfl)
      rw [hkey] at hbegins
      cases hbegins
  simp [Redis.liveEntry, Redis.entry, hnone]

/-! ## Leaving the indexes -/

theorem usable_leaveTag (h : Usable now tagPrefix db) (resourceKey : String) (tagKey : String) :
    Usable now tagPrefix (leaveTag now tagPrefix resourceKey db tagKey) := by
  unfold leaveTag
  split
  · next hbegins => exact usable_refreshTag h hbegins (others_zrem db tagKey resourceKey).2.2
  · exact h

theorem liveEntry_zrem (db : Redis B) (key member τ r : String) :
    Redis.liveEntry now (db.zrem key member) τ r =
      if τ = key ∧ r = member then none else Redis.liveEntry now db τ r := by
  unfold Redis.liveEntry
  rw [Redis.entry_zrem]
  split
  · rfl
  · rfl

theorem live_leaveTag (h : Typed tagPrefix db) (resourceKey tagKey τ : String) :
    Redis.liveEntry now (leaveTag now tagPrefix resourceKey db tagKey) τ resourceKey =
      if τ = tagKey then none else Redis.liveEntry now db τ resourceKey := by
  unfold leaveTag
  split
  · rw [liveEntry_refreshTag, liveEntry_zrem]
    simp
  · next hbegins =>
    split
    · next heq =>
      rw [heq]
      exact liveEntry_of_untyped h (Bool.eq_false_iff.mpr hbegins) resourceKey
    · rfl

/-- Keys of other families are left alone. -/
theorem others_leaveTag {k : String} (hk : hasPrefix tagPrefix k = false) (db : Redis B)
    (resourceKey tagKey : String) :
    (leaveTag now tagPrefix resourceKey db tagKey).strings k = db.strings k ∧
      (leaveTag now tagPrefix resourceKey db tagKey).sets k = db.sets k := by
  unfold leaveTag
  split
  · next hbegins =>
    have hne : k ≠ tagKey := by
      rintro rfl
      rw [hk] at hbegins
      cases hbegins
    obtain ⟨hstrings, hsets, -⟩ := others_zrem db tagKey resourceKey
    exact ⟨(others_refreshTag.1 k hne).trans (congrFun hstrings k),
      (others_refreshTag.2.1 k hne).trans (congrFun hsets k)⟩
  · exact ⟨rfl, rfl⟩

theorem spares_leaveTag (hr : hasPrefix tagPrefix r = false) (hm : hasPrefix tagPrefix m = false)
    {resourceKey : String} (hne : r ≠ resourceKey) (db : Redis B) (tagKey : String) :
    Spares now r m db (leaveTag now tagPrefix resourceKey db tagKey) where
  string := (others_leaveTag hr db resourceKey tagKey).1
  set := (others_leaveTag hm db resourceKey tagKey).2
  live τ := by
    unfold leaveTag
    split
    · rw [liveEntry_refreshTag, liveEntry_zrem, if_neg fun h => hne h.2]
    · rfl

/-- Once the named indexes are left, no index holds the resource. -/
theorem live_foldl_leaveTag {resourceKey : String} (tags : List String)
    (h : Usable now tagPrefix db)
    (hnamed : ∀ τ score, Redis.liveEntry now db τ resourceKey = some score → τ ∈ tags) (τ : String) :
    Redis.liveEntry now (tags.foldl (leaveTag now tagPrefix resourceKey) db) τ resourceKey =
      none := by
  induction tags generalizing db with
  | nil =>
    cases hlive : Redis.liveEntry now db τ resourceKey with
    | none => exact hlive
    | some score => exact absurd (hnamed τ score hlive) List.not_mem_nil
  | cons tagKey tags ih =>
    refine ih (usable_leaveTag h resourceKey tagKey) fun τ' score hlive => ?_
    rw [live_leaveTag h.typed] at hlive
    split at hlive
    · cases hlive
    · next hne => exact (List.mem_cons.mp (hnamed τ' score hlive)).resolve_left hne

theorem usable_leaveTags (h : Usable now tagPrefix db) (resourceKey membershipKey : String) :
    Usable now tagPrefix (leaveTags now tagPrefix resourceKey membershipKey db) :=
  foldl_invariant (I := Usable now tagPrefix) _
    (fun _ tagKey _ hs => usable_leaveTag hs resourceKey tagKey) h

theorem spares_leaveTags (hr : hasPrefix tagPrefix r = false) (hm : hasPrefix tagPrefix m = false)
    {resourceKey : String} (hne : r ≠ resourceKey) (db : Redis B) (membershipKey : String) :
    Spares now r m db (leaveTags now tagPrefix resourceKey membershipKey db) :=
  foldl_relates (R := Spares now r m) Spares.refl Spares.trans
    (fun db tagKey => spares_leaveTag hr hm hne db tagKey) _ db

/-! ## Joining an index -/

theorem mem_smembers_sadd {key member k x : String} :
    x ∈ (db.sadd key member).smembers k ↔
      (k = key ∧ x = member) ∨ x ∈ db.smembers k := by
  unfold Redis.smembers Redis.sadd
  by_cases hk : k = key
  · subst hk
    simp only [Function.update_self]
    cases hx : db.sets k with
    | none => simp [OrderedMap.mem_keys_set]
    | some y => simp [OrderedMap.mem_keys_set]
  · simp [hk]

theorem liveEntry_zadd {mark : Nat} (hmark : now < mark) (db : Redis B) (key member τ r : String) :
    Redis.liveEntry now (db.zadd key mark member) τ r =
      if τ = key ∧ r = member then some mark else Redis.liveEntry now db τ r := by
  unfold Redis.liveEntry
  rw [Redis.entry_zadd]
  split
  · simp [hmark]
  · rfl

theorem live_joinTag {mark : Nat} (hmark : now < mark) (db : Redis B)
    (resourceKey membershipKey tagKey τ r : String) :
    Redis.liveEntry now (joinTag now mark resourceKey membershipKey db tagKey) τ r =
      if τ = tagKey ∧ r = resourceKey then some mark else Redis.liveEntry now db τ r := by
  have hsadd : ∀ db : Redis B, Redis.liveEntry now (db.sadd membershipKey tagKey) τ r =
      Redis.liveEntry now db τ r := fun _ => rfl
  unfold joinTag
  dsimp only
  rw [liveEntry_refreshTag, hsadd, liveEntry_zadd hmark, liveEntry_zremrangebyscore]

/-- What a new tag changes outside its index: the membership set. -/
theorem others_joinTag {mark : Nat} (db : Redis B) {resourceKey membershipKey tagKey : String} :
    (∀ k, k ≠ tagKey →
        (joinTag now mark resourceKey membershipKey db tagKey).strings k = db.strings k) ∧
      (∀ k, k ≠ tagKey → (joinTag now mark resourceKey membershipKey db tagKey).sets k =
        (db.sadd membershipKey tagKey).sets k) ∧
      ∀ k, k ≠ tagKey →
        (joinTag now mark resourceKey membershipKey db tagKey).zsets k = db.zsets k := by
  obtain ⟨hstrings, hsets, hzsets⟩ := others_zremrangebyscore db tagKey now
  obtain ⟨hstrings', hsets', hzsets'⟩ :=
    others_zadd (db.zremrangebyscore tagKey now) tagKey mark resourceKey
  unfold joinTag
  dsimp only
  refine ⟨fun k hk => ?_, fun k hk => ?_, fun k hk => ?_⟩
  · refine (others_refreshTag.1 k hk).trans ?_
    exact (congrFun hstrings' k).trans (congrFun hstrings k)
  · refine (others_refreshTag.2.1 k hk).trans ?_
    unfold Redis.sadd
    simp only [hsets', hsets]
  · refine (others_refreshTag.2.2 k hk).trans ?_
    exact (hzsets' k hk).trans (hzsets k hk)

theorem usable_joinTag {mark : Nat} (h : Usable now tagPrefix db) {tagKey : String}
    (hbegins : hasPrefix tagPrefix tagKey = true) (resourceKey membershipKey : String) :
    Usable now tagPrefix (joinTag now mark resourceKey membershipKey db tagKey) := by
  unfold joinTag
  refine usable_refreshTag h hbegins fun k hk => ?_
  exact ((others_zadd _ tagKey mark resourceKey).2.2 k hk).trans
    ((others_zremrangebyscore db tagKey now).2.2 k hk)

theorem spares_joinTag {mark : Nat} (hmark : now < mark) {resourceKey membershipKey tagKey : String}
    (hr : r ≠ tagKey) (hm : m ≠ tagKey) (hne : r ≠ resourceKey) (hne' : m ≠ membershipKey)
    (db : Redis B) : Spares now r m db (joinTag now mark resourceKey membershipKey db tagKey) where
  string := (others_joinTag db).1 r hr
  set := ((others_joinTag db).2.1 m hm).trans (Function.update_of_ne hne' _ _)
  live τ := by rw [live_joinTag hmark, if_neg fun h => hne h.2]

/-- The state of the loop over the new tags: the tags joined so far are the members, each of their
indexes holds the resource, and no other index does. -/
structure Joined (now mark : Nat) (resourceKey membershipKey : String) (joined : List String)
    (db : Redis B) : Prop where
  members : ∀ x, x ∈ db.smembers membershipKey ↔ x ∈ joined
  live : ∀ τ, Redis.liveEntry now db τ resourceKey = if τ ∈ joined then some mark else none

theorem joined_joinTag {mark : Nat} (hmark : now < mark)
    {resourceKey membershipKey tagKey : String} {joined : List String}
    (h : Joined now mark resourceKey membershipKey joined db) (hm : membershipKey ≠ tagKey) :
    Joined now mark resourceKey membershipKey (joined ++ [tagKey])
      (joinTag now mark resourceKey membershipKey db tagKey) where
  members x := by
    have hsets := (@others_joinTag B now mark db resourceKey membershipKey tagKey).2.1
      membershipKey hm
    have hsame : (joinTag now mark resourceKey membershipKey db tagKey).smembers membershipKey =
        (db.sadd membershipKey tagKey).smembers membershipKey := by
      unfold Redis.smembers
      rw [hsets]
    rw [hsame, mem_smembers_sadd, h.members x, List.mem_append, List.mem_singleton]
    tauto
  live τ := by
    rw [live_joinTag hmark, h.live τ]
    by_cases hτ : τ = tagKey
    · simp [hτ]
    · simp [hτ]

end Indexes

end FluxFast.Server
