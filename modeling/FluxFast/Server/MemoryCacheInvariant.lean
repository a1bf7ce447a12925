import FluxFast.Server.MemoryCache
import FluxFast.Theory.Leases
import FluxFast.Theory.Runs
import Mathlib.Data.List.Dedup
import Mathlib.Order.Nat

/-!
# MemoryCacheInvariant — the tag index mirrors the entries

Overwriting, eviction, expiry and invalidation all end in `removeInternal`, which keeps each tag's
keys equal to the entries that carry the tag, tag by tag.  Invalidation pops its own tag first and
so breaks the mirror for that tag alone until its loop is over.
-/

namespace FluxFast.Server

open FluxFast.Theory

/-- An entry without the class around it. -/
def CachedResource.lease {V T : Type} (entry : CachedResource V T) :
    Lease (String × V) String T :=
  ⟨(entry.version, entry.value), entry.tags, entry.expiresAt⟩

namespace MemoryResourceCache

/-! ## The keys of one tag -/

def holders (index : OrderedMap String KeySet) (tag : String) : List String :=
  ((index.get? tag).getD .empty).keys

/-- No tag is kept for an empty set. -/
def Inhabited (index : OrderedMap String KeySet) : Prop :=
  ∀ tag keys, index.get? tag = some keys → keys.keys ≠ []

section Index

variable {index : OrderedMap String KeySet} {key tag j t : String}

theorem mem_holders_delete_tag :
    j ∈ holders (index.delete tag) t ↔ t ≠ tag ∧ j ∈ holders index t := by
  unfold holders
  rw [OrderedMap.get?_delete]
  by_cases h : t = tag
  · simp [h]
  · simp [h]

theorem mem_holders_discardTag :
    j ∈ holders (discardTag key index tag) t ↔ j ∈ holders index t ∧ ¬(j = key ∧ t = tag) := by
  unfold discardTag
  cases hkeys : index.get? tag with
  | none =>
    refine ⟨fun hj => ⟨hj, ?_⟩, fun hj => hj.1⟩
    rintro ⟨-, rfl⟩
    simp [holders, hkeys] at hj
  | some keys =>
    have htag : holders index tag = keys.keys := by simp [holders, hkeys]
    dsimp only
    split
    · next hempty =>
      -- the set was `{key}` at most, so dropping the tag drops no other key
      have hnone : ∀ i, i ∈ keys.keys → i = key := by
        intro i hi
        by_contra hne
        have hmem : i ∈ (keys.delete key).keys := OrderedMap.mem_keys_delete.mpr ⟨hne, hi⟩
        rw [OrderedMap.size_eq_length_keys, List.length_eq_zero_iff] at hempty
        rw [hempty] at hmem
        cases hmem
      rw [mem_holders_delete_tag]
      constructor
      · rintro ⟨hne, hj⟩
        exact ⟨hj, fun h => hne h.2⟩
      · rintro ⟨hj, hno⟩
        refine ⟨fun heq => hno ⟨hnone j ?_, heq⟩, hj⟩
        rw [← htag, ← heq]
        exact hj
    · by_cases ht : t = tag
      · subst ht
        rw [htag]
        simp [holders, OrderedMap.mem_keys_delete, and_comm]
      · simp [holders, OrderedMap.get?_set_ne _ _ ht, ht]

theorem mem_holders_foldl_discardTag (tags : List String) :
    j ∈ holders (tags.foldl (discardTag key) index) t ↔
      j ∈ holders index t ∧ ¬(j = key ∧ t ∈ tags) := by
  induction tags generalizing index with
  | nil => simp
  | cons tag tags ih =>
    rw [List.foldl_cons, ih, mem_holders_discardTag, List.mem_cons]
    tauto

theorem mem_holders_addTag :
    j ∈ holders (addTag key index tag) t ↔ (j = key ∧ t = tag) ∨ j ∈ holders index t := by
  unfold addTag holders
  by_cases ht : t = tag
  · subst ht
    simp [OrderedMap.mem_keys_set]
  · simp [OrderedMap.get?_set_ne _ _ ht, ht]

theorem mem_holders_foldl_addTag (tags : List String) :
    j ∈ holders (tags.foldl (addTag key) index) t ↔
      (j = key ∧ t ∈ tags) ∨ j ∈ holders index t := by
  induction tags generalizing index with
  | nil => simp
  | cons tag tags ih =>
    rw [List.foldl_cons, ih, mem_holders_addTag, List.mem_cons]
    tauto

theorem Inhabited.delete (h : Inhabited index) (tag : String) : Inhabited (index.delete tag) := by
  intro t keys hkeys
  rw [OrderedMap.get?_delete] at hkeys
  split at hkeys
  · cases hkeys
  · exact h t keys hkeys

theorem Inhabited.set (h : Inhabited index) (tag : String) {keys : KeySet}
    (hkeys : keys.keys ≠ []) : Inhabited (index.set tag keys) := by
  intro t ks hks
  rw [OrderedMap.get?_set] at hks
  split at hks
  · cases hks
    exact hkeys
  · exact h t ks hks

theorem Inhabited.discardTag (h : Inhabited index) (key tag : String) :
    Inhabited (discardTag key index tag) := by
  unfold MemoryResourceCache.discardTag
  split
  · exact h
  · dsimp only
    split
    · exact h.delete tag
    · next hsize =>
      refine h.set tag fun hnil => hsize ?_
      rw [OrderedMap.size_eq_length_keys, hnil]
      rfl

theorem Inhabited.addTag (h : Inhabited index) (key tag : String) :
    Inhabited (addTag key index tag) := by
  refine h.set tag fun hnil => ?_
  have hmem : key ∈ (((index.get? tag).getD .empty).set key ()).keys :=
    OrderedMap.mem_keys_set.mpr (.inl rfl)
  rw [hnil] at hmem
  cases hmem

end Index

/-! ## Removing and adding one entry -/

section Entries

variable {V T : Type} {c : MemoryResourceCache V T} {key tag : String}

def Carries (c : MemoryResourceCache V T) (key tag : String) : Prop :=
  ∃ entry, c.cache.get? key = some entry ∧ tag ∈ entry.tags

/-- The index lists for the tag the keys whose entries carry it. -/
def Indexes (c : MemoryResourceCache V T) (tag : String) : Prop :=
  ∀ key, key ∈ holders c.tagIndex tag ↔ Carries c key tag

theorem cache_removeInternal (c : MemoryResourceCache V T) (key : String) :
    (c.removeInternal key).cache = c.cache.delete key := by
  unfold removeInternal
  split
  · next hnone =>
    exact (OrderedMap.delete_of_not_mem (OrderedMap.get?_eq_none_iff.mp hnone)).symm
  · rfl

@[simp] theorem maxEntries_removeInternal (c : MemoryResourceCache V T) (key : String) :
    (c.removeInternal key).maxEntries = c.maxEntries := by
  unfold removeInternal
  split <;> rfl

theorem carries_removeInternal {j t : String} :
    Carries (c.removeInternal key) j t ↔ j ≠ key ∧ Carries c j t := by
  unfold Carries
  rw [cache_removeInternal, OrderedMap.get?_delete]
  by_cases h : j = key
  · simp [h]
  · simp [h]

theorem mem_holders_removeInternal {j t : String} :
    j ∈ holders (c.removeInternal key).tagIndex t ↔
      j ∈ holders c.tagIndex t ∧ ¬(j = key ∧ Carries c key t) := by
  unfold removeInternal
  split
  · next hnone =>
    simp [Carries, hnone]
  · next entry hentry =>
    have hcarries : Carries c key t ↔ t ∈ entry.tags := by simp [Carries, hentry]
    rw [hcarries]
    exact mem_holders_foldl_discardTag entry.tags

theorem Indexes.removeInternal (h : Indexes c tag) (key : String) :
    Indexes (c.removeInternal key) tag := by
  intro j
  rw [mem_holders_removeInternal, carries_removeInternal, h j]
  constructor
  · rintro ⟨hj, hno⟩
    exact ⟨fun heq => hno ⟨heq, heq ▸ hj⟩, hj⟩
  · rintro ⟨hne, hj⟩
    exact ⟨hj, fun hself => hne hself.1⟩

theorem inhabited_removeInternal (h : Inhabited c.tagIndex) (key : String) :
    Inhabited (c.removeInternal key).tagIndex := by
  unfold MemoryResourceCache.removeInternal
  split
  · exact h
  · exact foldl_invariant _ (fun _ tag _ hs => hs.discardTag key tag) h

theorem Indexes.insertEntry (h : Indexes c tag) (hnew : key ∉ c.cache.keys)
    (entry : CachedResource V T) : Indexes (c.insertEntry key entry) tag := by
  intro j
  show j ∈ holders (entry.tags.foldl (addTag key) c.tagIndex) tag ↔
    ∃ e, (c.cache.set key entry).get? j = some e ∧ tag ∈ e.tags
  rw [mem_holders_foldl_addTag, h j, OrderedMap.get?_set]
  by_cases hj : j = key
  · have hnone : c.cache.get? j = none := OrderedMap.get?_eq_none_iff.mpr (hj ▸ hnew)
    simp [Carries, hj ▸ hnone, hj]
  · simp [Carries, hj]

theorem inhabited_insertEntry (h : Inhabited c.tagIndex) (key : String)
    (entry : CachedResource V T) : Inhabited (c.insertEntry key entry).tagIndex :=
  foldl_invariant _ (fun _ tag _ hs => hs.addTag key tag) h

/-! ## Eviction -/

/-- Eviction drops the oldest entries until one more fits. -/
theorem evictLoop_spec (rounds : Nat) (hmax : 1 ≤ c.maxEntries) (hrounds : c.cache.size ≤ rounds)
    (hinhabited : Inhabited c.tagIndex) :
    (evictLoop rounds c).maxEntries = c.maxEntries ∧
      (evictLoop rounds c).cache.entries =
        c.cache.entries.drop (c.cache.size + 1 - c.maxEntries) ∧
      Inhabited (evictLoop rounds c).tagIndex ∧
      ∀ tag, Indexes c tag → Indexes (evictLoop rounds c) tag := by
  -- Induction on the rounds, of which there are as many as entries; each takes out the oldest one.
  induction rounds generalizing c with
  | zero =>
    have hzero : c.cache.size + 1 - c.maxEntries = 0 := by omega
    exact ⟨rfl, by rw [hzero]; rfl, hinhabited, fun _ h => h⟩
  | succ rounds ih =>
    unfold evictLoop
    split
    · next hfull =>
      split
      · next hnil =>
        exact ⟨rfl, by rw [hnil, List.drop_nil], hinhabited, fun _ h => h⟩
      · next oldestKey oldestEntry rest hentries =>
        have hget : c.cache.get? oldestKey = some oldestEntry :=
          OrderedMap.get?_eq_some_iff.mpr (hentries ▸ List.mem_cons_self)
        -- removing the oldest key from cache and tags is `removeInternal`
        have hremove : ({ c with cache := c.cache.delete oldestKey } :
            MemoryResourceCache V T).cleanupTags oldestKey oldestEntry.tags =
            c.removeInternal oldestKey := by
          rw [removeInternal, hget]
        rw [hremove]
        have hrest : (c.removeInternal oldestKey).cache.entries = rest := by
          rw [cache_removeInternal]
          exact OrderedMap.entries_delete_head hentries
        -- one entry less, so the rounds that are left still suffice
        have hsize : c.cache.size = (c.removeInternal oldestKey).cache.size + 1 := by
          show c.cache.entries.length = (c.removeInternal oldestKey).cache.entries.length + 1
          rw [hrest, hentries, List.length_cons]
        obtain ⟨hmaxEq, hdrop, hinh, hindexes⟩ := ih (c := c.removeInternal oldestKey)
          (by rw [maxEntries_removeInternal]; exact hmax) (by omega)
          (inhabited_removeInternal hinhabited oldestKey)
        rw [maxEntries_removeInternal] at hmaxEq hdrop
        refine ⟨hmaxEq, ?_, hinh, fun tag h => hindexes tag (h.removeInternal oldestKey)⟩
        have hcount : c.cache.size + 1 - c.maxEntries =
            (c.removeInternal oldestKey).cache.size + 1 - c.maxEntries + 1 := by omega
        rw [hdrop, hrest, hcount, hentries, List.drop_succ_cons]
    -- there is room: nothing is evicted
    · next hroom =>
      have hzero : c.cache.size + 1 - c.maxEntries = 0 := by omega
      exact ⟨rfl, by rw [hzero]; rfl, hinhabited, fun _ h => h⟩

/-! ## Invalidation -/

theorem cache_invalidateTag (c : MemoryResourceCache V T) (tag : String) :
    (c.invalidateTag tag).cache = (holders c.tagIndex tag).foldl OrderedMap.delete c.cache := by
  have hloop : ∀ (keys : List String) (d : MemoryResourceCache V T),
      (keys.foldl (fun d key => if d.cache.has key then d.removeInternal key else d) d).cache =
        keys.foldl OrderedMap.delete d.cache := by
    intro keys
    induction keys with
    | nil => intro d; rfl
    | cons key keys ih =>
      intro d
      rw [List.foldl_cons, List.foldl_cons, ih]
      congr 1
      split
      · exact cache_removeInternal d key
      · next hhas =>
        exact (OrderedMap.delete_of_not_mem fun hk => hhas (OrderedMap.has_iff_mem_keys.mpr hk)).symm
  exact hloop _ _

/-- Invalidation drops the entries that carry the tag, and moves none of the others. -/
theorem entries_invalidateTag (h : Indexes c tag) :
    (c.invalidateTag tag).cache.entries = c.cache.entries.filter fun e => tag ∉ e.2.tags := by
  rw [cache_invalidateTag, OrderedMap.entries_foldl_delete]
  refine List.filter_congr fun e he => ?_
  have hget : c.cache.get? e.1 = some e.2 := OrderedMap.get?_eq_some_iff.mpr he
  have hiff : e.1 ∈ holders c.tagIndex tag ↔ tag ∈ e.2.tags := by
    rw [h e.1, Carries, hget]
    simp
  simp [hiff]

/-- What the loop of an invalidation keeps, whatever tag it works on. -/
structure Swept (d : MemoryResourceCache V T) (c : MemoryResourceCache V T) (tag : String) :
    Prop where
  maxEntries : d.maxEntries = c.maxEntries
  inhabited : Inhabited d.tagIndex
  others : ∀ t, t ≠ tag → Indexes c t → Indexes d t
  popped : holders d.tagIndex tag = []

theorem invalidateTag_swept (h : Inhabited c.tagIndex) (tag : String) :
    Swept (c.invalidateTag tag) c tag := by
  refine foldl_invariant (I := fun d => Swept d c tag) _ (fun d key _ hd => ?_) ?_
  · split
    · refine ⟨?_, inhabited_removeInternal hd.inhabited key,
        fun t ht hc => (hd.others t ht hc).removeInternal key, ?_⟩
      · rw [maxEntries_removeInternal]
        exact hd.maxEntries
      · refine List.eq_nil_iff_forall_not_mem.mpr fun j hj => ?_
        have hbefore := (mem_holders_removeInternal.mp hj).1
        rw [hd.popped] at hbefore
        cases hbefore
    · exact hd
  · refine ⟨rfl, h.delete tag, fun t ht hc j => ?_, ?_⟩
    · show j ∈ holders (c.tagIndex.delete tag) t ↔ _
      rw [mem_holders_delete_tag]
      exact (and_iff_right ht).trans (hc j)
    · simp [holders]

theorem Indexes.invalidateTag (h : ∀ t, Indexes c t) (hinhabited : Inhabited c.tagIndex)
    (tag t : String) : Indexes (c.invalidateTag tag) t := by
  have hswept := invalidateTag_swept hinhabited tag
  by_cases ht : t = tag
  · subst ht
    intro j
    rw [hswept.popped]
    refine ⟨fun hj => (by cases hj), ?_⟩
    rintro ⟨entry, hentry, hmem⟩
    have hin := OrderedMap.get?_eq_some_iff.mp hentry
    rw [entries_invalidateTag (h t)] at hin
    exact absurd hmem (of_decide_eq_true (List.mem_filter.mp hin).2)
  · exact hswept.others t ht (h t)

end Entries

/-! ## The invariant -/

structure Sound {V T : Type} (maxEntries : Int) (c : MemoryResourceCache V T) : Prop where
  positive : 1 ≤ c.maxEntries
  max : (c.maxEntries : Int) = maxEntries
  capacity : c.cache.size ≤ c.maxEntries
  indexes : ∀ tag, Indexes c tag
  inhabited : Inhabited c.tagIndex

section Sound

variable {V T : Type} {bound : Int} {c : MemoryResourceCache V T}

theorem sound_create (h : create bound = some c) : Sound bound c := by
  unfold create at h
  split at h
  · cases h
  · next hpos =>
    cases h
    exact
      { positive := by show 1 ≤ bound.toNat; omega
        max := by show (bound.toNat : Int) = bound; omega
        capacity := Nat.zero_le _
        indexes := fun tag key => by simp [holders, Carries]
        inhabited := fun tag keys h => by cases h }

theorem sound_clear (h : Sound bound c) : Sound bound c.clear where
  positive := h.positive
  max := h.max
  capacity := Nat.zero_le _
  indexes tag key := by simp [clear, holders, Carries]
  inhabited tag keys h := by cases h

theorem sound_removeInternal (h : Sound bound c) (key : String) :
    Sound bound (c.removeInternal key) where
  positive := (maxEntries_removeInternal c key).symm ▸ h.positive
  max := (maxEntries_removeInternal c key).symm ▸ h.max
  capacity := by
    rw [maxEntries_removeInternal, cache_removeInternal]
    exact (OrderedMap.size_delete_le c.cache key).trans h.capacity
  indexes tag := (h.indexes tag).removeInternal key
  inhabited := inhabited_removeInternal h.inhabited key

theorem sound_invalidateTag (h : Sound bound c) (tag : String) : Sound bound (c.invalidateTag tag) :=
  have hswept := invalidateTag_swept h.inhabited tag
  { positive := hswept.maxEntries ▸ h.positive
    max := hswept.maxEntries ▸ h.max
    capacity := by
      rw [hswept.maxEntries]
      refine le_trans ?_ h.capacity
      show (c.invalidateTag tag).cache.entries.length ≤ c.cache.entries.length
      rw [entries_invalidateTag (h.indexes tag)]
      exact List.length_filter_le _ _
    indexes := Indexes.invalidateTag h.indexes h.inhabited tag
    inhabited := hswept.inhabited }

variable [LinearOrder T]

/-- The three ends of a read: nothing stored, an entry whose lifetime has passed, a hit. -/
theorem get_cases (c : MemoryResourceCache V T) (now : T) (key : String) :
    (c.cache.get? key = none ∧ c.get now key = (c, none)) ∨
      (∃ entry, c.cache.get? key = some entry ∧ entry.expiresAt ≤ now ∧
        c.get now key = (c.removeInternal key, none)) ∨
      ∃ entry, c.cache.get? key = some entry ∧ now < entry.expiresAt ∧
        c.get now key = ({ c with cache := c.cache.moveToEnd key }, some entry) := by
  unfold get
  cases hentry : c.cache.get? key with
  | none => exact .inl ⟨rfl, rfl⟩
  | some entry =>
    by_cases hexpired : entry.expiresAt ≤ now
    · refine .inr (.inl ⟨entry, rfl, hexpired, ?_⟩)
      simp [CachedResource.isExpired, hexpired]
    · refine .inr (.inr ⟨entry, rfl, not_le.mp hexpired, ?_⟩)
      simp [CachedResource.isExpired, hexpired]

theorem sound_get (h : Sound bound c) (now : T) (key : String) : Sound bound (c.get now key).1 := by
  rcases get_cases c now key with ⟨-, hmiss⟩ | ⟨entry, -, -, hexpired⟩ | ⟨entry, hentry, -, hhit⟩
  · rw [hmiss]
    exact h
  · rw [hexpired]
    exact sound_removeInternal h key
  · rw [hhit]
    have hkey : key ∈ c.cache.keys := OrderedMap.mem_keys_of_get? hentry
    have hsize : (c.cache.moveToEnd key).size = c.cache.size := by
      rw [OrderedMap.size_eq_length_keys, OrderedMap.size_eq_length_keys,
        OrderedMap.keys_moveToEnd hkey, List.length_append, List.length_singleton,
        List.length_erase_add_one hkey]
    refine ⟨h.positive, h.max, hsize.le.trans h.capacity, fun tag k => ?_, h.inhabited⟩
    refine (h.indexes tag k).trans ?_
    show Carries c k tag ↔ ∃ e, (c.cache.moveToEnd key).get? k = some e ∧ tag ∈ e.tags
    rw [OrderedMap.get?_moveToEnd]
    rfl

omit [LinearOrder T] in
/-- Eviction makes room for one entry by dropping the oldest, where the cache is full. -/
theorem evictOldest_spec (h : Sound bound c) :
    Sound bound c.evictOldest ∧ (c.evictOldest.cache.size : Int) < bound ∧
      c.evictOldest.cache.entries =
        if (c.cache.size : Int) < bound then c.cache.entries else c.cache.entries.tail := by
  obtain ⟨hmaxEq, hdrop, hinhabited, hindexes⟩ :=
    evictLoop_spec c.cache.size h.positive le_rfl h.inhabited
  have hmaxEq : c.evictOldest.maxEntries = c.maxEntries := hmaxEq
  have hpositive := h.positive
  have hmax := h.max
  have hcapacity := h.capacity
  -- a full cache loses its oldest entry, and only that one
  have hentries : c.evictOldest.cache.entries =
      if (c.cache.size : Int) < bound then c.cache.entries else c.cache.entries.tail := by
    refine hdrop.trans ?_
    split
    · rw [show c.cache.size + 1 - c.maxEntries = 0 by omega, List.drop_zero]
    · rw [show c.cache.size + 1 - c.maxEntries = 1 by omega, List.drop_one]
  have hroom : (c.evictOldest.cache.size : Int) < bound := by
    have hlength : c.cache.entries.length = c.cache.size := rfl
    show (List.length _ : Int) < bound
    rw [hentries]
    split
    · omega
    · rw [List.length_tail]
      omega
  refine ⟨⟨hmaxEq ▸ h.positive, ?_, ?_, fun tag => hindexes tag (h.indexes tag), hinhabited⟩,
    hroom, hentries⟩
  · rw [hmaxEq]
    exact h.max
  · rw [hmaxEq]
    omega

omit [LinearOrder T] in
theorem sound_insertEntry (h : Sound bound c) (hroom : (c.cache.size : Int) < bound)
    {key : String} (hnew : key ∉ c.cache.keys) (entry : CachedResource V T) :
    Sound bound (c.insertEntry key entry) where
  positive := h.positive
  max := h.max
  capacity := by
    have hmax := h.max
    show (c.cache.set key entry).size ≤ c.maxEntries
    rw [OrderedMap.size_set_of_not_mem entry hnew]
    omega
  indexes tag := (h.indexes tag).insertEntry hnew entry
  inhabited := inhabited_insertEntry h.inhabited key entry

omit [LinearOrder T] in
/-- The first statement of `set`: nothing is stored under the key afterwards. -/
theorem removed_eq (c : MemoryResourceCache V T) (key : String) :
    (if c.cache.has key then c.removeInternal key else c) = c.removeInternal key := by
  split
  · rfl
  · next hhas =>
    have hnone : c.cache.get? key = none :=
      OrderedMap.get?_eq_none_iff.mpr fun hk => hhas (OrderedMap.has_iff_mem_keys.mpr hk)
    rw [removeInternal, hnone]

omit [LinearOrder T] in
theorem not_mem_evictOldest_removeInternal (h : Sound bound c) (key : String) :
    key ∉ (c.removeInternal key).evictOldest.cache.keys := by
  intro hk
  have hk : key ∈ (c.removeInternal key).evictOldest.cache.entries.map Prod.fst := hk
  rw [(evictOldest_spec (sound_removeInternal h key)).2.2, cache_removeInternal] at hk
  have hin : key ∈ (c.cache.delete key).keys := by
    split at hk
    · exact hk
    · exact List.mem_of_mem_tail (List.map_tail ▸ hk)
  exact (OrderedMap.mem_keys_delete.mp hin).1 rfl

variable [Add T] [Zero T]

theorem set_of_lifetime (c : MemoryResourceCache V T) (now : T) (key : String)
    (resource : CachedResource V T) {ttl : T} (httl : ¬ttl ≤ 0) :
    c.set now key resource ttl = (c.removeInternal key).evictOldest.insertEntry key
      { resource with expiresAt := now + ttl } := by
  unfold MemoryResourceCache.set
  rw [removed_eq]
  exact if_neg httl

theorem set_of_no_lifetime (c : MemoryResourceCache V T) (now : T) (key : String)
    (resource : CachedResource V T) {ttl : T} (httl : ttl ≤ 0) :
    c.set now key resource ttl = c.removeInternal key := by
  unfold MemoryResourceCache.set
  rw [removed_eq]
  exact if_pos httl

/-- A write with a lifetime: the key goes, the oldest entry goes where the rest fill the cache, and
the new entry is the newest. -/
theorem entries_set (h : Sound bound c) (now : T) (key : String) (resource : CachedResource V T)
    {ttl : T} (httl : ¬ttl ≤ 0) :
    (c.set now key resource ttl).cache.entries =
      (if ((c.cache.delete key).size : Int) < bound then (c.cache.delete key).entries
        else (c.cache.delete key).entries.tail) ++
      [(key, { resource with expiresAt := now + ttl })] := by
  have hentries := (evictOldest_spec (sound_removeInternal h key)).2.2
  rw [cache_removeInternal] at hentries
  rw [set_of_lifetime c now key resource httl, ← hentries]
  show ((c.removeInternal key).evictOldest.cache.set key _).entries = _
  rw [OrderedMap.set, dif_neg (not_mem_evictOldest_removeInternal h key)]

theorem sound_set (h : Sound bound c) (now : T) (key : String) (resource : CachedResource V T)
    (ttl : T) : Sound bound (c.set now key resource ttl) := by
  have hremoved := sound_removeInternal h key
  by_cases httl : ttl ≤ 0
  · rw [set_of_no_lifetime c now key resource httl]
    exact hremoved
  · rw [set_of_lifetime c now key resource httl]
    obtain ⟨hevicted, hroom, -⟩ := evictOldest_spec hremoved
    exact sound_insertEntry hevicted hroom (not_mem_evictOldest_removeInternal h key) _

end Sound

/-! ## Every sequence of operations -/

inductive Op (V T : Type) where
  | get (now : T) (key : String)
  | set (now : T) (key : String) (resource : CachedResource V T) (ttl : T)
  | delete (key : String)
  | invalidateTag (tag : String)
  | clear

section Operations

variable {V T : Type} [LinearOrder T] [Add T] [Zero T]

def run (c : MemoryResourceCache V T) : Op V T → MemoryResourceCache V T
  | .get now key => (c.get now key).1
  | .set now key resource ttl => c.set now key resource ttl
  | .delete key => c.delete key
  | .invalidateTag tag => c.invalidateTag tag
  | .clear => c.clear

/-- The key that the operation uses: a hit, or a write with a lifetime. -/
def used (c : MemoryResourceCache V T) : Op V T → List String
  | .get now key => if (c.get now key).2.isSome then [key] else []
  | .set _ key _ ttl => if ttl ≤ 0 then [] else [key]
  | _ => []

/-- The uses of a sequence of operations, in order. -/
def uses (c : MemoryResourceCache V T) : List (Op V T) → List String
  | [] => []
  | op :: ops => c.used op ++ uses (c.run op) ops

/-- What the operations would leave in a cache without bounds. -/
def shelve (s : Shelf String (String × V) String T) : Op V T → Shelf String (String × V) String T
  | .get _ _ => s
  | .set now key resource ttl =>
    if ttl ≤ 0 then s.drop key
    else s.put key ⟨(resource.version, resource.value), resource.tags, now + ttl⟩
  | .delete key => s.drop key
  | .invalidateTag tag => s.dropTag tag
  | .clear => Shelf.bare

variable {bound : Int} {c : MemoryResourceCache V T}

theorem sound_run (h : Sound bound c) (op : Op V T) : Sound bound (c.run op) := by
  cases op with
  | get now key => exact sound_get h now key
  | set now key resource ttl => exact sound_set h now key resource ttl
  | delete key => exact sound_removeInternal h key
  | invalidateTag tag => exact sound_invalidateTag h tag
  | clear => exact sound_clear h

/-! ## Recency -/

omit [LinearOrder T] [Add T] [Zero T] in
theorem dedup_append_singleton (us : List String) (key : String) :
    (us ++ [key]).dedup = us.dedup.erase key ++ [key] := by
  induction us with
  | nil => rfl
  | cons u us ih =>
    rw [List.cons_append]
    by_cases hmem : u ∈ us
    · rw [List.dedup_cons_of_mem (List.mem_append_left _ hmem), List.dedup_cons_of_mem hmem, ih]
    · by_cases hkey : u = key
      · subst hkey
        have hnone : u ∉ us.dedup := fun h => hmem (List.mem_dedup.mp h)
        rw [List.dedup_cons_of_mem (by simp), List.dedup_cons_of_notMem hmem, ih,
          List.erase_of_not_mem hnone, List.erase_cons_head]
      · have hnone : u ∉ us ++ [key] := by simp [hmem, hkey]
        rw [List.dedup_cons_of_notMem hnone, List.dedup_cons_of_notMem hmem, ih,
          List.erase_cons_tail (by simpa using hkey), List.cons_append]

/-- The entries stand in the order of their last use. -/
def Recent (us : List String) (c : MemoryResourceCache V T) : Prop :=
  c.cache.keys.Sublist us.dedup

theorem recent_run {us : List String} (hsound : Sound bound c) (h : Recent us c) (op : Op V T) :
    Recent (us ++ c.used op) (c.run op) := by
  have hremove : ∀ key, Recent us (c.removeInternal key) := by
    intro key
    rw [Recent, cache_removeInternal, OrderedMap.keys_delete]
    exact (List.erase_sublist).trans h
  -- One case for each operation; what is used moves to the end of the order.
  cases op with
  | get now key =>
    show Recent (us ++ if (c.get now key).2.isSome then [key] else []) (c.get now key).1
    rcases get_cases c now key with ⟨-, hmiss⟩ | ⟨entry, -, -, hexpired⟩ | ⟨entry, hentry, -, hhit⟩
    · rw [hmiss]
      simpa using h
    · rw [hexpired]
      simpa using hremove key
    -- a hit moves the key to the end, and so does its use
    · rw [hhit, Option.isSome_some, if_pos rfl, Recent, dedup_append_singleton,
        OrderedMap.keys_moveToEnd (OrderedMap.mem_keys_of_get? hentry)]
      exact (h.erase key).append_right [key]
  | set now key resource ttl =>
    show Recent (us ++ if ttl ≤ 0 then [] else [key]) (c.set now key resource ttl)
    by_cases httl : ttl ≤ 0
    · rw [set_of_no_lifetime c now key resource httl, if_pos httl, List.append_nil]
      exact hremove key
    -- a write puts the key at the end; evicting shortens the order at its front
    · rw [if_neg httl, Recent, dedup_append_singleton]
      show ((c.set now key resource ttl).cache.entries.map Prod.fst).Sublist _
      rw [entries_set hsound now key resource httl, List.map_append]
      refine List.Sublist.append_right (List.Sublist.trans ?_ (h.erase key)) [key]
      show List.Sublist _ (c.cache.keys.erase key)
      rw [← OrderedMap.keys_delete]
      split
      · exact List.Sublist.refl _
      · exact (List.tail_sublist _).map Prod.fst
  | delete key =>
    show Recent (us ++ []) (c.removeInternal key)
    rw [List.append_nil]
    exact hremove key
  | invalidateTag tag =>
    have hentries := entries_invalidateTag (hsound.indexes tag)
    show Recent (us ++ []) (c.invalidateTag tag)
    rw [List.append_nil]
    show ((c.invalidateTag tag).cache.entries.map Prod.fst).Sublist _
    rw [hentries]
    exact (List.filter_sublist.map Prod.fst).trans h
  | clear => exact List.nil_sublist _

/-! ## What is stored -/

/-- Every entry is what the cache without bounds holds. -/
def Backed (s : Shelf String (String × V) String T) (c : MemoryResourceCache V T) : Prop :=
  ∀ key entry, c.cache.get? key = some entry → s key = some entry.lease

theorem backed_run {s : Shelf String (String × V) String T} (hsound : Sound bound c)
    (h : Backed s c) (op : Op V T) : Backed (shelve s op) (c.run op) := by
  -- removing a key keeps every other entry
  have hremove : ∀ key, Backed s (c.removeInternal key) := by
    intro key k entry hentry
    rw [cache_removeInternal, OrderedMap.get?_delete] at hentry
    split at hentry
    · cases hentry
    · exact h k entry hentry
  -- and the shelf drops the key at the same time
  have hdrop : ∀ key, Backed (s.drop key) (c.removeInternal key) := by
    intro key k entry hentry
    have hsame := hremove key k entry hentry
    rw [cache_removeInternal, OrderedMap.get?_delete] at hentry
    split at hentry
    · cases hentry
    · next hk => exact (Function.update_of_ne hk _ _).trans hsame
  cases op with
  | get now key =>
    show Backed s (c.get now key).1
    rcases get_cases c now key with ⟨-, hmiss⟩ | ⟨_, -, -, hexpired⟩ | ⟨_, -, -, hhit⟩
    · rw [hmiss]
      exact h
    · rw [hexpired]
      exact hremove key
    · rw [hhit]
      intro k entry hentry
      exact h k entry ((OrderedMap.get?_moveToEnd c.cache k key).symm.trans hentry)
  -- a write puts the same lease on the shelf, and evicting asks nothing of the shelf
  | set now key resource ttl =>
    show Backed (if ttl ≤ 0 then _ else _) (c.set now key resource ttl)
    by_cases httl : ttl ≤ 0
    · rw [set_of_no_lifetime c now key resource httl, if_pos httl]
      exact hdrop key
    · rw [if_neg httl]
      intro k entry hentry
      have hmem := OrderedMap.get?_eq_some_iff.mp hentry
      rw [entries_set hsound now key resource httl, List.mem_append, List.mem_singleton] at hmem
      rcases hmem with hold | hnew
      · have hdelete : (k, entry) ∈ (c.cache.delete key).entries := by
          split at hold
          · exact hold
          · exact List.mem_of_mem_tail hold
        have hget := OrderedMap.get?_eq_some_iff.mpr hdelete
        rw [OrderedMap.get?_delete] at hget
        split at hget
        · cases hget
        · next hk => exact (Function.update_of_ne hk _ _).trans (h k entry hget)
      · cases hnew
        exact Function.update_self _ _ _
  | delete key => exact hdrop key
  | invalidateTag tag =>
    intro k entry hentry
    have hmem := OrderedMap.get?_eq_some_iff.mp hentry
    rw [run, entries_invalidateTag (hsound.indexes tag), List.mem_filter] at hmem
    -- the shelf drops the tagged keys, as the cache does
    show (s k).filter _ = _
    rw [h k entry (OrderedMap.get?_eq_some_iff.mpr hmem.1)]
    exact Option.filter_some_pos hmem.2
  | clear =>
    intro k entry hentry
    cases hentry

/-! ## Reachable caches -/

theorem sound_ops (h : Sound bound c) (ops : List (Op V T)) : Sound bound (ops.foldl run c) :=
  foldl_invariant (I := Sound bound) ops (fun _ op _ hs => sound_run hs op) h

theorem recent_ops {us : List String} (hsound : Sound bound c) (h : Recent us c)
    (ops : List (Op V T)) : Recent (us ++ uses c ops) (ops.foldl run c) := by
  induction ops generalizing us c with
  | nil => simpa [uses] using h
  | cons op ops ih =>
    rw [uses, ← List.append_assoc]
    exact ih (sound_run hsound op) (recent_run hsound h op)

theorem backed_ops {s : Shelf String (String × V) String T} (hsound : Sound bound c)
    (h : Backed s c) (ops : List (Op V T)) : Backed (ops.foldl shelve s) (ops.foldl run c) := by
  induction ops generalizing s c with
  | nil => exact h
  | cons op ops ih => exact ih (sound_run hsound op) (backed_run hsound h op)

omit [LinearOrder T] [Add T] [Zero T] in
theorem cache_create (h : create bound = some c) : c.cache = .empty := by
  unfold create at h
  split at h
  · cases h
  · cases h
    rfl

/-- After any operations on a new cache: the index of a tag is the set of the keys whose entries
carry it, and no tag is kept for nothing; the entries keep to the capacity and stand in the order
of their last use, so that a write into a full cache drops the one used least recently; a hit is
what the last write stored, before its deadline; and an invalidation drops the entries that carry
the tag and leaves the others as they stand. -/
theorem reachable_indexed {maxEntries : Int} {c₀ : MemoryResourceCache V T}
    (hnew : create maxEntries = some c₀) (ops : List (Op V T)) :
    let c := ops.foldl run c₀
    (∀ tag key, key ∈ holders c.tagIndex tag ↔
        ∃ entry, c.cache.get? key = some entry ∧ tag ∈ entry.tags) ∧
      (∀ tag keys, c.tagIndex.get? tag = some keys → keys.keys ≠ []) ∧
      (c.cache.size : Int) ≤ maxEntries ∧
      c.cache.keys.Sublist (uses c₀ ops).dedup ∧
      (∀ now key (resource : CachedResource V T) ttl, ¬ttl ≤ 0 →
        (c.set now key resource ttl).cache.entries =
          (if ((c.cache.delete key).size : Int) < maxEntries then (c.cache.delete key).entries
            else (c.cache.delete key).entries.tail) ++
          [(key, { resource with expiresAt := now + ttl })]) ∧
      (∀ now key entry, (c.get now key).2 = some entry →
        now < entry.expiresAt ∧ ops.foldl shelve Shelf.bare key = some entry.lease) ∧
      ∀ tag, (c.invalidateTag tag).cache.entries =
        c.cache.entries.filter fun e => tag ∉ e.2.tags := by
  intro c
  have hsound₀ : Sound maxEntries c₀ := sound_create hnew
  have hempty : c₀.cache = .empty := cache_create hnew
  have hsound : Sound maxEntries c := sound_ops hsound₀ ops
  have hrecent : Recent ([] ++ uses c₀ ops) c := recent_ops hsound₀ (by simp [Recent, hempty]) ops
  have hbacked : Backed (ops.foldl shelve Shelf.bare) c :=
    backed_ops hsound₀ (fun key entry h => by simp [hempty] at h) ops
  -- each clause is one of the invariants of the run
  refine ⟨hsound.indexes, hsound.inhabited, ?_, hrecent,
    fun now key resource ttl => entries_set hsound now key resource, fun now key entry hhit => ?_,
    fun tag => entries_invalidateTag (hsound.indexes tag)⟩
  · have hmax := hsound.max
    have hcapacity := hsound.capacity
    omega
  · rcases get_cases c now key with ⟨-, hmiss⟩ | ⟨_, -, -, hexpired⟩ | ⟨e, he, halive, hget⟩
    · rw [hmiss] at hhit
      cases hhit
    · rw [hexpired] at hhit
      cases hhit
    -- a hit is alive, and its lease lies on the shelf
    · rw [hget] at hhit
      cases hhit
      exact ⟨halive, hbacked key _ he⟩

/-- Two entries fit: writing a third drops `b`, since `a` was read after `b` was written. -/
theorem reachable_indexed_full :
    let ops : List (Op Nat Nat) := [.set 0 "a" ⟨"v1", 7, 0, ["x"]⟩ 10, .set 1 "b" ⟨"v2", 8, 0, []⟩ 10,
      .get 2 "a", .set 3 "c" ⟨"v3", 9, 0, ["x", "y"]⟩ 10]
    let c := ops.foldl run { maxEntries := 2 }
    c.cache.keys = ["a", "c"] ∧ c.cache.keys.Sublist (uses { maxEntries := 2 } ops).dedup :=
  have h := reachable_indexed (V := Nat) (T := Nat)
    (show create 2 = some { maxEntries := 2 } from rfl)
    [.set 0 "a" ⟨"v1", 7, 0, ["x"]⟩ 10, .set 1 "b" ⟨"v2", 8, 0, []⟩ 10, .get 2 "a",
      .set 3 "c" ⟨"v3", 9, 0, ["x", "y"]⟩ 10]
  ⟨by decide, h.2.2.2.1⟩

end Operations

end MemoryResourceCache

end FluxFast.Server
