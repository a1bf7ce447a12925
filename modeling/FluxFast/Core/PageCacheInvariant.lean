import FluxFast.Core.Router
import FluxFast.Core.StoreInvariant

/-!
# PageCacheInvariant — which pages Back and Forward can restore

The page cache and the store behind it under every sequence of their operations: the cache writes
pages the way the router does, settles and restores them, and the store changes on its own in
between.
-/

namespace FluxFast.Core

open FluxFast.Theory

namespace PageCache

variable {V P : Type}

/-! ## What a restored page relies on -/

/-- The store holds under `k` what the page was shown with. -/
def Restorable (entry : CachedPage V) (store : ResourceStore V) (k : String) : Prop :=
  (∃ version r, entry.resources.get? k = some version ∧ store.records.get? k = some r ∧
      r.version = version ∧ k ∉ store.staleKeys) ∨
    (entry.resources.get? k = none ∧ (store.stateOf k).status = .error)

theorem Restorable.of_entry {entry : CachedPage V} {store store' : ResourceStore V} {k : String}
    (h : Restorable entry store' k) (heq : store'.entry k = store.entry k) :
    Restorable entry store k := by
  obtain ⟨version, r, hversion, hr, hmatch, hfresh⟩ | ⟨hversion, herror⟩ := h
  · have hrecord : store.records.get? k = some r := (congrArg ResourceEntry.record heq).symm.trans hr
    have hstale : store'.isStale k = store.isStale k := congrArg ResourceEntry.stale heq
    refine .inl ⟨version, r, hversion, hrecord, hmatch, fun hk => hfresh ?_⟩
    exact of_decide_eq_true (hstale.trans (decide_eq_true hk))
  · have hstatus : (store'.stateOf k).status = (store.stateOf k).status :=
      congrArg ResourceEntry.status heq
    exact .inr ⟨hversion, hstatus.symm.trans herror⟩

theorem restorable_of_agrees {entry : CachedPage V} {keys : List String} {store : ResourceStore V}
    (h : (agrees entry keys store).1 = true) :
    ∀ k ∈ keys, k ∉ entry.pendingDeferred → Restorable entry store k := by
  -- Induction on the keys of the page in the order in which they are read.
  induction keys generalizing store with
  | nil => intro k hk; cases hk
  | cons key keys ih =>
    intro k hk hpending
    unfold agrees at h
    rcases List.mem_cons.mp hk with rfl | hk
    -- the key itself: its version is held and fresh, or its error is shown
    · rw [if_neg hpending] at h
      split at h
      · rename_i version hversion
        split at h
        · rename_i r hr
          split at h
          · rename_i hfresh
            exact .inl ⟨version, r, hversion, hr, hfresh.1, of_decide_eq_false hfresh.2⟩
          · cases h
        · cases h
      · rename_i hversion
        split at h
        · rename_i herror
          exact .inr ⟨hversion, herror⟩
        · cases h
    · -- the reads of this key leave the entry of every other key alone
      split at h
      · exact ih h k hk hpending
      · split at h
        · split at h
          · split at h
            · exact (ih h k hk hpending).of_entry (ResourceStore.entry_touchRecord ..)
            · cases h
          · cases h
        · split at h
          · exact (ih h k hk hpending).of_entry (ResourceStore.entry_touchState ..)
          · cases h

theorem getValid_eq_some {c : PageCache V} {url : String} {store : ResourceStore V}
    {page : CachedPage V} (h : (c.getValid url store).1 = some page) :
    c.entries.get? url = some page ∧ (agrees page page.resourceKeys store).1 = true := by
  unfold getValid at h
  cases hentry : c.entries.get? url with
  | none => rw [hentry] at h; cases h
  | some entry =>
    rw [hentry] at h
    dsimp only at h
    split at h
    · rename_i hvalid
      obtain rfl : entry = page := Option.some.inj h
      exact ⟨rfl, hvalid⟩
    · cases h

/-! ## The pages of the cache -/

def Formed (url : String) (entry : CachedPage V) : Prop :=
  entry.url = url ∧ ∀ k ∈ entry.pendingDeferred, k ∈ entry.resourceKeys

/-- Every page is filed under its own URL and waits only for its own keys; the capacity holds. -/
structure Sound (maxPages : Nat) (c : PageCache V) : Prop where
  max : c.maxPages = maxPages
  bounded : c.entries.size ≤ maxPages
  formed : ∀ url entry, c.entries.get? url = some entry → Formed url entry

theorem sound_new (maxPages : Nat) : Sound maxPages ({ maxPages := maxPages } : PageCache V) where
  max := rfl
  bounded := Nat.zero_le _
  formed _ _ h := by cases h

theorem get?_of_get?_delete {c : PageCache V} {url other : String} {entry : CachedPage V}
    (h : (c.entries.delete url).get? other = some entry) : c.entries.get? other = some entry := by
  rw [OrderedMap.get?_delete] at h
  split at h
  · cases h
  · exact h

/-- `evictLoop` only deletes, and with enough fuel it stops within the capacity. -/
theorem evictLoop_spec (fuel : Nat) (c : PageCache V) (h : c.entries.size ≤ fuel) :
    (evictLoop fuel c).maxPages = c.maxPages ∧ (evictLoop fuel c).entries.size ≤ c.maxPages ∧
      ∀ url entry, (evictLoop fuel c).entries.get? url = some entry →
        c.entries.get? url = some entry := by
  induction fuel generalizing c with
  | zero => exact ⟨rfl, (Nat.le_zero.mp h).symm ▸ Nat.zero_le _, fun _ _ h => h⟩
  | succ fuel ih =>
    unfold evictLoop
    by_cases hover : c.maxPages < c.entries.size
    · rw [if_pos hover]
      cases hkeys : c.entries.keys with
      | nil =>
        have hsize : c.entries.size = 0 := by rw [OrderedMap.size_eq_length_keys, hkeys]; rfl
        omega
      | cons oldest rest =>
        have hmem : oldest ∈ c.entries.keys := hkeys ▸ List.mem_cons_self
        have hless := OrderedMap.size_delete_of_mem hmem
        obtain ⟨hmax, hsize, hsub⟩ :=
          ih { c with entries := c.entries.delete oldest } (by simp only; omega)
        exact ⟨hmax, hsize, fun url entry hget => get?_of_get?_delete (hsub url entry hget)⟩
    · rw [if_neg hover]
      exact ⟨rfl, Nat.le_of_not_lt hover, fun _ _ h => h⟩

namespace Sound

variable {maxPages : Nat} {c : PageCache V}

theorem delete (h : Sound maxPages c) (url : String) :
    Sound maxPages { c with entries := c.entries.delete url } where
  max := h.max
  bounded := (OrderedMap.size_delete_le _ _).trans h.bounded
  formed other entry hget := h.formed other entry (get?_of_get?_delete hget)

theorem formed_putLast (h : Sound maxPages c) {url : String} {entry : CachedPage V}
    (hentry : Formed url entry) :
    ∀ other page, (c.putLast url entry).entries.get? other = some page → Formed other page := by
  intro other page hget
  have hcases : ((c.entries.delete url).set url entry).get? other = some page := hget
  rw [OrderedMap.get?_set] at hcases
  split at hcases
  · rename_i heq
    obtain rfl := Option.some.inj hcases
    exact heq ▸ hentry
  · exact h.formed other page (get?_of_get?_delete hcases)

/-- Rewriting a page that is there keeps the number of pages. -/
theorem putLast (h : Sound maxPages c) {url : String} (hmem : url ∈ c.entries.keys)
    {entry : CachedPage V} (hentry : Formed url entry) :
    Sound maxPages (c.putLast url entry) where
  max := h.max
  bounded := by
    have hnot : url ∉ (c.entries.delete url).keys := by simp [OrderedMap.mem_keys_delete]
    show ((c.entries.delete url).set url entry).size ≤ maxPages
    rw [OrderedMap.size_set_of_not_mem _ hnot, OrderedMap.size_delete_of_mem hmem]
    exact h.bounded
  formed := h.formed_putLast hentry

theorem set (h : Sound maxPages c) (page : PageDescriptor V) (resources : Versions)
    (manifest : Option PageCacheManifest)
    (hpending : ∀ m, manifest = some m → ∀ k ∈ m.pendingDeferred, k ∈ m.resourceKeys) :
    Sound maxPages (c.set page resources manifest) := by
  have hentry : Formed page.url
      { url := page.url
        component := page.component
        pageMeta := page.pageMeta.getD .empty
        resources := resources
        resourceKeys := (manifest.map (·.resourceKeys)).getD resources.keys
        pendingDeferred := (manifest.map (·.pendingDeferred)).getD []
        liveKeys := unique ((manifest.map (·.liveKeys)).getD []) } := by
    refine ⟨rfl, fun k hk => ?_⟩
    cases manifest with
    | none => cases hk
    | some m => exact hpending m rfl k hk
  have hformed := h.formed_putLast hentry
  obtain ⟨hmax, hsize, hsub⟩ := evictLoop_spec _ (c.putLast page.url _) le_rfl
  exact ⟨hmax.trans h.max, hsize.trans h.max.le, fun url entry hget =>
    hformed url entry (hsub url entry hget)⟩

theorem getValid (h : Sound maxPages c) (url : String) (store : ResourceStore V) :
    Sound maxPages (c.getValid url store).2.1 := by
  unfold PageCache.getValid
  cases hentry : c.entries.get? url with
  | none => exact h
  | some entry =>
    dsimp only
    split
    · exact h.putLast (OrderedMap.mem_keys_of_get? hentry) (h.formed url entry hentry)
    · exact h.delete url

theorem settleResources (h : Sound maxPages c) (url : String) (keys : List String)
    (store : ResourceStore V) : Sound maxPages (c.settleResources url keys store).1 := by
  unfold PageCache.settleResources
  cases hentry : c.entries.get? url with
  | none => exact h
  | some entry =>
    dsimp only
    split
    · exact h.delete url
    · refine h.putLast (OrderedMap.mem_keys_of_get? hentry) ⟨(h.formed url entry hentry).1, ?_⟩
      intro k hk
      exact List.mem_of_mem_filter hk

theorem clear (h : Sound maxPages c) : Sound maxPages c.clear where
  max := h.max
  bounded := Nat.zero_le _
  formed _ _ hget := by cases hget

end Sound

/-- Settling a page changes the versions and the pending keys of that page, and nothing else. -/
theorem get?_settleResources {c : PageCache V} {url other : String} {keys : List String}
    {store : ResourceStore V} {page : CachedPage V}
    (h : (c.settleResources url keys store).1.entries.get? other = some page) :
    ∃ old, c.entries.get? other = some old ∧ (other ≠ url → page = old) ∧
      { old with resources := page.resources, pendingDeferred := page.pendingDeferred } = page := by
  unfold settleResources at h
  cases hentry : c.entries.get? url with
  | none => rw [hentry] at h; exact ⟨page, h, fun _ => rfl, rfl⟩
  | some entry =>
    rw [hentry] at h
    dsimp only at h
    split at h
    · exact ⟨page, get?_of_get?_delete h, fun _ => rfl, rfl⟩
    · have hcases := h
      rw [putLast, OrderedMap.get?_set] at hcases
      split at hcases
      · rename_i heq
        obtain rfl := Option.some.inj hcases
        exact ⟨entry, heq ▸ hentry, fun hne => absurd heq hne, rfl⟩
      · exact ⟨page, get?_of_get?_delete hcases, fun _ => rfl, rfl⟩

end PageCache

/-! ## Every sequence of operations -/

/-- The page cache of a router together with its store. -/
structure BackForward (V : Type) where
  pages : PageCache V
  store : ResourceStore V

namespace BackForward

variable {V P : Type} [DecidableEq V] [Patchable V P]

inductive Op (V P : Type) where
  /-- The constructor writes its initial page without a manifest. -/
  | setInitial (page : PageDescriptor V)
  | cachePageEnvelope (envelope : PageEnvelope V)
  | settleResources (url : String) (keys : List String)
  | getValid (url : String)
  | clear
  | store (op : ResourceStore.Op V P)

def run (s : BackForward V) : Op V P → BackForward V
  | .setInitial page =>
    { s with pages := s.pages.set page s.store.exportKnownVersions none }
  | .cachePageEnvelope envelope =>
    let r : Router V P := { pageCache := s.pages, resources := { resourceStore := s.store } }
    { s with pages := r.pageCacheWith envelope }
  | .settleResources url keys =>
    let (pages, store) := s.pages.settleResources url keys s.store
    ⟨pages, store⟩
  | .getValid url =>
    let (_, pages, store) := s.pages.getValid url s.store
    ⟨pages, store⟩
  | .clear => { s with pages := s.pages.clear }
  | .store op => { s with store := s.store.run op }

omit [DecidableEq V] [Patchable V P] in
theorem sound_pageCacheWith {maxPages : Nat} {r : Router V P} (h : r.pageCache.Sound maxPages)
    (envelope : PageEnvelope V) : (r.pageCacheWith envelope).Sound maxPages := by
  unfold Router.pageCacheWith
  dsimp only
  split
  · refine h.set _ _ _ fun m hm k hk => ?_
    obtain rfl := Option.some.inj hm
    cases hk
  · refine h.set _ _ _ fun m hm k hk => ?_
    obtain rfl := Option.some.inj hm
    exact of_decide_eq_true (List.mem_filter.mp hk).2

theorem sound_run {maxPages : Nat} {s : BackForward V} (h : s.pages.Sound maxPages)
    (op : Op V P) : (s.run op).pages.Sound maxPages := by
  cases op with
  | setInitial page => exact h.set page _ none fun m hm => by cases hm
  | cachePageEnvelope envelope => exact sound_pageCacheWith (P := P) h envelope
  | settleResources url keys => exact h.settleResources url keys s.store
  | getValid url => exact h.getValid url s.store
  | clear => exact h.clear
  | store op => exact h

/-- After any sequence of operations: a page is restored only while the store still holds, for
every key the page does not wait for, what the page was shown with; a page waits only for its own
keys; the capacity holds; and settling resources neither brings a page back nor touches another. -/
theorem restored_pages_agree (maxPages : Nat) (store : ResourceStore V) (ops : List (Op V P)) :
    let s := ops.foldl run { pages := { maxPages := maxPages }, store := store }
    (∀ url page, (s.pages.getValid url s.store).1 = some page → ∀ k ∈ page.resourceKeys,
      k ∉ page.pendingDeferred →
        (∃ version r, page.resources.get? k = some version ∧ s.store.records.get? k = some r ∧
          r.version = version ∧ k ∉ s.store.staleKeys) ∨
        (page.resources.get? k = none ∧ (s.store.stateOf k).status = .error)) ∧
      (∀ url page, s.pages.entries.get? url = some page →
        ∀ k ∈ page.pendingDeferred, k ∈ page.resourceKeys) ∧
      s.pages.entries.size ≤ maxPages ∧
      (∀ url keys other page,
        (s.pages.settleResources url keys s.store).1.entries.get? other = some page →
          ∃ old, s.pages.entries.get? other = some old ∧ (other ≠ url → page = old)) := by
  intro s
  have hsound : s.pages.Sound maxPages :=
    foldl_invariant (I := fun s : BackForward V => s.pages.Sound maxPages) ops
      (fun _ op _ hs => sound_run hs op) (PageCache.sound_new maxPages)
  refine ⟨fun url page hvalid k hk hpending => ?_,
    fun url page hget => (hsound.formed url page hget).2, hsound.bounded,
    fun url keys other page hget => ?_⟩
  · have hagrees := (PageCache.getValid_eq_some hvalid).2
    exact PageCache.restorable_of_agrees hagrees k hk hpending
  · obtain ⟨old, hold, hother, -⟩ := PageCache.get?_settleResources hget
    exact ⟨old, hold, hother⟩

end BackForward

end FluxFast.Core
