import FluxFast.Core.Resources

/-!
# ResourceSteps — what the resource operations do to keys and epochs

Every operation is a sequence of bumps and store writes on the keys it names.  `Outside B` says
that it leaves all other keys alone: their entries are kept and, while no more than 1024 keys have
been bumped since the last clear, their epochs too.
-/

namespace FluxFast.Core

open FluxFast.Theory

set_option linter.unusedSectionVars false

namespace Resources

variable {V P : Type} [DecidableEq V] [Patchable V P]

/-! ## Bumped keys and the bound -/

def bumpedKeys (r : Resources V) : List String := unique (r.bumps.map (·.key))

/-- At most 1024 distinct keys were bumped since the last clear. -/
def Bounded (r : Resources V) : Prop := r.bumpedKeys.length ≤ maxResourceEpochEntries

/-- Nothing has been forgotten: the remembered keys are among those bumped. -/
def Exact (r : Resources V) : Prop :=
  r.resourceEpochs.evictedEpoch = 0 ∧ ∀ k ∈ r.resourceEpochs.entries.keys, k ∈ r.bumpedKeys

def currentEpoch (r : Resources V) (key : String) : Option Nat :=
  (r.resourceEpochs.get key).map (·.epoch)

theorem stillAt_iff {r : Resources V} {key : String} {captured : Option Nat} :
    r.stillAt key captured = true ↔ r.currentEpoch key = captured := by
  simp [stillAt, currentEpoch]

theorem mem_bumpedKeys {r : Resources V} {k : String} :
    k ∈ r.bumpedKeys ↔ ∃ b ∈ r.bumps, b.key = k := by
  simp [bumpedKeys]

theorem Bounded.of_suffix {r r' : Resources V} (h : r'.Bounded) (hs : r.bumps <:+ r'.bumps) :
    r.Bounded := by
  refine le_trans ?_ h
  refine (List.subperm_of_subset (nodup_unique _) fun k hk => ?_).length_le
  obtain ⟨b, hb, hbk⟩ := mem_bumpedKeys.mp hk
  exact mem_bumpedKeys.mpr ⟨b, hs.subset hb, hbk⟩

/-! ## One bump -/

section Bump

variable (r : Resources V) (key : String) (cause : Cause)

@[simp] theorem resourceStore_bump :
    (r.bumpResourceEpoch key cause).resourceStore = r.resourceStore := rfl

@[simp] theorem bumps_bump :
    (r.bumpResourceEpoch key cause).bumps = ⟨key, r.resourceEpochCounter + 1, cause⟩ :: r.bumps :=
  rfl

@[simp] theorem counter_bump :
    (r.bumpResourceEpoch key cause).resourceEpochCounter = r.resourceEpochCounter + 1 := rfl

@[simp] theorem currentEpoch_bump_self :
    (r.bumpResourceEpoch key cause).currentEpoch key = some (r.resourceEpochCounter + 1) := by
  simp only [currentEpoch, bumpResourceEpoch, ResourceEpochMap.get_set_self, Option.map_some]
  split <;> rfl

theorem suffix_bump : r.bumps <:+ (r.bumpResourceEpoch key cause).bumps :=
  List.suffix_cons ..

variable {r key cause}

/-- Within the bound a bump forgets no key. -/
theorem size_bump_le (he : r.Exact) (hb : (r.bumpResourceEpoch key cause).Bounded)
    (value : ResourceEpoch) :
    ((r.resourceEpochs.entries.delete key).set key value).size ≤ maxResourceEpochEntries := by
  refine le_trans (OrderedMap.size_le_of_keys_subset fun k hk => ?_) hb
  refine mem_bumpedKeys.mpr ?_
  rcases OrderedMap.mem_keys_set.mp hk with rfl | hk
  · exact ⟨_, List.mem_cons_self .., rfl⟩
  · obtain ⟨b, hb, hbk⟩ := mem_bumpedKeys.mp (he.2 k (OrderedMap.mem_keys_delete.mp hk).2)
    exact ⟨b, List.mem_cons_of_mem _ hb, hbk⟩

theorem exact_bump (he : r.Exact) (hb : (r.bumpResourceEpoch key cause).Bounded) :
    (r.bumpResourceEpoch key cause).Exact := by
  have hset := fun value => ResourceEpochMap.set_eq_of_size_le (size_bump_le he hb value)
  refine ⟨?_, fun k hk => ?_⟩
  · simp only [bumpResourceEpoch, hset]
    exact he.1
  · simp only [bumpResourceEpoch, hset] at hk
    refine mem_bumpedKeys.mpr ?_
    rcases OrderedMap.mem_keys_set.mp hk with rfl | hk
    · exact ⟨_, List.mem_cons_self .., rfl⟩
    · obtain ⟨b, hb, hbk⟩ := mem_bumpedKeys.mp (he.2 k (OrderedMap.mem_keys_delete.mp hk).2)
      exact ⟨b, List.mem_cons_of_mem _ hb, hbk⟩

theorem currentEpoch_bump_ne (he : r.Exact) (hb : (r.bumpResourceEpoch key cause).Bounded)
    {k : String} (hk : k ≠ key) :
    (r.bumpResourceEpoch key cause).currentEpoch k = r.currentEpoch k := by
  unfold currentEpoch
  simp only [bumpResourceEpoch]
  rw [ResourceEpochMap.get_set_ne_of_size_le (size_bump_le he hb _) hk]

end Bump

/-! ## Operations that leave the other keys alone -/

/-- `r'` differs from `r` at most on the keys of `B`, evictions from the store apart. -/
structure Outside (B : String → Prop) (r r' : Resources V) : Prop where
  suffix : r.bumps <:+ r'.bumps
  kept : ∀ k, ¬B k → ResourceStore.Kept r.resourceStore r'.resourceStore k
  exact_of : r'.Bounded → r.Exact → r'.Exact
  epoch : r'.Bounded → r.Exact → ∀ k, ¬B k → r'.currentEpoch k = r.currentEpoch k

theorem Outside.refl (B : String → Prop) (r : Resources V) : Outside B r r :=
  ⟨List.suffix_refl _, fun j _ => .refl _ j, fun _ he => he, fun _ _ _ _ => rfl⟩

theorem Outside.trans {B : String → Prop} {r r' r'' : Resources V} (h₁ : Outside B r r')
    (h₂ : Outside B r' r'') : Outside B r r'' where
  suffix := h₁.suffix.trans h₂.suffix
  kept k hk := (h₁.kept k hk).trans (h₂.kept k hk)
  exact_of hb he := h₂.exact_of hb (h₁.exact_of (hb.of_suffix h₂.suffix) he)
  epoch hb he k hk :=
    (h₂.epoch hb (h₁.exact_of (hb.of_suffix h₂.suffix) he) k hk).trans
      (h₁.epoch (hb.of_suffix h₂.suffix) he k hk)

theorem Outside.mono {B C : String → Prop} {r r' : Resources V} (h : Outside B r r')
    (hBC : ∀ k, B k → C k) : Outside C r r' where
  suffix := h.suffix
  kept k hk := h.kept k fun hb => hk (hBC k hb)
  exact_of := h.exact_of
  epoch hb he k hk := h.epoch hb he k fun hB => hk (hBC k hB)

theorem outside_bump (r : Resources V) (key : String) (cause : Cause) :
    Outside (· = key) r (r.bumpResourceEpoch key cause) where
  suffix := suffix_bump r key cause
  kept j _ := .refl r.resourceStore j
  exact_of hb he := exact_bump he hb
  epoch hb he _ hk := currentEpoch_bump_ne he hb hk

/-- Writing the store leaves the epochs alone. -/
theorem outside_withStore (r : Resources V) {store : ResourceStore V} {B : String → Prop}
    (h : ∀ k, ¬B k → ResourceStore.Kept r.resourceStore store k) :
    Outside B r (r.withStore store) where
  suffix := List.suffix_refl _
  kept := h
  exact_of _ he := he
  epoch _ _ _ _ := rfl

theorem outside_bumpAll (r : Resources V) (keys : List String) (cause : Cause) :
    Outside (· ∈ keys) r (r.bumpAll keys cause) :=
  foldl_relates_of_mem (Outside.refl _) Outside.trans keys
    (fun s j hj => (outside_bump s j cause).mono fun _ h => h ▸ hj) r

@[simp] theorem resourceStore_bumpAll (r : Resources V) (keys : List String) (cause : Cause) :
    (r.bumpAll keys cause).resourceStore = r.resourceStore := by
  induction keys generalizing r with
  | nil => rfl
  | cons key keys ih => exact (ih _).trans (resourceStore_bump r key cause)

/-! ## Restoring superseded keys -/

theorem outside_restore (r : Resources V) (now : Nat) (key : String) :
    Outside (· = key) r (r.restore now key) := by
  refine (outside_bump r key .supersede).trans ?_
  unfold restore
  dsimp only
  split
  · refine outside_withStore _ fun k hk => ?_
    refine (ResourceStore.Kept.of_eq (ResourceStore.entry_touchRecord _ key k)).trans ?_
    exact (ResourceStore.kept_set _ now _ _ hk).trans (ResourceStore.kept_markStale _ hk)
  · exact outside_withStore _ fun k hk => .of_eq (ResourceStore.entry_invalidate_ne _ hk)

/-- A restored key is ready with a stale value, or missing. -/
theorem entry_restore_self (r : Resources V) (now : Nat) (key : String) :
    ((r.restore now key).entry key).status ≠ .loading ∧ ¬((r.restore now key).entry key).fresh := by
  unfold restore
  dsimp only
  split
  · next record hrecord =>
    set store := (r.bumpResourceEpoch key .supersede).resourceStore with hstore
    set written := ((store.touchRecord key).set now key record.version record.value).1 with hwritten
    -- the rewritten record is ready and fresh, and `markStale` takes the freshness away
    have hready : (written.entry key).status = .ready ∨ written.entry key = .evicted :=
      ResourceStore.status_set_self ..
    show (((written.markStale key).entry key).status ≠ _) ∧ ¬((written.markStale key).entry key).fresh
    rcases written.entry_markStale_self key with ⟨hsame, hun⟩ | hmarked | hevicted
    · rw [hsame]
      refine ⟨?_, fun hf => ?_⟩
      · rcases hready with h | h <;> simp [h]
      · rcases hun with hnone | hstale
        · simp [ResourceEntry.fresh, hnone] at hf
        · simp [ResourceEntry.fresh, hstale] at hf
    · rw [hmarked]
      refine ⟨?_, fun hf => by simp [ResourceEntry.fresh] at hf⟩
      show (written.stateOf key).status ≠ _
      rw [← ResourceStore.status_entry]
      rcases hready with h | h <;> simp [h]
    · rw [hevicted]
      exact ⟨by simp, fun hf => by simp [ResourceEntry.fresh] at hf⟩
  · have hentry := ResourceStore.entry_invalidate_self
      (r.bumpResourceEpoch key .supersede).resourceStore key
    rw [show ∀ store, (withStore (r.bumpResourceEpoch key .supersede) store).entry key =
      store.entry key from fun _ => rfl, hentry]
    exact ⟨by simp, fun hf => by simp [ResourceEntry.fresh] at hf⟩

/-- A key that is neither shown as loading nor counted as confirmed. -/
def AtRest (r : Resources V) (k : String) : Prop :=
  (r.entry k).status ≠ .loading ∧ ¬(r.entry k).fresh

theorem AtRest.of_kept {r r' : Resources V} {k : String} (h : r.AtRest k)
    (hkept : ResourceStore.Kept r.resourceStore r'.resourceStore k) : r'.AtRest k := by
  rcases hkept with hsame | hevicted
  · rw [AtRest, entry, hsame]
    exact h
  · rw [AtRest, entry, hevicted]
    exact ⟨by simp, fun hf => by simp [ResourceEntry.fresh] at hf⟩

/-- Within the bound, `r'` is `r` with the keys of `C` put to rest and the others left alone. -/
structure Restores (C : String → Prop) (r r' : Resources V) : Prop where
  suffix : r.bumps <:+ r'.bumps
  exact_of : r'.Bounded → r.Exact → r'.Exact
  kept : r'.Bounded → r.Exact → ∀ k, ¬C k →
    ResourceStore.Kept r.resourceStore r'.resourceStore k ∧ r'.currentEpoch k = r.currentEpoch k
  rest : r'.Bounded → r.Exact → ∀ k, C k → r'.AtRest k

theorem Restores.refl (r : Resources V) : Restores (fun _ => False) r r :=
  ⟨List.suffix_refl _, fun _ he => he, fun _ _ k _ => ⟨.refl _ k, rfl⟩, fun _ _ _ h => h.elim⟩

/-- The keys of the second step may be told from the first state. -/
theorem Restores.trans {C D E : String → Prop} {r r' r'' : Resources V} (h₁ : Restores C r r')
    (h₂ : Restores D r' r'')
    (hD : ∀ k, ¬C k → r'.currentEpoch k = r.currentEpoch k → (D k ↔ E k)) :
    Restores (fun k => C k ∨ E k) r r'' where
  suffix := h₁.suffix.trans h₂.suffix
  exact_of hb he := h₂.exact_of hb (h₁.exact_of (hb.of_suffix h₂.suffix) he)
  kept hb he k hk := by
    have hb₁ := hb.of_suffix h₂.suffix
    have hC : ¬C k := fun h => hk (.inl h)
    obtain ⟨hkept, hepoch⟩ := h₁.kept hb₁ he k hC
    have hnot : ¬D k := fun h => hk (.inr ((hD k hC hepoch).mp h))
    obtain ⟨hkept', hepoch'⟩ := h₂.kept hb (h₁.exact_of hb₁ he) k hnot
    exact ⟨hkept.trans hkept', hepoch'.trans hepoch⟩
  rest hb he k hk := by
    have hb₁ := hb.of_suffix h₂.suffix
    have he₁ := h₁.exact_of hb₁ he
    by_cases hDk : D k
    · exact h₂.rest hb he₁ k hDk
    · by_cases hC : C k
      · exact (h₁.rest hb₁ he k hC).of_kept (h₂.kept hb he₁ k hDk).1
      · obtain ⟨-, hepoch⟩ := h₁.kept hb₁ he k hC
        exact absurd ((hD k hC hepoch).mpr (hk.resolve_left hC)) hDk

theorem Restores.congr {C D : String → Prop} {r r' : Resources V} (h : Restores C r r')
    (hCD : ∀ k, C k ↔ D k) : Restores D r r' :=
  (funext fun k => propext (hCD k) : C = D) ▸ h

theorem restores_restore (r : Resources V) (now : Nat) (key : String) :
    Restores (· = key) r (r.restore now key) where
  suffix := (outside_restore r now key).suffix
  exact_of := (outside_restore r now key).exact_of
  kept hb he k hk :=
    ⟨(outside_restore r now key).kept k hk, (outside_restore r now key).epoch hb he k hk⟩
  rest _ _ _ hk := hk ▸ entry_restore_self r now key

/-- The keys that `restoreCaptured` restores. -/
def Captured (r : Resources V) (captured : String → Option Nat) (keys : List String)
    (k : String) : Prop :=
  k ∈ keys ∧ r.currentEpoch k = captured k

theorem restores_restoreCaptured (r : Resources V) (now : Nat) (captured : String → Option Nat)
    (keys : List String) :
    Restores (r.Captured captured keys) r (r.restoreCaptured now captured keys) := by
  induction keys generalizing r with
  | nil => exact (Restores.refl r).congr fun k => by simp [Captured]
  | cons key keys ih =>
    set next := if r.stillAt key (captured key) then r.restore now key else r with hnext
    have hstep : Restores (r.Captured captured [key]) r next := by
      by_cases h : r.stillAt key (captured key) = true
      · rw [hnext, if_pos h]
        refine (restores_restore r now key).congr fun k => ⟨?_, fun hk => by simpa using hk.1⟩
        rintro rfl
        exact ⟨List.mem_singleton_self k, stillAt_iff.mp h⟩
      · rw [hnext, if_neg h]
        refine (Restores.refl r).congr fun k => ⟨False.elim, fun hk => h (stillAt_iff.mpr ?_)⟩
        rw [← List.mem_singleton.mp hk.1]
        exact hk.2
    refine (hstep.trans (ih next) (E := r.Captured captured keys) fun k _ he => ?_).congr
      fun k => ?_
    · rw [Captured, Captured, he]
    · simp only [Captured, List.mem_cons, List.not_mem_nil, or_false]
      rw [← or_and_right]

/-- The keys that a list of captured epochs restores. -/
def CapturedIn (r : Resources V) (batches : List (Nat × OrderedMap String Nat)) (k : String) :
    Prop :=
  ∃ batch ∈ batches, r.Captured batch.2.get? batch.2.keys k

theorem restores_batches (r : Resources V) (now : Nat)
    (batches : List (Nat × OrderedMap String Nat)) :
    Restores (r.CapturedIn batches) r
      (batches.foldl (fun r batch => r.restoreCaptured now batch.2.get? batch.2.keys) r) := by
  induction batches generalizing r with
  | nil => exact (Restores.refl r).congr fun k => by simp [CapturedIn]
  | cons batch batches ih =>
    refine ((restores_restoreCaptured r now batch.2.get? batch.2.keys).trans (ih _)
      (E := r.CapturedIn batches) fun k _ he => ?_).congr fun k => ?_
    · simp only [CapturedIn, Captured, he]
    · simp [CapturedIn]

/-! ## Starting a load -/

section Capture

variable (id : Nat) (acc : Resources V × OrderedMap String Nat) (keys : List String)

@[simp] theorem resourceStore_captureEpoch :
    (keys.foldl (captureEpoch id) acc).1.resourceStore = acc.1.resourceStore := by
  induction keys generalizing acc with
  | nil => rfl
  | cons key keys ih => exact (ih _).trans rfl

theorem outside_captureEpoch : Outside (· ∈ keys) acc.1 (keys.foldl (captureEpoch id) acc).1 := by
  induction keys generalizing acc with
  | nil => exact .refl _ _
  | cons key keys ih =>
    have hfirst : Outside (· ∈ key :: keys) acc.1 (captureEpoch id acc key).1 :=
      (outside_bump acc.1 key (.load id)).mono fun k hk => hk ▸ List.mem_cons_self ..
    exact hfirst.trans ((ih _).mono fun k hk => List.mem_cons_of_mem _ hk)

theorem get?_captureEpoch_of_not_mem {k : String} (hk : k ∉ keys) :
    (keys.foldl (captureEpoch id) acc).2.get? k = acc.2.get? k := by
  induction keys generalizing acc with
  | nil => rfl
  | cons key keys ih =>
    simp only [List.mem_cons, not_or] at hk
    exact (ih _ hk.2).trans (OrderedMap.get?_set_ne _ _ hk.1)

/-- Each key is at the epoch that was remembered for it. -/
theorem get?_captureEpoch_of_mem (hb : (keys.foldl (captureEpoch id) acc).1.Bounded)
    (he : acc.1.Exact) {k : String} (hk : k ∈ keys) :
    ∃ e, (keys.foldl (captureEpoch id) acc).2.get? k = some e ∧
      (keys.foldl (captureEpoch id) acc).1.currentEpoch k = some e := by
  induction keys generalizing acc with
  | nil => cases hk
  | cons key keys ih =>
    have hrest := outside_captureEpoch id (captureEpoch id acc key) keys
    have he₁ : (captureEpoch id acc key).1.Exact := exact_bump he (hb.of_suffix hrest.suffix)
    by_cases hmem : k ∈ keys
    · exact ih _ hb he₁ hmem
    · rcases List.mem_cons.mp hk with rfl | hmem'
      · refine ⟨acc.1.resourceEpochCounter + 1, ?_, ?_⟩
        · rw [List.foldl_cons, get?_captureEpoch_of_not_mem _ _ _ hmem]
          exact OrderedMap.get?_set_self ..
        · rw [List.foldl_cons, hrest.epoch hb he₁ k hmem]
          exact currentEpoch_bump_self ..
      · exact absurd hmem' hmem

end Capture

end Resources

end FluxFast.Core
