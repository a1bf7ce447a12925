import Mathlib.Data.List.Nodup
import Mathlib.Data.List.Perm.Subperm

/-!
# OrderedMap — finite maps that remember insertion order

A finite map as the list of its entries, oldest first, with distinct keys carried as a field.
Writing an existing key keeps its position; writing a new key appends it.  `delete` followed by
`set` therefore moves a key to the back, and the oldest entry is the head of the list: the two
idioms from which recency queues are built.
-/

namespace FluxFast.Theory

universe u v

/-! ## Distinct elements, in the order of their first occurrence -/

section Unique

variable {κ : Type u} [DecidableEq κ]

def unique : List κ → List κ
  | [] => []
  | k :: ks => k :: (unique ks).filter fun j => j ≠ k

@[simp] theorem mem_unique {k : κ} {ks : List κ} : k ∈ unique ks ↔ k ∈ ks := by
  induction ks with
  | nil => simp [unique]
  | cons j ks ih =>
    by_cases h : k = j
    · simp [unique, h]
    · simp [unique, h, ih]

theorem nodup_unique (ks : List κ) : (unique ks).Nodup := by
  induction ks with
  | nil => exact List.nodup_nil
  | cons k ks ih =>
    refine List.nodup_cons.mpr ⟨?_, ih.filter _⟩
    simp

end Unique

/-! ## Finite maps -/

structure OrderedMap (κ : Type u) (υ : Type v) where
  entries : List (κ × υ)
  nodup : (entries.map Prod.fst).Nodup

namespace OrderedMap

variable {κ : Type u} {υ : Type v} [DecidableEq κ]

instance [DecidableEq υ] : DecidableEq (OrderedMap κ υ) := fun m n =>
  decidable_of_iff (m.entries = n.entries) (by cases m; cases n; simp)

/-! ## Entry lists -/

/-- First value stored under `k`. -/
def lookup (k : κ) : List (κ × υ) → Option υ
  | [] => none
  | e :: es => if e.1 = k then some e.2 else lookup k es

/-- Overwrite `k` in place. -/
def overwrite (k : κ) (x : υ) (es : List (κ × υ)) : List (κ × υ) :=
  es.map fun e => if e.1 = k then (k, x) else e

/-- Drop the entries of `k`. -/
def without (k : κ) (es : List (κ × υ)) : List (κ × υ) :=
  es.filter fun e => e.1 ≠ k

omit [DecidableEq κ] in
theorem mem_keys_of_mem {es : List (κ × υ)} {e : κ × υ} (h : e ∈ es) :
    e.1 ∈ es.map Prod.fst :=
  List.mem_map_of_mem h

theorem lookup_eq_none_iff {k : κ} {es : List (κ × υ)} :
    lookup k es = none ↔ k ∉ es.map Prod.fst := by
  induction es with
  | nil => simp [lookup]
  | cons e es ih =>
    by_cases h : e.1 = k
    · simp [lookup, h]
    · simp [lookup, h, ih, Ne.symm h]

theorem lookup_mem {k : κ} {x : υ} {es : List (κ × υ)} (h : lookup k es = some x) :
    (k, x) ∈ es := by
  induction es with
  | nil => simp [lookup] at h
  | cons e es ih =>
    obtain ⟨j, y⟩ := e
    by_cases hj : j = k
    · simp only [lookup, hj, if_true, Option.some.injEq] at h
      simp [hj, h]
    · simp only [lookup, hj, if_false] at h
      exact List.mem_cons_of_mem _ (ih h)

theorem lookup_of_mem {k : κ} {x : υ} {es : List (κ × υ)}
    (hn : (es.map Prod.fst).Nodup) (h : (k, x) ∈ es) : lookup k es = some x := by
  induction es with
  | nil => simp at h
  | cons e es ih =>
    obtain ⟨j, y⟩ := e
    simp only [List.map_cons, List.nodup_cons] at hn
    rcases List.mem_cons.mp h with heq | hmem
    · cases heq
      simp [lookup]
    · have hjk : j ≠ k := fun hjk => hn.1 (hjk ▸ mem_keys_of_mem hmem)
      simp only [lookup, hjk, if_false]
      exact ih hn.2 hmem

theorem keys_overwrite (k : κ) (x : υ) (es : List (κ × υ)) :
    (overwrite k x es).map Prod.fst = es.map Prod.fst := by
  induction es with
  | nil => rfl
  | cons e es ih =>
    have hhead : (if e.1 = k then (k, x) else e).1 = e.1 := by
      split
      · next h => exact h.symm
      · rfl
    simp only [overwrite, List.map_cons, hhead]
    congr 1

theorem lookup_overwrite_self {k : κ} {x : υ} {es : List (κ × υ)}
    (h : k ∈ es.map Prod.fst) : lookup k (overwrite k x es) = some x := by
  induction es with
  | nil => simp at h
  | cons e es ih =>
    by_cases hk : e.1 = k
    · simp [overwrite, lookup, hk]
    · have hmem : k ∈ es.map Prod.fst := by
        rcases List.mem_cons.mp h with heq | hmem
        · exact absurd heq.symm hk
        · exact hmem
      have := ih hmem
      simp only [overwrite, List.map_cons, if_neg hk, lookup] at this ⊢
      exact this

theorem lookup_overwrite_ne {j k : κ} (x : υ) (es : List (κ × υ)) (h : j ≠ k) :
    lookup j (overwrite k x es) = lookup j es := by
  induction es with
  | nil => rfl
  | cons e es ih =>
    simp only [overwrite, List.map_cons, lookup] at ih ⊢
    by_cases hk : e.1 = k
    · have hej : ¬ e.1 = j := fun hej => h (hej.symm.trans hk)
      simp [hk, Ne.symm h, ih]
    · simp [hk, ih]

theorem lookup_without_self (k : κ) (es : List (κ × υ)) : lookup k (without k es) = none := by
  rw [lookup_eq_none_iff]
  simp [without]

theorem lookup_without_ne {j k : κ} (es : List (κ × υ)) (h : j ≠ k) :
    lookup j (without k es) = lookup j es := by
  induction es with
  | nil => rfl
  | cons e es ih =>
    by_cases hk : e.1 = k
    · have hej : ¬ e.1 = j := fun hej => h (hej.symm.trans hk)
      simp only [without, List.filter_cons, hk, ne_eq, not_true_eq_false, decide_false,
        Bool.false_eq_true, if_false, lookup, Ne.symm h] at ih ⊢
      exact ih
    · simp only [without, List.filter_cons, hk, ne_eq, not_false_eq_true, decide_true, if_true,
        lookup] at ih ⊢
      rw [ih]

theorem lookup_append (k : κ) (es fs : List (κ × υ)) :
    lookup k (es ++ fs) = (lookup k es).or (lookup k fs) := by
  induction es with
  | nil => rfl
  | cons e es ih =>
    obtain ⟨j, x⟩ := e
    by_cases h : j = k
    · simp [lookup, h]
    · simpa [lookup, h] using ih

theorem lookup_append_singleton (j k : κ) (x : υ) (es : List (κ × υ)) :
    lookup j (es ++ [(k, x)]) = (lookup j es).or (if k = j then some x else none) := by
  induction es with
  | nil => simp [lookup]
  | cons e es ih =>
    by_cases hj : e.1 = j
    · simp [lookup, hj]
    · simp [lookup, hj, ih]

/-! ## Operations -/

def empty : OrderedMap κ υ := ⟨[], by simp⟩

def get? (m : OrderedMap κ υ) (k : κ) : Option υ := lookup k m.entries

def keys (m : OrderedMap κ υ) : List κ := m.entries.map Prod.fst

def has (m : OrderedMap κ υ) (k : κ) : Bool := (m.get? k).isSome

def size (m : OrderedMap κ υ) : Nat := m.entries.length

def delete (m : OrderedMap κ υ) (k : κ) : OrderedMap κ υ where
  entries := without k m.entries
  nodup := m.nodup.sublist (List.filter_sublist.map Prod.fst)

def set (m : OrderedMap κ υ) (k : κ) (x : υ) : OrderedMap κ υ :=
  if h : k ∈ m.keys then
    ⟨overwrite k x m.entries, by rw [keys_overwrite]; exact m.nodup⟩
  else
    ⟨m.entries ++ [(k, x)], by
      have hk : k ∉ m.entries.map Prod.fst := h
      simp only [List.map_append, List.map_cons, List.map_nil]
      exact List.nodup_append.mpr ⟨m.nodup, by simp, by
        intro a ha b hb hab
        rw [List.mem_singleton] at hb
        exact hk (hb ▸ hab ▸ ha)⟩⟩

/-- The entries whose key satisfies `p`. -/
def filter (m : OrderedMap κ υ) (p : κ → Bool) : OrderedMap κ υ where
  entries := m.entries.filter fun e => p e.1
  nodup := m.nodup.sublist (List.filter_sublist.map Prod.fst)

/-- Make `k` the newest entry. -/
def moveToEnd (m : OrderedMap κ υ) (k : κ) : OrderedMap κ υ :=
  match m.get? k with
  | none => m
  | some x => (m.delete k).set k x

/-- The map that holds `entries`, later duplicates winning. -/
def ofList (entries : List (κ × υ)) : OrderedMap κ υ :=
  entries.foldl (fun m e => m.set e.1 e.2) empty

omit [DecidableEq κ] in
@[simp] theorem keys_empty : (empty : OrderedMap κ υ).keys = [] := rfl

@[simp] theorem get?_empty (k : κ) : (empty : OrderedMap κ υ).get? k = none := rfl

theorem get?_eq_none_iff {m : OrderedMap κ υ} {k : κ} : m.get? k = none ↔ k ∉ m.keys :=
  lookup_eq_none_iff

theorem mem_keys_iff {m : OrderedMap κ υ} {k : κ} : k ∈ m.keys ↔ ∃ x, m.get? k = some x := by
  rw [← not_iff_not, ← get?_eq_none_iff, ← Option.ne_none_iff_exists', not_not]

theorem mem_keys_of_get? {m : OrderedMap κ υ} {k : κ} {x : υ} (h : m.get? k = some x) :
    k ∈ m.keys :=
  mem_keys_iff.mpr ⟨x, h⟩

theorem has_iff_mem_keys {m : OrderedMap κ υ} {k : κ} : m.has k = true ↔ k ∈ m.keys := by
  rw [mem_keys_iff, has, Option.isSome_iff_exists]

theorem get?_eq_some_iff {m : OrderedMap κ υ} {k : κ} {x : υ} :
    m.get? k = some x ↔ (k, x) ∈ m.entries :=
  ⟨lookup_mem, lookup_of_mem m.nodup⟩

@[simp] theorem get?_set_self (m : OrderedMap κ υ) (k : κ) (x : υ) :
    (m.set k x).get? k = some x := by
  unfold set get?
  split
  · next h => exact lookup_overwrite_self h
  · next h =>
    have hnone : lookup k m.entries = none := lookup_eq_none_iff.mpr h
    simp [lookup_append_singleton, hnone]

theorem get?_set_ne (m : OrderedMap κ υ) {j k : κ} (x : υ) (h : j ≠ k) :
    (m.set k x).get? j = m.get? j := by
  unfold set get?
  split
  · exact lookup_overwrite_ne x _ h
  · simp [lookup_append_singleton, Ne.symm h]

theorem get?_set (m : OrderedMap κ υ) (j k : κ) (x : υ) :
    (m.set k x).get? j = if j = k then some x else m.get? j := by
  by_cases h : j = k
  · simp [h]
  · rw [get?_set_ne m x h, if_neg h]

@[simp] theorem get?_delete_self (m : OrderedMap κ υ) (k : κ) : (m.delete k).get? k = none :=
  lookup_without_self k _

theorem get?_delete_ne (m : OrderedMap κ υ) {j k : κ} (h : j ≠ k) :
    (m.delete k).get? j = m.get? j :=
  lookup_without_ne _ h

theorem get?_delete (m : OrderedMap κ υ) (j k : κ) :
    (m.delete k).get? j = if j = k then none else m.get? j := by
  by_cases h : j = k
  · simp [h]
  · rw [get?_delete_ne m h, if_neg h]

theorem mem_keys_set {m : OrderedMap κ υ} {j k : κ} {x : υ} :
    j ∈ (m.set k x).keys ↔ j = k ∨ j ∈ m.keys := by
  rw [mem_keys_iff, mem_keys_iff, get?_set]
  by_cases h : j = k
  · simp [h]
  · simp [h]

theorem mem_keys_delete {m : OrderedMap κ υ} {j k : κ} :
    j ∈ (m.delete k).keys ↔ j ≠ k ∧ j ∈ m.keys := by
  rw [mem_keys_iff, mem_keys_iff, get?_delete]
  by_cases h : j = k
  · simp [h]
  · simp [h]

theorem get?_filter_eq_some_iff {m : OrderedMap κ υ} {p : κ → Bool} {k : κ} {x : υ} :
    (m.filter p).get? k = some x ↔ m.get? k = some x ∧ p k = true := by
  rw [get?_eq_some_iff, get?_eq_some_iff]
  simp [filter, List.mem_filter]

theorem mem_keys_filter {m : OrderedMap κ υ} {p : κ → Bool} {k : κ} :
    k ∈ (m.filter p).keys ↔ k ∈ m.keys ∧ p k = true := by
  rw [mem_keys_iff, mem_keys_iff]
  simp [get?_filter_eq_some_iff]

omit [DecidableEq κ] in
theorem size_eq_length_keys (m : OrderedMap κ υ) : m.size = m.keys.length := by
  simp [size, keys]

omit [DecidableEq κ] in
theorem nodup_keys (m : OrderedMap κ υ) : m.keys.Nodup := m.nodup

theorem size_set_of_mem {m : OrderedMap κ υ} {k : κ} (x : υ) (h : k ∈ m.keys) :
    (m.set k x).size = m.size := by
  simp [size, set, h, overwrite]

theorem size_set_of_not_mem {m : OrderedMap κ υ} {k : κ} (x : υ) (h : k ∉ m.keys) :
    (m.set k x).size = m.size + 1 := by
  simp [size, set, h]

theorem size_delete_le (m : OrderedMap κ υ) (k : κ) : (m.delete k).size ≤ m.size :=
  List.length_filter_le _ _

omit [DecidableEq κ] in
/-- Distinct keys drawn from `s` cannot be more than `s` has. -/
theorem size_le_of_keys_subset {m : OrderedMap κ υ} {s : List κ} (h : ∀ k ∈ m.keys, k ∈ s) :
    m.size ≤ s.length := by
  rw [size_eq_length_keys]
  exact (List.subperm_of_subset m.nodup h).length_le

theorem keys_delete (m : OrderedMap κ υ) (k : κ) : (m.delete k).keys = m.keys.erase k := by
  rw [m.nodup_keys.erase_eq_filter k]
  show (m.entries.filter _).map Prod.fst = (m.entries.map Prod.fst).filter _
  rw [List.filter_map]
  congr 2
  funext e
  by_cases h : e.1 = k
  · simp [h]
  · simp [h]

theorem keys_set_of_not_mem {m : OrderedMap κ υ} {k : κ} (x : υ) (h : k ∉ m.keys) :
    (m.set k x).keys = m.keys ++ [k] := by
  rw [set, dif_neg h]
  simp [keys]

theorem size_delete_of_mem {m : OrderedMap κ υ} {k : κ} (h : k ∈ m.keys) :
    (m.delete k).size + 1 = m.size := by
  rw [size_eq_length_keys, size_eq_length_keys, keys_delete, List.length_erase_add_one h]

theorem get?_moveToEnd (m : OrderedMap κ υ) (j k : κ) : (m.moveToEnd k).get? j = m.get? j := by
  unfold moveToEnd
  split
  · rfl
  · next x hx =>
    by_cases h : j = k
    · rw [h, get?_set_self, hx]
    · rw [get?_set_ne _ x h, get?_delete_ne m h]

theorem keys_moveToEnd {m : OrderedMap κ υ} {k : κ} (h : k ∈ m.keys) :
    (m.moveToEnd k).keys = m.keys.erase k ++ [k] := by
  obtain ⟨x, hx⟩ := mem_keys_iff.mp h
  have hnone : k ∉ (m.delete k).keys := fun hk => (mem_keys_delete.mp hk).1 rfl
  rw [moveToEnd, hx]
  exact (keys_set_of_not_mem x hnone).trans (by rw [keys_delete])

theorem delete_of_not_mem {m : OrderedMap κ υ} {k : κ} (h : k ∉ m.keys) : m.delete k = m := by
  have hentries : (m.delete k).entries = m.entries :=
    List.filter_eq_self.mpr fun e he =>
      decide_eq_true fun heq => h (heq ▸ List.mem_map_of_mem he)
  cases m
  simpa [delete] using hentries

theorem entries_delete_head {m : OrderedMap κ υ} {k : κ} {x : υ} {es : List (κ × υ)}
    (h : m.entries = (k, x) :: es) : (m.delete k).entries = es := by
  have hnodup : k ∉ es.map Prod.fst := by
    have hkeys := m.nodup
    rw [h] at hkeys
    exact (List.nodup_cons.mp hkeys).1
  show without k m.entries = es
  rw [h, without, List.filter_cons_of_neg (by simp)]
  exact List.filter_eq_self.mpr fun e he =>
    decide_eq_true fun heq => hnodup (heq ▸ List.mem_map_of_mem he)

theorem entries_foldl_delete (ks : List κ) (m : OrderedMap κ υ) :
    (ks.foldl delete m).entries = m.entries.filter fun e => e.1 ∉ ks := by
  induction ks generalizing m with
  | nil => simp
  | cons k ks ih =>
    rw [List.foldl_cons, ih]
    show (m.entries.filter _).filter _ = _
    rw [List.filter_filter]
    congr 1
    funext e
    simp [Bool.and_comm]

theorem entries_set_of_not_mem {m : OrderedMap κ υ} {k : κ} (x : υ) (h : k ∉ m.keys) :
    (m.set k x).entries = m.entries ++ [(k, x)] := by
  rw [set, dif_neg h]

/-- A loop that keeps the entries that pass a test, up to a limit. -/
theorem entries_foldl_limited (limit : Nat) (p : κ × υ → Bool) {es : List (κ × υ)}
    (hnodup : (es.map Prod.fst).Nodup) {m : OrderedMap κ υ} (hnew : ∀ e ∈ es, e.1 ∉ m.keys) :
    (es.foldl (fun m e => if m.size < limit && p e then m.set e.1 e.2 else m) m).entries =
      m.entries ++ (es.filter p).take (limit - m.size) := by
  induction es generalizing m with
  | nil => simp
  | cons e es ih =>
    rw [List.map_cons, List.nodup_cons] at hnodup
    have hrest : ∀ e' ∈ es, e'.1 ∉ m.keys := fun e' he' => hnew e' (List.mem_cons_of_mem _ he')
    rw [List.foldl_cons]
    by_cases hp : p e = true
    · by_cases hsize : m.size < limit
      · have hkey := hnew e List.mem_cons_self
        have hfresh : ∀ e' ∈ es, e'.1 ∉ (m.set e.1 e.2).keys := by
          intro e' he' hmem
          rcases mem_keys_set.mp hmem with hsame | hold
          · exact hnodup.1 (hsame ▸ List.mem_map_of_mem he')
          · exact hrest e' he' hold
        have hlimit : limit - m.size = (limit - (m.set e.1 e.2).size) + 1 := by
          rw [size_set_of_not_mem e.2 hkey]
          omega
        rw [if_pos (by simp [hsize, hp]), ih hnodup.2 hfresh, entries_set_of_not_mem e.2 hkey,
          List.filter_cons_of_pos hp, hlimit, List.take_succ_cons, List.append_assoc]
        rfl
      · have hzero : limit - m.size = 0 := by omega
        rw [if_neg (by simp [hsize]), ih hnodup.2 hrest, hzero, List.take_zero, List.take_zero]
    · rw [if_neg (by simp [hp]), ih hnodup.2 hrest, List.filter_cons_of_neg hp]

omit [DecidableEq κ] in
theorem ext_entries {m n : OrderedMap κ υ} (h : m.entries = n.entries) : m = n := by
  cases m
  cases n
  congr

/-- Entries whose keys differ are all held. -/
theorem entries_ofList {es : List (κ × υ)} (h : (es.map Prod.fst).Nodup) :
    (ofList es).entries = es := by
  have hfold : ∀ (es : List (κ × υ)) (m : OrderedMap κ υ), (es.map Prod.fst).Nodup →
      (∀ e ∈ es, e.1 ∉ m.keys) →
      (es.foldl (fun m e => m.set e.1 e.2) m).entries = m.entries ++ es := by
    intro es
    induction es with
    | nil => simp
    | cons e es ih =>
      intro m hnodup hnew
      rw [List.map_cons, List.nodup_cons] at hnodup
      have hkey := hnew e List.mem_cons_self
      have hfresh : ∀ e' ∈ es, e'.1 ∉ (m.set e.1 e.2).keys := by
        intro e' he' hmem
        rcases mem_keys_set.mp hmem with hsame | hold
        · exact hnodup.1 (hsame ▸ List.mem_map_of_mem he')
        · exact hnew e' (List.mem_cons_of_mem _ he') hold
      rw [List.foldl_cons, ih _ hnodup.2 hfresh, entries_set_of_not_mem e.2 hkey,
        List.append_assoc]
      rfl
  exact hfold es empty h fun _ _ => List.not_mem_nil

theorem get?_ofList {es : List (κ × υ)} (h : (es.map Prod.fst).Nodup) (k : κ) :
    (ofList es).get? k = lookup k es := congrArg (lookup k) (entries_ofList h)

theorem mem_keys_ofList {es : List (κ × υ)} {e : κ × υ} (h : e ∈ es) :
    e.1 ∈ (ofList es).keys := by
  have hkeep : ∀ (es : List (κ × υ)) (m : OrderedMap κ υ), e.1 ∈ m.keys →
      e.1 ∈ (es.foldl (fun m e => m.set e.1 e.2) m).keys := by
    intro es
    induction es with
    | nil => exact fun m hm => hm
    | cons e' es ih => exact fun m hm => ih _ (mem_keys_set.mpr (.inr hm))
  obtain ⟨before, after, rfl⟩ := List.append_of_mem h
  rw [ofList, List.foldl_append, List.foldl_cons]
  exact hkeep after _ (mem_keys_set.mpr (.inl rfl))

theorem mem_of_mem_set {m : OrderedMap κ υ} {k : κ} {x : υ} {e : κ × υ}
    (h : e ∈ (m.set k x).entries) : e = (k, x) ∨ e ∈ m.entries := by
  unfold set at h
  split at h
  · obtain ⟨f, hf, rfl⟩ := List.mem_map.mp h
    split
    · exact .inl rfl
    · exact .inr hf
  · exact (List.mem_append.mp h).symm.imp_left List.mem_singleton.mp

/-- What a list leaves behind is among its entries. -/
theorem mem_of_mem_ofList {es : List (κ × υ)} {e : κ × υ} (h : e ∈ (ofList es).entries) :
    e ∈ es := by
  have hfold : ∀ (es : List (κ × υ)) (m : OrderedMap κ υ),
      e ∈ (es.foldl (fun m e => m.set e.1 e.2) m).entries → e ∈ m.entries ∨ e ∈ es := by
    intro es
    induction es with
    | nil => exact fun m hm => .inl hm
    | cons f es ih =>
      intro m hm
      rcases ih _ hm with hset | hrest
      · rcases mem_of_mem_set hset with rfl | hold
        · exact .inr List.mem_cons_self
        · exact .inl hold
      · exact .inr (List.mem_cons_of_mem _ hrest)
  exact (hfold es empty h).resolve_left List.not_mem_nil

section MapValues

variable {ω : Type*} (f : υ → ω) (m : OrderedMap κ υ)

omit [DecidableEq κ] in
theorem keys_map_entries : (m.entries.map fun e => (e.1, f e.2)).map Prod.fst = m.keys := by
  rw [List.map_map]
  rfl

/-- The same keys with other values. -/
def mapValues : OrderedMap κ ω where
  entries := m.entries.map fun e => (e.1, f e.2)
  nodup := by
    rw [keys_map_entries]
    exact m.nodup

omit [DecidableEq κ] in
@[simp] theorem keys_mapValues : (m.mapValues f).keys = m.keys := keys_map_entries f m

theorem lookup_map_values (k : κ) (es : List (κ × υ)) :
    lookup k (es.map fun e => (e.1, f e.2)) = (lookup k es).map f := by
  induction es with
  | nil => rfl
  | cons e es ih =>
    obtain ⟨j, x⟩ := e
    by_cases h : j = k
    · simp [lookup, h]
    · simpa [lookup, h] using ih

@[simp] theorem get?_mapValues (k : κ) : (m.mapValues f).get? k = (m.get? k).map f :=
  lookup_map_values f k m.entries

@[simp] theorem has_mapValues (k : κ) : (m.mapValues f).has k = m.has k := by
  rw [has, get?_mapValues, Option.isSome_map]
  rfl

/-- The same keys, and related values under each. -/
def Agrees (R : υ → ω → Prop) (m : OrderedMap κ υ) (n : OrderedMap κ ω) : Prop :=
  m.keys = n.keys ∧ ∀ k x, m.get? k = some x → ∃ y, n.get? k = some y ∧ R x y

theorem agrees_mapValues {R : υ → ω → Prop} :
    m.Agrees R (m.mapValues f) ↔ ∀ k x, m.get? k = some x → R x (f x) := by
  rw [Agrees, and_iff_right (keys_mapValues f m).symm]
  refine forall₃_congr fun k x hx => ?_
  rw [get?_mapValues, hx]
  constructor
  · rintro ⟨y, hy, hR⟩
    rwa [← Option.some.inj hy] at hR
  · exact fun hR => ⟨f x, rfl, hR⟩

theorem ofList_map_entries : ofList (m.entries.map fun e => (e.1, f e.2)) = m.mapValues f := by
  refine ext_entries (entries_ofList ?_)
  rw [keys_map_entries]
  exact m.nodup

end MapValues

end OrderedMap

end FluxFast.Theory
