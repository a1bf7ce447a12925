import FluxFast.Theory.JsonText
import FluxFast.Theory.OrderedMap
import Mathlib.Data.List.Sort
import Mathlib.Data.Multiset.ZeroCons

/-!
# CanonicalJson — JSON values with their names in order

The members of an object are sorted by their names.  The text of a canonical value tells values apart,
so a list sorted by such texts does not depend on the order it came in.
-/

namespace FluxFast.Theory

namespace Json

variable {σ ν : Type}

/-- Lists with the same rest are permutations of each other only if they are the same. -/
theorem eq_of_cons_perm {α : Type*} {a b : α} {as : List α} (h : (a :: as).Perm (b :: as)) : a = b :=
  (Multiset.cons_inj_left (as : Multiset α)).mp (Multiset.coe_eq_coe.mpr h)

/-! ## Sorted names -/

section Canonical

variable [LinearOrder σ]

def sortMembers (members : List (σ × Json σ ν)) : List (σ × Json σ ν) :=
  members.insertionSort fun m n => m.1 ≤ n.1

mutual

def canonical : Json σ ν → Json σ ν
  | .array items => .array (canonicalItems items)
  | .object members => .object (sortMembers (canonicalMembers members))
  | .null => .null
  | .bool b => .bool b
  | .number n => .number n
  | .string s => .string s

def canonicalItems : List (Json σ ν) → List (Json σ ν)
  | [] => []
  | item :: items => item.canonical :: canonicalItems items

def canonicalMembers : List (σ × Json σ ν) → List (σ × Json σ ν)
  | [] => []
  | (key, value) :: members => (key, value.canonical) :: canonicalMembers members

end

theorem canonicalItems_eq (items : List (Json σ ν)) :
    canonicalItems items = items.map canonical := by
  induction items with
  | nil => rfl
  | cons item items ih => rw [canonicalItems, ih, List.map_cons]

theorem canonicalMembers_eq (members : List (σ × Json σ ν)) :
    canonicalMembers members = members.map fun m => (m.1, m.2.canonical) := by
  induction members with
  | nil => rfl
  | cons member members ih => rw [canonicalMembers, ih, List.map_cons]

theorem canonical_array (items : List (Json σ ν)) :
    (Json.array items).canonical = .array (items.map canonical) := by
  rw [canonical, canonicalItems_eq]

theorem canonical_object (members : List (σ × Json σ ν)) :
    (Json.object members).canonical =
      .object (sortMembers (members.map fun m => (m.1, m.2.canonical))) := by
  rw [canonical, canonicalMembers_eq]

theorem canonical_array_inj {items others : List (Json σ ν)} :
    (Json.array items).canonical = (Json.array others).canonical ↔
      items.map canonical = others.map canonical := by
  rw [canonical_array, canonical_array]
  exact Json.array.injEq .. ▸ Iff.rfl

/-- Objects without repeated names are told apart by what stands under their names. -/
theorem canonical_object_iff {members others : List (σ × Json σ ν)}
    (hmembers : (members.map Prod.fst).Nodup) (hothers : (others.map Prod.fst).Nodup) :
    (Json.object members).canonical = (Json.object others).canonical ↔
      ∀ name, (OrderedMap.lookup name members).map canonical =
        (OrderedMap.lookup name others).map canonical := by
  have hkeys : ∀ ms : List (σ × Json σ ν),
      (ms.map fun m => (m.1, m.2.canonical)).map Prod.fst = ms.map Prod.fst := fun ms => by
    rw [List.map_map]
    rfl
  have hmem : ∀ {ms : List (σ × Json σ ν)}, (ms.map Prod.fst).Nodup → ∀ e,
      e ∈ ms.map (fun m => (m.1, m.2.canonical)) ↔
        (OrderedMap.lookup e.1 ms).map canonical = some e.2 := by
    intro ms hms e
    rw [← OrderedMap.lookup_map_values]
    exact ⟨OrderedMap.lookup_of_mem (by rwa [hkeys]), OrderedMap.lookup_mem⟩
  rw [canonical_object, canonical_object, Json.object.injEq]
  constructor
  · intro h name
    have hperm := (List.perm_insertionSort _ _).symm.trans
      ((List.Perm.of_eq h).trans (List.perm_insertionSort _ _))
    refine Option.ext fun value => ?_
    exact (hmem hmembers (name, value)).symm.trans
      (hperm.mem_iff.trans (hmem hothers (name, value)))
  · intro h
    have hnodup : ∀ {ms : List (σ × Json σ ν)}, (ms.map Prod.fst).Nodup →
        (ms.map fun m => (m.1, m.2.canonical)).Nodup := fun hms =>
      List.Nodup.of_map Prod.fst (by rwa [hkeys])
    have hperm : (members.map fun m => (m.1, m.2.canonical)).Perm
        (others.map fun m => (m.1, m.2.canonical)) :=
      (List.perm_ext_iff_of_nodup (hnodup hmembers) (hnodup hothers)).mpr fun e => by
        rw [hmem hmembers, hmem hothers, h]
    have htotal : Std.Total fun m n : σ × Json σ ν => m.1 ≤ n.1 := ⟨fun m n => le_total _ _⟩
    have htrans : IsTrans _ fun m n : σ × Json σ ν => m.1 ≤ n.1 := ⟨fun _ _ _ => le_trans⟩
    unfold sortMembers
    refine List.Perm.eq_of_pairwise (fun m n hm hn hmn hnm => ?_) (List.pairwise_insertionSort _ _)
      (List.pairwise_insertionSort _ _)
      (((List.perm_insertionSort _ _).trans hperm).trans (List.perm_insertionSort _ _).symm)
    -- two members of one name are one member
    have hm' := (hmem hmembers m).mp ((List.perm_insertionSort _ _).mem_iff.mp hm)
    have hn' := (hmem hothers n).mp ((List.perm_insertionSort _ _).mem_iff.mp hn)
    have hname := le_antisymm hmn hnm
    rw [h, hname] at hm'
    exact Prod.ext hname (Option.some.inj (hm'.symm.trans hn'))

end Canonical

/-! ## Texts -/

mutual

theorem map_id (j : Json σ ν) : j.map id id = j := by
  cases j with
  | null | bool | number | string => rfl
  | array items => exact congrArg Json.array (mapItems_id items)
  | object members => exact congrArg Json.object (mapMembers_id members)

theorem mapItems_id (items : List (Json σ ν)) : mapItems id id items = items := by
  cases items with
  | nil => rfl
  | cons item items => rw [mapItems, map_id item, mapItems_id items]

theorem mapMembers_id (members : List (σ × Json σ ν)) : mapMembers id id members = members := by
  cases members with
  | nil => rfl
  | cons member members =>
    obtain ⟨key, value⟩ := member
    rw [mapMembers, map_id value, mapMembers_id members]
    rfl

end

/-- A text that can be read back tells values apart. -/
theorem write_injective {W : Writer σ ν} {L : Lexicon σ ν} (h : W.Legible L id id) :
    Function.Injective W.write := by
  intro i j hij
  have hread := read_write h i
  rw [hij, read_write h j, map_id, map_id] at hread
  exact (Option.some.inj hread).symm

section Sorting

variable [LinearOrder σ] {τ : Type*} [LinearOrder τ] (text : Json σ ν → τ)

/-- `sorted(items, key=text)`. -/
def sortByText (items : List (Json σ ν)) : List (Json σ ν) :=
  items.insertionSort fun i j => text i.canonical ≤ text j.canonical

theorem sortByText_perm (items : List (Json σ ν)) : (sortByText text items).Perm items :=
  List.perm_insertionSort _ items

/-- Only what the items are as canonical values matters, and how often they occur. -/
theorem sortByText_congr (htext : Function.Injective text) {items others : List (Json σ ν)}
    (h : (items.map canonical).Perm (others.map canonical)) :
    (sortByText text items).map canonical = (sortByText text others).map canonical := by
  have hsort : ∀ items : List (Json σ ν), (sortByText text items).map canonical =
      (items.map canonical).insertionSort fun i j => text i ≤ text j := fun items =>
    List.map_insertionSort _ _ _ _ fun _ _ _ _ => Iff.rfl
  have htotal : Std.Total fun i j : Json σ ν => text i ≤ text j := ⟨fun i j => le_total _ _⟩
  have htrans : IsTrans _ fun i j : Json σ ν => text i ≤ text j := ⟨fun _ _ _ => le_trans⟩
  rw [hsort, hsort]
  refine List.Perm.eq_of_pairwise (fun i j _ _ hij hji => htext (le_antisymm hij hji))
    (List.pairwise_insertionSort _ _) (List.pairwise_insertionSort _ _) ?_
  exact ((List.perm_insertionSort _ _).trans h).trans (List.perm_insertionSort _ _).symm

end Sorting

end Json

end FluxFast.Theory
