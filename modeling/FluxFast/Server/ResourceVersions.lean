import FluxFast.Theory.CanonicalJson
import FluxFast.Theory.OrderedMap
import Mathlib.Data.String.Basic
import Mathlib.Logic.Relation

/-!
# ResourceVersions — wire values and versions of resources

`_canonicalize_unordered_collections`, `canonical_json` and `compute_version`.  A set comes in the order
in which it is iterated, and two workers may iterate it in different orders.
-/

namespace FluxFast.Server

open FluxFast.Theory

namespace ResourceVersions

/-! ## Values -/

/-- A member of a model, a dataclass or a mapping: the name under which it is dumped, if it is, and the
name under which `_canonicalize_unordered_collections` looks for it, if it does. -/
structure Member where
  wire : Option String
  lookup : Option String

/-- A declared field, under its serialization alias. -/
def Member.field (wireName : String) : Member := ⟨some wireName, some wireName⟩

/-- A declared field that is left out of the dump. -/
def Member.excludedField (wireName : String) : Member := ⟨none, some wireName⟩

/-- An extra or a computed field. -/
def Member.extra (name : String) : Member := ⟨some name, none⟩

/-- A key of a mapping that is a string. -/
def Member.key (key : String) : Member := ⟨some key, some key⟩

/-- Any other key, as it is dumped and as `str` gives it. -/
def Member.otherKey (wire str : String) : Member := ⟨some wire, some str⟩

/-- A validated value.  `leaf` is anything that is dumped without regard to an order. -/
inductive Source (ν : Type)
  | leaf (wire : Json String ν)
  | rootModel (root : Source ν)
  | members (members : List (Member × Source ν))
  | set (items : List (Source ν))
  | sequence (items : List (Source ν))

/-! ## Serialization -/

section Serialization

variable {ν : Type}

/-- A dictionary from items, of which the last one with a key counts. -/
def dictOf : List (String × Json String ν) → List (String × Json String ν)
  | [] => []
  | (key, value) :: items =>
    match OrderedMap.lookup key (dictOf items) with
    | none => (key, value) :: dictOf items
    | some last => (key, last) :: OrderedMap.without key (dictOf items)

mutual

/-- `dump_python(value, mode="json")`. -/
def dump : Source ν → Json String ν
  | .leaf wire => wire
  | .rootModel root => dump root
  | .members members => .object (dictOf (dumpMembers members))
  | .set items => .array (dumpItems items)
  | .sequence items => .array (dumpItems items)

def dumpItems : List (Source ν) → List (Json String ν)
  | [] => []
  | item :: items => dump item :: dumpItems items

def dumpMembers : List (Member × Source ν) → List (String × Json String ν)
  | [] => []
  | (member, value) :: members =>
    match member.wire with
    | none => dumpMembers members
    | some name => (name, dump value) :: dumpMembers members

end

/-- Numbers of JSON and their texts. -/
structure NumberTexts (ν : Type) where
  render : ν → List Char
  isNumber_render : ∀ n, Json.isNumber (render n) = true
  injective : Function.Injective render

variable (numbers : NumberTexts ν)

/-- `json.dumps` with `ensure_ascii=False` and compact separators. -/
def writer : Json.Writer String ν where
  text s := s.toList.flatMap Json.escapeChar
  number := numbers.render

def dumps (j : Json String ν) : String := String.ofList ((writer numbers).write j)

/-- `canonical_json`. -/
def canonicalJson (j : Json String ν) : String := dumps numbers j.canonical

/-- `compute_version`. -/
def computeVersion {τ : Type} (digest : String → τ) (j : Json String ν) : τ :=
  digest (canonicalJson numbers j)

mutual

/-- `_canonicalize_unordered_collections`. -/
def canonicalize : Source ν → Json String ν → Json String ν
  | .rootModel root, wire => canonicalize root wire
  | .members members, .object result => .object (canonicalizeMembers members result)
  | .set items, .array wires =>
    let normalized := if items.length = wires.length then canonicalizeItems items wires else wires
    .array (Json.sortByText (dumps numbers) normalized)
  | .sequence items, .array wires =>
    if items.length = wires.length then .array (canonicalizeItems items wires) else .array wires
  | _, wire => wire

def canonicalizeItems : List (Source ν) → List (Json String ν) → List (Json String ν)
  | item :: items, wire :: wires => canonicalize item wire :: canonicalizeItems items wires
  | _, _ => []

def canonicalizeMembers :
    List (Member × Source ν) → List (String × Json String ν) → List (String × Json String ν)
  | [], result => result
  | (member, value) :: members, result =>
    let found := member.lookup.bind fun name =>
      (OrderedMap.lookup name result).map fun wire => (name, wire)
    match found with
    | none => canonicalizeMembers members result
    | some (name, wire) =>
      canonicalizeMembers members (OrderedMap.overwrite name (canonicalize value wire) result)

end

/-- The wire value of the engine, with or without a contract. -/
def wireValue (contract : Bool) (value : Source ν) : Json String ν :=
  if contract then canonicalize numbers value (dump value) else dump value

end Serialization

/-! ## Orders of iteration -/

section Orders

variable {ν : Type}

/-- One set is iterated in another order. -/
inductive Reordered : Source ν → Source ν → Prop
  | here {items others : List (Source ν)} (h : items.Perm others) : Reordered (.set items) (.set others)
  | root {root other : Source ν} (h : Reordered root other) :
      Reordered (.rootModel root) (.rootModel other)
  | member {front back : List (Member × Source ν)} {member : Member} {value other : Source ν}
      (h : Reordered value other) :
      Reordered (.members (front ++ (member, value) :: back))
        (.members (front ++ (member, other) :: back))
  | setItem {front back : List (Source ν)} {item other : Source ν} (h : Reordered item other) :
      Reordered (.set (front ++ item :: back)) (.set (front ++ other :: back))
  | sequenceItem {front back : List (Source ν)} {item other : Source ν} (h : Reordered item other) :
      Reordered (.sequence (front ++ item :: back)) (.sequence (front ++ other :: back))

/-- Any number of sets are. -/
def SameValue : Source ν → Source ν → Prop := Relation.ReflTransGen Reordered

/-- The value of the member is in the dump: no later member is dumped under the name. -/
def Member.lands (member : Member) (back : List Member) : Bool :=
  member.wire.isSome && !back.any fun other => other.wire = member.wire

/-- Another member is looked for where this one is dumped, or this one where another one is. -/
def Member.shares (member : Member) (front back : List Member) : Bool :=
  (member.lands back && (front ++ back).any fun other => other.lookup = member.wire) ||
    (member.lookup.isSome && !(member.lands back && member.lookup = member.wire) &&
      (front ++ back).any fun other => other.wire = member.lookup)

mutual

/-- The dump does not depend on the order of sets. -/
def Steady : Source ν → Prop
  | .leaf _ => True
  | .rootModel root => Steady root
  | .members members => MembersSteady members
  | .set items => ItemsSteady items ∧
      ∀ j ∈ dumpItems items, ∀ k ∈ dumpItems items, j.canonical = k.canonical
  | .sequence items => ItemsSteady items

def ItemsSteady : List (Source ν) → Prop
  | [] => True
  | item :: items => Steady item ∧ ItemsSteady items

def MembersSteady : List (Member × Source ν) → Prop
  | [] => True
  | (member, value) :: members =>
    (member.lands (members.map Prod.fst) = true → Steady value) ∧ MembersSteady members

end

mutual

/-- There is no set of two items. -/
def Rigid : Source ν → Prop
  | .leaf _ => True
  | .rootModel root => Rigid root
  | .members members => MembersRigid members
  | .set items => items.length ≤ 1 ∧ ItemsRigid items
  | .sequence items => ItemsRigid items

def ItemsRigid : List (Source ν) → Prop
  | [] => True
  | item :: items => Rigid item ∧ ItemsRigid items

def MembersRigid : List (Member × Source ν) → Prop
  | [] => True
  | (_, value) :: members => Rigid value ∧ MembersRigid members

end

mutual

/-- The sets that are not steady are reached under the names they are dumped with, and there are none
where members share a name. -/
def Reached : Source ν → Prop
  | .leaf _ => True
  | .rootModel root => Reached root
  | .members members => MembersReached [] members
  | .set items => ItemsReached items
  | .sequence items => ItemsReached items

def ItemsReached : List (Source ν) → Prop
  | [] => True
  | item :: items => Reached item ∧ ItemsReached items

def MembersReached (front : List Member) : List (Member × Source ν) → Prop
  | [] => True
  | (member, value) :: members =>
    (if member.shares front (members.map Prod.fst) then Rigid value
      else member.lands (members.map Prod.fst) = true →
        if member.lookup = member.wire then Reached value else Steady value) ∧
      MembersReached (front ++ [member]) members

end

mutual

/-- No set of two items is in the value of a member that shares a name. -/
def Unshared : Source ν → Prop
  | .leaf _ => True
  | .rootModel root => Unshared root
  | .members members => MembersUnshared [] members
  | .set items => ItemsUnshared items
  | .sequence items => ItemsUnshared items

def ItemsUnshared : List (Source ν) → Prop
  | [] => True
  | item :: items => Unshared item ∧ ItemsUnshared items

def MembersUnshared (front : List Member) : List (Member × Source ν) → Prop
  | [] => True
  | (member, value) :: members =>
    (if member.shares front (members.map Prod.fst) then Rigid value
      else member.lands (members.map Prod.fst) = true → member.lookup = member.wire →
        Unshared value) ∧ MembersUnshared (front ++ [member]) members

end

end Orders

/-! ## Items and members -/

section Lists

variable {ν : Type}

mutual

/-- Induction over values, with all items and members at hand. -/
theorem Source.induct {P : Source ν → Prop} (leaf : ∀ wire, P (.leaf wire))
    (rootModel : ∀ root, P root → P (.rootModel root))
    (members : ∀ ms, (∀ m ∈ ms, P m.2) → P (.members ms))
    (set : ∀ items, (∀ i ∈ items, P i) → P (.set items))
    (sequence : ∀ items, (∀ i ∈ items, P i) → P (.sequence items)) (value : Source ν) : P value := by
  cases value with
  | leaf wire => exact leaf wire
  | rootModel root => exact rootModel root (Source.induct leaf rootModel members set sequence root)
  | members ms => exact members ms (Source.inductMembers leaf rootModel members set sequence ms)
  | set items => exact set items (Source.inductItems leaf rootModel members set sequence items)
  | sequence items =>
    exact sequence items (Source.inductItems leaf rootModel members set sequence items)

theorem Source.inductItems {P : Source ν → Prop} (leaf : ∀ wire, P (.leaf wire))
    (rootModel : ∀ root, P root → P (.rootModel root))
    (members : ∀ ms, (∀ m ∈ ms, P m.2) → P (.members ms))
    (set : ∀ items, (∀ i ∈ items, P i) → P (.set items))
    (sequence : ∀ items, (∀ i ∈ items, P i) → P (.sequence items)) (items : List (Source ν)) :
    ∀ i ∈ items, P i := by
  cases items with
  | nil => exact fun i hi => absurd hi List.not_mem_nil
  | cons item items =>
    exact List.forall_mem_cons.mpr ⟨Source.induct leaf rootModel members set sequence item,
      Source.inductItems leaf rootModel members set sequence items⟩

theorem Source.inductMembers {P : Source ν → Prop} (leaf : ∀ wire, P (.leaf wire))
    (rootModel : ∀ root, P root → P (.rootModel root))
    (members : ∀ ms, (∀ m ∈ ms, P m.2) → P (.members ms))
    (set : ∀ items, (∀ i ∈ items, P i) → P (.set items))
    (sequence : ∀ items, (∀ i ∈ items, P i) → P (.sequence items))
    (ms : List (Member × Source ν)) : ∀ m ∈ ms, P m.2 := by
  cases ms with
  | nil => exact fun m hm => absurd hm List.not_mem_nil
  | cons first ms =>
    obtain ⟨member, value⟩ := first
    exact List.forall_mem_cons.mpr ⟨Source.induct leaf rootModel members set sequence value,
      Source.inductMembers leaf rootModel members set sequence ms⟩

end

theorem dumpItems_eq (items : List (Source ν)) : dumpItems items = items.map dump := by
  induction items with
  | nil => rfl
  | cons item items ih => rw [dumpItems, ih, List.map_cons]

theorem itemsSteady_iff {items : List (Source ν)} : ItemsSteady items ↔ ∀ i ∈ items, Steady i := by
  induction items with
  | nil => simp [ItemsSteady]
  | cons item items ih => rw [ItemsSteady, ih, List.forall_mem_cons]

theorem itemsReached_iff {items : List (Source ν)} : ItemsReached items ↔ ∀ i ∈ items, Reached i := by
  induction items with
  | nil => simp [ItemsReached]
  | cons item items ih => rw [ItemsReached, ih, List.forall_mem_cons]

theorem itemsUnshared_iff {items : List (Source ν)} :
    ItemsUnshared items ↔ ∀ i ∈ items, Unshared i := by
  induction items with
  | nil => simp [ItemsUnshared]
  | cons item items ih => rw [ItemsUnshared, ih, List.forall_mem_cons]

theorem itemsRigid_iff {items : List (Source ν)} : ItemsRigid items ↔ ∀ i ∈ items, Rigid i := by
  induction items with
  | nil => simp [ItemsRigid]
  | cons item items ih => rw [ItemsRigid, ih, List.forall_mem_cons]

theorem membersRigid_iff {ms : List (Member × Source ν)} :
    MembersRigid ms ↔ ∀ m ∈ ms, Rigid m.2 := by
  induction ms with
  | nil => simp [MembersRigid]
  | cons m ms ih =>
    obtain ⟨member, value⟩ := m
    rw [MembersRigid, ih, List.forall_mem_cons]

theorem steady_set {items : List (Source ν)} : Steady (.set items) ↔
    (∀ i ∈ items, Steady i) ∧
      ∀ i ∈ items, ∀ k ∈ items, (dump i).canonical = (dump k).canonical := by
  rw [Steady, itemsSteady_iff, dumpItems_eq]
  simp only [List.forall_mem_map]

theorem steady_sequence {items : List (Source ν)} :
    Steady (.sequence items) ↔ ∀ i ∈ items, Steady i := by rw [Steady, itemsSteady_iff]

theorem reached_set {items : List (Source ν)} : Reached (.set items) ↔ ∀ i ∈ items, Reached i := by
  rw [Reached, itemsReached_iff]

theorem reached_sequence {items : List (Source ν)} :
    Reached (.sequence items) ↔ ∀ i ∈ items, Reached i := by rw [Reached, itemsReached_iff]

/-! ### One member among others -/

section Among

variable (front back : List (Member × Source ν)) (member : Member) (value : Source ν)

/-- A leaf in the place of the value says what there is to say about the other members. -/
theorem membersSteady_split : MembersSteady (front ++ (member, value) :: back) ↔
    MembersSteady (front ++ (member, .leaf .null) :: back) ∧
      (member.lands (back.map Prod.fst) = true → Steady value) := by
  induction front with
  | nil =>
    show _ ∧ _ ↔ ((_ → True) ∧ _) ∧ _
    tauto
  | cons m front ih =>
    obtain ⟨first, other⟩ := m
    rw [List.cons_append, List.cons_append, MembersSteady, MembersSteady, ih, List.map_append,
      List.map_append, and_assoc]
    rfl

theorem membersReached_split (before : List Member) :
    MembersReached before (front ++ (member, value) :: back) ↔
      MembersReached before (front ++ (member, .leaf .null) :: back) ∧
        if member.shares (before ++ front.map Prod.fst) (back.map Prod.fst) then Rigid value
        else member.lands (back.map Prod.fst) = true →
          if member.lookup = member.wire then Reached value else Steady value := by
  induction front generalizing before with
  | nil =>
    rw [List.nil_append, List.nil_append, MembersReached, MembersReached, List.map_nil,
      List.append_nil]
    simp only [Rigid, Reached, Steady, ite_self, implies_true, true_and]
    tauto
  | cons m front ih =>
    obtain ⟨first, other⟩ := m
    rw [List.cons_append, List.cons_append, MembersReached, MembersReached, ih, List.map_append,
      List.map_append, and_assoc, List.append_assoc]
    rfl

end Among

/-- Where members fail to be steady, one of them does. -/
theorem exists_not_steady {ms : List (Member × Source ν)} (h : ¬MembersSteady ms) :
    ∃ front member value back, ms = front ++ (member, value) :: back ∧
      member.lands (back.map Prod.fst) = true ∧ ¬Steady value := by
  induction ms with
  | nil => exact absurd trivial h
  | cons m ms ih =>
    obtain ⟨member, value⟩ := m
    by_cases hrest : MembersSteady ms
    · have hvalue : ¬(member.lands (ms.map Prod.fst) = true → Steady value) := fun hvalue =>
        h ⟨hvalue, hrest⟩
      push Not at hvalue
      exact ⟨[], member, value, ms, rfl, hvalue⟩
    · obtain ⟨front, found, other, back, rfl, hfound⟩ := ih hrest
      exact ⟨(member, value) :: front, found, other, back, rfl, hfound⟩

/-- Where members fail to be reached although no set shares a name, one of them does. -/
theorem exists_not_reached {before : List Member} {ms : List (Member × Source ν)}
    (h : ¬MembersReached before ms) (hunshared : MembersUnshared before ms) :
    ∃ front member value back, ms = front ++ (member, value) :: back ∧
      member.shares (before ++ front.map Prod.fst) (back.map Prod.fst) = false ∧
      member.lands (back.map Prod.fst) = true ∧
      if member.lookup = member.wire then Unshared value ∧ ¬Reached value else ¬Steady value := by
  -- Induction on the members; the first failing one is split off together with what is before it.
  induction ms generalizing before with
  | nil => exact absurd trivial h
  | cons m ms ih =>
    obtain ⟨member, value⟩ := m
    rw [MembersReached] at h
    rw [MembersUnshared] at hunshared
    -- the members after this one are reached, so this one is not
    by_cases hrest : MembersReached (before ++ [member]) ms
    · have hvalue := fun hvalue => h ⟨hvalue, hrest⟩
      cases hshares : member.shares before (ms.map Prod.fst) with
      | true =>
        rw [hshares, if_pos rfl] at hunshared hvalue
        exact absurd hunshared.1 hvalue
      | false =>
        rw [hshares, if_neg (by decide)] at hunshared hvalue
        obtain ⟨hlands, hvalue⟩ := Classical.not_imp.mp hvalue
        refine ⟨[], member, value, ms, rfl, by rwa [List.map_nil, List.append_nil], hlands, ?_⟩
        by_cases hsame : member.lookup = member.wire
        · rw [if_pos hsame] at hvalue ⊢
          exact ⟨hunshared.1 hlands hsame, hvalue⟩
        · rwa [if_neg hsame] at hvalue ⊢
    -- a member after this one fails
    · obtain ⟨front, found, other, back, rfl, hshares, hfound⟩ := ih hrest hunshared.2
      refine ⟨(member, value) :: front, found, other, back, rfl, ?_, hfound⟩
      rw [← hshares, List.append_assoc]
      rfl

/-- The members that are dumped. -/
theorem dumpMembers_eq (ms : List (Member × Source ν)) :
    dumpMembers ms = ms.filterMap fun m => m.1.wire.map fun name => (name, dump m.2) := by
  induction ms with
  | nil => rfl
  | cons m ms ih =>
    obtain ⟨member, value⟩ := m
    rw [List.filterMap_cons, dumpMembers, ih]
    cases member.wire <;> rfl

/-! ## Dumps of members -/

theorem nodup_dictOf (items : List (String × Json String ν)) :
    ((dictOf items).map Prod.fst).Nodup := by
  induction items with
  | nil => exact List.nodup_nil
  | cons item items ih =>
    obtain ⟨key, value⟩ := item
    rw [dictOf]
    split
    · next hnone => exact List.nodup_cons.mpr ⟨OrderedMap.lookup_eq_none_iff.mp hnone, ih⟩
    · refine List.nodup_cons.mpr ⟨?_, ih.sublist (List.filter_sublist.map _)⟩
      exact OrderedMap.lookup_eq_none_iff.mp (OrderedMap.lookup_without_self key (dictOf items))

/-- The last item with a key counts. -/
theorem lookup_dictOf (name : String) (items : List (String × Json String ν)) :
    OrderedMap.lookup name (dictOf items) = OrderedMap.lookup name items.reverse := by
  induction items with
  | nil => rfl
  | cons item items ih =>
    obtain ⟨key, value⟩ := item
    rw [List.reverse_cons, OrderedMap.lookup_append_singleton, ← ih, dictOf]
    by_cases hkey : key = name
    · subst hkey
      rw [if_pos rfl]
      cases hlast : OrderedMap.lookup key (dictOf items) with
      | none => exact if_pos rfl
      | some last => exact if_pos rfl
    · rw [if_neg hkey, Option.or_none]
      cases OrderedMap.lookup key (dictOf items) with
      | none => exact if_neg hkey
      | some last => exact (if_neg hkey).trans (OrderedMap.lookup_without_ne _ (Ne.symm hkey))

/-- The dumps of two members that differ in their values. -/
theorem dumpMembers_split (front back : List (Member × Source ν)) (member : Member)
    (value : Source ν) : dumpMembers (front ++ (member, value) :: back) =
      dumpMembers front ++ (member.wire.map fun name => (name, dump value)).toList ++
        dumpMembers back := by
  rw [dumpMembers_eq, dumpMembers_eq, dumpMembers_eq, List.filterMap_append, List.filterMap_cons]
  cases member.wire <;> simp

theorem mem_dumpMembers_keys {ms : List (Member × Source ν)} {name : String} :
    name ∈ (dumpMembers ms).map Prod.fst ↔ ∃ m ∈ ms, m.1.wire = some name := by
  rw [dumpMembers_eq]
  simp only [List.mem_map, List.mem_filterMap, Option.map_eq_some_iff]
  constructor
  · rintro ⟨_, ⟨m, hm, found, hfound, rfl⟩, rfl⟩
    exact ⟨m, hm, hfound⟩
  · rintro ⟨m, hm, hname⟩
    exact ⟨_, ⟨m, hm, name, hname, rfl⟩, rfl⟩

/-- What is dumped under a name, with one member in view. -/
theorem lookup_dump (front back : List (Member × Source ν)) (member : Member) (value : Source ν)
    (name : String) :
    OrderedMap.lookup name (dictOf (dumpMembers (front ++ (member, value) :: back))) =
      if member.wire = some name ∧ member.lands (back.map Prod.fst) = true then some (dump value)
      else OrderedMap.lookup name
        (dictOf (dumpMembers (front ++ (member, .leaf .null) :: back))) := by
  rw [lookup_dictOf, lookup_dictOf, dumpMembers_split, dumpMembers_split]
  -- The last member of a name wins, so the list is read from behind.
  simp only [List.reverse_append, OrderedMap.lookup_append]
  cases hwire : member.wire with
  | none => rw [if_neg (by simp)]; rfl
  | some key =>
    simp only [Option.map_some, Option.toList_some, List.reverse_singleton, OrderedMap.lookup,
      Option.some.injEq]
    by_cases hkey : key = name
    · subst hkey
      simp only [if_true, true_and]
      have hback : member.lands (back.map Prod.fst) = true ↔
          OrderedMap.lookup key (dumpMembers back).reverse = none := by
        rw [OrderedMap.lookup_eq_none_iff, List.map_reverse, List.mem_reverse, mem_dumpMembers_keys]
        simp [Member.lands, hwire]
      -- nothing after it has its name: the member lands
      by_cases hlands : member.lands (back.map Prod.fst) = true
      · rw [if_pos hlands, hback.mp hlands]
        rfl
      -- a later member of its name stands in its place
      · rw [if_neg hlands]
        obtain ⟨last, hlast⟩ := Option.ne_none_iff_exists'.mp fun hnone => hlands (hback.mpr hnone)
        rw [hlast]
        rfl
    · rw [if_neg hkey, if_neg hkey, if_neg fun h : key = name ∧ _ => hkey h.1]

theorem canonical_dump_member {front back : List (Member × Source ν)} {member : Member}
    {value other : Source ν} :
    (dump (.members (front ++ (member, value) :: back))).canonical =
        (dump (.members (front ++ (member, other) :: back))).canonical ↔
      (member.lands (back.map Prod.fst) = true → (dump value).canonical = (dump other).canonical) := by
  rw [dump, dump, Json.canonical_object_iff (nodup_dictOf _) (nodup_dictOf _)]
  constructor
  · intro h hlands
    obtain ⟨name, hname⟩ := Option.isSome_iff_exists.mp (Bool.and_eq_true_iff.mp hlands).1
    have hlookup := h name
    rw [lookup_dump, lookup_dump _ _ _ other, if_pos ⟨hname, hlands⟩, if_pos ⟨hname, hlands⟩]
      at hlookup
    exact Option.some.inj hlookup
  · intro h name
    rw [lookup_dump, lookup_dump _ _ _ other]
    split
    · next hlands => exact congrArg some (h hlands.2)
    · rfl

/-! ## Steady values -/

/-- A permutation of equal things changes nothing. -/
theorem eq_of_perm_of_same {α : Type*} {as bs : List α} (hperm : as.Perm bs)
    (hsame : ∀ a ∈ as, ∀ b ∈ as, a = b) : as = bs :=
  @List.Perm.eq_of_pairwise _ (fun _ _ => True) _ _
    (fun a b ha hb _ _ => hsame a ha b (hperm.mem_iff.mpr hb))
    (List.pairwise_of_forall fun _ _ => trivial) (List.pairwise_of_forall fun _ _ => trivial) hperm

/-- Things that are not all the same can be put in an order that shows it. -/
theorem exists_perm_ne {α β : Type*} {f : α → β} {as : List α}
    (h : ¬∀ a ∈ as, ∀ b ∈ as, f a = f b) : ∃ bs, as.Perm bs ∧ bs.map f ≠ as.map f := by
  by_contra hnone
  push Not at hnone
  have hhead : ∀ a ∈ as, (as.map f).head? = some (f a) := by
    intro a ha
    obtain ⟨front, back, rfl⟩ := List.append_of_mem ha
    rw [← hnone (a :: (front ++ back)) List.perm_middle]
    rfl
  exact h fun a ha b hb => Option.some.inj ((hhead a ha).symm.trans (hhead b hb))

/-- A rigid value has no other order. -/
theorem Reordered.rigid {value other : Source ν} (h : Reordered value other) (hrigid : Rigid value) :
    other = value := by
  induction h with
  | here hperm =>
    obtain ⟨hlength, -⟩ := hrigid
    refine congrArg Source.set (eq_of_perm_of_same hperm fun a ha b hb => ?_).symm
    obtain ⟨front, rfl⟩ := List.mem_iff_get.mp ha
    obtain ⟨back, rfl⟩ := List.mem_iff_get.mp hb
    exact congrArg _ (Fin.ext (by omega))
  | root h ih => rw [ih hrigid]
  | member h ih =>
    rw [Rigid, membersRigid_iff] at hrigid
    rw [ih (hrigid _ (List.mem_append_right _ List.mem_cons_self))]
  | setItem h ih =>
    rw [Rigid, itemsRigid_iff] at hrigid
    rw [ih (hrigid.2 _ (List.mem_append_right _ List.mem_cons_self))]
  | sequenceItem h ih =>
    rw [Rigid, itemsRigid_iff] at hrigid
    rw [ih (hrigid _ (List.mem_append_right _ List.mem_cons_self))]

theorem canonical_dump_array (items : List (Source ν)) :
    (Json.array (dumpItems items)).canonical = .array (items.map fun i => (dump i).canonical) := by
  rw [Json.canonical_array, dumpItems_eq, List.map_map]
  rfl

/-- A steady value has one dump. -/
theorem Reordered.steady {value other : Source ν} (h : Reordered value other)
    (hsteady : Steady value) : Steady other ∧ (dump other).canonical = (dump value).canonical := by
  -- Induction on where the reordering takes place.
  induction h with
  -- all the items of a set look alike, so any order of them dumps the same
  | @here items others hperm =>
    rw [steady_set] at hsteady ⊢
    obtain ⟨hitems, hsame⟩ := hsteady
    refine ⟨⟨fun i hi => hitems i (hperm.mem_iff.mpr hi), fun i hi k hk =>
      hsame i (hperm.mem_iff.mpr hi) k (hperm.mem_iff.mpr hk)⟩, ?_⟩
    rw [dump, dump, canonical_dump_array, canonical_dump_array]
    refine congrArg Json.array (eq_of_perm_of_same (hperm.map _) ?_).symm
    simpa only [List.forall_mem_map] using hsame
  | root h ih => exact ih hsteady
  -- a member that does not land is not seen in the dump
  | @member front back member value other h ih =>
    rw [Steady, membersSteady_split] at hsteady ⊢
    exact ⟨⟨hsteady.1, fun hlands => (ih (hsteady.2 hlands)).1⟩,
      canonical_dump_member.mpr fun hlands => (ih (hsteady.2 hlands)).2⟩
  | @setItem front back item other h ih =>
    rw [steady_set] at hsteady ⊢
    simp only [List.forall_mem_append, List.forall_mem_cons] at hsteady ⊢
    obtain ⟨hnew, hdump⟩ := ih hsteady.1.2.1
    rw [dump, dump, canonical_dump_array, canonical_dump_array]
    simp only [List.map_append, List.map_cons, hdump]
    exact ⟨⟨⟨hsteady.1.1, hnew, hsteady.1.2.2⟩, hsteady.2⟩, trivial⟩
  | @sequenceItem front back item other h ih =>
    rw [steady_sequence] at hsteady ⊢
    simp only [List.forall_mem_append, List.forall_mem_cons] at hsteady ⊢
    obtain ⟨hnew, hdump⟩ := ih hsteady.2.1
    rw [dump, dump, canonical_dump_array, canonical_dump_array]
    simp only [List.map_append, List.map_cons, hdump]
    exact ⟨⟨hsteady.1, hnew, hsteady.2.2⟩, trivial⟩

/-- Lists that differ in one place at most agree there. -/
theorem item_eq_of_map_eq {α β : Type*} {f : α → β} {front back : List α} {a b : α}
    (h : (front ++ a :: back).map f = (front ++ b :: back).map f) : f a = f b := by
  rw [List.map_append, List.map_append, List.map_cons, List.map_cons] at h
  exact (List.cons.inj (List.append_cancel_left h)).1

/-- A value that is not steady has another dump in some order. -/
theorem exists_reordered_dump {value : Source ν} (h : ¬Steady value) :
    ∃ other, Reordered value other ∧ (dump other).canonical ≠ (dump value).canonical := by
  -- A source that is not steady has a set of two kinds of items somewhere.
  induction value using Source.induct with
  | leaf wire => exact absurd trivial h
  | rootModel root ih =>
    obtain ⟨other, hother, hne⟩ := ih h
    exact ⟨.rootModel other, .root hother, hne⟩
  -- the member lands, so the difference shows
  | members ms ih =>
    obtain ⟨front, member, value, back, rfl, hlands, hvalue⟩ := exists_not_steady h
    obtain ⟨other, hother, hne⟩ := ih (member, value)
      (List.mem_append_right _ List.mem_cons_self) hvalue
    exact ⟨_, .member hother, fun heq => hne (canonical_dump_member.mp heq hlands)⟩
  | set items ih =>
    -- the set itself has two kinds of items, or one of its items is not steady
    by_cases hitems : ∀ i ∈ items, Steady i
    · have hdiffer : ¬∀ i ∈ items, ∀ k ∈ items, (dump i).canonical = (dump k).canonical :=
        fun hsame => h (steady_set.mpr ⟨hitems, hsame⟩)
      obtain ⟨others, hperm, hne⟩ := exists_perm_ne hdiffer
      refine ⟨.set others, .here hperm, fun heq => hne ?_⟩
      rw [dump, dump, canonical_dump_array, canonical_dump_array] at heq
      exact Json.array.inj heq
    · push Not at hitems
      obtain ⟨item, hi, hitem⟩ := hitems
      obtain ⟨other, hother, hne⟩ := ih item hi hitem
      obtain ⟨front, back, rfl⟩ := List.append_of_mem hi
      refine ⟨_, .setItem hother, fun heq => hne ?_⟩
      rw [dump, dump, canonical_dump_array, canonical_dump_array] at heq
      exact item_eq_of_map_eq (f := fun i : Source ν => (dump i).canonical) (Json.array.inj heq)
  | sequence items ih =>
    rw [steady_sequence] at h
    push Not at h
    obtain ⟨item, hi, hitem⟩ := h
    obtain ⟨other, hother, hne⟩ := ih item hi hitem
    obtain ⟨front, back, rfl⟩ := List.append_of_mem hi
    refine ⟨_, .sequenceItem hother, fun heq => hne ?_⟩
    rw [dump, dump, canonical_dump_array, canonical_dump_array] at heq
    exact item_eq_of_map_eq (f := fun i : Source ν => (dump i).canonical) (Json.array.inj heq)

end Lists

/-! ## Canonical values -/

section Canonical

variable {ν : Type} (numbers : NumberTexts ν)

/-- What `_canonicalize_unordered_collections` makes of the dump. -/
def sortedWire (value : Source ν) : Json String ν := canonicalize numbers value (dump value)

theorem sortedWire_items (items : List (Source ν)) :
    canonicalizeItems numbers items (dumpItems items) = items.map (sortedWire numbers) := by
  induction items with
  | nil => rfl
  | cons item items ih => rw [dumpItems, canonicalizeItems, ih, List.map_cons, sortedWire]

theorem length_dumpItems (items : List (Source ν)) : items.length = (dumpItems items).length := by
  rw [dumpItems_eq, List.length_map]

theorem sortedWire_set (items : List (Source ν)) : sortedWire numbers (.set items) =
    .array (Json.sortByText (dumps numbers) (items.map (sortedWire numbers))) := by
  rw [sortedWire, dump, canonicalize, if_pos (length_dumpItems items), sortedWire_items]

theorem sortedWire_sequence (items : List (Source ν)) :
    sortedWire numbers (.sequence items) = .array (items.map (sortedWire numbers)) := by
  rw [sortedWire, dump, canonicalize, if_pos (length_dumpItems items), sortedWire_items]

theorem keys_canonicalizeMembers (ms : List (Member × Source ν))
    (result : List (String × Json String ν)) :
    (canonicalizeMembers numbers ms result).map Prod.fst = result.map Prod.fst := by
  induction ms generalizing result with
  | nil => rfl
  | cons m ms ih =>
    obtain ⟨member, value⟩ := m
    rw [canonicalizeMembers]
    split
    · exact ih result
    · rw [ih, OrderedMap.keys_overwrite]

/-- A dumped member is changed by every member that is looked for under its name, in turn. -/
theorem lookup_canonicalizeMembers (ms : List (Member × Source ν))
    (result : List (String × Json String ν)) (name : String) :
    OrderedMap.lookup name (canonicalizeMembers numbers ms result) =
      (OrderedMap.lookup name result).map fun wire =>
        (ms.filter fun m => m.1.lookup = some name).foldl
          (fun wire m => canonicalize numbers m.2 wire) wire := by
  -- Induction on the members; each rewrites the value under its own name.
  induction ms generalizing result with
  | nil => exact (congrFun Option.map_id _).symm
  | cons m ms ih =>
    obtain ⟨member, value⟩ := m
    rw [canonicalizeMembers, List.filter_cons]
    by_cases hlookup : member.lookup = some name
    · rw [hlookup, Option.bind_some, if_pos (decide_eq_true rfl)]
      cases hfound : OrderedMap.lookup name result with
      | none =>
        show OrderedMap.lookup name (canonicalizeMembers numbers ms result) = _
        rw [ih, hfound]
        rfl
      | some wire =>
        have hkey : name ∈ result.map Prod.fst := by
          by_contra hnot
          rw [OrderedMap.lookup_eq_none_iff.mpr hnot] at hfound
          exact Option.some_ne_none wire hfound.symm
        show OrderedMap.lookup name (canonicalizeMembers numbers ms
          (OrderedMap.overwrite name (canonicalize numbers value wire) result)) = _
        rw [ih, OrderedMap.lookup_overwrite_self hkey]
        rfl
    -- another name: this value stays as it is
    · rw [if_neg (by simpa using hlookup)]
      cases hother : member.lookup with
      | none => exact ih result
      | some other =>
        have hne : name ≠ other := fun heq => hlookup (heq ▸ hother)
        rw [Option.bind_some]
        cases OrderedMap.lookup other result with
        | none => exact ih result
        | some wire =>
          show OrderedMap.lookup name (canonicalizeMembers numbers ms
            (OrderedMap.overwrite other (canonicalize numbers value wire) result)) = _
          rw [ih, OrderedMap.lookup_overwrite_ne _ _ hne]

/-- The wire value of a member that is dumped. -/
def memberWire (member : Member) (value : Source ν) : Json String ν :=
  if member.lookup = member.wire then sortedWire numbers value else dump value

/-- The members of an object, sorted where they are found. -/
def sortedMembers (ms : List (Member × Source ν)) : List (String × Json String ν) :=
  canonicalizeMembers numbers ms (dictOf (dumpMembers ms))

theorem nodup_sortedMembers (ms : List (Member × Source ν)) :
    ((sortedMembers numbers ms).map Prod.fst).Nodup := by
  rw [sortedMembers, keys_canonicalizeMembers]
  exact nodup_dictOf _

/-- A member that shares no name counts only under its own. -/
theorem lookup_sortedMembers {front back : List (Member × Source ν)} {member : Member}
    (hshares : member.shares (front.map Prod.fst) (back.map Prod.fst) = false) (value : Source ν)
    (name : String) :
    OrderedMap.lookup name (sortedMembers numbers (front ++ (member, value) :: back)) =
      if member.wire = some name ∧ member.lands (back.map Prod.fst) = true then
        some (memberWire numbers member value)
      else OrderedMap.lookup name
        (sortedMembers numbers (front ++ (member, .leaf .null) :: back)) := by
  obtain ⟨hlooked, hwired⟩ := Bool.or_eq_false_iff.mp hshares
  unfold sortedMembers
  rw [lookup_canonicalizeMembers, lookup_canonicalizeMembers, lookup_dump]
  simp only [List.filter_append, List.filter_cons]
  -- The member that lands is the only one whose value is sorted under this name.
  by_cases hlands : member.wire = some name ∧ member.lands (back.map Prod.fst) = true
  -- no other member is looked up under the name
  · rw [if_pos hlands, if_pos hlands, Option.map_some]
    obtain ⟨hwire, hlast⟩ := hlands
    have hothers : ∀ m ∈ front ++ back, m.1.lookup ≠ some name := by
      rw [hlast, Bool.true_and, List.any_eq_false] at hlooked
      intro m hm heq
      refine hlooked m.1 ?_ (decide_eq_true (heq.trans hwire.symm))
      rw [← List.map_append]
      exact List.mem_map_of_mem hm
    have hfront : (front.filter fun m => m.1.lookup = some name) = [] :=
      List.filter_eq_nil_iff.mpr fun m hm => by
        simpa using hothers m (List.mem_append_left _ hm)
    have hback : (back.filter fun m => m.1.lookup = some name) = [] :=
      List.filter_eq_nil_iff.mpr fun m hm => by
        simpa using hothers m (List.mem_append_right _ hm)
    rw [hfront, hback, List.nil_append, memberWire, hwire]
    by_cases hlookup : member.lookup = some name
    · rw [if_pos hlookup, if_pos (decide_eq_true hlookup)]
      rfl
    · rw [if_neg hlookup, if_neg (by simpa using hlookup)]
      rfl
  -- the member does not land: what it is looked up under is another member's, or nothing
  · rw [if_neg hlands, if_neg hlands]
    by_cases hlookup : member.lookup = some name
    · -- the member is looked for where nothing is dumped
      have hnone : OrderedMap.lookup name
          (dictOf (dumpMembers (front ++ (member, .leaf .null) :: back))) = none := by
        have hothers : ∀ m ∈ front ++ back, m.1.wire ≠ some name := by
          have hown : (member.lands (back.map Prod.fst) && decide (member.lookup = member.wire)) =
              false := by
            by_contra htrue
            obtain ⟨hlast, hsame⟩ := Bool.and_eq_true_iff.mp (Bool.eq_true_of_not_eq_false htrue)
            exact hlands ⟨(of_decide_eq_true hsame).symm.trans hlookup, hlast⟩
          rw [hown, hlookup] at hwired
          intro m hm heq
          refine List.any_eq_false.mp hwired m.1 ?_ (decide_eq_true heq)
          rw [← List.map_append]
          exact List.mem_map_of_mem hm
        rw [lookup_dictOf, OrderedMap.lookup_eq_none_iff, List.map_reverse, List.mem_reverse,
          mem_dumpMembers_keys]
        rintro ⟨m, hm, hname⟩
        rcases List.mem_append.mp hm with hm | hm
        · exact hothers m (List.mem_append_left _ hm) hname
        · rcases List.mem_cons.mp hm with rfl | hm
          · refine hlands ⟨hname, ?_⟩
            rw [Member.lands, hname, Option.isSome_some, Bool.true_and, Bool.not_eq_true',
              List.any_eq_false]
            intro other hother heq
            obtain ⟨n, hn, rfl⟩ := List.mem_map.mp hother
            exact hothers n (List.mem_append_right _ hn) (of_decide_eq_true heq)
          · exact hothers m (List.mem_append_right _ hm) hname
      rw [hnone]
      rfl
    · rw [if_neg (by simpa using hlookup), if_neg (by simpa using hlookup)]

theorem canonical_sorted_member {front back : List (Member × Source ν)} {member : Member}
    {value other : Source ν}
    (hshares : member.shares (front.map Prod.fst) (back.map Prod.fst) = false) :
    (sortedWire numbers (.members (front ++ (member, value) :: back))).canonical =
        (sortedWire numbers (.members (front ++ (member, other) :: back))).canonical ↔
      (member.lands (back.map Prod.fst) = true →
        (memberWire numbers member value).canonical = (memberWire numbers member other).canonical) := by
  have hwire : ∀ ms, sortedWire numbers (.members ms) = .object (sortedMembers numbers ms) :=
    fun ms => by rw [sortedWire, dump, canonicalize, sortedMembers]
  rw [hwire, hwire, Json.canonical_object_iff (nodup_sortedMembers _ _) (nodup_sortedMembers _ _)]
  constructor
  · intro h hlands
    obtain ⟨name, hname⟩ := Option.isSome_iff_exists.mp (Bool.and_eq_true_iff.mp hlands).1
    have hlookup := h name
    rw [lookup_sortedMembers numbers hshares, lookup_sortedMembers numbers hshares other,
      if_pos ⟨hname, hlands⟩, if_pos ⟨hname, hlands⟩] at hlookup
    exact Option.some.inj hlookup
  · intro h name
    rw [lookup_sortedMembers numbers hshares, lookup_sortedMembers numbers hshares other]
    split
    · next hlands => exact congrArg some (h hlands.2)
    · rfl

/-! ## Texts that tell values apart -/

/-- Reads what `dumps` writes. -/
noncomputable def lexicon : Json.Lexicon String ν where
  text units := some (String.ofList (Utf16.toWellFormed units))
  number word := if Json.isNumber word then Function.partialInv numbers.render word else none

theorem legible : (writer numbers).Legible (lexicon numbers) id id := by
  refine Json.Writer.legible_of_compact rfl rfl (fun s => ?_) (fun n => ?_) fun n => ?_
  · refine ⟨Utf16.encode s.toList, Json.spells_flatMap _ (Json.spells_escapeChar _) s.toList, ?_⟩
    show some (String.ofList (Utf16.toWellFormed _)) = some s
    rw [Utf16.toWellFormed_encode, String.ofList_toList]
  · obtain ⟨hall, hhead⟩ := Json.isNumber_spec (numbers.isNumber_render n)
    refine ⟨hall, fun hnil => ?_⟩
    change numbers.render n = [] at hnil
    rw [hnil] at hhead
    cases hhead
  · show Json.Lexer.classify (lexicon numbers) (numbers.render n) = _
    rw [Json.classify_number _ (numbers.isNumber_render n)]
    show (if Json.isNumber (numbers.render n) = true then
      Function.partialInv numbers.render (numbers.render n) else none).map Token.number = _
    rw [if_pos (numbers.isNumber_render n), Function.partialInv_left numbers.injective]
    rfl

theorem dumps_injective : Function.Injective (dumps numbers) := fun _ _ h =>
  Json.write_injective (legible numbers) (String.ofList_injective h)

/-! ## Reached values -/

theorem canonical_sorted_sequence (items : List (Source ν)) :
    (sortedWire numbers (.sequence items)).canonical =
      .array (items.map fun i => (sortedWire numbers i).canonical) := by
  rw [sortedWire_sequence, Json.canonical_array, List.map_map]
  rfl

theorem canonical_sorted_set {items others : List (Source ν)} :
    (sortedWire numbers (.set items)).canonical = (sortedWire numbers (.set others)).canonical ↔
      (items.map fun i => (sortedWire numbers i).canonical).Perm
        (others.map fun i => (sortedWire numbers i).canonical) := by
  have hmap : ∀ items : List (Source ν), (items.map (sortedWire numbers)).map Json.canonical =
      items.map fun i => (sortedWire numbers i).canonical := fun items => by
    rw [List.map_map]
    rfl
  rw [sortedWire_set, sortedWire_set, Json.canonical_array_inj, ← hmap, ← hmap]
  constructor
  · intro h
    have hleft := (Json.sortByText_perm (dumps numbers) (items.map (sortedWire numbers))).map
      Json.canonical
    have hright := (Json.sortByText_perm (dumps numbers) (others.map (sortedWire numbers))).map
      Json.canonical
    rw [h] at hleft
    exact hleft.symm.trans hright
  · exact Json.sortByText_congr _ (dumps_injective numbers)

/-- A value whose unsteady sets are reached has one wire value. -/
theorem Reordered.reached {value other : Source ν} (h : Reordered value other)
    (hreached : Reached value) :
    Reached other ∧ (sortedWire numbers other).canonical = (sortedWire numbers value).canonical := by
  -- A set that is sorted forgets the order of its items.
  induction h with
  | @here items others hperm =>
    rw [reached_set] at hreached ⊢
    exact ⟨fun i hi => hreached i (hperm.mem_iff.mpr hi),
      (canonical_sorted_set numbers).mpr (hperm.symm.map _)⟩
  | root h ih => exact ih hreached
  | @member front back member value other h ih =>
    rw [Reached, membersReached_split, List.nil_append] at hreached ⊢
    obtain ⟨hothers, hvalue⟩ := hreached
    -- a shared name holds no set at all, so there is nothing to reorder
    cases hshares : member.shares (front.map Prod.fst) (back.map Prod.fst) with
    | true =>
      rw [hshares, if_pos rfl] at hvalue
      obtain rfl := h.rigid hvalue
      exact ⟨⟨hothers, by rwa [if_pos rfl]⟩, rfl⟩
    | false =>
      rw [hshares, if_neg (by decide)] at hvalue
      rw [if_neg (by decide), canonical_sorted_member numbers hshares]
      unfold memberWire
      -- looked up where it is dumped, the member is sorted there
      by_cases hsame : member.lookup = member.wire
      · rw [if_pos hsame] at hvalue
        rw [if_pos hsame, if_pos hsame, if_pos hsame]
        exact ⟨⟨hothers, fun hlands => (ih (hvalue hlands)).1⟩,
          fun hlands => (ih (hvalue hlands)).2⟩
      -- looked up elsewhere, it is not sorted, so it has to be steady
      · rw [if_neg hsame] at hvalue
        rw [if_neg hsame, if_neg hsame, if_neg hsame]
        exact ⟨⟨hothers, fun hlands => (h.steady (hvalue hlands)).1⟩,
          fun hlands => (h.steady (hvalue hlands)).2⟩
  | @setItem front back item other h ih =>
    rw [reached_set] at hreached ⊢
    simp only [List.forall_mem_append, List.forall_mem_cons] at hreached ⊢
    obtain ⟨hnew, heq⟩ := ih hreached.2.1
    refine ⟨⟨hreached.1, hnew, hreached.2.2⟩, (canonical_sorted_set numbers).mpr ?_⟩
    simp only [List.map_append, List.map_cons, heq]
    exact List.Perm.refl _
  | @sequenceItem front back item other h ih =>
    rw [reached_sequence] at hreached ⊢
    simp only [List.forall_mem_append, List.forall_mem_cons] at hreached ⊢
    obtain ⟨hnew, heq⟩ := ih hreached.2.1
    rw [canonical_sorted_sequence, canonical_sorted_sequence]
    simp only [List.map_append, List.map_cons, heq]
    exact ⟨⟨hreached.1, hnew, hreached.2.2⟩, trivial⟩

/-- A value with an unsteady set that is not reached has another wire value in some order. -/
theorem exists_reordered_wire {value : Source ν} (hunshared : Unshared value) (h : ¬Reached value) :
    ∃ other, Reordered value other ∧
      (sortedWire numbers other).canonical ≠ (sortedWire numbers value).canonical := by
  -- A set that is not reached shows its order in the sorted wire.
  induction value using Source.induct with
  | leaf wire => exact absurd trivial h
  | rootModel root ih =>
    obtain ⟨other, hother, hne⟩ := ih hunshared h
    exact ⟨.rootModel other, .root hother, hne⟩
  -- the failing member lands and shares its name with none
  | members ms ih =>
    obtain ⟨front, member, value, back, rfl, hshares, hlands, hvalue⟩ :=
      exists_not_reached h hunshared
    rw [List.nil_append] at hshares
    obtain ⟨other, hother, hne⟩ : ∃ other, Reordered value other ∧
        (memberWire numbers member other).canonical ≠ (memberWire numbers member value).canonical := by
      unfold memberWire
      by_cases hsame : member.lookup = member.wire
      · rw [if_pos hsame] at hvalue
        simp only [if_pos hsame]
        exact ih (member, value) (List.mem_append_right _ List.mem_cons_self) hvalue.1 hvalue.2
      · rw [if_neg hsame] at hvalue
        simp only [if_neg hsame]
        exact exists_reordered_dump hvalue
    exact ⟨_, .member hother, fun heq =>
      hne ((canonical_sorted_member numbers hshares).mp heq hlands)⟩
  -- sorting compares the items as they are, and one of them changes
  | set items ih =>
    rw [Unshared, itemsUnshared_iff] at hunshared
    rw [reached_set] at h
    push Not at h
    obtain ⟨item, hi, hitem⟩ := h
    obtain ⟨other, hother, hne⟩ := ih item hi (hunshared item hi) hitem
    obtain ⟨front, back, rfl⟩ := List.append_of_mem hi
    refine ⟨_, .setItem hother, fun heq => hne ?_⟩
    have hperm := (canonical_sorted_set numbers).mp heq
    rw [List.map_append, List.map_append, List.map_cons, List.map_cons] at hperm
    exact Json.eq_of_cons_perm ((List.perm_middle.symm.trans hperm).trans List.perm_middle)
  | sequence items ih =>
    rw [Unshared, itemsUnshared_iff] at hunshared
    rw [reached_sequence] at h
    push Not at h
    obtain ⟨item, hi, hitem⟩ := h
    obtain ⟨other, hother, hne⟩ := ih item hi (hunshared item hi) hitem
    obtain ⟨front, back, rfl⟩ := List.append_of_mem hi
    refine ⟨_, .sequenceItem hother, fun heq => hne ?_⟩
    rw [canonical_sorted_sequence, canonical_sorted_sequence] at heq
    exact item_eq_of_map_eq (f := fun i : Source ν => (sortedWire numbers i).canonical)
      (Json.array.inj heq)

mutual

/-- What is reached has no set where members share a name. -/
theorem Reached.unshared {value : Source ν} (h : Reached value) : Unshared value := by
  cases value with
  | leaf wire => exact trivial
  | rootModel root =>
    have hroot : Reached root := h
    exact hroot.unshared
  | members ms => exact membersUnshared_of_reached h
  | set items => exact itemsUnshared_of_reached h
  | sequence items => exact itemsUnshared_of_reached h

theorem itemsUnshared_of_reached {items : List (Source ν)} (h : ItemsReached items) :
    ItemsUnshared items := by
  cases items with
  | nil => exact trivial
  | cons item items => exact ⟨h.1.unshared, itemsUnshared_of_reached h.2⟩

theorem membersUnshared_of_reached {front : List Member} {ms : List (Member × Source ν)}
    (h : MembersReached front ms) : MembersUnshared front ms := by
  cases ms with
  | nil => exact trivial
  | cons m ms =>
    obtain ⟨member, value⟩ := m
    rw [MembersReached] at h
    rw [MembersUnshared]
    refine ⟨?_, membersUnshared_of_reached h.2⟩
    cases hshares : member.shares front (ms.map Prod.fst) with
    | true =>
      rw [hshares] at h
      exact h.1
    | false =>
      rw [hshares] at h
      intro hlands hsame
      have hvalue : if member.lookup = member.wire then Reached value else Steady value := h.1 hlands
      rw [if_pos hsame] at hvalue
      exact hvalue.unshared

end

/-! ## Versions -/

variable {τ : Type} (digest : String → τ)

/-- Every order of the sets gives one wire value, up to the order of members, and one version. -/
def OneVersion (contract : Bool) (value : Source ν) : Prop :=
  ∀ other, SameValue value other →
    (wireValue numbers contract other).canonical = (wireValue numbers contract value).canonical ∧
      computeVersion numbers digest (wireValue numbers contract other) =
        computeVersion numbers digest (wireValue numbers contract value)

/-- With a contract the sets have to be reached, without one they have to be steady. -/
def Settled (contract : Bool) (value : Source ν) : Prop :=
  if contract then Reached value else Steady value

/-- One other order, from any. -/
theorem SameValue.settled {contract : Bool} {value other : Source ν} (h : SameValue value other)
    (hsettled : Settled contract value) : Settled contract other ∧
      (wireValue numbers contract other).canonical = (wireValue numbers contract value).canonical := by
  unfold Settled wireValue at *
  induction h with
  | refl => exact ⟨hsettled, rfl⟩
  | tail _ hlast ih =>
    obtain ⟨hsettled', heq⟩ := ih
    cases contract with
    | false =>
      obtain ⟨hsteady, hdump⟩ := hlast.steady hsettled'
      exact ⟨hsteady, hdump.trans heq⟩
    | true =>
      obtain ⟨hreached, hwire⟩ := hlast.reached numbers hsettled'
      exact ⟨hreached, hwire.trans heq⟩

/-- A settled value has one version in all orders of its sets; and what has one version is settled,
unless there is a contract and members with sets in them share a name. -/
theorem oneVersion_iff (contract : Bool) (value : Source ν) :
    OneVersion numbers digest contract value ∧ (contract = true → Unshared value) ↔
      Settled contract value := by
  constructor
  · rintro ⟨hone, hunshared⟩
    by_contra hunsettled
    unfold Settled at hunsettled
    cases contract with
    | false =>
      obtain ⟨other, hother, hne⟩ := exists_reordered_dump hunsettled
      exact hne (hone other (.single hother)).1
    | true =>
      obtain ⟨other, hother, hne⟩ := exists_reordered_wire numbers (hunshared rfl) hunsettled
      exact hne (hone other (.single hother)).1
  · intro hsettled
    refine ⟨fun other hother => ?_, fun hcontract => ?_⟩
    · obtain ⟨-, heq⟩ := hother.settled numbers hsettled
      refine ⟨heq, ?_⟩
      unfold computeVersion canonicalJson
      rw [heq]
    · subst hcontract
      exact Reached.unshared hsettled

end Canonical

/-! ## Sets that are not sorted -/

def noNumbers : NumberTexts Empty := ⟨nofun, nofun, nofun⟩

/-- `{"a", "b"}`. -/
def letters : Source Empty := .set [.leaf (.string "a"), .leaf (.string "b")]

/-- `{True: {"a", "b"}}`; the key is dumped as `true`, and `str` gives `True`. -/
def lettersByFlag : Source Empty := .members [(.otherKey "true" "True", letters)]

/-- Without a contract no set is sorted, and with one the set below the key is not. -/
theorem not_oneVersion_letters :
    ¬OneVersion noNumbers id false letters ∧ ¬OneVersion noNumbers id true lettersByFlag := by
  have hreordered : Reordered letters (.set [.leaf (.string "b"), .leaf (.string "a")]) :=
    .here (List.Perm.swap _ _ _)
  constructor
  · intro h
    have hversion := (h _ (.single hreordered)).2
    revert hversion
    decide
  · intro h
    have hmember : Reordered lettersByFlag
        (.members [(.otherKey "true" "True", .set [.leaf (.string "b"), .leaf (.string "a")])]) :=
      @Reordered.member Empty [] [] _ _ _ hreordered
    have hversion := (h _ (.single hmember)).2
    revert hversion
    decide

end ResourceVersions

end FluxFast.Server
