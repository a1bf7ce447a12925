import FluxFast.Codegen.ManifestSnapshot
import FluxFast.Theory.Exceptions

/-!
# FaithfulSnapshot — the copy of a manifest is its JSON data

`DataOf` says which JSON data a value is, `Denotes` which JSON data the copy is.  What the loop does to
the stack it starts from is stated at once for all of its frames: each gets a copy of its value, put in
its slot, and nothing else that was there before is touched.
-/

namespace FluxFast.Codegen

open FluxFast.Theory FluxFast.Validation

abbrev JsonTree := Json JsString Number

variable {R : Type} {graph : ObjectGraph R}

/-! ## What the readers read -/

/-- The object is an array of these items and nothing more. -/
structure ReadsArray (graph : ObjectGraph R) (r : R) (items : List (JsValue R)) : Prop where
  isArray : graph.isArray r = some true
  length : ∃ value enumerable, graph.descriptor r lengthKey = some (some (.data value enumerable)) ∧
    safeLength? value = some items.length
  keys : ∃ keys, graph.ownKeys r = some keys ∧
    ∀ key ∈ keys, ∃ name, key = .string name ∧ isArrayKey items.length name = true
  items : ∀ i (h : i < items.length),
    graph.descriptor r (indexKey i) = some (some (.data items[i] true))

/-- The object is a plain object of these members and nothing more. -/
structure ReadsObject (graph : ObjectGraph R) (r : R) (members : List (JsString × JsValue R)) :
    Prop where
  isArray : graph.isArray r = some false
  plain : graph.plain r = some true
  keys : graph.ownKeys r = some (members.map fun member => .string member.1)
  members : ∀ member ∈ members,
    graph.descriptor r member.1 = some (some (.data member.2 true))

theorem readProperty_ok {r : R} {key : JsString} {path : List Key} {reason : String}
    {value : JsValue R} (h : readProperty graph r key path reason = .ok value) :
    graph.descriptor r key = some (some (.data value true)) := by
  unfold readProperty readDataDescriptor at h
  cases hd : graph.descriptor r key with
  | none => simp [hd] at h
  | some d =>
    cases d with
    | none => simp [hd] at h
    | some d =>
      cases d with
      | accessor => simp [hd] at h
      | data v e => cases e <;> simp_all

theorem readItems_ok {r : R} {path : List Key} {n : Nat} {items : List (JsValue R)}
    (h : readItems graph r path n = .ok items) :
    items.length = n ∧ ∀ i (hi : i < items.length),
      graph.descriptor r (indexKey i) = some (some (.data items[i] true)) := by
  induction n generalizing items with
  | zero =>
    cases h
    exact ⟨rfl, nofun⟩
  | succ n ih =>
    obtain ⟨value, hvalue, h⟩ := except_bind_ok.mp h
    obtain ⟨before, hbefore, h⟩ := except_bind_ok.mp h
    cases h
    obtain ⟨hlen, hitems⟩ := ih hbefore
    refine ⟨by simp [hlen], ?_⟩
    intro i hi
    by_cases hlast : i < before.length
    · rw [List.getElem_append_left hlast]
      exact hitems i hlast
    · have heq : i = n := by
        rw [List.length_append, List.length_singleton] at hi
        omega
      subst heq
      rw [List.getElem_append_right (by omega)]
      simpa [hlen] using readProperty_ok hvalue

theorem stringKeys_ok {r : R} {path : List Key} {names : List JsString}
    (h : stringKeys graph r path = .ok names) :
    graph.ownKeys r = some (names.map .string) := by
  unfold stringKeys at h
  split at h
  · cases h
  · next keys hkeys =>
    split at h
    · cases h
    · next hsymbol =>
      cases h
      rw [hkeys]
      congr 1
      clear hkeys
      induction keys with
      | nil => rfl
      | cons key rest ih =>
        rw [List.any_cons, Bool.or_eq_true, not_or] at hsymbol
        cases key with
        | symbol i => exact absurd rfl hsymbol.1
        | string name => rw [List.filterMap_cons, List.map_cons, ← ih hsymbol.2]

theorem readArray_ok {r : R} {path : List Key} {items : List (JsValue R)}
    (hisArray : graph.isArray r = some true) (h : readArray graph r path = .ok items) :
    ReadsArray graph r items ∧ items.length ≤ maxManifestChildren := by
  -- The length is read first, as an own data property; then the keys are compared with the indices.
  obtain ⟨⟨value, enumerable⟩, hlength, h⟩ := except_bind_ok.mp h
  simp only at h
  split at h
  · cases h
  · next length hsafe =>
    split at h
    · cases h
    · next hmax =>
      obtain ⟨names, hnames, h⟩ := except_bind_ok.mp h
      split at h
      · cases h
      · next hfind =>
        obtain ⟨rfl, hitems⟩ := readItems_ok h
        -- every key that the array has is `length` or an index below it
        refine ⟨⟨hisArray, ⟨value, enumerable, ?_, hsafe⟩, ⟨_, stringKeys_ok hnames, ?_⟩, hitems⟩,
          Nat.not_lt.mp hmax⟩
        · unfold readDataDescriptor at hlength
          split at hlength
          · cases hlength
          · cases hlength
          · cases hlength
          · next hd =>
            cases hlength
            exact hd
        · intro key hkey
          obtain ⟨name, hname, rfl⟩ := List.mem_map.mp hkey
          refine ⟨name, rfl, ?_⟩
          simpa using List.find?_eq_none.mp hfind name hname

/-- The UTF-16 code units of some names. -/
def namesLength (names : List JsString) : Nat := (names.map List.length).sum

theorem readMembers_ok {r : R} {path : List Key} {names : List JsString} {total total' : Nat}
    {members : List (JsString × JsValue R)}
    (h : readMembers graph r path total names = .ok (total', members)) :
    members.map Prod.fst = names.reverse ∧ total' = total + namesLength names ∧
      (∀ name ∈ names, name.length ≤ maxManifestStringLength) ∧
      (total ≤ maxManifestTotalStringLength → total' ≤ maxManifestTotalStringLength) ∧
      ∀ member ∈ members, graph.descriptor r member.1 = some (some (.data member.2 true)) := by
  -- Induction on the names; the members come out in the reverse order of the names.
  induction names generalizing total members with
  | nil =>
    cases h
    exact ⟨rfl, rfl, nofun, id, nofun⟩
  | cons name rest ih =>
    unfold readMembers at h
    split at h
    · cases h
    · next hlong =>
      split at h
      · cases h
      · next htotal =>
        obtain ⟨value, hvalue, h⟩ := except_bind_ok.mp h
        obtain ⟨⟨t, before⟩, hbefore, h⟩ := except_bind_ok.mp h
        cases h
        obtain ⟨hkeys, rfl, hnames, hmax, hread⟩ := ih hbefore
        -- one goal for each clause: keys, total, lengths, budget, values
        refine ⟨?_, ?_, ?_, ?_, ?_⟩
        · rw [List.map_append, hkeys, List.reverse_cons]
          rfl
        · simp only [namesLength, List.map_cons, List.sum_cons]
          omega
        · intro other hother
          rcases List.mem_cons.mp hother with rfl | hother
          · exact Nat.not_lt.mp hlong
          · exact hnames other hother
        · exact fun _ => hmax (Nat.not_lt.mp htotal)
        · intro member hmember
          rcases List.mem_append.mp hmember with hmember | hmember
          · exact hread member hmember
          · rw [List.mem_singleton.mp hmember]
            exact readProperty_ok hvalue

theorem readObject_ok {r : R} {path : List Key} {total total' : Nat}
    {members : List (JsString × JsValue R)} (hisArray : graph.isArray r = some false)
    (h : readObject graph r path total = .ok (total', members)) :
    ReadsObject graph r members ∧ members.length ≤ maxManifestChildren ∧
      total' = total + namesLength (members.map Prod.fst) ∧
      (∀ member ∈ members, member.1.length ≤ maxManifestStringLength) ∧
      (total ≤ maxManifestTotalStringLength → total' ≤ maxManifestTotalStringLength) := by
  unfold readObject at h
  split at h
  · cases h
  · cases h
  -- only an object with a plain prototype is read
  · next hplain =>
    obtain ⟨names, hnames, h⟩ := except_bind_ok.mp h
    split at h
    · cases h
    · next hmax =>
      obtain ⟨hkeys, htotal, hlong, hbudget, hread⟩ := readMembers_ok h
      rw [List.reverse_reverse] at hkeys
      subst hkeys
      refine ⟨⟨hisArray, hplain, ?_, hread⟩, ?_, ?_, ?_, hbudget⟩
      · rw [stringKeys_ok hnames, List.map_map]
        rfl
      · simpa using hmax
      · rw [htotal]
        simp [namesLength]
      · intro member hmember
        apply hlong
        rw [List.mem_reverse]
        exact List.mem_map_of_mem hmember

/-! ## JSON data -/

mutual

/-- The value is this JSON data. -/
def DataOf (graph : ObjectGraph R) : JsonTree → JsValue R → Prop
  | .null, value => value = .null
  | .bool b, value => value = .boolean b
  | .number n, value => value = .number n ∧ n.toRat? ≠ none
  | .string s, value => value = .string s
  | .array items, value =>
    ∃ r values, value = .object r ∧ ReadsArray graph r values ∧ ItemsOf graph items values
  | .object members, value =>
    ∃ r values, value = .object r ∧ ReadsObject graph r values ∧ MembersOf graph members values

def ItemsOf (graph : ObjectGraph R) : List JsonTree → List (JsValue R) → Prop
  | [], [] => True
  | item :: items, value :: values => DataOf graph item value ∧ ItemsOf graph items values
  | _, _ => False

def MembersOf (graph : ObjectGraph R) :
    List (JsString × JsonTree) → List (JsString × JsValue R) → Prop
  | [], [] => True
  | (key, item) :: members, (key', value) :: values =>
    key = key' ∧ DataOf graph item value ∧ MembersOf graph members values
  | _, _ => False

end

mutual

/-- The copy holds this JSON data. -/
def Denotes (store : List OutObject) : JsonTree → OutValue → Prop
  | .null, value => value = .null
  | .bool b, value => value = .boolean b
  | .number n, value => value = .number n
  | .string s, value => value = .string s
  | .array items, value =>
    ∃ id slots, value = .ref id ∧ store[id]? = some (.array (slots.map some)) ∧
      DenotesItems store items slots
  | .object members, value =>
    ∃ id slots, value = .ref id ∧ store[id]? = some (.object slots) ∧
      DenotesMembers store members slots

def DenotesItems (store : List OutObject) : List JsonTree → List OutValue → Prop
  | [], [] => True
  | item :: items, slot :: slots => Denotes store item slot ∧ DenotesItems store items slots
  | _, _ => False

def DenotesMembers (store : List OutObject) :
    List (JsString × JsonTree) → List (JsString × OutValue) → Prop
  | [], [] => True
  | (key, item) :: members, (key', slot) :: slots =>
    key = key' ∧ Denotes store item slot ∧ DenotesMembers store members slots
  | _, _ => False

end

mutual

/-- The number of JSON values. -/
def nodes : JsonTree → Nat
  | .array items => itemNodes items + 1
  | .object members => memberNodes members + 1
  | _ => 1

def itemNodes : List JsonTree → Nat
  | [] => 0
  | item :: items => nodes item + itemNodes items

def memberNodes : List (JsString × JsonTree) → Nat
  | [] => 0
  | (_, item) :: members => nodes item + memberNodes members

end

mutual

/-- The length of all strings and keys. -/
def textLength : JsonTree → Nat
  | .string s => s.length
  | .array items => itemTextLength items
  | .object members => memberTextLength members
  | _ => 0

def itemTextLength : List JsonTree → Nat
  | [] => 0
  | item :: items => textLength item + itemTextLength items

def memberTextLength : List (JsString × JsonTree) → Nat
  | [] => 0
  | (key, item) :: members => key.length + textLength item + memberTextLength members

end

/-- A number whose value a JSON reader keeps. -/
def SafeNumber (n : Number) : Prop := ∀ q, n.toRat? = some q → q.den = 1 → q.num.natAbs ≤ maxSafeInteger

mutual

/-- No value lies too deep, and none is too long or has too many children. -/
def WithinBounds (depth : Nat) : JsonTree → Prop
  | .null => depth ≤ maxManifestDepth
  | .bool _ => depth ≤ maxManifestDepth
  | .number n => depth ≤ maxManifestDepth ∧ SafeNumber n
  | .string s => depth ≤ maxManifestDepth ∧ s.length ≤ maxManifestStringLength
  | .array items =>
    depth ≤ maxManifestDepth ∧ items.length ≤ maxManifestChildren ∧ ItemsWithin (depth + 1) items
  | .object members =>
    depth ≤ maxManifestDepth ∧ members.length ≤ maxManifestChildren ∧
      MembersWithin (depth + 1) members

def ItemsWithin (depth : Nat) : List JsonTree → Prop
  | [] => True
  | item :: items => WithinBounds depth item ∧ ItemsWithin depth items

def MembersWithin (depth : Nat) : List (JsString × JsonTree) → Prop
  | [] => True
  | (key, item) :: members =>
    key.length ≤ maxManifestStringLength ∧ WithinBounds depth item ∧ MembersWithin depth members

end

/-! ## Slots -/

/-- A frame and what its value has become. -/
structure Copy (R : Type) where
  frame : ManifestBoundsFrame R
  data : JsonTree
  value : OutValue

/-- What a copy does to an object. -/
def Copy.assignTo (id : Nat) (object : OutObject) (copy : Copy R) : OutObject :=
  match copy.frame.parent with
  | some (parent, key) => if parent = id then object.assign key copy.value else object
  | none => object

def fill (id : Nat) (object : OutObject) (copies : List (Copy R)) : OutObject :=
  copies.foldl (Copy.assignTo id) object

def Copy.asRoot (snapshot : Option OutValue) (copy : Copy R) : Option OutValue :=
  match copy.frame.parent with
  | some _ => snapshot
  | none => some copy.value

def root (snapshot : Option OutValue) (copies : List (Copy R)) : Option OutValue :=
  copies.foldl Copy.asRoot snapshot

@[simp] theorem put_pending (s : Copier R) (current : ManifestBoundsFrame R) (value : OutValue) :
    (s.put current value).pending = s.pending := by
  unfold Copier.put
  split <;> rfl

@[simp] theorem put_values (s : Copier R) (current : ManifestBoundsFrame R) (value : OutValue) :
    (s.put current value).values = s.values := by
  unfold Copier.put
  split <;> rfl

@[simp] theorem put_stringLength (s : Copier R) (current : ManifestBoundsFrame R)
    (value : OutValue) : (s.put current value).stringLength = s.stringLength := by
  unfold Copier.put
  split <;> rfl

@[simp] theorem put_store_length (s : Copier R) (current : ManifestBoundsFrame R)
    (value : OutValue) : (s.put current value).store.length = s.store.length := by
  unfold Copier.put
  split
  · rfl
  · exact List.length_modify _ _ _

theorem put_snapshot (s : Copier R) (copy : Copy R) :
    (s.put copy.frame copy.value).snapshot = copy.asRoot s.snapshot := by
  unfold Copier.put Copy.asRoot
  cases copy.frame.parent <;> rfl

theorem put_store (s : Copier R) (copy : Copy R) (id : Nat) :
    (s.put copy.frame copy.value).store[id]? =
      s.store[id]?.map fun object => copy.assignTo id object := by
  unfold Copier.put Copy.assignTo
  cases copy.frame.parent with
  | none => simp
  | some slot =>
    obtain ⟨parent, key⟩ := slot
    simp only [List.getElem?_modify]
    by_cases h : parent = id
    · simp [h]
    · simp [h]

/-- Copies that belong elsewhere leave an object as it is. -/
theorem fill_elsewhere {id : Nat} {object : OutObject} {copies : List (Copy R)}
    (h : ∀ copy ∈ copies, ∀ parent key, copy.frame.parent = some (parent, key) → parent ≠ id) :
    fill id object copies = object := by
  induction copies generalizing object with
  | nil => rfl
  | cons copy copies ih =>
    unfold fill
    rw [List.foldl_cons]
    have hsame : copy.assignTo id object = object := by
      unfold Copy.assignTo
      split
      · next parent key hparent => rw [if_neg (h copy List.mem_cons_self parent key hparent)]
      · rfl
    rw [show Copy.assignTo id object copy = object from hsame]
    exact ih fun other hother => h other (List.mem_cons_of_mem _ hother)

theorem fill_append {id : Nat} {object : OutObject} (first second : List (Copy R)) :
    fill id object (first ++ second) = fill id (fill id object first) second :=
  List.foldl_append

/-- Copies with a parent do not become the snapshot. -/
theorem root_children {snapshot : Option OutValue} {copies : List (Copy R)}
    (h : ∀ copy ∈ copies, copy.frame.parent ≠ none) : root snapshot copies = snapshot := by
  induction copies generalizing snapshot with
  | nil => rfl
  | cons copy copies ih =>
    unfold root
    rw [List.foldl_cons]
    have hsame : Copy.asRoot snapshot copy = snapshot := by
      unfold Copy.asRoot
      split
      · rfl
      · next hnone => exact absurd hnone (h copy List.mem_cons_self)
    rw [hsame]
    exact ih fun other hother => h other (List.mem_cons_of_mem _ hother)

/-- The items of an array, from an index on. -/
theorem fill_array {id : Nat} {current : ManifestBoundsFrame R} {copies : List (Copy R)}
    {items : List (JsValue R)} {before : List OutValue}
    (h : copies.map Copy.frame = (items.zipIdx before.length).map fun item =>
      childFrame current id (.index item.2, item.1)) :
    fill id (.array (before.map some ++ List.replicate items.length none)) copies =
      .array ((before ++ copies.map Copy.value).map some) := by
  -- Induction on the copies; what is filled grows at its end by one item.
  induction copies generalizing items before with
  | nil =>
    cases items with
    | nil => simp [fill]
    | cons item items => simp at h
  | cons copy copies ih =>
    cases items with
    | nil => simp at h
    | cons item items =>
      rw [List.zipIdx_cons, List.map_cons, List.map_cons, List.cons.injEq] at h
      unfold fill
      rw [List.foldl_cons]
      -- the head copy writes the first place that is still empty
      have hassign : Copy.assignTo id (.array (before.map some ++
          List.replicate (item :: items).length none)) copy =
          .array ((before ++ [copy.value]).map some ++ List.replicate items.length none) := by
        unfold Copy.assignTo
        rw [h.1]
        simp only [childFrame, if_pos, OutObject.assign]
        rw [List.set_append_right _ _ (by simp)]
        simp [List.replicate_succ]
      rw [hassign]
      have hrest := @ih items (before ++ [copy.value]) (by simpa using h.2)
      unfold fill at hrest
      rw [hrest]
      simp

theorem insertMember_new {key : JsString} {value : OutValue} {members : List (JsString × OutValue)}
    (h : key ∉ members.map Prod.fst) : insertMember key value members = members ++ [(key, value)] := by
  induction members with
  | nil => rfl
  | cons member rest ih =>
    rw [List.map_cons, List.mem_cons, not_or] at h
    rw [insertMember, if_neg fun heq => h.1 heq.symm, ih h.2, List.cons_append]

/-- The members of an object, in their order. -/
theorem fill_object {id : Nat} {current : ManifestBoundsFrame R} {copies : List (Copy R)}
    {members : List (JsString × JsValue R)} {before : List (JsString × OutValue)}
    (h : copies.map Copy.frame = members.map fun member =>
      childFrame current id (.name member.1, member.2))
    (hnodup : (before.map Prod.fst ++ members.map Prod.fst).Nodup) :
    fill id (.object before) copies =
      .object (before ++ (members.map Prod.fst).zip (copies.map Copy.value)) := by
  -- as for an array, but each copy appends its own member
  induction copies generalizing members before with
  | nil =>
    cases members with
    | nil => simp [fill]
    | cons member members => simp at h
  | cons copy copies ih =>
    cases members with
    | nil => simp at h
    | cons member members =>
      rw [List.map_cons, List.map_cons, List.cons.injEq] at h
      unfold fill
      rw [List.foldl_cons]
      -- a name is new each time, so no member is overwritten
      have hnew : member.1 ∉ before.map Prod.fst := by
        rw [List.nodup_append] at hnodup
        exact fun hmem => hnodup.2.2 _ hmem member.1 (by simp) rfl
      have hassign : Copy.assignTo id (.object before) copy =
          .object (before ++ [(member.1, copy.value)]) := by
        unfold Copy.assignTo
        rw [h.1]
        simp only [childFrame, if_pos, OutObject.assign, insertMember_new hnew]
      rw [hassign]
      have hrest := @ih members (before ++ [(member.1, copy.value)]) h.2 (by simpa using hnodup)
      unfold fill at hrest
      rw [hrest]
      simp

/-! ## The loop -/

/-- The frames whose values are still to be copied. -/
def Copier.waiting (s : Copier R) : List (ManifestBoundsFrame R) := s.pending.filter (!·.exit)

/-- The slots of these frames exist. -/
def Placed (s : Copier R) : Prop :=
  ∀ frame ∈ s.waiting, ∀ parent key, frame.parent = some (parent, key) → parent < s.store.length

/-- What copying the waiting frames of `s` has led to. -/
structure Copied (graph : ObjectGraph R) (s t : Copier R) (copies : List (Copy R)) : Prop where
  frames : copies.map Copy.frame = s.waiting
  data : ∀ copy ∈ copies, DataOf graph copy.data copy.frame.value
  denotes : ∀ copy ∈ copies, Denotes t.store copy.data copy.value
  within : ∀ copy ∈ copies, WithinBounds copy.frame.depth copy.data
  store : ∀ id < s.store.length, t.store[id]? = s.store[id]?.map fun object => fill id object copies
  values : t.values = s.values + (copies.map fun copy => nodes copy.data).sum
  text : t.stringLength = s.stringLength + (copies.map fun copy => textLength copy.data).sum
  snapshot : t.snapshot = root s.snapshot copies

variable {s t : Copier R} {current : ManifestBoundsFrame R} {rest : List (ManifestBoundsFrame R)}
  {copies : List (Copy R)}

theorem copied_nothing (hpending : s.pending = []) : Copied graph s s [] where
  frames := by rw [Copier.waiting, hpending]; rfl
  data := List.forall_mem_nil _
  denotes := List.forall_mem_nil _
  within := List.forall_mem_nil _
  store id _ := by cases s.store[id]? <;> rfl
  values := rfl
  text := rfl
  snapshot := rfl

/-- A value without children. -/
theorem copied_value {data : JsonTree} {value : OutValue} {total : Nat}
    (hpending : s.pending = current :: rest) (hexit : current.exit = false)
    (hdata : DataOf graph data current.value) (hdenotes : Denotes t.store data value)
    (hwithin : WithinBounds current.depth data) (hnodes : nodes data = 1)
    (htotal : total = s.stringLength + textLength data)
    (h : Copied graph ({ s with pending := rest, values := s.values + 1, stringLength := total }.put
      current value) t copies) :
    Copied graph s t (⟨current, data, value⟩ :: copies) := by
  have hput := put_store { s with pending := rest, values := s.values + 1, stringLength := total }
    ⟨current, data, value⟩
  constructor
  · rw [List.map_cons, h.frames, Copier.waiting, Copier.waiting, hpending, put_pending]
    simp [hexit]
  · exact List.forall_mem_cons.mpr ⟨hdata, h.data⟩
  · exact List.forall_mem_cons.mpr ⟨hdenotes, h.denotes⟩
  · exact List.forall_mem_cons.mpr ⟨hwithin, h.within⟩
  · intro id hid
    rw [h.store id (by rw [put_store_length]; exact hid), hput, Option.map_map]
    rfl
  · rw [h.values, put_values, List.map_cons, List.sum_cons, hnodes]
    show s.values + 1 + _ = _
    omega
  · rw [h.text, put_stringLength, List.map_cons, List.sum_cons]
    show total + _ = s.stringLength + (textLength data + _)
    omega
  · rw [h.snapshot, put_snapshot _ ⟨current, data, value⟩]
    rfl

/-- An object whose children have been copied. -/
theorem copied_object {r : R} {object : OutObject}
    {children : List (Key × JsValue R)} {total : Nat}
    (hpending : s.pending = current :: rest) (hexit : current.exit = false) (hplaced : Placed s)
    (h : Copied graph ({ s with
        pending := rest, values := s.values + 1, stringLength := total }.opened
      current r object children) t copies)
    (hobject : ∀ inner : List (Copy R),
      inner.map Copy.frame = children.map (childFrame current s.store.length) →
      (∀ copy ∈ inner, DataOf graph copy.data copy.frame.value) →
      (∀ copy ∈ inner, Denotes t.store copy.data copy.value) →
      (∀ copy ∈ inner, WithinBounds copy.frame.depth copy.data) →
      t.store[s.store.length]? = some (fill s.store.length object inner) →
      ∃ data, DataOf graph data current.value ∧ Denotes t.store data (.ref s.store.length) ∧
        WithinBounds current.depth data ∧
        nodes data = (inner.map fun copy => nodes copy.data).sum + 1 ∧
        s.stringLength + textLength data =
          total + (inner.map fun copy => textLength copy.data).sum) :
    ∃ outer, Copied graph s t outer := by
  -- The children come first among the frames that wait, then what waited before.
  obtain ⟨inner, outer, rfl, hinner, houter⟩ := List.map_eq_append_iff.mp (h.frames.trans (by
    show _ = children.map (childFrame current s.store.length) ++ rest.filter (!·.exit)
    unfold Copier.waiting Copier.opened
    simp only [List.filter_append, put_pending]
    congr 1
    rw [List.filter_eq_self]
    intro frame hframe
    obtain ⟨child, -, rfl⟩ := List.mem_map.mp hframe
    rfl))
  have hwaiting : s.waiting = current :: rest.filter (!·.exit) := by
    rw [Copier.waiting, hpending]
    simp [hexit]
  -- every child writes into the new object, and nothing else does
  have hparent : ∀ copy ∈ inner, ∃ key, copy.frame.parent = some (s.store.length, key) := by
    intro copy hcopy
    have hmem : copy.frame ∈ inner.map Copy.frame := List.mem_map_of_mem hcopy
    rw [hinner] at hmem
    obtain ⟨child, -, hframe⟩ := List.mem_map.mp hmem
    rw [← hframe]
    exact ⟨child.1, rfl⟩
  -- what waited before names an object of the store as it was
  have hbelow : ∀ copy ∈ outer, ∀ parent key, copy.frame.parent = some (parent, key) →
      parent < s.store.length := by
    intro copy hcopy
    apply hplaced
    rw [hwaiting, ← houter]
    exact List.mem_cons_of_mem _ (List.mem_map_of_mem hcopy)
  have hlen : (({ s with pending := rest, values := s.values + 1, stringLength := total }.put
      current (.ref s.store.length)).store).length = s.store.length := put_store_length _ _ _
  -- so the new object is filled by its children alone
  have hnew : t.store[s.store.length]? = some (fill s.store.length object inner) := by
    rw [h.store _ (by unfold Copier.opened; simp)]
    unfold Copier.opened
    rw [List.getElem?_append_right (by rw [hlen]), hlen, Nat.sub_self]
    rw [List.getElem?_cons_zero, Option.map_some, fill_append, fill_elsewhere]
    intro copy hcopy parent key hp
    exact Nat.ne_of_lt (hbelow copy hcopy parent key hp)
  obtain ⟨data, hdata, hdenotes, hwithin, hnodes, htext⟩ := hobject inner hinner
    (fun c hc => h.data c (List.mem_append_left _ hc))
    (fun c hc => h.denotes c (List.mem_append_left _ hc))
    (fun c hc => h.within c (List.mem_append_left _ hc)) hnew
  -- the children leave the frames, and the object stands for all of them
  refine ⟨⟨current, data, .ref s.store.length⟩ :: outer, ?_, ?_, ?_, ?_, ?_, ?_, ?_, ?_⟩
  · rw [List.map_cons, houter, hwaiting]
  · exact List.forall_mem_cons.mpr ⟨hdata, fun c hc => h.data c (List.mem_append_right _ hc)⟩
  · exact List.forall_mem_cons.mpr ⟨hdenotes, fun c hc => h.denotes c (List.mem_append_right _ hc)⟩
  · exact List.forall_mem_cons.mpr ⟨hwithin, fun c hc => h.within c (List.mem_append_right _ hc)⟩
  · intro id hid
    rw [h.store id (by unfold Copier.opened; simp; omega)]
    unfold Copier.opened
    rw [List.getElem?_append_left (by rw [hlen]; exact hid),
      put_store _ ⟨current, data, .ref s.store.length⟩, Option.map_map]
    congr 1
    funext o
    show fill id _ (inner ++ outer) = fill id o (_ :: outer)
    rw [fill_append, @fill_elsewhere R id _ inner]
    · rfl
    · intro copy hcopy parent key hp
      obtain ⟨key', hkey⟩ := hparent copy hcopy
      rw [hp] at hkey
      cases hkey
      exact Nat.ne_of_gt hid
  · rw [h.values]
    unfold Copier.opened
    simp only [put_values, List.map_append, List.sum_append, List.map_cons, List.sum_cons]
    omega
  · rw [h.text]
    unfold Copier.opened
    simp only [put_stringLength, List.map_append, List.sum_append, List.map_cons, List.sum_cons]
    omega
  · rw [h.snapshot]
    unfold Copier.opened root
    rw [List.foldl_append]
    -- a child is never the root
    have hinnerRoot : ∀ snapshot, inner.foldl Copy.asRoot snapshot = snapshot := by
      intro snapshot
      apply root_children
      intro copy hcopy hnone
      obtain ⟨key, hkey⟩ := hparent copy hcopy
      rw [hkey] at hnone
      cases hnone
    rw [hinnerRoot, List.foldl_cons]
    congr 1
    exact put_snapshot _ ⟨current, data, .ref s.store.length⟩

/-! ## Arrays and objects -/

theorem itemsOf_children {current : ManifestBoundsFrame R} {id k : Nat} {items : List (JsValue R)}
    {inner : List (Copy R)}
    (hframes : inner.map Copy.frame = (items.zipIdx k).map fun item =>
      childFrame current id (.index item.2, item.1))
    (hdata : ∀ copy ∈ inner, DataOf graph copy.data copy.frame.value)
    (hwithin : ∀ copy ∈ inner, WithinBounds copy.frame.depth copy.data) :
    ItemsOf graph (inner.map Copy.data) items ∧
      ItemsWithin (current.depth + 1) (inner.map Copy.data) := by
  induction inner generalizing items k with
  | nil =>
    cases items with
    | nil => exact ⟨trivial, trivial⟩
    | cons item items => simp at hframes
  | cons copy inner ih =>
    cases items with
    | nil => simp at hframes
    | cons item items =>
      rw [List.zipIdx_cons, List.map_cons, List.map_cons, List.cons.injEq] at hframes
      rw [List.forall_mem_cons] at hdata hwithin
      obtain ⟨hitems, hbounds⟩ := ih hframes.2 hdata.2 hwithin.2
      rw [hframes.1] at hdata hwithin
      exact ⟨⟨hdata.1, hitems⟩, ⟨hwithin.1, hbounds⟩⟩

theorem membersOf_children {current : ManifestBoundsFrame R} {id : Nat}
    {members : List (JsString × JsValue R)} {inner : List (Copy R)}
    (hframes : inner.map Copy.frame = members.map fun member =>
      childFrame current id (.name member.1, member.2))
    (hdata : ∀ copy ∈ inner, DataOf graph copy.data copy.frame.value)
    (hwithin : ∀ copy ∈ inner, WithinBounds copy.frame.depth copy.data)
    (hnames : ∀ member ∈ members, member.1.length ≤ maxManifestStringLength) :
    MembersOf graph ((members.map Prod.fst).zip (inner.map Copy.data)) members ∧
      MembersWithin (current.depth + 1) ((members.map Prod.fst).zip (inner.map Copy.data)) := by
  induction inner generalizing members with
  | nil =>
    cases members with
    | nil => exact ⟨trivial, trivial⟩
    | cons member members => simp at hframes
  | cons copy inner ih =>
    cases members with
    | nil => simp at hframes
    | cons member members =>
      rw [List.map_cons, List.map_cons, List.cons.injEq] at hframes
      rw [List.forall_mem_cons] at hdata hwithin hnames
      obtain ⟨hmembers, hbounds⟩ := ih hframes.2 hdata.2 hwithin.2 hnames.2
      rw [hframes.1] at hdata hwithin
      exact ⟨⟨rfl, hdata.1, hmembers⟩, ⟨hnames.1, hwithin.1, hbounds⟩⟩

theorem denotesItems_children {store : List OutObject} {inner : List (Copy R)}
    (h : ∀ copy ∈ inner, Denotes store copy.data copy.value) :
    DenotesItems store (inner.map Copy.data) (inner.map Copy.value) := by
  induction inner with
  | nil => trivial
  | cons copy inner ih =>
    rw [List.forall_mem_cons] at h
    exact ⟨h.1, ih h.2⟩

theorem denotesMembers_children {store : List OutObject} {names : List JsString}
    {inner : List (Copy R)} (h : ∀ copy ∈ inner, Denotes store copy.data copy.value) :
    DenotesMembers store (names.zip (inner.map Copy.data)) (names.zip (inner.map Copy.value)) := by
  induction inner generalizing names with
  | nil => cases names <;> trivial
  | cons copy inner ih =>
    rw [List.forall_mem_cons] at h
    cases names with
    | nil => trivial
    | cons name names => exact ⟨rfl, h.1, ih h.2⟩

theorem itemNodes_eq (inner : List (Copy R)) :
    itemNodes (inner.map Copy.data) = (inner.map fun copy => nodes copy.data).sum := by
  induction inner with
  | nil => rfl
  | cons copy inner ih => simp only [List.map_cons, itemNodes, List.sum_cons, ih]

theorem memberNodes_eq {names : List JsString} {inner : List (Copy R)}
    (h : names.length = inner.length) :
    memberNodes (names.zip (inner.map Copy.data)) = (inner.map fun copy => nodes copy.data).sum := by
  induction inner generalizing names with
  | nil => cases names <;> rfl
  | cons copy inner ih =>
    cases names with
    | nil => cases h
    | cons name names =>
      simp only [List.map_cons, List.zip_cons_cons, memberNodes, List.sum_cons,
        ih (Nat.succ.inj h)]

theorem itemTextLength_eq (inner : List (Copy R)) :
    itemTextLength (inner.map Copy.data) = (inner.map fun copy => textLength copy.data).sum := by
  induction inner with
  | nil => rfl
  | cons copy inner ih => simp only [List.map_cons, itemTextLength, List.sum_cons, ih]

theorem memberTextLength_eq {names : List JsString} {inner : List (Copy R)}
    (h : names.length = inner.length) :
    memberTextLength (names.zip (inner.map Copy.data)) =
      namesLength names + (inner.map fun copy => textLength copy.data).sum := by
  induction inner generalizing names with
  | nil =>
    cases names with
    | nil => rfl
    | cons name names => cases h
  | cons copy inner ih =>
    cases names with
    | nil => cases h
    | cons name names =>
      simp only [List.map_cons, List.zip_cons_cons, memberTextLength, List.sum_cons,
        ih (Nat.succ.inj h), namesLength]
      omega

theorem copied_array {r : R} {items : List (JsValue R)}
    (hpending : s.pending = current :: rest) (hexit : current.exit = false)
    (hvalue : current.value = .object r) (hdepth : current.depth ≤ maxManifestDepth)
    (hplaced : Placed s) (hreads : ReadsArray graph r items)
    (hmax : items.length ≤ maxManifestChildren)
    (h : Copied graph ({ s with pending := rest, values := s.values + 1 }.opened current r
      (.array (List.replicate items.length none))
      (items.zipIdx.map fun (value, i) => (.index i, value))) t copies) :
    ∃ outer, Copied graph s t outer := by
  refine copied_object hpending hexit hplaced h ?_
  intro inner hframes hdata hdenotes hwithin hnew
  rw [List.map_map] at hframes
  obtain ⟨hitems, hbounds⟩ := itemsOf_children hframes hdata hwithin
  have hfill := @fill_array R s.store.length current inner items [] hframes
  rw [List.map_nil, List.nil_append] at hfill
  rw [hfill, List.nil_append] at hnew
  have hlen : inner.length = items.length := by
    have := congrArg List.length hframes
    simpa using this
  refine ⟨.array (inner.map Copy.data), ?_, ?_, ?_, ?_, ?_⟩
  · rw [hvalue]
    exact ⟨r, items, rfl, hreads, hitems⟩
  · exact ⟨_, inner.map Copy.value, rfl, hnew, denotesItems_children hdenotes⟩
  · exact ⟨hdepth, by rw [List.length_map, hlen]; exact hmax, hbounds⟩
  · simp only [nodes, itemNodes_eq]
  · simp only [textLength, itemTextLength_eq]

theorem copied_members {r : R} {members : List (JsString × JsValue R)} {total : Nat}
    (hpending : s.pending = current :: rest) (hexit : current.exit = false)
    (hvalue : current.value = .object r) (hdepth : current.depth ≤ maxManifestDepth)
    (hplaced : Placed s) (hreads : ReadsObject graph r members)
    (hmax : members.length ≤ maxManifestChildren)
    (hnames : ∀ member ∈ members, member.1.length ≤ maxManifestStringLength)
    (htotal : total = s.stringLength + namesLength (members.map Prod.fst))
    (h : Copied graph ({ s with
        pending := rest, values := s.values + 1, stringLength := total }.opened current r
      (.object []) (members.map fun (key, value) => (.name key, value))) t copies) :
    ∃ outer, Copied graph s t outer := by
  refine copied_object hpending hexit hplaced h ?_
  intro inner hframes hdata hdenotes hwithin hnew
  rw [List.map_map] at hframes
  obtain ⟨hmembers, hbounds⟩ := membersOf_children hframes hdata hwithin hnames
  -- the keys of an object are distinct, so their order is kept by the copy
  have hnodup : (members.map Prod.fst).Nodup := by
    have hkeys := graph.keys_nodup r _ hreads.keys
    apply List.Nodup.of_map PropertyKey.string
    rw [List.map_map]
    exact hkeys
  have hfill := @fill_object R s.store.length current inner members [] hframes
    (by simpa using hnodup)
  rw [hfill, List.nil_append] at hnew
  have hlen : (members.map Prod.fst).length = inner.length := by
    have := congrArg List.length hframes
    simpa using this.symm
  refine ⟨.object ((members.map Prod.fst).zip (inner.map Copy.data)), ?_, ?_, ?_, ?_, ?_⟩
  · rw [hvalue]
    exact ⟨r, members, rfl, hreads, hmembers⟩
  · exact ⟨_, _, rfl, hnew, denotesMembers_children hdenotes⟩
  · refine ⟨hdepth, ?_, hbounds⟩
    rw [List.length_zip, List.length_map, List.length_map]
    exact (Nat.min_le_left _ _).trans hmax
  · simp only [nodes, memberNodes_eq hlen]
  · simp only [textLength, memberTextLength_eq hlen]
    omega

/-! ## Turns -/

/-- Everything a turn can do. -/
inductive Step (graph : ObjectGraph R) (s : Copier R) (current : ManifestBoundsFrame R)
    -- What one step of the loop can do: leave an object, copy a value, open an array or an object.
    (rest : List (ManifestBoundsFrame R)) : Copier R → Prop
  | leave (active : List R) (hexit : current.exit = true) :
      Step graph s current rest { s with pending := rest, active := active }
  | value (data : JsonTree) (value : OutValue) (total : Nat) (hexit : current.exit = false)
      (hvalues : s.values + 1 ≤ maxManifestValueCount) (hdata : DataOf graph data current.value)
      (hdenotes : ∀ store, Denotes store data value) (hwithin : WithinBounds current.depth data)
      (hnodes : nodes data = 1) (htotal : total = s.stringLength + textLength data)
      (hbudget : s.stringLength ≤ maxManifestTotalStringLength →
        total ≤ maxManifestTotalStringLength) :
      Step graph s current rest
        ({ s with pending := rest, values := s.values + 1, stringLength := total }.put
          current value)
  | array (r : R) (items : List (JsValue R)) (hexit : current.exit = false)
      (hvalues : s.values + 1 ≤ maxManifestValueCount) (hvalue : current.value = .object r)
      (hdepth : current.depth ≤ maxManifestDepth) (hreads : ReadsArray graph r items)
      (hmax : items.length ≤ maxManifestChildren) :
      Step graph s current rest
        ({ s with pending := rest, values := s.values + 1 }.opened current r
          (.array (List.replicate items.length none))
          (items.zipIdx.map fun (value, i) => (.index i, value)))
  | object (r : R) (members : List (JsString × JsValue R)) (total : Nat)
      (hexit : current.exit = false) (hvalues : s.values + 1 ≤ maxManifestValueCount)
      (hvalue : current.value = .object r) (hdepth : current.depth ≤ maxManifestDepth)
      (hreads : ReadsObject graph r members) (hmax : members.length ≤ maxManifestChildren)
      (hnames : ∀ member ∈ members, member.1.length ≤ maxManifestStringLength)
      (htotal : total = s.stringLength + namesLength (members.map Prod.fst))
      (hbudget : s.stringLength ≤ maxManifestTotalStringLength →
        total ≤ maxManifestTotalStringLength) :
      Step graph s current rest
        ({ s with pending := rest, values := s.values + 1, stringLength := total }.opened current r
          (.object []) (members.map fun (key, value) => (.name key, value)))

theorem placed_opened {r : R} {object : OutObject} {children : List (Key × JsValue R)}
    (h : Placed s) (hpending : s.pending = current :: rest) (values total : Nat) :
    Placed ({ s with pending := rest, values := values, stringLength := total }.opened
      current r object children) := by
  intro frame hframe parent key hparent
  unfold Copier.opened Copier.waiting at *
  simp only [List.length_append, put_store_length, List.length_singleton]
  rw [List.mem_filter] at hframe
  obtain ⟨hmem, hexit⟩ := hframe
  rcases List.mem_append.mp hmem with hmem | hmem
  · obtain ⟨child, -, rfl⟩ := List.mem_map.mp hmem
    cases hparent
    exact Nat.lt_succ_self _
  · rw [put_pending] at hmem
    rcases List.mem_cons.mp hmem with rfl | hmem
    · cases hexit
    · have hold := h frame (by
        rw [Copier.waiting, hpending, List.mem_filter]
        exact ⟨List.mem_cons_of_mem _ hmem, hexit⟩) parent key hparent
      exact Nat.lt_succ_of_lt hold

theorem placed_step (h : Placed s) (hpending : s.pending = current :: rest)
    (hstep : Step graph s current rest t) : Placed t := by
  have hrest : ∀ frame ∈ rest.filter (!·.exit), ∀ parent key,
      frame.parent = some (parent, key) → parent < s.store.length := by
    intro frame hframe
    apply h
    rw [Copier.waiting, hpending]
    rw [List.mem_filter] at hframe ⊢
    exact ⟨List.mem_cons_of_mem _ hframe.1, hframe.2⟩
  cases hstep with
  | leave active hexit => exact hrest
  | value data value total =>
    intro frame hframe parent key hparent
    rw [put_store_length]
    rw [Copier.waiting, put_pending] at hframe
    exact hrest frame hframe parent key hparent
  | array r items => exact placed_opened h hpending _ _
  | object r members total => exact placed_opened h hpending _ _

theorem copied_step (hpending : s.pending = current :: rest) (hplaced : Placed s) {u : Copier R}
    (hstep : Step graph s current rest t) (h : Copied graph t u copies) :
    ∃ outer, Copied graph s u outer := by
  cases hstep with
  | leave active hexit =>
    refine ⟨copies, ?_, h.data, h.denotes, h.within, h.store, h.values, h.text, h.snapshot⟩
    rw [h.frames, Copier.waiting, Copier.waiting, hpending]
    simp [hexit]
  | value data value total hexit hvalues hdata hdenotes hwithin hnodes htotal =>
    exact ⟨_, copied_value hpending hexit hdata (hdenotes _) hwithin hnodes htotal h⟩
  | array r items hexit hvalues hvalue hdepth hreads hmax =>
    exact copied_array hpending hexit hvalue hdepth hplaced hreads hmax h
  | object r members total hexit hvalues hvalue hdepth hreads hmax hnames htotal =>
    exact copied_members hpending hexit hvalue hdepth hplaced hreads hmax hnames htotal h

variable [DecidableEq R]

theorem step_copyObject {r : R} (hexit : current.exit = false)
    (hvalues : s.values + 1 ≤ maxManifestValueCount) (hvalue : current.value = .object r)
    (hdepth : current.depth ≤ maxManifestDepth)
    (h : copyObject graph { s with pending := rest, values := s.values + 1 } current r = .next t) :
    Step graph s current rest t := by
  unfold copyObject at h
  split at h
  · cases h
  · split at h
    · cases h
    · next hisArray =>
      split at h
      · cases h
      · next items hread =>
        cases h
        obtain ⟨hreads, hmax⟩ := readArray_ok hisArray hread
        exact .array r items hexit hvalues hvalue hdepth hreads hmax
    · next hisArray =>
      split at h
      · cases h
      · next total members hread =>
        cases h
        obtain ⟨hreads, hmax, htotal, hnames, hbudget⟩ := readObject_ok hisArray hread
        exact .object r members total hexit hvalues hvalue hdepth hreads hmax hnames htotal hbudget

theorem step_copyValue (hexit : current.exit = false)
    (hvalues : s.values + 1 ≤ maxManifestValueCount) (hdepth : current.depth ≤ maxManifestDepth)
    (h : copyValue graph { s with pending := rest, values := s.values + 1 } current = .next t) :
    Step graph s current rest t := by
  unfold copyValue at h
  -- One branch for each kind of value; bigint and symbol are refused.
  split at h
  · next text hvalue =>
    unfold copyString at h
    split at h
    · cases h
    · next hlong =>
      split at h
      · cases h
      · next htotal =>
        cases h
        exact .value (.string text) (.string text) _ hexit hvalues hvalue (fun _ => rfl)
          ⟨hdepth, Nat.not_lt.mp hlong⟩ rfl rfl fun _ => Nat.not_lt.mp htotal
  · next hvalue =>
    cases h
    exact .value .null .null _ hexit hvalues hvalue (fun _ => rfl) hdepth rfl rfl id
  · next b hvalue =>
    cases h
    exact .value (.bool b) (.boolean b) _ hexit hvalues hvalue (fun _ => rfl) hdepth rfl rfl id
  · next n hvalue =>
    unfold copyNumber at h
    split at h
    · cases h
    · next q hq =>
      split at h
      · cases h
      · next hsafe =>
        cases h
        refine .value (.number n) (.number n) _ hexit hvalues ⟨hvalue, ?_⟩ (fun _ => rfl)
          ⟨hdepth, ?_⟩ rfl rfl id
        · rw [hq]
          exact nofun
        -- a number is an integer only if it is a safe one
        · intro p hp hden
          rw [hq] at hp
          cases hp
          exact Nat.not_lt.mp fun hlt => hsafe ⟨hden, hlt⟩
  · next r hvalue => exact step_copyObject hexit hvalues hvalue hdepth h
  · cases h
  · cases h

theorem step_copyTurn (h : copyTurn graph s = .next t) :
    ∃ current rest, s.pending = current :: rest ∧ Step graph s current rest t := by
  unfold copyTurn at h
  split at h
  · cases h
  · next current rest hpending =>
    refine ⟨current, rest, hpending, ?_⟩
    split at h
    · next hexit =>
      split at h
      · cases h
        exact .leave _ hexit
      · cases h
        exact .leave s.active hexit
    · next hexit =>
      split at h
      · cases h
      · next hvalues =>
        split at h
        · cases h
        · next hdepth =>
          exact step_copyValue (Bool.not_eq_true _ ▸ hexit) (Nat.not_lt.mp hvalues)
            (Nat.not_lt.mp hdepth) h

/-! ## The whole loop -/

theorem copyTurn_done (h : copyTurn graph s = .done) : s.pending = [] := by
  unfold copyTurn at h
  split at h
  · next hpending => exact hpending
  · simp only [copyValue, copyString, copyNumber, copyObject] at h
    repeat' split at h
    all_goals cases h

theorem copied_loop {fuel : Nat} (hplaced : Placed s)
    (h : loop (copyTurn graph) fuel s = some (.ok t)) : ∃ copies, Copied graph s t copies := by
  induction fuel generalizing s with
  | zero => cases h
  | succ fuel ih =>
    unfold loop at h
    split at h
    · next hdone =>
      cases h
      exact ⟨[], copied_nothing (copyTurn_done hdone)⟩
    · cases h
    · next u hnext =>
      obtain ⟨current, rest, hpending, hstep⟩ := step_copyTurn hnext
      obtain ⟨copies, hcopied⟩ := ih (placed_step hplaced hpending hstep) h
      exact copied_step hpending hplaced hstep hcopied

/-- The turns that are left: two for a value, and one for an object that is open. -/
def turnsLeft (s : Copier R) : Nat :=
  2 * (maxManifestValueCount + 1 - s.values) + s.pending.countP (·.exit)

omit [DecidableEq R] in
theorem turnsLeft_opened {r : R} {object : OutObject} {children : List (Key × JsValue R)}
    (total : Nat) (hpending : s.pending = current :: rest) (hexit : current.exit = false)
    (hvalues : s.values + 1 ≤ maxManifestValueCount) :
    turnsLeft ({ s with pending := rest, values := s.values + 1, stringLength := total }.opened
      current r object children) < turnsLeft s := by
  have hchildren : (children.map (childFrame current s.store.length)).countP (·.exit) = 0 := by
    rw [List.countP_eq_zero]
    intro frame hframe
    obtain ⟨child, -, rfl⟩ := List.mem_map.mp hframe
    exact nofun
  unfold turnsLeft Copier.opened
  simp only [put_values, put_pending, List.countP_append, List.countP_cons, hpending, hexit,
    hchildren, if_true, Bool.false_eq_true, if_false]
  omega

theorem turnsLeft_step (h : copyTurn graph s = .next t) : turnsLeft t < turnsLeft s := by
  obtain ⟨current, rest, hpending, hstep⟩ := step_copyTurn h
  cases hstep with
  | leave active hexit =>
    unfold turnsLeft
    simp only [hpending, List.countP_cons, hexit, if_true]
    omega
  | value data value total hexit hvalues =>
    unfold turnsLeft
    simp only [put_values, put_pending, hpending, List.countP_cons, hexit, Bool.false_eq_true,
      if_false]
    omega
  | array r items hexit hvalues => exact turnsLeft_opened _ hpending hexit hvalues
  | object r members total hexit hvalues => exact turnsLeft_opened _ hpending hexit hvalues

/-- The copy comes to an end, whatever the graph. -/
theorem createManifestSnapshot_ends (graph : ObjectGraph R) (value : JsValue R) :
    ∃ result, createManifestSnapshot graph value = some result := by
  apply loop_within fun s t => turnsLeft_step
  show 2 * (maxManifestValueCount + 1 - 0) + 0 < copyFuel
  unfold copyFuel
  omega

/-- Neither budget is overdrawn. -/
def WithinBudget (s : Copier R) : Prop :=
  s.values ≤ maxManifestValueCount ∧ s.stringLength ≤ maxManifestTotalStringLength

theorem withinBudget_step (hs : WithinBudget s) (h : copyTurn graph s = .next t) :
    WithinBudget t := by
  obtain ⟨current, rest, -, hstep⟩ := step_copyTurn h
  unfold WithinBudget
  cases hstep with
  | leave active hexit => exact hs
  | value data value total hexit hvalues hdata hdenotes hwithin hnodes htotal hbudget =>
    rw [put_values, put_stringLength]
    exact ⟨hvalues, hbudget hs.2⟩
  | array r items hexit hvalues =>
    unfold Copier.opened
    rw [put_values, put_stringLength]
    exact ⟨hvalues, hs.2⟩
  | object r members total hexit hvalues hvalue hdepth hreads hmax hnames htotal hbudget =>
    unfold Copier.opened
    rw [put_values, put_stringLength]
    exact ⟨hvalues, hbudget hs.2⟩

/-- No bound of the copy is exceeded by this data. -/
structure Bounded (data : JsonTree) : Prop where
  within : WithinBounds 0 data
  values : nodes data ≤ maxManifestValueCount
  text : textLength data ≤ maxManifestTotalStringLength

/-- What the loop returns is the JSON data of the value, in objects of its own. -/
theorem createManifestSnapshot_ok {value : JsValue R}
    (h : createManifestSnapshot graph value = some (.ok t)) :
    ∃ data copy, t.snapshot = some copy ∧ DataOf graph data value ∧ Denotes t.store data copy ∧
      Bounded data := by
  -- The first frame has no parent, so nothing is placed wrongly at the start.
  have hplaced : Placed (startCopier value) := by
    intro frame hframe parent key hparent
    rw [List.mem_singleton.mp hframe] at hparent
    cases hparent
  obtain ⟨copies, hcopied⟩ := copied_loop hplaced h
  -- the budget is an invariant of the loop
  have hbudget : WithinBudget t :=
    (loop_ok (fun s t hs => withinBudget_step hs) ⟨Nat.zero_le _, Nat.zero_le _⟩ h).1
  obtain ⟨copy, hcopy, hframe⟩ := List.map_eq_singleton_iff.mp hcopied.frames
  subst hcopy
  have hmem : copy ∈ [copy] := List.mem_singleton_self copy
  have hdata := hcopied.data copy hmem
  have hwithin := hcopied.within copy hmem
  have hvalues := hcopied.values
  have htext := hcopied.text
  have hsnapshot := hcopied.snapshot
  rw [hframe] at hdata hwithin
  simp only [List.map_singleton, List.sum_singleton] at hvalues htext
  -- the one frame of the start has become the root
  refine ⟨copy.data, copy.value, ?_, hdata, hcopied.denotes copy hmem, hwithin, ?_, ?_⟩
  · rw [hsnapshot]
    show Copy.asRoot none copy = _
    unfold Copy.asRoot
    rw [hframe]
  · have := hbudget.1
    show nodes copy.data ≤ _
    rw [hvalues] at this
    exact (Nat.le_add_left _ _).trans this
  · have := hbudget.2
    rw [htext] at this
    exact (Nat.le_add_left _ _).trans this

/-- One empty object under two names that an object inherits as well. -/
def sharedGraph : ObjectGraph Bool where
  isArray _ := some false
  plain _ := some true
  ownKeys r :=
    if r then some [.string (jsText "__proto__"), .string (jsText "constructor")] else some []
  descriptor _ _ := some (some (.data (.object false) true))
  keys_nodup r keys h := by
    cases r with
    | false => cases h; exact List.nodup_nil
    | true => cases h; decide

example : (createManifestSnapshot sharedGraph (.object true)).map (fun result =>
      result.toOption.map fun copier => (copier.store, copier.snapshot)) =
    some (some ([.object [(jsText "__proto__", .ref 1), (jsText "constructor", .ref 2)],
      .object [], .object []], some (.ref 0))) := by
  decide

end FluxFast.Codegen
