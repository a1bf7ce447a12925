import FluxFast.Codegen.SchemaManifest

/-!
# ManifestFaithful — what `validateFluxFastSchemaManifest` returns

Every check comes to an end.  What is returned is the JSON data of the value, so a value that is no JSON
data, because of a cycle, an accessor or an object that is not plain, is refused.
-/

namespace FluxFast.Codegen

open FluxFast.Theory FluxFast.Validation

/-! ## Checks end -/

/-- A check comes to an end. -/
def Ends {α : Type} (check : Check α) : Prop := ∃ result, ExceptT.run check = some result

namespace Ends

variable {α β : Type}

theorem checked (result : Except ManifestError α) : Ends (checked result) := ⟨result, rfl⟩

theorem pure (a : α) : Ends (pure a : Check α) := ⟨.ok a, rfl⟩

theorem throw (e : ManifestError) : Ends (throw e : Check α) := ⟨.error e, rfl⟩

theorem bind {check : Check α} {next : α → Check β} (h : Ends check) (hnext : ∀ a, Ends (next a)) :
    Ends (check >>= next) := by
  obtain ⟨result, hresult⟩ := h
  show ∃ r, (ExceptT.run check >>= ExceptT.bindCont next) = some r
  rw [hresult]
  cases result with
  | error e => exact ⟨.error e, rfl⟩
  | ok a => exact hnext a

end Ends

/-! ### Keywords -/

/-- The values below some subschemas. -/
def queuedNodes (queue : List Subschema) : Nat :=
  (queue.map fun schema => nodes (.object schema.2)).sum

theorem queuedNodes_append (first second : List Subschema) :
    queuedNodes (first ++ second) = queuedNodes first + queuedNodes second := by
  simp [queuedNodes]

theorem queueSubschema_nodes {value : JsonTree} {path : List Key} {queue : List Subschema}
    (h : queueSubschema value path = .ok queue) : queuedNodes queue ≤ nodes value := by
  unfold queueSubschema at h
  split at h
  · cases h
    exact Nat.zero_le _
  · split at h
    · cases h
    · next members hmembers =>
      cases h
      unfold assertRecord at hmembers
      split at hmembers
      · next hvalue =>
        cases hmembers
        cases hvalue
        simp [queuedNodes]
      · cases hmembers

theorem queueAll_nodes {values : List (List Key × JsonTree)} {queue : List Subschema}
    (h : queueAll values = .ok queue) : queuedNodes queue ≤ itemNodes (values.map Prod.snd) := by
  induction values generalizing queue with
  | nil =>
    cases h
    exact Nat.zero_le _
  | cons value rest ih =>
    obtain ⟨first, hfirst, h⟩ := except_bind_ok.mp h
    obtain ⟨others, hothers, h⟩ := except_bind_ok.mp h
    cases h
    rw [queuedNodes_append, List.map_cons, itemNodes]
    have := queueSubschema_nodes hfirst
    have := ih hothers
    omega

theorem indexed_snd (path : List Key) (items : List JsonTree) :
    (indexed path items).map Prod.snd = items := by
  unfold indexed
  rw [List.map_map]
  exact List.zipIdx_map_fst 0 items

theorem memberNodes_snd (members : List (JsString × JsonTree)) :
    itemNodes (members.map Prod.snd) = memberNodes members := by
  induction members with
  | nil => rfl
  | cons member members ih => rw [List.map_cons, itemNodes, memberNodes, ih]

theorem queueKeyword_nodes {kind : KeywordKind} {value : JsonTree} {path : List Key}
    {queue : List Subschema} (h : queueKeyword kind value path = .ok queue) :
    queuedNodes queue ≤ nodes value := by
  -- What is queued lies below the value, so it has no more nodes than the value.
  cases kind with
  | schema => exact queueSubschema_nodes h
  | schemas =>
    obtain ⟨members, hmembers, h⟩ := except_bind_ok.mp h
    -- a map of schemas queues the values of its members
    have hle := queueAll_nodes h
    rw [List.map_map] at hle
    have hle : queuedNodes queue ≤ itemNodes (members.map Prod.snd) := hle
    rw [memberNodes_snd] at hle
    unfold assertRecord at hmembers
    split at hmembers
    · next hvalue =>
      cases hmembers
      cases hvalue
      rw [nodes]
      omega
    · cases hmembers
  -- a list of schemas queues its items
  | schemaList allowEmpty =>
    simp only [queueKeyword] at h
    split at h
    · next items =>
      split at h
      · cases h
      · have hle := queueAll_nodes h
        rw [indexed_snd] at hle
        rw [nodes]
        omega
    · cases h

/-- The values below the member of some name. -/
def fieldNodes (members : List (JsString × JsonTree)) (name : JsString) : Nat :=
  ((members.find? fun member => member.1 = name).elim 0 fun member => nodes member.2)

/-- One of several different names at most is the name of a member. -/
theorem sum_ite_le {name : JsString} {names : List JsString} (hnodup : names.Nodup) (a : Nat)
    (f : JsString → Nat) :
    (names.map fun n => if name = n then a else f n).sum ≤ a + (names.map f).sum := by
  induction names with
  | nil => exact Nat.zero_le _
  | cons n names ih =>
    rw [List.nodup_cons] at hnodup
    rw [List.map_cons, List.map_cons, List.sum_cons, List.sum_cons]
    by_cases hn : name = n
    · rw [if_pos hn]
      have hrest : (names.map fun n => if name = n then a else f n) = names.map f := by
        apply List.map_congr_left
        intro m hm
        rw [if_neg]
        rintro rfl
        exact hnodup.1 (hn ▸ hm)
      rw [hrest]
      omega
    · rw [if_neg hn]
      have := ih hnodup.2
      omega

theorem fieldNodes_le {names : List JsString} (hnodup : names.Nodup)
    (members : List (JsString × JsonTree)) :
    (names.map (fieldNodes members)).sum ≤ memberNodes members := by
  induction members with
  | nil =>
    have : names.map (fieldNodes []) = names.map fun _ => 0 := rfl
    rw [this]
    simp [memberNodes]
  | cons member members ih =>
    have hcons : fieldNodes (member :: members) = fun n =>
        if member.1 = n then nodes member.2 else fieldNodes members n := by
      funext n
      unfold fieldNodes
      rw [List.find?_cons]
      by_cases hn : member.1 = n
      · simp [hn]
      · simp [hn]
    rw [hcons, memberNodes]
    exact (sum_ite_le hnodup _ _).trans (Nat.add_le_add_left ih _)

theorem queueKeywords_nodes {path : List Key} {members : List (JsString × JsonTree)}
    {keywords : List (String × KeywordKind)} {queue : List Subschema}
    (h : queueKeywords path (.object members) keywords = .ok queue) :
    queuedNodes queue ≤
      ((keywords.map fun keyword => jsText keyword.1).map (fieldNodes members)).sum := by
  -- Induction on the keywords; each queues from a field of its own.
  induction keywords generalizing queue with
  | nil =>
    cases h
    exact Nat.zero_le _
  | cons keyword rest ih =>
    obtain ⟨name, kind⟩ := keyword
    obtain ⟨queued, hqueued, h⟩ := except_bind_ok.mp h
    obtain ⟨others, hothers, h⟩ := except_bind_ok.mp h
    cases h
    rw [queuedNodes_append, List.map_cons, List.map_cons, List.sum_cons]
    have hrest := ih hothers
    -- a keyword that the schema lacks queues nothing
    have hfirst : queuedNodes queued ≤ fieldNodes members (jsText name) := by
      unfold queueField field at hqueued
      unfold fieldNodes
      cases hfind : members.find? fun member => member.1 = jsText name with
      | none =>
        simp only [hfind, Option.map_none] at hqueued
        cases hqueued
        exact Nat.zero_le _
      | some member =>
        simp only [hfind, Option.map_some] at hqueued
        exact queueKeyword_nodes hqueued
    exact Nat.add_le_add hfirst hrest

theorem keywordTurn_falls {queue next : List Subschema} (h : keywordTurn queue = .next next) :
    queuedNodes next < queuedNodes queue := by
  unfold keywordTurn at h
  split at h
  · cases h
  · next path members pending =>
    split at h
    · cases h
    · split at h
      · cases h
      · next queued hqueued =>
        cases h
        have hnodup : (subschemaKeywords.map fun keyword => jsText keyword.1).Nodup := by
          decide
        have hle := (queueKeywords_nodes hqueued).trans (fieldNodes_le hnodup members)
        rw [queuedNodes_append]
        have hreverse : queuedNodes queued.reverse = queuedNodes queued := by
          unfold queuedNodes
          rw [List.map_reverse, List.sum_reverse]
        have hcons : queuedNodes ((path, members) :: pending) =
            memberNodes members + 1 + queuedNodes pending := by
          simp [queuedNodes, nodes]
        omega

theorem ends_keywords (members : List (JsString × JsonTree)) (path : List Key) :
    ∃ result, validateJsonSchemaKeywords members path = some result := by
  apply loop_within fun s t => keywordTurn_falls
  simp [queuedNodes]

/-! ### Validators -/

theorem ends_assertJsonSchema (value : Option JsonTree) (path : List Key)
    (budget : SchemaValueBudget) : Ends (assertJsonSchema value path budget) :=
  (Ends.checked _).bind fun members => (Ends.checked _).bind fun _ =>
    Ends.bind (ends_keywords members path) fun _ => Ends.pure _

theorem ends_checkEach {check : List Key → JsonTree → SchemaValueBudget → Check SchemaValueBudget}
    (h : ∀ path value budget, Ends (check path value budget)) (budget : SchemaValueBudget)
    (entries : List (List Key × JsonTree)) : Ends (checkEach check budget entries) := by
  induction entries generalizing budget with
  | nil => exact Ends.pure _
  | cons entry rest ih => exact (h _ _ _).bind fun _ => ih _

theorem ends_validateParameter (path : List Key) (value : JsonTree) (budget : SchemaValueBudget) :
    Ends (validateParameter path value budget) :=
  (Ends.checked _).bind fun _ => (Ends.checked _).bind fun _ => (Ends.checked _).bind fun _ =>
    (Ends.checked _).bind fun _ => (Ends.checked _).bind fun _ =>
      (ends_assertJsonSchema _ _ _).bind fun _ => Ends.pure _

theorem ends_checkParameters (identities : List JsString) (budget : SchemaValueBudget)
    (entries : List (List Key × JsonTree)) : Ends (checkParameters identities budget entries) := by
  induction entries generalizing identities budget with
  | nil => exact Ends.pure _
  | cons entry rest ih =>
    apply (ends_validateParameter _ _ _).bind
    rintro ⟨location, name, budget⟩
    show Ends (if _ then _ else _)
    split
    · exact Ends.throw _
    · exact ih _ _

theorem ends_validateParameters (value : Option JsonTree) (path : List Key)
    (budget : SchemaValueBudget) : Ends (validateParameters value path budget) :=
  (Ends.checked _).bind fun _ => ends_checkParameters _ _ _

theorem ends_validateResource (path : List Key) (entry : JsonTree) (budget : SchemaValueBudget) :
    Ends (validateResource path entry budget) :=
  (Ends.checked _).bind fun _ => (Ends.checked _).bind fun _ => (Ends.checked _).bind fun _ =>
    ends_assertJsonSchema _ _ _

theorem ends_validateType (path : List Key) (entry : JsonTree) (budget : SchemaValueBudget) :
    Ends (validateType path entry budget) :=
  (Ends.checked _).bind fun _ => (Ends.checked _).bind fun _ => (Ends.checked _).bind fun _ =>
    (Ends.checked _).bind fun _ => ends_assertJsonSchema _ _ _

theorem ends_validateRoute (required optional : List String) (path : List Key) (route : JsonTree) :
    Ends (validateRoute required optional path route) :=
  (Ends.checked _).bind fun _ => (Ends.checked _).bind fun _ => (Ends.checked _).bind fun _ =>
    Ends.checked _

theorem ends_validatePage (path : List Key) (page : JsonTree) (budget : SchemaValueBudget) :
    Ends (validatePage path page budget) :=
  (ends_validateRoute _ _ _ _).bind fun _ => ends_validateParameters _ _ _

theorem ends_validateMutation (path : List Key) (mutation : JsonTree)
    (budget : SchemaValueBudget) : Ends (validateMutation path mutation budget) := by
  apply (ends_validateRoute _ _ _ _).bind
  intro _
  apply (Ends.checked _).bind
  intro _
  apply (ends_validateParameters _ _ _).bind
  intro budget
  split
  · exact Ends.pure _
  · exact ends_assertJsonSchema _ _ _

theorem ends_validateVersionTypes (hasTypes : Bool) (manifest : JsonTree)
    (budget : SchemaValueBudget) : Ends (validateVersionTypes hasTypes manifest budget) := by
  unfold validateVersionTypes
  split
  · exact (Ends.checked _).bind fun _ => ends_checkEach ends_validateType _ _
  · exact Ends.pure _

theorem ends_checkManifest (manifest : JsonTree) : Ends (checkManifest manifest) :=
  (Ends.checked _).bind fun _ => (Ends.checked _).bind fun _ => (Ends.checked _).bind fun hasTypes =>
    (Ends.checked _).bind fun _ => (Ends.checked _).bind fun _ =>
      (ends_validateVersionTypes hasTypes manifest _).bind fun _ =>
        ((Ends.checked _).bind fun _ => ends_checkEach ends_validateResource _ _).bind fun _ =>
          ((Ends.checked _).bind fun _ => ends_checkEach ends_validatePage _ _).bind fun _ =>
            (Ends.checked _).bind fun _ => ends_checkEach ends_validateMutation _ _

/-! ## Reading the copy back -/

theorem fuel_pos {fuel depth : Nat} (hfuel : maxManifestDepth < depth + fuel)
    (hdepth : depth ≤ maxManifestDepth) :
    ∃ n, fuel = n + 1 ∧ maxManifestDepth < depth + 1 + n :=
  ⟨fuel - 1, by omega, by omega⟩

mutual

theorem readBack_denotes {store : List OutObject} :
    ∀ (data : JsonTree) {fuel depth : Nat} {value : OutValue},
      maxManifestDepth < depth + fuel → Denotes store data value → WithinBounds depth data →
        readBack store fuel value = some data
  -- Structural recursion on the data; the fuel falls with the depth, which is bounded.
  | .null, fuel, depth, value, hfuel, hdenotes, hwithin => by
    obtain ⟨n, rfl, -⟩ := fuel_pos hfuel hwithin
    cases hdenotes
    rfl
  | .bool b, fuel, depth, value, hfuel, hdenotes, hwithin => by
    obtain ⟨n, rfl, -⟩ := fuel_pos hfuel hwithin
    cases hdenotes
    rfl
  | .number n, fuel, depth, value, hfuel, hdenotes, hwithin => by
    obtain ⟨n, rfl, -⟩ := fuel_pos hfuel hwithin.1
    cases hdenotes
    rfl
  | .string s, fuel, depth, value, hfuel, hdenotes, hwithin => by
    obtain ⟨n, rfl, -⟩ := fuel_pos hfuel hwithin.1
    cases hdenotes
    rfl
  | .array items, fuel, depth, value, hfuel, hdenotes, hwithin => by
    obtain ⟨hdepth, -, hitems⟩ := hwithin
    obtain ⟨n, rfl, hn⟩ := fuel_pos hfuel hdepth
    obtain ⟨id, slots, rfl, hstore, hslots⟩ := hdenotes
    simp only [readBack, hstore, readBack_items items hn hslots hitems, Option.map_some]
  | .object members, fuel, depth, value, hfuel, hdenotes, hwithin => by
    obtain ⟨hdepth, -, hmembers⟩ := hwithin
    obtain ⟨n, rfl, hn⟩ := fuel_pos hfuel hdepth
    obtain ⟨id, slots, rfl, hstore, hslots⟩ := hdenotes
    simp only [readBack, hstore, readBack_members members hn hslots hmembers, Option.map_some]

theorem readBack_items {store : List OutObject} :
    ∀ (items : List JsonTree) {fuel depth : Nat} {slots : List OutValue},
      maxManifestDepth < depth + fuel → DenotesItems store items slots → ItemsWithin depth items →
        (slots.map some).mapM (fun slot : Option OutValue => slot.bind (readBack store fuel)) =
          some items
  | [], fuel, depth, slots, hfuel, hdenotes, hwithin => by
    cases slots with
    | nil => rfl
    | cons slot slots => exact hdenotes.elim
  | item :: items, fuel, depth, slots, hfuel, hdenotes, hwithin => by
    cases slots with
    | nil => exact hdenotes.elim
    | cons slot slots =>
      have hitem := readBack_denotes item hfuel hdenotes.1 hwithin.1
      have hitems := readBack_items items hfuel hdenotes.2 hwithin.2
      rw [List.map_cons, List.mapM_cons, hitems]
      simp only [Option.bind_some, hitem]
      rfl

theorem readBack_members {store : List OutObject} :
    ∀ (members : List (JsString × JsonTree)) {fuel depth : Nat}
      {slots : List (JsString × OutValue)},
      maxManifestDepth < depth + fuel → DenotesMembers store members slots →
        MembersWithin depth members →
        slots.mapM (fun member : JsString × OutValue =>
          (readBack store fuel member.2).map fun data => (member.1, data)) = some members
  | [], fuel, depth, slots, hfuel, hdenotes, hwithin => by
    cases slots with
    | nil => rfl
    | cons slot slots => exact hdenotes.elim
  | (key, item) :: members, fuel, depth, slots, hfuel, hdenotes, hwithin => by
    cases slots with
    | nil => exact hdenotes.elim
    | cons slot slots =>
      obtain ⟨name, slot⟩ := slot
      obtain ⟨rfl, hitem, hmembers⟩ := hdenotes
      have hread := readBack_denotes item hfuel hitem hwithin.2.1
      have hreads := readBack_members members hfuel hmembers hwithin.2.2
      rw [List.mapM_cons, hreads]
      simp only [hread, Option.map_some]
      rfl

end

/-! ## What JSON data cannot be -/

variable {R : Type} {graph : ObjectGraph R}

/-- An object has another one in an own property. -/
def Edge (graph : ObjectGraph R) (r r' : R) : Prop :=
  ∃ keys key enumerable, graph.ownKeys r = some keys ∧ .string key ∈ keys ∧
    graph.descriptor r key = some (some (.data (.object r') enumerable))

/-- The value leads to this object through own properties. -/
def LeadsTo (graph : ObjectGraph R) (value : JsValue R) (r : R) : Prop :=
  ∃ first, value = .object first ∧ Relation.ReflTransGen (Edge graph) first r

/-- Neither an array nor a plain object. -/
def NotPlain (graph : ObjectGraph R) (r : R) : Prop :=
  graph.isArray r ≠ some true ∧ (graph.isArray r = none ∨ graph.plain r ≠ some true)

def HasAccessor (graph : ObjectGraph R) (r : R) : Prop :=
  ∃ keys key, graph.ownKeys r = some keys ∧ .string key ∈ keys ∧
    graph.descriptor r key = some (some .accessor)

theorem itemsOf_mem {items : List JsonTree} {values : List (JsValue R)}
    (h : ItemsOf graph items values) {value : JsValue R} (hv : value ∈ values) :
    ∃ item, DataOf graph item value ∧ nodes item ≤ itemNodes items := by
  induction items generalizing values with
  | nil =>
    cases values with
    | nil => cases hv
    | cons => exact h.elim
  | cons item items ih =>
    cases values with
    | nil => exact h.elim
    | cons first values =>
      rw [itemNodes]
      rcases List.mem_cons.mp hv with rfl | hv
      · exact ⟨item, h.1, Nat.le_add_right _ _⟩
      · obtain ⟨other, hdata, hle⟩ := ih h.2 hv
        exact ⟨other, hdata, hle.trans (Nat.le_add_left _ _)⟩

theorem membersOf_mem {members : List (JsString × JsonTree)} {values : List (JsString × JsValue R)}
    (h : MembersOf graph members values) {value : JsString × JsValue R} (hv : value ∈ values) :
    ∃ item, DataOf graph item value.2 ∧ nodes item ≤ memberNodes members := by
  induction members generalizing values with
  | nil =>
    cases values with
    | nil => cases hv
    | cons => exact h.elim
  | cons member members ih =>
    obtain ⟨key, item⟩ := member
    cases values with
    | nil => exact h.elim
    | cons first values =>
      obtain ⟨key', first⟩ := first
      obtain ⟨-, hitem, hrest⟩ := h
      rw [memberNodes]
      rcases List.mem_cons.mp hv with rfl | hv
      · exact ⟨item, hitem, Nat.le_add_right _ _⟩
      · obtain ⟨other, hdata, hle⟩ := ih hrest hv
        exact ⟨other, hdata, hle.trans (Nat.le_add_left _ _)⟩

/-- The own properties of an array that is JSON data. -/
theorem ReadsArray.descriptor {r : R} {items : List (JsValue R)} (h : ReadsArray graph r items)
    {keys : List PropertyKey} {key : JsString} (hkeys : graph.ownKeys r = some keys)
    (hkey : .string key ∈ keys) :
    (∃ value enumerable, graph.descriptor r key = some (some (.data value enumerable)) ∧
        (safeLength? value).isSome) ∨
      ∃ value ∈ items, graph.descriptor r key = some (some (.data value true)) := by
  obtain ⟨keys', hkeys', hall⟩ := h.keys
  rw [hkeys] at hkeys'
  cases hkeys'
  obtain ⟨name, hname, hindex⟩ := hall _ hkey
  cases hname
  unfold isArrayKey at hindex
  rw [Bool.or_eq_true] at hindex
  rcases hindex with hlength | hitem
  · obtain ⟨value, enumerable, hread, hsafe⟩ := h.length
    rw [decide_eq_true_eq] at hlength
    left
    rw [hlength]
    exact ⟨value, enumerable, hread, by rw [hsafe]; rfl⟩
  · right
    rw [List.any_eq_true] at hitem
    obtain ⟨i, hi, heq⟩ := hitem
    rw [decide_eq_true_eq] at heq
    rw [List.mem_range] at hi
    rw [heq]
    exact ⟨items[i], List.getElem_mem hi, h.items i hi⟩

theorem ReadsObject.descriptor {r : R} {members : List (JsString × JsValue R)}
    (h : ReadsObject graph r members) {keys : List PropertyKey} {key : JsString}
    (hkeys : graph.ownKeys r = some keys) (hkey : .string key ∈ keys) :
    ∃ member ∈ members, graph.descriptor r key = some (some (.data member.2 true)) := by
  have hown := h.keys
  rw [hkeys] at hown
  cases hown
  obtain ⟨member, hmember, heq⟩ := List.mem_map.mp hkey
  cases heq
  exact ⟨member, hmember, h.members member hmember⟩

/-- A step down leads to smaller data. -/
theorem dataOf_edge {data : JsonTree} {r r' : R} (h : DataOf graph data (.object r))
    (hedge : Edge graph r r') :
    ∃ below, DataOf graph below (.object r') ∧ nodes below < nodes data := by
  obtain ⟨keys, key, enumerable, hkeys, hkey, hread⟩ := hedge
  cases data with
  | null => cases h
  | bool b => cases h
  | number n => cases h.1
  | string s => cases h
  -- an item of the array, or its length, which is no object
  | array items =>
    obtain ⟨first, values, heq, hreads, hitems⟩ := h
    cases heq
    rcases hreads.descriptor hkeys hkey with ⟨value, e, hvalue, hsafe⟩ | ⟨value, hmem, hvalue⟩
    · rw [hread] at hvalue
      cases hvalue
      cases hsafe
    · rw [hread] at hvalue
      cases hvalue
      obtain ⟨item, hdata, hle⟩ := itemsOf_mem hitems hmem
      exact ⟨item, hdata, by rw [nodes]; omega⟩
  -- a member of the object
  | object members =>
    obtain ⟨first, values, heq, hreads, hmembers⟩ := h
    cases heq
    obtain ⟨member, hmem, hvalue⟩ := hreads.descriptor hkeys hkey
    rw [hread] at hvalue
    injection hvalue with hvalue
    injection hvalue with hvalue
    injection hvalue with hvalue
    obtain ⟨item, hdata, hle⟩ := membersOf_mem hmembers hmem
    rw [← hvalue] at hdata
    exact ⟨item, hdata, by rw [nodes]; omega⟩

/-- So no cycle passes through an object that is JSON data. -/
theorem dataOf_acyclic {data : JsonTree} {r : R} (h : DataOf graph data (.object r)) :
    ¬Relation.TransGen (Edge graph) r r := by
  induction hn : nodes data using Nat.strong_induction_on generalizing data r with
  | _ n ih =>
    intro hcycle
    obtain ⟨next, hfirst, hrest⟩ := Relation.TransGen.head'_iff.mp hcycle
    obtain ⟨below, hbelow, hlt⟩ := dataOf_edge h hfirst
    exact ih _ (hn ▸ hlt) hbelow rfl (Relation.TransGen.tail' hrest hfirst)

/-- Every object that JSON data leads to is JSON data. -/
theorem dataOf_leadsTo {data : JsonTree} {value : JsValue R} {r : R}
    (h : DataOf graph data value) (hlead : LeadsTo graph value r) :
    ∃ below, DataOf graph below (.object r) := by
  obtain ⟨first, rfl, hreach⟩ := hlead
  induction hreach with
  | refl => exact ⟨data, h⟩
  | tail _ hedge ih =>
    obtain ⟨below, hbelow⟩ := ih
    obtain ⟨next, hnext, -⟩ := dataOf_edge hbelow hedge
    exact ⟨next, hnext⟩

-- Each kind of value is plain for its own reason; primitives are no objects.
theorem dataOf_plain {data : JsonTree} {r : R} (h : DataOf graph data (.object r)) :
    ¬NotPlain graph r ∧ ¬HasAccessor graph r := by
  cases data with
  | null => cases h
  | bool b => cases h
  | number n => cases h.1
  | string s => cases h
  | array items =>
    obtain ⟨first, values, heq, hreads, -⟩ := h
    cases heq
    refine ⟨fun hplain => hplain.1 hreads.isArray, ?_⟩
    rintro ⟨keys, key, hkeys, hkey, hread⟩
    rcases hreads.descriptor hkeys hkey with ⟨value, e, hvalue, -⟩ | ⟨value, -, hvalue⟩
    · rw [hread] at hvalue
      cases hvalue
    · rw [hread] at hvalue
      cases hvalue
  | object members =>
    obtain ⟨first, values, heq, hreads, -⟩ := h
    cases heq
    constructor
    · rintro ⟨-, hnone | hplain⟩
      · rw [hreads.isArray] at hnone
        cases hnone
      · exact hplain hreads.plain
    · rintro ⟨keys, key, hkeys, hkey, hread⟩
      obtain ⟨member, -, hvalue⟩ := hreads.descriptor hkeys hkey
      rw [hread] at hvalue
      cases hvalue

/-! ### One value is one data -/

theorem ReadsArray.unique {r : R} {items items' : List (JsValue R)} (h : ReadsArray graph r items)
    (h' : ReadsArray graph r items') : items = items' := by
  obtain ⟨value, e, hread, hlen⟩ := h.length
  obtain ⟨value', e', hread', hlen'⟩ := h'.length
  rw [hread] at hread'
  cases hread'
  rw [hlen] at hlen'
  apply List.ext_getElem (Option.some.inj hlen')
  intro i h1 h2
  have hitem := h.items i h1
  rw [h'.items i h2] at hitem
  injection hitem with hitem
  injection hitem with hitem
  injection hitem with hitem
  exact hitem.symm

theorem ReadsObject.unique {r : R} {members members' : List (JsString × JsValue R)}
    (h : ReadsObject graph r members) (h' : ReadsObject graph r members') : members = members' := by
  have hkeys := h.keys
  rw [h'.keys] at hkeys
  have hnames := Option.some.inj hkeys
  apply List.ext_getElem (by simpa using (congrArg List.length hnames).symm)
  intro i h1 h2
  have hname : members'[i].1 = members[i].1 := by
    have := List.getElem_of_eq hnames (show i < (members'.map _).length by simpa using h2)
    simp only [List.getElem_map] at this
    injection this
  have hread := h.members _ (List.getElem_mem h1)
  rw [← hname, h'.members _ (List.getElem_mem h2)] at hread
  injection hread with hread
  injection hread with hread
  injection hread with hread
  exact Prod.ext hname.symm hread.symm

mutual

theorem dataOf_unique : ∀ (data other : JsonTree) {value : JsValue R},
    DataOf graph data value → DataOf graph other value → data = other
  -- By recursion on the data: what is read of an object is determined by the graph.
  | .null, other, value, h, h' => by
    cases h
    cases other <;> simp_all [DataOf]
  | .bool b, other, value, h, h' => by
    cases h
    cases other <;> simp_all [DataOf]
  | .number n, other, value, h, h' => by
    cases h.1
    cases other <;> simp_all [DataOf]
  | .string s, other, value, h, h' => by
    cases h
    cases other <;> simp_all [DataOf]
  | .array items, other, value, h, h' => by
    obtain ⟨r, values, rfl, hreads, hitems⟩ := h
    cases other with
    | null => cases h'
    | bool b => cases h'
    | number n => cases h'.1
    | string s => cases h'
    | array items' =>
      obtain ⟨r', values', heq, hreads', hitems'⟩ := h'
      cases heq
      cases hreads.unique hreads'
      rw [itemsOf_unique items items' hitems hitems']
    -- the same reference is not both an array and an object
    | object members =>
      obtain ⟨r', values', heq, hreads', -⟩ := h'
      cases heq
      have := hreads.isArray
      rw [hreads'.isArray] at this
      cases this
  | .object members, other, value, h, h' => by
    obtain ⟨r, values, rfl, hreads, hmembers⟩ := h
    cases other with
    | null => cases h'
    | bool b => cases h'
    | number n => cases h'.1
    | string s => cases h'
    | array items =>
      obtain ⟨r', values', heq, hreads', -⟩ := h'
      cases heq
      have := hreads.isArray
      rw [hreads'.isArray] at this
      cases this
    | object members' =>
      obtain ⟨r', values', heq, hreads', hmembers'⟩ := h'
      cases heq
      cases hreads.unique hreads'
      rw [membersOf_unique members members' hmembers hmembers']

theorem itemsOf_unique : ∀ (items others : List JsonTree) {values : List (JsValue R)},
    ItemsOf graph items values → ItemsOf graph others values → items = others
  | [], others, values, h, h' => by
    cases values with
    | cons => exact h.elim
    | nil =>
      cases others with
      | nil => rfl
      | cons => exact h'.elim
  | item :: items, others, values, h, h' => by
    cases values with
    | nil => exact h.elim
    | cons value values =>
      cases others with
      | nil => exact h'.elim
      | cons other others =>
        rw [dataOf_unique item other h.1 h'.1, itemsOf_unique items others h.2 h'.2]

theorem membersOf_unique : ∀ (members others : List (JsString × JsonTree))
    {values : List (JsString × JsValue R)},
    MembersOf graph members values → MembersOf graph others values → members = others
  | [], others, values, h, h' => by
    cases values with
    | cons => exact h.elim
    | nil =>
      cases others with
      | nil => rfl
      | cons => exact h'.elim
  | (key, item) :: members, others, values, h, h' => by
    cases values with
    | nil => exact h.elim
    | cons value values =>
      cases others with
      | nil => exact h'.elim
      | cons other others =>
        obtain ⟨hkey, hitem, hmembers⟩ := h
        obtain ⟨hkey', hitem', hmembers'⟩ := h'
        rw [hkey, hkey'.symm, dataOf_unique item other.2 hitem hitem',
          membersOf_unique members others hmembers hmembers']

end

/-! ## The budget of the schemas -/

mutual

/-- The number of arrays and objects. -/
def containers : JsonTree → Nat
  | .array items => itemContainers items + 1
  | .object members => memberContainers members + 1
  | _ => 0

def itemContainers : List JsonTree → Nat
  | [] => 0
  | item :: items => containers item + itemContainers items

def memberContainers : List (JsString × JsonTree) → Nat
  | [] => 0
  | (_, item) :: members => containers item + memberContainers members

end

def SchemaValueBudget.Kept (budget : SchemaValueBudget) : Prop :=
  budget.values ≤ maxSchemaValueCount ∧ budget.containers ≤ maxSchemaValueContainers

/-- Some values and containers were counted, and the budget was kept. -/
structure Counted (before after : SchemaValueBudget) (values containers : Nat) : Prop where
  values : after.values = before.values + values
  containers : after.containers = before.containers + containers
  kept : before.Kept → after.Kept

theorem Counted.refl (budget : SchemaValueBudget) : Counted budget budget 0 0 :=
  ⟨rfl, rfl, id⟩

theorem Counted.trans {a b c : SchemaValueBudget} {n m n' m' : Nat} (h : Counted a b n m)
    (h' : Counted b c n' m') : Counted a c (n + n') (m + m') :=
  ⟨by rw [h'.values, h.values, Nat.add_assoc], by rw [h'.containers, h.containers, Nat.add_assoc],
    fun ha => h'.kept (h.kept ha)⟩

theorem countValue_ok {path : List Key} {before after : SchemaValueBudget}
    (h : countValue path before = .ok after) : Counted before after 1 0 := by
  unfold countValue at h
  split at h
  · cases h
  · next hle =>
    cases h
    exact ⟨rfl, rfl, fun hkept => ⟨Nat.not_lt.mp hle, hkept.2⟩⟩

theorem countContainer_ok {path : List Key} {before after : SchemaValueBudget}
    (h : countContainer path before = .ok after) : Counted before after 0 1 := by
  unfold countContainer at h
  split at h
  · cases h
  · next hle =>
    cases h
    exact ⟨rfl, rfl, fun hkept => ⟨hkept.1, Nat.not_lt.mp hle⟩⟩

mutual

theorem countSchema_ok : ∀ (data : JsonTree) {path : List Key} {depth : Nat}
    {before after : SchemaValueBudget}, countSchema path depth before data = .ok after →
      Counted before after (nodes data) (containers data)
  -- By recursion on the data; each branch counts the value first, then its container, then below.
  | .null, path, depth, before, after, h => countValue_ok h
  | .bool b, path, depth, before, after, h => countValue_ok h
  | .number n, path, depth, before, after, h => by
    obtain ⟨budget, hvalue, h⟩ := except_bind_ok.mp h
    obtain ⟨_, -, h⟩ := except_bind_ok.mp h
    split at h
    · cases h
    · cases h
      exact countValue_ok hvalue
  | .string s, path, depth, before, after, h => by
    obtain ⟨budget, hvalue, h⟩ := except_bind_ok.mp h
    split at h
    · cases h
    · cases h
      exact countValue_ok hvalue
  | .array items, path, depth, before, after, h => by
    obtain ⟨budget, hvalue, h⟩ := except_bind_ok.mp h
    obtain ⟨_, -, h⟩ := except_bind_ok.mp h
    obtain ⟨budget', hcontainer, h⟩ := except_bind_ok.mp h
    split at h
    · cases h
    · have hitems := countItems_ok items h
      -- value, container and items, in the order in which the source counts them
      have := ((countValue_ok hvalue).trans (countContainer_ok hcontainer)).trans hitems
      rw [nodes, containers, Nat.add_comm (itemNodes items), Nat.add_comm (itemContainers items)]
      exact this
  | .object members, path, depth, before, after, h => by
    obtain ⟨budget, hvalue, h⟩ := except_bind_ok.mp h
    obtain ⟨_, -, h⟩ := except_bind_ok.mp h
    obtain ⟨budget', hcontainer, h⟩ := except_bind_ok.mp h
    split at h
    · cases h
    · split at h
      · cases h
      · have hmembers := countMembers_ok members h
        have := ((countValue_ok hvalue).trans (countContainer_ok hcontainer)).trans hmembers
        rw [nodes, containers, Nat.add_comm (memberNodes members),
          Nat.add_comm (memberContainers members)]
        exact this

theorem countItems_ok : ∀ (items : List JsonTree) {path : List Key} {depth index : Nat}
    {before after : SchemaValueBudget}, countItems path depth index before items = .ok after →
      Counted before after (itemNodes items) (itemContainers items)
  | [], path, depth, index, before, after, h => by
    cases h
    exact Counted.refl _
  | item :: items, path, depth, index, before, after, h => by
    obtain ⟨budget, hitem, h⟩ := except_bind_ok.mp h
    exact (countSchema_ok item hitem).trans (countItems_ok items h)

theorem countMembers_ok : ∀ (members : List (JsString × JsonTree)) {path : List Key} {depth : Nat}
    {before after : SchemaValueBudget}, countMembers path depth before members = .ok after →
      Counted before after (memberNodes members) (memberContainers members)
  | [], path, depth, before, after, h => by
    cases h
    exact Counted.refl _
  | (key, item) :: members, path, depth, before, after, h => by
    obtain ⟨budget, hmembers, h⟩ := except_bind_ok.mp h
    rw [memberNodes, memberContainers, Nat.add_comm (nodes item), Nat.add_comm (containers item)]
    exact (countMembers_ok members hmembers).trans (countSchema_ok item h)

end

/-- The entries of a list or of a record. -/
def entries : Option JsonTree → List JsonTree
  | some (.array items) => items
  | some (.object members) => members.map Prod.snd
  | _ => []

/-- The schema of a type, a resource or a parameter. -/
def entrySchema (entry : JsonTree) : List JsonTree := (field "schema" entry).toList

def parameterSchemas (route : JsonTree) : List JsonTree :=
  (entries (field "parameters" route)).flatMap entrySchema

def mutationSchemas (mutation : JsonTree) : List JsonTree :=
  parameterSchemas mutation ++ (bodyOf mutation).toList

/-- All schemas of a manifest. -/
def manifestSchemas (manifest : JsonTree) : List JsonTree :=
  (entries (field "types" manifest)).flatMap entrySchema ++
    ((entries (field "resources" manifest)).flatMap entrySchema ++
      ((entries (field "pages" manifest)).flatMap parameterSchemas ++
        (entries (field "mutations" manifest)).flatMap mutationSchemas))

/-- A check that returns has counted these schemas. -/
def Spends (budget : SchemaValueBudget) (check : Check SchemaValueBudget)
    (schemas : List JsonTree) : Prop :=
  ∀ after, ExceptT.run check = some (.ok after) →
    Counted budget after (schemas.map nodes).sum (schemas.map containers).sum

theorem check_bind_ok {α β : Type} {check : Check α} {next : α → Check β} {b : β} :
    ExceptT.run (check >>= next) = some (.ok b) ↔
      ∃ a, ExceptT.run check = some (.ok a) ∧ ExceptT.run (next a) = some (.ok b) := by
  show (ExceptT.run check >>= ExceptT.bindCont next) = some (.ok b) ↔ _
  cases ExceptT.run check with
  | none => simp
  | some result =>
    cases result with
    | error e =>
      constructor
      · exact nofun
      · rintro ⟨a, ha, -⟩
        cases ha
    | ok a =>
      constructor
      · exact fun h => ⟨a, rfl, h⟩
      · rintro ⟨a', ha, h⟩
        cases ha
        exact h

namespace Spends

variable {budget : SchemaValueBudget} {schemas : List JsonTree}

theorem pure (budget : SchemaValueBudget) : Spends budget (pure budget) [] := by
  intro after h
  cases h
  exact Counted.refl _

/-- A check that comes first and counts nothing. -/
theorem after {α : Type} {check : Check α} {next : α → Check SchemaValueBudget}
    (h : ∀ a, ExceptT.run check = some (.ok a) → Spends budget (next a) schemas) :
    Spends budget (check >>= next) schemas := by
  intro b hb
  obtain ⟨a, ha, hnext⟩ := check_bind_ok.mp hb
  exact h a ha b hnext

theorem andThen {check : Check SchemaValueBudget} {next : SchemaValueBudget → Check SchemaValueBudget}
    {more : List JsonTree} (h : Spends budget check schemas)
    (hnext : ∀ budget, Spends budget (next budget) more) :
    Spends budget (check >>= next) (schemas ++ more) := by
  intro b hb
  obtain ⟨a, ha, hb⟩ := check_bind_ok.mp hb
  rw [List.map_append, List.map_append, List.sum_append, List.sum_append]
  exact (h a ha).trans (hnext a b hb)

end Spends

theorem spends_assertJsonSchema (value : Option JsonTree) (path : List Key)
    (budget : SchemaValueBudget) :
    Spends budget (assertJsonSchema value path budget) value.toList := by
  intro after h
  obtain ⟨members, hmembers, h⟩ := check_bind_ok.mp h
  obtain ⟨counted, hcount, h⟩ := check_bind_ok.mp h
  obtain ⟨_, -, h⟩ := check_bind_ok.mp h
  cases h
  have hcounted := countSchema_ok _ (Option.some.inj hcount)
  have hvalue : value = some (.object members) := by
    have hok : assertRecord value path = .ok members := Option.some.inj hmembers
    unfold assertRecord at hok
    split at hok
    · cases hok
      rfl
    · cases hok
  rw [hvalue]
  simpa using hcounted

theorem spends_checkEach {check : List Key → JsonTree → SchemaValueBudget → Check SchemaValueBudget}
    {schemas : JsonTree → List JsonTree}
    (h : ∀ path value budget, Spends budget (check path value budget) (schemas value))
    (budget : SchemaValueBudget) (values : List (List Key × JsonTree)) :
    Spends budget (checkEach check budget values) ((values.map Prod.snd).flatMap schemas) := by
  induction values generalizing budget with
  | nil => exact Spends.pure _
  | cons value rest ih =>
    rw [List.map_cons, List.flatMap_cons]
    exact (h _ _ _).andThen fun _ => ih _

theorem spends_checkParameters (identities : List JsString) (budget : SchemaValueBudget)
    (values : List (List Key × JsonTree)) :
    Spends budget (checkParameters identities budget values)
      ((values.map Prod.snd).flatMap entrySchema) := by
  induction values generalizing identities budget with
  | nil => exact Spends.pure _
  | cons value rest ih =>
    obtain ⟨path, value⟩ := value
    intro after h
    obtain ⟨⟨location, name, counted⟩, hparameter, h⟩ := check_bind_ok.mp h
    have hcounted : Counted budget counted ((entrySchema value).map nodes).sum
        ((entrySchema value).map containers).sum := by
      obtain ⟨_, -, h⟩ := check_bind_ok.mp hparameter
      obtain ⟨_, -, h⟩ := check_bind_ok.mp h
      obtain ⟨_, -, h⟩ := check_bind_ok.mp h
      obtain ⟨_, -, h⟩ := check_bind_ok.mp h
      obtain ⟨_, -, h⟩ := check_bind_ok.mp h
      obtain ⟨counted', hschema, h⟩ := check_bind_ok.mp h
      cases h
      exact spends_assertJsonSchema _ _ _ _ hschema
    rw [List.map_cons, List.flatMap_cons, List.map_append, List.map_append, List.sum_append,
      List.sum_append]
    apply hcounted.trans
    change ExceptT.run (if _ then _ else _) = _ at h
    split at h
    · cases h
    · exact ih _ _ after h

theorem named_snd (path : List Key) (members : List (JsString × JsonTree)) :
    (named path members).map Prod.snd = members.map Prod.snd := by
  unfold named
  rw [List.map_map]
  rfl

theorem assertRecord_ok {value : Option JsonTree} {path : List Key}
    {members : List (JsString × JsonTree)} (h : assertRecord value path = .ok members) :
    value = some (.object members) := by
  unfold assertRecord at h
  split at h
  · cases h
    rfl
  · cases h

theorem assertArray_ok {value : Option JsonTree} {path : List Key} {items : List JsonTree}
    (h : assertArray value path = .ok items) : value = some (.array items) := by
  unfold assertArray at h
  split at h
  · cases h
    rfl
  · cases h

theorem spends_record {check : List Key → JsonTree → SchemaValueBudget → Check SchemaValueBudget}
    {schemas : JsonTree → List JsonTree} (value : Option JsonTree) (path : List Key)
    (budget : SchemaValueBudget)
    (h : ∀ path value budget, Spends budget (check path value budget) (schemas value)) :
    Spends budget (checked (assertRecord value path) >>= fun members =>
      checkEach check budget (named path members)) ((entries value).flatMap schemas) := by
  apply Spends.after
  intro members hmembers
  rw [assertRecord_ok (Option.some.inj hmembers)]
  have heach := spends_checkEach h budget (named path members)
  rw [named_snd] at heach
  exact heach

theorem spends_list {check : List Key → JsonTree → SchemaValueBudget → Check SchemaValueBudget}
    {schemas : JsonTree → List JsonTree} (value : Option JsonTree) (path : List Key)
    (budget : SchemaValueBudget)
    (h : ∀ path value budget, Spends budget (check path value budget) (schemas value)) :
    Spends budget (checked (assertArray value path) >>= fun items =>
      checkEach check budget (indexed path items)) ((entries value).flatMap schemas) := by
  apply Spends.after
  intro items hitems
  rw [assertArray_ok (Option.some.inj hitems)]
  have heach := spends_checkEach h budget (indexed path items)
  rw [indexed_snd] at heach
  exact heach

theorem spends_validateParameters (route : JsonTree) (path : List Key)
    (budget : SchemaValueBudget) :
    Spends budget (validateParameters (field "parameters" route) path budget)
      (parameterSchemas route) := by
  apply Spends.after
  intro items hitems
  unfold parameterSchemas
  rw [assertArray_ok (Option.some.inj hitems)]
  have heach := spends_checkParameters [] budget (indexed path items)
  rw [indexed_snd] at heach
  exact heach

theorem spends_validateType (path : List Key) (entry : JsonTree) (budget : SchemaValueBudget) :
    Spends budget (validateType path entry budget) (entrySchema entry) :=
  Spends.after fun _ _ => Spends.after fun _ _ => Spends.after fun _ _ => Spends.after fun _ _ =>
    spends_assertJsonSchema _ _ _

theorem spends_validateResource (path : List Key) (entry : JsonTree)
    (budget : SchemaValueBudget) :
    Spends budget (validateResource path entry budget) (entrySchema entry) :=
  Spends.after fun _ _ => Spends.after fun _ _ => Spends.after fun _ _ =>
    spends_assertJsonSchema _ _ _

theorem spends_validatePage (path : List Key) (page : JsonTree) (budget : SchemaValueBudget) :
    Spends budget (validatePage path page budget) (parameterSchemas page) :=
  Spends.after fun _ _ => spends_validateParameters _ _ _

theorem spends_validateMutation (path : List Key) (mutation : JsonTree)
    (budget : SchemaValueBudget) :
    Spends budget (validateMutation path mutation budget) (mutationSchemas mutation) := by
  refine Spends.after fun _ _ => Spends.after fun _ _ =>
    (spends_validateParameters _ _ _).andThen fun budget => ?_
  cases bodyOf mutation with
  | none => exact Spends.pure _
  | some body => exact spends_assertJsonSchema _ _ _

theorem spends_checkManifest (manifest : JsonTree) :
    Spends ⟨0, 0⟩ (checkManifest manifest) (manifestSchemas manifest) := by
  refine Spends.after fun _ _ => Spends.after fun _ _ => Spends.after fun hasTypes hversion =>
    Spends.after fun _ _ => Spends.after fun _ _ => Spends.andThen ?_ fun _ =>
      (spends_record _ _ _ spends_validateResource).andThen fun _ =>
        (spends_list _ _ _ spends_validatePage).andThen fun _ =>
          spends_list _ _ _ spends_validateMutation
  cases hasTypes with
  | true => exact spends_record _ _ _ spends_validateType
  | false =>
    -- the first version has no types
    have hnone : field "types" manifest = none := by
      have hok : assertVersion manifest = .ok false := Option.some.inj hversion
      unfold assertVersion at hok
      split at hok
      · split at hok
        · cases hok
        · next htypes => simpa using htypes
      · split at hok
        · split at hok <;> cases hok
        · cases hok
    rw [hnone]
    exact Spends.pure _

/-! ## Faithful snapshots -/

/-- No bound of a manifest is exceeded. -/
structure ManifestBounded (manifest : JsonTree) : Prop where
  bounded : Bounded manifest
  schemaValues : ((manifestSchemas manifest).map nodes).sum ≤ maxSchemaValueCount
  schemaContainers : ((manifestSchemas manifest).map containers).sum ≤ maxSchemaValueContainers

/-- A value that is refused whatever else it holds. -/
def Offends (graph : ObjectGraph R) (value : JsValue R) : Prop :=
  (∃ r, LeadsTo graph value r ∧
      (Relation.TransGen (Edge graph) r r ∨ HasAccessor graph r ∨ NotPlain graph r)) ∨
    ∃ data, DataOf graph data value ∧ ¬ManifestBounded data

variable [DecidableEq R]

theorem validate_ok {value : JsValue R} {snapshot : ManifestSnapshot}
    (h : ExceptT.run (validateFluxFastSchemaManifest graph value) = some (.ok snapshot)) :
    ∃ data, DataOf graph data value ∧ Denotes snapshot.store data snapshot.root ∧
      ManifestBounded data := by
  obtain ⟨copier, hcopier, h⟩ := check_bind_ok.mp h
  obtain ⟨data, copy, hcopy, hdata, hdenotes, hbounded⟩ := createManifestSnapshot_ok hcopier
  simp only [hcopy] at h
  obtain ⟨manifest, hread, h⟩ := check_bind_ok.mp h
  obtain ⟨after, hcheck, h⟩ := check_bind_ok.mp h
  cases h
  have hback := readBack_denotes data (show maxManifestDepth < 0 + (maxManifestDepth + 1) by omega)
    hdenotes hbounded.within
  have hmanifest : manifest = data := by
    change (readBack copier.store (maxManifestDepth + 1) copy).map Except.ok = _ at hread
    rw [hback] at hread
    cases hread
    rfl
  have hcounted := spends_checkManifest manifest after hcheck
  have hkept := hcounted.kept ⟨Nat.zero_le _, Nat.zero_le _⟩
  have hvalues := hcounted.values
  have hcontainers := hcounted.containers
  rw [Nat.zero_add] at hvalues hcontainers
  rw [hmanifest] at hvalues hcontainers
  exact ⟨data, hdata, hdenotes, hbounded, hvalues ▸ hkept.1, hcontainers ▸ hkept.2⟩

theorem validate_ends (graph : ObjectGraph R) (value : JsValue R) :
    Ends (validateFluxFastSchemaManifest graph value) := by
  -- Either the snapshot fails, or it is read back and everything else runs on finite data.
  obtain ⟨result, hresult⟩ := createManifestSnapshot_ends graph value
  cases result with
  | error e =>
    refine ⟨.error e, ?_⟩
    show (createManifestSnapshot graph value >>= _) = _
    rw [hresult]
    rfl
  | ok copier =>
    obtain ⟨data, copy, hcopy, -, hdenotes, hbounded⟩ := createManifestSnapshot_ok hresult
    -- the fuel of the reading exceeds the depth that the snapshot has checked
    have hback := readBack_denotes data
      (show maxManifestDepth < 0 + (maxManifestDepth + 1) by omega) hdenotes hbounded.within
    obtain ⟨checked, hchecked⟩ := ends_checkManifest data
    have hrest : Ends (do
        let manifest ← ExceptT.mk
          ((readBack copier.store (maxManifestDepth + 1) copy).map Except.ok)
        let _ ← checkManifest manifest
        return (⟨copier.store, copy⟩ : ManifestSnapshot) : Check ManifestSnapshot) := by
      rw [hback]
      exact Ends.bind ⟨.ok data, rfl⟩ fun manifest =>
        (ends_checkManifest manifest).bind fun _ => Ends.pure _
    obtain ⟨result, hrest⟩ := hrest
    refine ⟨result, ?_⟩
    show (createManifestSnapshot graph value >>= _) = _
    rw [hresult]
    dsimp only [bind, Option.bind, ExceptT.bindCont]
    rw [hcopy]
    exact hrest

/-- The validation ends; what it returns is the JSON data of the value, in objects of the store that it
made; and it refuses cycles, accessors, objects that are not plain and data beyond a bound. -/
theorem validateFluxFastSchemaManifest_faithful (graph : ObjectGraph R) (value : JsValue R) :
    (∃ result, ExceptT.run (validateFluxFastSchemaManifest graph value) = some result) ∧
      (∀ snapshot, ExceptT.run (validateFluxFastSchemaManifest graph value) = some (.ok snapshot) →
        ∃ data, DataOf graph data value ∧ Denotes snapshot.store data snapshot.root) ∧
      (Offends graph value →
        ∃ e, ExceptT.run (validateFluxFastSchemaManifest graph value) = some (.error e)) := by
  obtain ⟨result, hresult⟩ := validate_ends graph value
  refine ⟨⟨result, hresult⟩, ?_, ?_⟩
  · intro snapshot h
    obtain ⟨data, hdata, hdenotes, -⟩ := validate_ok h
    exact ⟨data, hdata, hdenotes⟩
  · intro hoffends
    cases result with
    | error e => exact ⟨e, hresult⟩
    | ok snapshot =>
      exfalso
      obtain ⟨data, hdata, -, hbounded⟩ := validate_ok hresult
      rcases hoffends with ⟨r, hlead, hwrong⟩ | ⟨other, hother, hexceeds⟩
      · obtain ⟨below, hbelow⟩ := dataOf_leadsTo hdata hlead
        obtain ⟨hplain, haccessor⟩ := dataOf_plain hbelow
        rcases hwrong with hcycle | hacc | hnot
        · exact dataOf_acyclic hbelow hcycle
        · exact haccessor hacc
        · exact hplain hnot
      · rw [dataOf_unique other data hother hdata] at hexceeds
        exact hexceeds hbounded

end FluxFast.Codegen
