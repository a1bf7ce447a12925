import FluxFast.Theory.Exceptions
import FluxFast.Validation.PlanBounds
import Mathlib.Data.List.Forall2

/-!
# PlanReading — the plan that a graph spells out

What evaluation reads of a node is read here as a relation, kind by kind.  A node that was validated
can be read as soon as its nested plans can.
-/

namespace FluxFast.Validation

open FluxFast.Theory

/-! ## Reading -/

/-- A field that may be absent. -/
inductive Field {R α : Type} (decode : Value R → Option α) : Value R → Option α → Prop
  | absent : Field decode .undefined none
  | present {value : Value R} {x : α} : decode value = some x → Field decode value (some x)

def text? {R : Type} : Value R → Option String
  | .string text => some text
  | _ => none

def finite? {R : Type} : Value R → Option Number
  | .number n => if n.toRat?.isSome then some n else none
  | _ => none

section Reading

variable {R : Type}

/-- A nested plan that may be absent. -/
inductive SpellsField (P : Value R → Plan R → Prop) : Value R → Option (Plan R) → Prop
  | absent : SpellsField P .undefined none
  | present {value : Value R} {plan : Plan R} : P value plan → SpellsField P value (some plan)

inductive SpellsItems (graph : PlanGraph R) (P : Value R → Plan R → Prop) :
    Value R → List (Plan R) → Prop
  | absent : SpellsItems graph P .undefined []
  | present {r : R} {items : List (Value R)} {plans : List (Plan R)} : graph r = .array items →
      List.Forall₂ P items plans → SpellsItems graph P (.object r) plans

/-- Members under their names. -/
inductive SpellsMembers (graph : PlanGraph R) (P : Value R → Plan R → Prop) :
    Value R → List (String × Plan R) → Prop
  | absent : SpellsMembers graph P .undefined []
  | present {r : R} {members : Members R} {plans : List (String × Plan R)} :
      graph r = .record members → plans.map Prod.fst = members.keys →
      List.Forall₂ P (members.entries.map Prod.snd) (plans.map Prod.snd) →
      SpellsMembers graph P (.object r) plans

inductive SpellsTexts (graph : PlanGraph R) : Value R → List String → Prop
  | absent : SpellsTexts graph .undefined []
  | present {r : R} {items : List (Value R)} {texts : List String} : graph r = .array items →
      items = texts.map .string → SpellsTexts graph (.object r) texts

variable [DecidableEq R]

/-- What evaluation reads of a node of each kind; every pattern can be compiled. -/
inductive SpellsKind (host : PlanHost) (graph : PlanGraph R) (P : Value R → Plan R → Prop) :
    KindName → Members R → Kind R → Prop
  | any {plan : Members R} : SpellsKind host graph P .any plan .any
  | never {plan : Members R} : SpellsKind host graph P .never plan .never
  | null {plan : Members R} : SpellsKind host graph P .null plan .null
  | boolean {plan : Members R} : SpellsKind host graph P .boolean plan .boolean
  -- the pattern is compiled by the host, and the format is one of the supported
  | string {plan : Members R} {fields : StringPlan} :
      Field safeInteger? (read plan "minLength") fields.minLength →
      Field safeInteger? (read plan "maxLength") fields.maxLength →
      Field text? (read plan "pattern") fields.pattern →
      (∀ pattern, fields.pattern = some pattern → ∃ regExp, host.regExp pattern = .ok regExp) →
      Field text? (read plan "format") fields.format →
      (∀ format, fields.format = some format → format ∈ supportedFormats) →
      SpellsKind host graph P .string plan (.string fields)
  -- both names of kinds of numbers are read into one, which tells them apart
  | number {plan : Members R} {kind : KindName} {fields : NumberPlan} :
      (fields.integer = false ∧ kind = .number ∨ fields.integer = true ∧ kind = .integer) →
      Field finite? (read plan "minimum") fields.minimum →
      Field finite? (read plan "maximum") fields.maximum →
      Field finite? (read plan "exclusiveMinimum") fields.exclusiveMinimum →
      Field finite? (read plan "exclusiveMaximum") fields.exclusiveMaximum →
      Field finite? (read plan "multipleOf") fields.multipleOf →
      SpellsKind host graph P kind plan (.number fields)
  | literal {plan : Members R} : plan.has "value" = true →
      SpellsKind host graph P .literal plan (.literal (read plan "value"))
  | enum {plan : Members R} {r : R} {items : List (Value R)} : read plan "values" = .object r →
      graph r = .array items → items ≠ [] → SpellsKind host graph P .enum plan (.enum items)
  | array {plan : Members R} {items : Option (Plan R)} {prefixItems : List (Plan R)}
      {minItems maxItems : Option Nat} :
      SpellsField P (read plan "items") items →
      SpellsItems graph P (read plan "prefixItems") prefixItems →
      Field safeInteger? (read plan "minItems") minItems →
      Field safeInteger? (read plan "maxItems") maxItems →
      SpellsKind host graph P .array plan (.array items prefixItems minItems maxItems)
  -- unlike an array's prefix, a tuple's items must be there
  | tuple {plan : Members R} {items : List (Plan R)} {rest : Option (Plan R)} :
      read plan "items" ≠ .undefined → SpellsItems graph P (read plan "items") items →
      SpellsField P (read plan "rest") rest →
      SpellsKind host graph P .tuple plan (.tuple items rest)
  | object {plan : Members R} {properties : List (String × Plan R)} {required : List String}
      {additional : Option (Plan R)} :
      SpellsMembers graph P (read plan "properties") properties →
      SpellsTexts graph (read plan "required") required → required.Nodup →
      SpellsField P (read plan "additionalProperties") additional →
      SpellsKind host graph P .object plan (.object properties required additional)
  -- `oneOf` on a union is a flag of it; on its own it is a kind
  | union {plan : Members R} {anyOf : List (Plan R)} :
      SpellsItems graph P (read plan "anyOf") anyOf → anyOf ≠ [] →
      SpellsKind host graph P .union plan (.union anyOf (read plan "oneOf" = .boolean true))
  | oneOf {plan : Members R} {anyOf : List (Plan R)} :
      SpellsItems graph P (read plan "anyOf") anyOf → anyOf ≠ [] →
      SpellsKind host graph P .oneOf plan (.oneOf anyOf)
  | intersection {plan : Members R} {allOf : List (Plan R)} : read plan "allOf" ≠ .undefined →
      SpellsItems graph P (read plan "allOf") allOf →
      SpellsKind host graph P .intersection plan (.intersection allOf)
  -- a reference is given under `name` or, without that, under `ref`
  | name {plan : Members R} {reference : String} :
      read plan "name" = .string reference → reference ≠ "" →
      SpellsKind host graph P .ref plan (.ref reference)
  | ref {plan : Members R} {reference : String} :
      read plan "name" = .undefined → read plan "ref" = .string reference →
      reference ≠ "" → SpellsKind host graph P .ref plan (.ref reference)

/-- The plan that a value spells out. -/
inductive Spells (host : PlanHost) (graph : PlanGraph R) : Value R → Plan R → Prop
  | boolean (allowed : Bool) : Spells host graph (.boolean allowed) (.boolean allowed)
  | node {r : R} {members : Members R} {text : String} {name : KindName} {kind : Kind R} :
      graph r = .record members → read members "kind" = .string text → kindName? text = some name →
      SpellsKind host graph (Spells host graph) name members kind →
      Spells host graph (.object r) (.node (read members "nullable" = .boolean true)
        (read members "optional" = .boolean true) kind)

end Reading

/-! ## Nested plans -/

section Nested

variable {R : Type} [DecidableEq R] {host : PlanHost} (graph : PlanGraph R)

def isPlan : Value R → Bool
  | .boolean _ => false
  | _ => true

def presentValue (value : Value R) : List (Value R) :=
  if value = .undefined then [] else [value]

def arrayItems : Value R → List (Value R)
  | .object r =>
    match graph r with
    | .array items => items
    | _ => []
  | _ => []

def memberValues : Value R → List (Value R)
  | .object r =>
    match graph r with
    | .record members => (Core.Text.sort members.keys).map (read members)
    | _ => []
  | _ => []

/-- The nested plans of a node, without its definitions. -/
def kindValues (kind : KindName) (plan : Members R) : List (Value R) :=
  match kind with
  | .array => presentValue (read plan "items") ++ arrayItems graph (read plan "prefixItems")
  | .tuple => arrayItems graph (read plan "items") ++ presentValue (read plan "rest")
  | .object => memberValues graph (read plan "properties") ++
      presentValue (read plan "additionalProperties")
  | .union | .oneOf => arrayItems graph (read plan "anyOf")
  | .intersection => arrayItems graph (read plan "allOf")
  | _ => []

def kindOf (plan : Members R) : Option KindName := (text? (read plan "kind")).bind kindName?

def nestedValues (plan : Members R) : List (Value R) :=
  (kindOf plan).elim [] (fun kind => kindValues graph kind plan) ++
    memberValues graph (read plan "definitions")

/-- The work list has the values that are no booleans, to be entered. -/
def Lists (items : List (WorkItem R)) (values : List (Value R)) : Prop :=
  (items.map fun item => (item.value, item.exit)) = (values.filter isPlan).map fun value => (value, false)

variable {graph} {plan : Members R} {path : String} {items items' : List (WorkItem R)}
  {values values' : List (Value R)}

omit [DecidableEq R] in
theorem lists_nil : Lists ([] : List (WorkItem R)) [] := rfl

omit [DecidableEq R] in
theorem Lists.append (h : Lists items values) (h' : Lists items' values') :
    Lists (items ++ items') (values ++ values') := by
  unfold Lists at h h' ⊢
  rw [List.map_append, List.filter_append, List.map_append, h, h']

omit [DecidableEq R] in
theorem lists_nestedPlan (value : Value R) (path : String) : Lists (nestedPlan value path) [value] := by
  cases value <;> rfl

theorem lists_presentPlan (value : Value R) (path : String) :
    Lists (if value = .undefined then [] else nestedPlan value path) (presentValue value) := by
  unfold presentValue
  split
  · exact lists_nil
  · exact lists_nestedPlan value path

omit [DecidableEq R] in
theorem lists_flatMap {α : Type} (entries : List α) (itemsOf : α → List (WorkItem R))
    (valueOf : α → Value R) (h : ∀ e, Lists (itemsOf e) [valueOf e]) :
    Lists (entries.flatMap itemsOf) (entries.map valueOf) := by
  induction entries with
  | nil => rfl
  | cons e entries ih =>
    rw [List.flatMap_cons, List.map_cons, ← List.singleton_append]
    exact (h e).append ih

omit [DecidableEq R] in
theorem lists_nestedItems (values : List (Value R)) (path : String) :
    Lists (nestedItems values path) values := by
  have hindexed : ∀ (itemsOf : Nat → Value R → List (WorkItem R)),
      (∀ i v, Lists (itemsOf i v) [v]) → Lists (values.mapIdx itemsOf).flatten values := by
    induction values with
    | nil => exact fun _ _ => rfl
    | cons v values ih =>
      intro itemsOf h
      rw [List.mapIdx_cons, List.flatten_cons, ← List.singleton_append]
      exact (h 0 v).append (ih _ fun i v => h (i + 1) v)
  exact hindexed _ fun i v => lists_nestedPlan v _

omit [DecidableEq R] in
theorem lists_nestedMembers (members : Members R) (path : String) :
    Lists (nestedMembers host members path) ((Core.Text.sort members.keys).map (read members)) :=
  lists_flatMap _ _ _ fun key => lists_nestedPlan (read members key) _

/-! ## What is required -/

omit [DecidableEq R] in
theorem requireRecord_ok {value : Value R} {r : R} {members : Members R}
    (h : requireRecord graph value path = .ok (r, members)) :
    value = .object r ∧ graph r = .record members := by
  unfold requireRecord at h
  split at h
  · split at h
    · next hrecord =>
      cases h
      exact ⟨rfl, hrecord⟩
    · cases h
  · cases h

omit [DecidableEq R] in
theorem requireArray_ok {value : Value R} (h : requireArray graph value path = .ok values) :
    ∃ r, value = .object r ∧ graph r = .array values := by
  unfold requireArray at h
  split at h
  · next r =>
    split at h
    · next harray =>
      cases h
      exact ⟨r, rfl, harray⟩
    · cases h
  · cases h

omit [DecidableEq R] in
theorem requireString_ok {value : Value R} {text : String} (h : requireString value path = .ok text) :
    value = .string text := by
  unfold requireString at h
  split at h
  · cases h
    rfl
  · cases h

omit [DecidableEq R] in
theorem requireNonEmptyString_ok {value : Value R} {text : String}
    (h : requireNonEmptyString value path = .ok text) : value = .string text ∧ text ≠ "" := by
  unfold requireNonEmptyString at h
  split at h
  · cases h
  · next found hfound =>
    split at h
    · cases h
    · next hnonempty =>
      cases h
      refine ⟨requireString_ok hfound, ?_⟩
      rintro rfl
      exact hnonempty rfl

theorem whenPresent_ok {α : Type} {key : String} {check : Value R → Except PlanError α} {x : Option α}
    (h : whenPresent plan key check = .ok x) : read plan key = .undefined ∧ x = none ∨
      read plan key ≠ .undefined ∧ ∃ a, check (read plan key) = .ok a ∧ x = some a := by
  unfold whenPresent at h
  split at h
  · next habsent =>
    cases h
    exact .inl ⟨habsent, rfl⟩
  · next hpresent =>
    obtain ⟨a, ha, rfl⟩ := except_map_ok.mp h
    exact .inr ⟨hpresent, a, ha, rfl⟩

theorem field_of_whenPresent {α β : Type} {decode : Value R → Option β} {key : String}
    {check : Value R → Except PlanError α} {x : Option α}
    (hcheck : ∀ value a, check value = .ok a → ∃ b, decode value = some b)
    (h : whenPresent plan key check = .ok x) : ∃ field, Field decode (read plan key) field := by
  rcases whenPresent_ok h with ⟨habsent, -⟩ | ⟨-, a, ha, -⟩
  · exact ⟨none, habsent ▸ .absent⟩
  · obtain ⟨b, hb⟩ := hcheck _ _ ha
    exact ⟨some b, .present hb⟩

theorem field_natural {key : String} {x : Option Nat}
    (h : whenPresent plan key (fun value => requireNonNegativeInteger value path) = .ok x) :
    ∃ field, Field safeInteger? (read plan key) field := by
  refine field_of_whenPresent (fun value n hn => ?_) h
  unfold requireNonNegativeInteger at hn
  split at hn
  · next m hm => exact ⟨m, hm⟩
  · cases hn

theorem field_finite {key : String} {x : Option Rat}
    (h : whenPresent plan key (fun value => requireFiniteNumber value path) = .ok x) :
    ∃ field, Field finite? (read plan key) field := by
  refine field_of_whenPresent (fun value q hq => ?_) h
  unfold requireFiniteNumber at hq
  split at hq
  · next n =>
    split at hq
    · next p hp => exact ⟨n, by simp [finite?, hp]⟩
    · cases hq
  · cases hq

omit [DecidableEq R] in
theorem requireDistinct_ok {seen : List String} {index : Nat} {u : Unit}
    (h : requireDistinct host path values seen index = .ok u) :
    ∃ texts : List String, values = texts.map .string ∧ texts.Nodup ∧ ∀ text ∈ texts, text ∉ seen := by
  induction values generalizing seen index with
  | nil => exact ⟨[], rfl, .nil, nofun⟩
  | cons value values ih =>
    unfold requireDistinct at h
    split at h
    · cases h
    · next name hname =>
      split at h
      · cases h
      · next hnew =>
        obtain ⟨texts, rfl, hnodup, hothers⟩ := ih h
        refine ⟨name :: texts, ?_, ?_, ?_⟩
        · rw [requireString_ok hname]
          rfl
        · exact List.nodup_cons.mpr ⟨fun hmem => hothers name hmem List.mem_cons_self, hnodup⟩
        · intro text htext
          rcases List.mem_cons.mp htext with rfl | hmem
          · exact hnew
          · exact fun hseen => hothers text hmem (List.mem_cons_of_mem _ hseen)

omit [DecidableEq R] in
theorem requireBranches_ok {key : String}
    (h : requireBranches graph plan path key = .ok values) :
    ∃ r, read plan key = .object r ∧ graph r = .array values ∧ values ≠ [] := by
  unfold requireBranches at h
  split at h
  · cases h
  · next found hfound =>
    split at h
    · cases h
    · next hnonempty =>
      cases h
      obtain ⟨r, hr, harray⟩ := requireArray_ok hfound
      exact ⟨r, hr, harray, fun hnil => hnonempty (List.isEmpty_iff.mpr hnil)⟩

/-! ## What is validated can be read -/

variable {P : Value R → Plan R → Prop} {validated : Validated R}

omit [DecidableEq R] in
theorem exists_forall₂ (h : ∀ v ∈ values, ∃ p, P v p) : ∃ ps, List.Forall₂ P values ps := by
  induction values with
  | nil => exact ⟨[], .nil⟩
  | cons v values ih =>
    obtain ⟨p, hp⟩ := h v List.mem_cons_self
    obtain ⟨ps, hps⟩ := ih fun w hw => h w (List.mem_cons_of_mem _ hw)
    exact ⟨p :: ps, .cons hp hps⟩

theorem exists_spellsField {value : Value R} (h : ∀ v ∈ presentValue value, ∃ p, P v p) :
    ∃ field, SpellsField P value field := by
  unfold presentValue at h
  split at h
  · next habsent => exact ⟨none, habsent ▸ .absent⟩
  · obtain ⟨p, hp⟩ := h value List.mem_cons_self
    exact ⟨some p, .present hp⟩

omit [DecidableEq R] in
theorem exists_spellsItems {r : R} (harray : graph r = .array values)
    (h : ∀ v ∈ arrayItems graph (.object r), ∃ p, P v p) :
    ∃ ps, SpellsItems graph P (.object r) ps ∧ (values ≠ [] → ps ≠ []) := by
  simp only [arrayItems, harray] at h
  obtain ⟨ps, hps⟩ := exists_forall₂ h
  refine ⟨ps, .present harray hps, fun hvalues hnil => ?_⟩
  subst hnil
  cases hps
  exact hvalues rfl

omit [DecidableEq R] in
theorem exists_spellsMembers {r : R} {members : Members R} (hrecord : graph r = .record members)
    (h : ∀ v ∈ memberValues graph (.object r), ∃ p, P v p) :
    ∃ ps, SpellsMembers graph P (.object r) ps := by
  simp only [memberValues, hrecord] at h
  have hall : ∀ v ∈ members.entries.map Prod.snd, ∃ p, P v p := by
    intro v hv
    obtain ⟨⟨key, v⟩, hentry, rfl⟩ := List.mem_map.mp hv
    refine h v (List.mem_map.mpr ⟨key, ?_, ?_⟩)
    · exact (List.perm_insertionSort _ _).mem_iff.mpr (List.mem_map_of_mem hentry)
    · rw [read, OrderedMap.get?_eq_some_iff.mpr hentry]
      rfl
  obtain ⟨ps, hps⟩ := exists_forall₂ hall
  have hlength : members.keys.length = ps.length := by
    have hsame := hps.length_eq
    rw [List.length_map] at hsame
    rw [← hsame]
    exact List.length_map _
  refine ⟨members.keys.zip ps, .present hrecord (List.map_fst_zip (le_of_eq hlength)) ?_⟩
  rw [List.map_snd_zip (ge_of_eq hlength)]
  exact hps

theorem validateString_ok (h : validateString host plan path = .ok validated) :
    validated.2 = [] ∧ (∃ k, SpellsKind host graph P .string plan k) ∧
      ∀ text, read plan "pattern" = .string text →
        ∃ regExp, host.regExp text = .ok regExp ∧ validated.1 = some regExp := by
  unfold validateString at h
  obtain ⟨minLength, hmin, h⟩ := except_bind_ok.mp h
  obtain ⟨maxLength, hmax, h⟩ := except_bind_ok.mp h
  obtain ⟨-, -, h⟩ := except_bind_ok.mp h
  obtain ⟨regExp, hpattern, h⟩ := except_bind_ok.mp h
  obtain ⟨format, hformat, h⟩ := except_bind_ok.mp h
  cases h
  -- a pattern that passes is a string that the host compiles
  have hcompiled : ∀ (value : Value R) compiled, validatePattern host path value = .ok compiled →
      ∃ text, value = .string text ∧ host.regExp text = .ok compiled := by
    intro value compiled hvalue
    unfold validatePattern at hvalue
    split at hvalue
    · cases hvalue
    · next text htext =>
      split at hvalue
      · cases hvalue
      · split at hvalue
        · cases hvalue
        · next found hfound =>
          cases hvalue
          exact ⟨text, requireString_ok htext, hfound⟩
  -- a format that passes is one of the supported
  have hsupported : ∀ (value : Value R) u, validateFormat host path value = .ok u →
      ∃ text, value = .string text ∧ text ∈ supportedFormats := by
    intro value u hvalue
    unfold validateFormat at hvalue
    split at hvalue
    · cases hvalue
    · next text htext =>
      split at hvalue
      · next hmem => exact ⟨text, (requireNonEmptyString_ok htext).1, hmem⟩
      · cases hvalue
  obtain ⟨minField, hminField⟩ := field_natural hmin
  obtain ⟨maxField, hmaxField⟩ := field_natural hmax
  refine ⟨rfl, ?_, fun text htext => ?_⟩
  -- an absent field passes, a present one was checked
  · have hpatternField : ∃ field, Field text? (read plan "pattern") field ∧
        ∀ text, field = some text → ∃ found, host.regExp text = .ok found := by
      rcases whenPresent_ok hpattern with ⟨habsent, -⟩ | ⟨-, compiled, hvalue, -⟩
      · exact ⟨none, habsent ▸ .absent, nofun⟩
      · obtain ⟨text, htext, hfound⟩ := hcompiled _ _ hvalue
        refine ⟨some text, .present (by rw [htext]; rfl), ?_⟩
        rintro _ ⟨⟩
        exact ⟨compiled, hfound⟩
    have hformatField : ∃ field, Field text? (read plan "format") field ∧
        ∀ text, field = some text → text ∈ supportedFormats := by
      rcases whenPresent_ok hformat with ⟨habsent, -⟩ | ⟨-, u, hvalue, -⟩
      · exact ⟨none, habsent ▸ .absent, nofun⟩
      · obtain ⟨text, htext, hmem⟩ := hsupported _ _ hvalue
        refine ⟨some text, .present (by rw [htext]; rfl), ?_⟩
        rintro _ ⟨⟩
        exact hmem
    obtain ⟨pattern, hpatternField, hregExp⟩ := hpatternField
    obtain ⟨format, hformatField, hmem⟩ := hformatField
    exact ⟨.string ⟨minField, maxField, pattern, format⟩,
      .string hminField hmaxField hpatternField hregExp hformatField hmem⟩
  · rcases whenPresent_ok hpattern with ⟨habsent, -⟩ | ⟨-, compiled, hvalue, rfl⟩
    · exact nomatch habsent.symm.trans htext
    · obtain ⟨found, hfound, hcompile⟩ := hcompiled _ _ hvalue
      cases hfound.symm.trans htext
      exact ⟨compiled, hcompile, rfl⟩

theorem validateNumberFields_ok {u : Unit} (h : validateNumberFields plan path = .ok u)
    {kind : KindName} (hkind : kind = .number ∨ kind = .integer) :
    ∃ k, SpellsKind host graph P kind plan k := by
  unfold validateNumberFields at h
  obtain ⟨_, hminimum, h⟩ := except_bind_ok.mp h
  obtain ⟨_, hmaximum, h⟩ := except_bind_ok.mp h
  obtain ⟨_, hexclusiveMinimum, h⟩ := except_bind_ok.mp h
  obtain ⟨_, hexclusiveMaximum, h⟩ := except_bind_ok.mp h
  obtain ⟨_, hmultipleOf, _⟩ := except_bind_ok.mp h
  obtain ⟨minimum, hminimum⟩ := field_finite hminimum
  obtain ⟨maximum, hmaximum⟩ := field_finite hmaximum
  obtain ⟨exclusiveMinimum, hexclusiveMinimum⟩ := field_finite hexclusiveMinimum
  obtain ⟨exclusiveMaximum, hexclusiveMaximum⟩ := field_finite hexclusiveMaximum
  obtain ⟨multipleOf, hmultipleOf⟩ := field_finite hmultipleOf
  rcases hkind with rfl | rfl
  · exact ⟨.number ⟨false, minimum, maximum, exclusiveMinimum, exclusiveMaximum, multipleOf⟩,
      .number (.inl ⟨rfl, rfl⟩) hminimum hmaximum hexclusiveMinimum hexclusiveMaximum hmultipleOf⟩
  · exact ⟨.number ⟨true, minimum, maximum, exclusiveMinimum, exclusiveMaximum, multipleOf⟩,
      .number (.inr ⟨rfl, rfl⟩) hminimum hmaximum hexclusiveMinimum hexclusiveMaximum hmultipleOf⟩

/-- The nested plans are listed, and the node can be read when they can. -/
def Readable (host : PlanHost) (graph : PlanGraph R) (kind : KindName) (plan : Members R)
    (items : List (WorkItem R)) : Prop :=
  Lists items (kindValues graph kind plan) ∧ ∀ P : Value R → Plan R → Prop,
    (∀ v ∈ kindValues graph kind plan, ∃ p, P v p) → ∃ k, SpellsKind host graph P kind plan k

theorem validateArray_ok (h : validateArray graph plan path = .ok validated) :
    Readable host graph .array plan validated.2 := by
  unfold validateArray at h
  obtain ⟨prefixItems, hprefix, h⟩ := except_bind_ok.mp h
  obtain ⟨minItems, hmin, h⟩ := except_bind_ok.mp h
  obtain ⟨maxItems, hmax, h⟩ := except_bind_ok.mp h
  obtain ⟨-, -, h⟩ := except_bind_ok.mp h
  cases h
  have hitems : prefixItems.getD [] = arrayItems graph (read plan "prefixItems") := by
    -- an absent prefix reads as an empty one
    rcases whenPresent_ok hprefix with ⟨habsent, rfl⟩ | ⟨-, values, hvalues, rfl⟩
    · rw [habsent]
      rfl
    · obtain ⟨r, hr, harray⟩ := requireArray_ok hvalues
      simp [hr, arrayItems, harray]
  refine ⟨?_, fun P hP => ?_⟩
  · rw [hitems]
    exact (lists_presentPlan _ _).append (lists_nestedItems _ _)
  -- the two kinds of nested plans stand one after the other in the list
  · obtain ⟨items, hfield⟩ := exists_spellsField fun v hv => hP v (List.mem_append_left _ hv)
    have hspelled : ∃ ps, SpellsItems graph P (read plan "prefixItems") ps := by
      rcases whenPresent_ok hprefix with ⟨habsent, -⟩ | ⟨-, values, hvalues, -⟩
      · exact ⟨[], habsent ▸ .absent⟩
      · obtain ⟨r, hr, harray⟩ := requireArray_ok hvalues
        rw [hr]
        obtain ⟨ps, hps, -⟩ := exists_spellsItems harray fun v hv =>
          hP v (List.mem_append_right _ (hr ▸ hv))
        exact ⟨ps, hps⟩
    obtain ⟨ps, hps⟩ := hspelled
    obtain ⟨minField, hminField⟩ := field_natural hmin
    obtain ⟨maxField, hmaxField⟩ := field_natural hmax
    exact ⟨_, .array hfield hps hminField hmaxField⟩

theorem validateTuple_ok (h : validateTuple graph plan path = .ok validated) :
    Readable host graph .tuple plan validated.2 := by
  unfold validateTuple at h
  obtain ⟨items, hitems, h⟩ := except_bind_ok.mp h
  cases h
  obtain ⟨r, hr, harray⟩ := requireArray_ok hitems
  have hlisted : items = arrayItems graph (read plan "items") := by simp [hr, arrayItems, harray]
  refine ⟨?_, fun P hP => ?_⟩
  · rw [hlisted]
    exact (lists_nestedItems _ _).append (lists_presentPlan _ _)
  · obtain ⟨rest, hrest⟩ := exists_spellsField fun v hv => hP v (List.mem_append_right _ hv)
    obtain ⟨ps, hps, -⟩ := exists_spellsItems harray fun v hv =>
      hP v (List.mem_append_left _ (hr ▸ hv))
    exact ⟨_, .tuple (by rw [hr]; nofun) (hr ▸ hps) hrest⟩

theorem validateObject_ok (h : validateObject host graph plan path = .ok validated) :
    Readable host graph .object plan validated.2 := by
  unfold validateObject at h
  obtain ⟨properties, hproperties, h⟩ := except_bind_ok.mp h
  obtain ⟨required, hrequired, h⟩ := except_bind_ok.mp h
  obtain ⟨_, hdistinct, h⟩ := except_bind_ok.mp h
  cases h
  refine ⟨Lists.append ?_ (lists_presentPlan _ _), fun P hP => ?_⟩
  -- the members are taken in the sorted order of their names
  · rcases whenPresent_ok hproperties with ⟨habsent, rfl⟩ | ⟨-, ⟨r, members⟩, hrecord, rfl⟩
    · rw [habsent]
      exact lists_nil
    · obtain ⟨hr, hmembers⟩ := requireRecord_ok hrecord
      have hvalues : memberValues graph (read plan "properties") =
          (Core.Text.sort members.keys).map (read members) := by simp [hr, memberValues, hmembers]
      rw [hvalues]
      exact lists_nestedMembers members _
  -- the rest of the object is the last of the nested plans
  · obtain ⟨additional, hadditional⟩ := exists_spellsField fun v hv =>
      hP v (List.mem_append_right _ hv)
    have hspelled : ∃ ps, SpellsMembers graph P (read plan "properties") ps := by
      rcases whenPresent_ok hproperties with ⟨habsent, -⟩ | ⟨-, ⟨r, members⟩, hrecord, -⟩
      · exact ⟨[], habsent ▸ .absent⟩
      · obtain ⟨hr, hmembers⟩ := requireRecord_ok hrecord
        rw [hr]
        exact exists_spellsMembers hmembers fun v hv => hP v (List.mem_append_left _ (hr ▸ hv))
    obtain ⟨ps, hps⟩ := hspelled
    obtain ⟨texts, htexts, hnodup, -⟩ := requireDistinct_ok hdistinct
    have hread : SpellsTexts graph (read plan "required") texts := by
      rcases whenPresent_ok hrequired with ⟨habsent, rfl⟩ | ⟨-, values, hvalues, rfl⟩
      · rw [habsent, List.map_eq_nil_iff.mp htexts.symm]
        exact .absent
      · obtain ⟨r, hr, harray⟩ := requireArray_ok hvalues
        rw [hr]
        exact .present harray htexts
    exact ⟨_, .object hps hread hnodup hadditional⟩

theorem validateUnion_ok {kind : KindName} (hkind : kind = .union ∨ kind = .oneOf)
    (h : validateUnion graph plan path kind = .ok validated) :
    Readable host graph kind plan validated.2 := by
  unfold validateUnion at h
  obtain ⟨branches, hbranches, h⟩ := except_bind_ok.mp h
  obtain ⟨r, hr, harray, hnonempty⟩ := requireBranches_ok hbranches
  have hvalues : kindValues graph kind plan = arrayItems graph (read plan "anyOf") := by
    rcases hkind with rfl | rfl <;> rfl
  have hlisted : branches = kindValues graph kind plan := by
    rw [hvalues]
    simp [hr, arrayItems, harray]
  have hitems : validated.2 = nestedItems branches (path ++ ".anyOf") := by
    rcases hkind with rfl | rfl
    · obtain ⟨-, -, h⟩ := except_bind_ok.mp h
      cases h
      rfl
    · cases h
      rfl
  refine ⟨?_, fun P hP => ?_⟩
  · rw [hitems, ← hlisted]
    exact lists_nestedItems _ _
  · rw [hvalues, hr] at hP
    obtain ⟨ps, hps, hsome⟩ := exists_spellsItems harray hP
    rw [← hr] at hps
    rcases hkind with rfl | rfl
    · exact ⟨_, .union hps (hsome hnonempty)⟩
    · exact ⟨_, .oneOf hps (hsome hnonempty)⟩

theorem validateIntersection_ok (h : validateIntersection graph plan path = .ok validated) :
    Readable host graph .intersection plan validated.2 := by
  unfold validateIntersection at h
  obtain ⟨branches, hbranches, h⟩ := except_bind_ok.mp h
  cases h
  obtain ⟨r, hr, harray⟩ := requireArray_ok hbranches
  have hlisted : branches = arrayItems graph (read plan "allOf") := by simp [hr, arrayItems, harray]
  refine ⟨?_, fun P hP => ?_⟩
  · rw [hlisted]
    exact lists_nestedItems _ _
  · obtain ⟨ps, hps, -⟩ := exists_spellsItems harray fun v hv =>
      hP v (by rw [kindValues, hr]; exact hv)
    exact ⟨_, .intersection (by rw [hr]; nofun) (hr ▸ hps)⟩

theorem validateReference_ok (h : validateReference plan path = .ok validated) :
    validated.2 = [] ∧ ∃ k, SpellsKind host graph P .ref plan k := by
  unfold validateReference at h
  split at h
  · cases h
  · obtain ⟨text, htext, rfl⟩ := except_map_ok.mp h
    refine ⟨rfl, ?_⟩
    obtain ⟨hread, hnonempty⟩ := requireNonEmptyString_ok htext
    unfold referenceKey at hread
    by_cases hname : read plan "name" = .undefined
    · rw [if_neg (not_not_intro hname)] at hread
      exact ⟨_, .ref hname hread hnonempty⟩
    · rw [if_pos hname] at hread
      exact ⟨_, .name hread hnonempty⟩

theorem validateKind_ok {kind : KindName}
    (h : validateKind host graph plan path kind = .ok validated) :
    Readable host graph kind plan validated.2 ∧ (kind = .string → ∀ text,
      read plan "pattern" = .string text →
        ∃ regExp, host.regExp text = .ok regExp ∧ validated.1 = some regExp) := by
  -- a kind without nested plans
  have hleaf : ∀ {kind : KindName}, kindValues graph kind plan = [] → validated.2 = [] →
      (∀ P : Value R → Plan R → Prop, ∃ k, SpellsKind host graph P kind plan k) →
      Readable host graph kind plan validated.2 := by
    intro kind hvalues hitems hspells
    rw [hitems]
    refine ⟨?_, fun P _ => hspells P⟩
    rw [hvalues]
    exact lists_nil
  -- the walk's table gets a pattern from a string only
  cases kind with
  | any =>
    cases h
    exact ⟨hleaf rfl rfl fun P => ⟨_, .any⟩, nofun⟩
  | never =>
    cases h
    exact ⟨hleaf rfl rfl fun P => ⟨_, .never⟩, nofun⟩
  | null =>
    cases h
    exact ⟨hleaf rfl rfl fun P => ⟨_, .null⟩, nofun⟩
  | boolean =>
    cases h
    exact ⟨hleaf rfl rfl fun P => ⟨_, .boolean⟩, nofun⟩
  | string =>
    have hstring := fun P => @validateString_ok R _ host graph plan path P validated h
    exact ⟨hleaf rfl (hstring fun _ _ => True).1 fun P => (hstring P).2.1,
      fun _ => (hstring fun _ _ => True).2.2⟩
  | number =>
    obtain ⟨_, hfields, rfl⟩ := except_map_ok.mp h
    exact ⟨hleaf rfl rfl fun P => validateNumberFields_ok hfields (.inl rfl), nofun⟩
  | integer =>
    obtain ⟨_, hfields, rfl⟩ := except_map_ok.mp h
    exact ⟨hleaf rfl rfl fun P => validateNumberFields_ok hfields (.inr rfl), nofun⟩
  | literal =>
    rw [validateKind] at h
    split at h
    · next hvalue =>
      cases h
      exact ⟨hleaf rfl rfl fun P => ⟨_, .literal hvalue⟩, nofun⟩
    · cases h
  | enum =>
    obtain ⟨items, hitems, rfl⟩ := except_map_ok.mp h
    obtain ⟨r, hr, harray, hnonempty⟩ := requireBranches_ok hitems
    exact ⟨hleaf rfl rfl fun P => ⟨_, .enum hr harray hnonempty⟩, nofun⟩
  | array => exact ⟨validateArray_ok h, nofun⟩
  | tuple => exact ⟨validateTuple_ok h, nofun⟩
  | object => exact ⟨validateObject_ok h, nofun⟩
  | union => exact ⟨validateUnion_ok (.inl rfl) h, nofun⟩
  | oneOf => exact ⟨validateUnion_ok (.inr rfl) h, nofun⟩
  | intersection => exact ⟨validateIntersection_ok h, nofun⟩
  | ref =>
    have href := fun P => @validateReference_ok R _ host graph plan path P validated h
    exact ⟨hleaf rfl (href fun _ _ => True).1 fun P => (href P).2, nofun⟩

theorem validateDefinitions_ok (h : validateDefinitions host graph plan path = .ok items) :
    Lists items (memberValues graph (read plan "definitions")) := by
  unfold validateDefinitions at h
  obtain ⟨definitions, hdefinitions, h⟩ := except_bind_ok.mp h
  rcases whenPresent_ok hdefinitions with ⟨habsent, rfl⟩ | ⟨-, ⟨r, members⟩, hrecord, rfl⟩
  · cases h
    rw [habsent]
    exact lists_nil
  · obtain ⟨_, -, h⟩ := except_bind_ok.mp h
    cases h
    obtain ⟨hr, hmembers⟩ := requireRecord_ok hrecord
    have hvalues : memberValues graph (read plan "definitions") =
        (Core.Text.sort members.keys).map (read members) := by simp [hr, memberValues, hmembers]
    rw [hvalues]
    exact lists_nestedMembers members _

/-- What is known of a node that was validated. -/
structure Valid (host : PlanHost) (graph : PlanGraph R) (plan : Members R)
    (validated : Validated R) : Prop where
  lists : Lists validated.2 (nestedValues graph plan)
  spells : ∃ text name, read plan "kind" = .string text ∧ kindName? text = some name ∧
    ∀ P : Value R → Plan R → Prop, (∀ v ∈ nestedValues graph plan, ∃ p, P v p) →
      ∃ k, SpellsKind host graph P name plan k
  compiled : read plan "kind" = .string "string" → ∀ text, read plan "pattern" = .string text →
    ∃ regExp, host.regExp text = .ok regExp ∧ validated.1 = some regExp

theorem validateNode_ok (h : validateNode host graph plan path = .ok validated) :
    Valid host graph plan validated := by
  unfold validateNode at h
  obtain ⟨text, htext, h⟩ := except_bind_ok.mp h
  obtain ⟨-, -, h⟩ := except_bind_ok.mp h
  obtain ⟨-, -, h⟩ := except_bind_ok.mp h
  obtain ⟨hkind, -⟩ := requireNonEmptyString_ok htext
  split at h
  · cases h
  · next name hname =>
    obtain ⟨⟨regExp, items⟩, hvalidated, h⟩ := except_bind_ok.mp h
    obtain ⟨definitions, hdefinitions, h⟩ := except_bind_ok.mp h
    cases h
    obtain ⟨⟨hlists, hspells⟩, hcompiled⟩ := validateKind_ok hvalidated
    have hvalues : nestedValues graph plan =
        kindValues graph name plan ++ memberValues graph (read plan "definitions") := by
      simp [nestedValues, kindOf, hkind, text?, hname]
    refine ⟨?_, ⟨text, name, hkind, hname, fun P hP => ?_⟩, fun hstring => ?_⟩
    · rw [hvalues]
      exact hlists.append (validateDefinitions_ok hdefinitions)
    · rw [hvalues] at hP
      exact hspells P fun v hv => hP v (List.mem_append_left _ hv)
    · cases hkind.symm.trans hstring
      cases hname
      exact hcompiled rfl

/-! ## Nested plans are values of the plan -/

omit [DecidableEq R] in
theorem holds_read {r : R} {key : String} (hrecord : graph r = .record plan)
    (hpresent : read plan key ≠ .undefined) : Holds graph (.object r) (read plan key) := by
  unfold Holds children
  simp only [hrecord]
  cases hget : plan.get? key with
  | none => exact absurd (by rw [read, hget]; rfl) hpresent
  | some v =>
    rw [read, hget]
    exact List.mem_map.mpr ⟨_, OrderedMap.get?_eq_some_iff.mp hget, rfl⟩

omit [DecidableEq R] in
theorem holds_arrayItems {value v : Value R} (h : v ∈ arrayItems graph value) :
    value ≠ .undefined ∧ Holds graph value v := by
  unfold arrayItems at h
  split at h
  · split at h
    · next harray =>
      refine ⟨nofun, ?_⟩
      unfold Holds children
      simpa only [harray] using h
    · cases h
  · cases h

omit [DecidableEq R] in
theorem holds_memberValues {value v : Value R} (h : v ∈ memberValues graph value) :
    value ≠ .undefined ∧ Holds graph value v := by
  unfold memberValues at h
  split at h
  · split at h
    · next members hrecord =>
      obtain ⟨key, hkey, rfl⟩ := List.mem_map.mp h
      refine ⟨nofun, ?_⟩
      have hmem : key ∈ members.keys := (List.perm_insertionSort _ _).mem_iff.mp hkey
      obtain ⟨v, hv⟩ := OrderedMap.mem_keys_iff.mp hmem
      unfold Holds children
      simp only [hrecord]
      rw [read, hv]
      exact List.mem_map.mpr ⟨_, OrderedMap.get?_eq_some_iff.mp hv, rfl⟩
    · cases h
  · cases h

theorem mem_presentValue {value v : Value R} (h : v ∈ presentValue value) :
    value ≠ .undefined ∧ v = value := by
  unfold presentValue at h
  split at h
  · cases h
  · next hpresent => exact ⟨hpresent, List.mem_singleton.mp h⟩

/-- A nested plan lies below its node. -/
theorem below_nestedValues {r : R} {v : Value R} (hrecord : graph r = .record plan)
    (h : v ∈ nestedValues graph plan) : Relation.TransGen (Holds graph) (.object r) v := by
  -- what is nested stands below the node through one of its fields
  have hitems : ∀ key, v ∈ arrayItems graph (read plan key) →
      Relation.TransGen (Holds graph) (.object r) v := fun key hv =>
    have hheld := holds_arrayItems hv
    .tail (.single (holds_read hrecord hheld.1)) hheld.2
  have hmembers : ∀ key, v ∈ memberValues graph (read plan key) →
      Relation.TransGen (Holds graph) (.object r) v := fun key hv =>
    have hheld := holds_memberValues hv
    .tail (.single (holds_read hrecord hheld.1)) hheld.2
  have hpresent : ∀ key, v ∈ presentValue (read plan key) →
      Relation.TransGen (Holds graph) (.object r) v := by
    intro key hv
    obtain ⟨hvalue, rfl⟩ := mem_presentValue hv
    exact .single (holds_read hrecord hvalue)
  -- by the kind of the node, or among its definitions
  rcases List.mem_append.mp h with hkind | hdefinitions
  · cases hname : kindOf plan with
    | none =>
      rw [hname] at hkind
      cases hkind
    | some kind =>
      rw [hname] at hkind
      have hnested : v ∈ kindValues graph kind plan := hkind
      cases kind with
      | array => exact (List.mem_append.mp hnested).elim (hpresent _) (hitems _)
      | tuple => exact (List.mem_append.mp hnested).elim (hitems _) (hpresent _)
      | object => exact (List.mem_append.mp hnested).elim (hmembers _) (hpresent _)
      | union => exact hitems _ hnested
      | oneOf => exact hitems _ hnested
      | intersection => exact hitems _ hnested
      | _ => cases hnested
  · exact hmembers _ hdefinitions

end Nested

end FluxFast.Validation
