import FluxFast.Core.JsJson

/-!
# Mutation — item patches and the client's check of them

`assertMutationPatch` is what `assertMutationEnvelope` checks of one patch, and `applyPatchToValue`
what the store does with it.  Items and patches are parsed JSON: two objects or arrays are never
the same one, so `===` between them is false.  `String(value)` may throw, which is `none` here.
-/

namespace FluxFast.Core

open FluxFast.Theory JsJson

/-- What the engine makes of numbers: `===`, `String(n)` and the number of a length. -/
structure JsNumbers (μ : Type) where
  equal : μ → μ → Bool
  text : μ → String
  ofNat : Nat → μ

inductive PatchId (μ : Type) where
  | string (value : String)
  | number (value : μ)

structure ResourcePatch (μ : Type) where
  op : String
  id : Option (PatchId μ) := none
  /-- `patch.match`. -/
  criteria : Option (Fields μ) := none
  value : Option (Value μ) := none

variable {μ : Type}

/-! ## The check -/

def patchId : Option (Value μ) → Option (PatchId μ)
  | some (.string value) => some (.string value)
  | some (.number value) => some (.number value)
  | _ => none

def allowedOps : List String :=
  ["replace-resource", "merge-object", "replace-item", "remove-item", "append-item"]

/-- One patch of the list of `key`; the error is the message of the `MutationError`. -/
def assertMutationPatch (key : String) (raw : Value μ) : Except String (ResourcePatch μ) :=
  match fields raw with
  | none => .error ("Invalid mutation patch operation for '" ++ key ++ "'")
  | some patch =>
    match (patch.get? "op").bind asString with
    | none => .error ("Invalid mutation patch operation for '" ++ key ++ "'")
    | some op =>
      let id := patchId (patch.get? "id")
      let criteria := (patch.get? "match").bind fields
      let value := patch.get? "value"
      let hasIdentity := id.isSome || criteria.any fun criteria => decide (0 < criteria.size)
      -- the checks in the source's order: operation, id, match, then what the operation needs
      if !allowedOps.contains op then
        .error ("Invalid mutation patch operation for '" ++ key ++ "'")
      else if patch.has "id" && id.isNone then
        .error ("Invalid mutation patch id for '" ++ key ++ "'")
      else if patch.has "match" && criteria.isNone then
        .error ("Invalid mutation patch match for '" ++ key ++ "'")
      else if
          (["replace-resource", "merge-object", "append-item"].contains op && value.isNone) ||
          (["replace-item", "remove-item"].contains op && !hasIdentity) ||
          (op = "replace-item" && value.isNone) ||
          (op = "merge-object" && (value.bind fields).isNone) then
        .error ("Incomplete '" ++ op ++ "' patch for '" ++ key ++ "'")
      else .ok { op := op, id := id, criteria := criteria, value := value }

def assertMutationPatches (key : String) (raw : Value μ) : Except String (List (ResourcePatch μ)) :=
  match asArray raw with
  | none => .error ("Invalid MutationEnvelope patches for '" ++ key ++ "'")
  | some patches => patches.mapM (assertMutationPatch key)

/-! ## Strings and properties of JSON values -/

section Values

variable (numbers : JsNumbers μ)

/-- `a === b` of two parsed values that are not the same object. -/
def strictEqual : Value μ → Value μ → Bool
  | .null, .null => true
  | .bool a, .bool b => a = b
  | .number a, .number b => numbers.equal a b
  | .string a, .string b => a = b
  | _, _ => false

mutual

/-- `String(value)`: an object with a `toString` of its own, which is no function, throws. -/
def toText : Value μ → Option String
  | .null => some "null"
  | .bool b => some (if b then "true" else "false")
  | .number n => some (numbers.text n)
  | .string s => some s
  | .array items => (elementTexts items).map (String.intercalate ",")
  | .object members =>
    if (OrderedMap.ofList members).has "toString" then none else some "[object Object]"

/-- What `join` makes of the elements: `null` becomes empty. -/
def elementTexts : List (Value μ) → Option (List String)
  | [] => some []
  | .null :: items => (elementTexts items).map fun texts => "" :: texts
  | item :: items =>
    (toText item).bind fun text => (elementTexts items).map fun texts => text :: texts

end

/-- `String(value)` where the property may be missing. -/
def textOf : Option (Value μ) → Option String
  | none => some "undefined"
  | some value => toText numbers value

/-- `typeof value === "object" && value !== null`. -/
def isObjectLike : Value μ → Bool
  | .array _ => true
  | .object _ => true
  | _ => false

/-- The own property of an object or of an array; what it inherits equals no parsed value. -/
def member : Value μ → String → Option (Value μ)
  | .object members, name => (OrderedMap.ofList members).get? name
  | .array items, name =>
    if name = "length" then some (.number (numbers.ofNat items.length))
    else ((List.range items.length).find? fun i => toString i = name).bind fun i => items[i]?
  | _, _ => none

namespace PatchId

def toValue : PatchId μ → Value μ
  | .string value => .string value
  | .number value => .number value

def text : PatchId μ → String
  | .string value => value
  | .number value => numbers.text value

end PatchId

/-! ## Applying a patch -/

/-- Whether the `id` selector of a patch takes the item. -/
def idMatches (item : Value μ) (patch : ResourcePatch μ) : Option Bool :=
  match patch.id with
  | none => some false
  | some id =>
    let own := member numbers item "id"
    if own.any fun value => strictEqual numbers value id.toValue then some true
    else (textOf numbers own).map fun text => text = id.text numbers

/-- Whether the own members of the item equal the entries of `match`. -/
def criteriaMatch (item : Value μ) (criteria : Fields μ) : Bool :=
  criteria.entries.all fun e =>
    (member numbers item e.1).any fun value => strictEqual numbers value e.2

def matchItem (item : Value μ) (patch : ResourcePatch μ) : Option Bool :=
  if !isObjectLike item then some false
  else
    (idMatches numbers item patch).map fun byId =>
      byId || patch.criteria.any (criteriaMatch numbers item)

def replaceItems (patch : ResourcePatch μ) (value : Value μ) :
    List (Value μ) → Option (List (Value μ))
  | [] => some []
  | item :: items =>
    (matchItem numbers item patch).bind fun selected =>
      (replaceItems patch value items).map fun rest =>
        (if selected then value else item) :: rest

def removeItems (patch : ResourcePatch μ) : List (Value μ) → Option (List (Value μ))
  | [] => some []
  | item :: items =>
    (matchItem numbers item patch).bind fun selected =>
      (removeItems patch items).map fun rest => if selected then rest else item :: rest

/-- The own enumerable properties that a spread copies. -/
def spreadEntries : Value μ → List (String × Value μ)
  | .object members => members
  | .array items => items.zipIdx.map fun e => (toString e.2, e.1)
  | _ => []

/-- A patch without a value, which only `remove-item` may be, gives `undefined` where it is used:
`null` stands for it. -/
def applyPatchToValue (currentValue : Value μ) (patch : ResourcePatch μ) : Option (Value μ) :=
  let value := patch.value.getD .null
  if patch.op = "replace-resource" then some value
  else if patch.op = "merge-object" then
    match currentValue with
    -- an object is spread over the old members, anything else replaces the value
    | .object members => some (.object (OrderedMap.ofList (members ++ spreadEntries value)).entries)
    | _ => some value
  else if patch.op = "replace-item" then
    match currentValue with
    | .array items => (replaceItems numbers patch value items).map .array
    | other => some other
  else if patch.op = "remove-item" then
    match currentValue with
    | .array items => (removeItems numbers patch items).map .array
    -- a value that is no list is left as it is
    | other => some other
  else if patch.op = "append-item" then
    match currentValue with
    | .array items => some (.array (items ++ [value]))
    -- appending to what is no list starts a new one
    | _ => some (.array [value])
  else some currentValue

/-! ## What a patch selects -/

/-- Equal as JSON values. -/
inductive JsonEqual : Value μ → Value μ → Prop
  | null : JsonEqual .null .null
  | bool (b : Bool) : JsonEqual (.bool b) (.bool b)
  | string (s : String) : JsonEqual (.string s) (.string s)
  | number {a b : μ} : numbers.equal a b = true → JsonEqual (.number a) (.number b)
  | array {xs ys : List (Value μ)} :
      List.Forall₂ JsonEqual xs ys → JsonEqual (.array xs) (.array ys)
  | object {xs ys : List (String × Value μ)} :
      (∀ name, (OrderedMap.ofList xs).has name = (OrderedMap.ofList ys).has name) →
      (∀ name x y, (OrderedMap.ofList xs).get? name = some x →
        (OrderedMap.ofList ys).get? name = some y → JsonEqual x y) →
      JsonEqual (.object xs) (.object ys)

def isStringOrNumber : Value μ → Bool
  | .string _ => true
  | .number _ => true
  | _ => false

/-- The item has a string or a number of its own as `id`, with the value or the string form of the
patch's. -/
def SelectedById (item : Value μ) (patch : ResourcePatch μ) : Prop :=
  ∃ id own, patch.id = some id ∧ member numbers item "id" = some own ∧
    isStringOrNumber own = true ∧
    (strictEqual numbers own id.toValue = true ∨ toText numbers own = some (id.text numbers))

/-- `match` has entries, and each equals the item's own member of its name. -/
def SelectedByMatch (equal : Value μ → Value μ → Prop) (item : Value μ)
    (patch : ResourcePatch μ) : Prop :=
  ∃ criteria, patch.criteria = some criteria ∧ criteria.entries ≠ [] ∧
    ∀ e ∈ criteria.entries, ∃ own, member numbers item e.1 = some own ∧ equal own e.2

def Selected (equal : Value μ → Value μ → Prop) (item : Value μ) (patch : ResourcePatch μ) : Prop :=
  SelectedById numbers item patch ∨ SelectedByMatch numbers equal item patch

/-- `===` as a relation. -/
def StrictlyEqual (a b : Value μ) : Prop := strictEqual numbers a b = true

/-- The selectors read the item as they are meant to: an `id` that is missing or that no selector can
have does not look like the patch's once it is made a string, and `match` is not empty. -/
def Readable (item : Value μ) (patch : ResourcePatch μ) : Prop :=
  isObjectLike item = true →
    (∀ id, patch.id = some id → (member numbers item "id").any isStringOrNumber = true ∨
      ∃ text, textOf numbers (member numbers item "id") = some text ∧ text ≠ id.text numbers) ∧
    ∀ criteria, patch.criteria = some criteria → criteria.entries ≠ []

section Selection

variable {numbers} {item : Value μ} {patch : ResourcePatch μ}

theorem member_of_not_object (h : isObjectLike item = false) (name : String) :
    member numbers item name = none := by
  cases item with
  | array | object => cases h
  | null | bool | number | string => rfl

theorem not_selected_of_not_object {equal : Value μ → Value μ → Prop}
    (h : isObjectLike item = false) : ¬ Selected numbers equal item patch := by
  rintro (⟨id, own, -, hown, -⟩ | ⟨criteria, -, hne, hall⟩)
  · rw [member_of_not_object h] at hown
    cases hown
  · obtain ⟨e, es, hes⟩ := List.exists_cons_of_ne_nil hne
    obtain ⟨own, hown, -⟩ := hall e (by rw [hes]; exact List.mem_cons_self ..)
    rw [member_of_not_object h] at hown
    cases hown

theorem criteriaMatch_iff {criteria : Fields μ} :
    criteriaMatch numbers item criteria = true ↔ ∀ e ∈ criteria.entries,
      ∃ own, member numbers item e.1 = some own ∧ StrictlyEqual numbers own e.2 := by
  simp only [criteriaMatch, List.all_eq_true, Option.any_eq_true, StrictlyEqual]

/-- Only a string or a number is strictly equal to the `id` of a patch. -/
theorem strictEqual_patchId {own : Value μ} {id : PatchId μ}
    (h : strictEqual numbers own id.toValue = true) : isStringOrNumber own = true := by
  cases id <;> cases own <;> first | rfl | cases h

/-- The `id` selector on an item that it can read. -/
theorem idMatches_of_readable (hid : ∀ id, patch.id = some id →
    (member numbers item "id").any isStringOrNumber = true ∨
      ∃ text, textOf numbers (member numbers item "id") = some text ∧ text ≠ id.text numbers) :
    ∃ byId, idMatches numbers item patch = some byId ∧
      (byId = true ↔ SelectedById numbers item patch) := by
  cases hpatch : patch.id with
  | none =>
    refine ⟨false, by simp [idMatches, hpatch], ?_⟩
    simp [SelectedById, hpatch]
  | some id =>
    -- an id that is a string or a number is compared by value and by its text
    by_cases hkind : (member numbers item "id").any isStringOrNumber = true
    · obtain ⟨own, hown, hkind⟩ := (Option.any_eq_true _ _).mp hkind
      have hselected : SelectedById numbers item patch ↔
          strictEqual numbers own id.toValue = true ∨
            toText numbers own = some (id.text numbers) := by
        simp [SelectedById, hpatch, hown, hkind]
      obtain ⟨text, htext⟩ : ∃ text, toText numbers own = some text := by
        cases own with
        | string s => exact ⟨s, rfl⟩
        | number n => exact ⟨numbers.text n, rfl⟩
        | null | bool | array | object => cases hkind
      rw [hselected, htext]
      by_cases hequal : strictEqual numbers own id.toValue = true
      · exact ⟨true, by simp [idMatches, hpatch, hown, hequal], by simp [hequal]⟩
      · refine ⟨decide (text = id.text numbers), ?_, by simp [hequal]⟩
        simp [idMatches, hpatch, hown, hequal, textOf, htext]
    -- with another kind of id only its text could match, and that is told apart by hypothesis
    · -- neither the value nor its string form is the patch's
      obtain ⟨text, htext, hother⟩ := (hid id hpatch).resolve_left hkind
      refine ⟨false, ?_, iff_of_false (by decide) ?_⟩
      · have hstrict : ((member numbers item "id").any fun value =>
            strictEqual numbers value id.toValue) = false := by
          by_contra htrue
          obtain ⟨own, hown, hequal⟩ :=
            (Option.any_eq_true _ _).mp (Bool.eq_true_of_not_eq_false htrue)
          exact hkind ((Option.any_eq_true _ _).mpr ⟨own, hown, strictEqual_patchId hequal⟩)
        simp [idMatches, hpatch, hstrict, htext, hother]
      · rintro ⟨_, own, -, hown, hkind', -⟩
        exact hkind ((Option.any_eq_true _ _).mpr ⟨own, hown, hkind'⟩)

/-- An item the selectors can read is matched exactly if it is selected. -/
theorem matchItem_of_readable (h : Readable numbers item patch) :
    ∃ matched, matchItem numbers item patch = some matched ∧
      (matched = true ↔ Selected numbers (StrictlyEqual numbers) item patch) := by
  cases hobject : isObjectLike item with
  | false =>
    refine ⟨false, by simp [matchItem, hobject], ?_⟩
    have hnot : ¬ Selected numbers (StrictlyEqual numbers) item patch :=
      not_selected_of_not_object hobject
    simp [hnot]
  | true =>
    obtain ⟨hid, hcriteria⟩ := h hobject
    obtain ⟨byId, heq, hiff⟩ := idMatches_of_readable hid
    refine ⟨_, by simp only [matchItem, hobject, heq]; rfl, ?_⟩
    rw [Bool.or_eq_true, hiff, Selected]
    apply or_congr Iff.rfl
    cases hpatch : patch.criteria with
    | none => simp [SelectedByMatch, hpatch]
    | some criteria =>
      have hne := hcriteria criteria hpatch
      simp [SelectedByMatch, hpatch, hne, criteriaMatch_iff]

end Selection

/-! ## Where an item patch acts -/

section Items

variable {numbers} {patch : ResourcePatch μ} {items : List (Value μ)}

/-- An item patch changes the items that `matched` picks, and keeps the others in their order. -/
def ActsOn (numbers : JsNumbers μ) (patch : ResourcePatch μ) (items : List (Value μ))
    (matched : Value μ → Bool) : Prop :=
  (patch.op = "replace-item" → ∃ value, patch.value = some value ∧
    applyPatchToValue numbers (.array items) patch =
      some (.array (items.map fun item => if matched item then value else item))) ∧
  (patch.op = "remove-item" →
    applyPatchToValue numbers (.array items) patch =
      some (.array (items.filter fun item => !matched item)))

theorem replaceItems_eq {matched : Value μ → Bool} {value : Value μ}
    (h : ∀ item ∈ items, matchItem numbers item patch = some (matched item)) :
    replaceItems numbers patch value items =
      some (items.map fun item => if matched item then value else item) := by
  induction items with
  | nil => rfl
  | cons item items ih =>
    rw [replaceItems, h item (by simp), ih fun x hx => h x (List.mem_cons_of_mem _ hx)]
    rfl

theorem removeItems_eq {matched : Value μ → Bool}
    (h : ∀ item ∈ items, matchItem numbers item patch = some (matched item)) :
    removeItems numbers patch items = some (items.filter fun item => !matched item) := by
  induction items with
  | nil => rfl
  | cons item items ih =>
    rw [removeItems, h item (by simp), ih fun x hx => h x (List.mem_cons_of_mem _ hx)]
    cases hm : matched item with
    | true => simp [hm]
    | false => simp [hm]

/-- The check lets no replacement pass without a value. -/
theorem value_of_assertMutationPatch {key : String} {raw : Value μ}
    (h : assertMutationPatch key raw = .ok patch) (hop : patch.op = "replace-item") :
    ∃ value, patch.value = some value := by
  unfold assertMutationPatch at h
  split at h
  · cases h
  · split at h
    · cases h
    · dsimp only at h
      split at h
      · cases h
      · split at h
        · cases h
        · split at h
          · cases h
          · split at h
            · cases h
            · next hcomplete =>
              rw [← Except.ok.inj h] at hop ⊢
              dsimp only at hop ⊢
              rw [hop] at hcomplete
              apply Option.isSome_iff_exists.mp
              by_contra hnone
              simp [Option.not_isSome_iff_eq_none.mp hnone] at hcomplete

theorem mem_of_assertMutationPatches {key : String} {raw : Value μ}
    {patches : List (ResourcePatch μ)} (h : assertMutationPatches key raw = .ok patches)
    (hp : patch ∈ patches) : ∃ raw', assertMutationPatch key raw' = .ok patch := by
  unfold assertMutationPatches at h
  split at h
  · cases h
  · next raws _ =>
    -- The loop stops at the first refused patch, so every patch it returns was accepted.
    clear * - h hp
    induction raws generalizing patches with
    | nil =>
      rw [← Except.ok.inj h] at hp
      cases hp
    | cons raw raws ih =>
      rw [List.mapM_cons] at h
      cases hfirst : assertMutationPatch key raw with
      | error message =>
        rw [hfirst] at h
        cases h
      | ok first =>
        cases hrest : raws.mapM (assertMutationPatch key) with
        | error message =>
          rw [hfirst, hrest] at h
          cases h
        | ok rest =>
          rw [hfirst, hrest] at h
          rw [← Except.ok.inj h] at hp
          rcases List.mem_cons.mp hp with rfl | hp
          · exact ⟨raw, hfirst⟩
          · exact ih hp hrest

/-- Where no selector throws, an accepted item patch acts on the items that `matchItem` takes. -/
theorem actsOn_matchItem {key : String} {raw : Value μ}
    (h : assertMutationPatch key raw = .ok patch)
    (hall : ∀ item ∈ items, (matchItem numbers item patch).isSome = true) :
    ActsOn numbers patch items fun item => (matchItem numbers item patch).getD false := by
  have hmatched : ∀ item ∈ items, matchItem numbers item patch =
      some ((matchItem numbers item patch).getD false) := by
    intro item hitem
    obtain ⟨matched, hmatched⟩ := Option.isSome_iff_exists.mp (hall item hitem)
    rw [hmatched, Option.getD_some]
  constructor
  · intro hop
    obtain ⟨value, hvalue⟩ := value_of_assertMutationPatch h hop
    refine ⟨value, hvalue, ?_⟩
    simp [applyPatchToValue, hop, hvalue, replaceItems_eq hmatched]
  · intro hop
    simp [applyPatchToValue, hop, removeItems_eq hmatched]

/-- An item patch leaves a value that is no array as it is. -/
theorem applyPatchToValue_of_not_array {current : Value μ}
    (hop : patch.op = "replace-item" ∨ patch.op = "remove-item")
    (h : ∀ items, current ≠ .array items) : applyPatchToValue numbers current patch = some current := by
  cases current with
  | array items => exact absurd rfl (h items)
  | null | bool | number | string | object =>
    rcases hop with hop | hop
    · simp [applyPatchToValue, hop]
    · simp [applyPatchToValue, hop]

end Items

end Values

end FluxFast.Core
