import FluxFast.Core.Mutation
import FluxFast.Server.LiveWire

/-!
# MutationWire — patches that either side accepts, and the items they select

Every patch that `_validate_patch` lets the server send passes `assertMutationEnvelope` on the
client, so what the client makes of the patches it accepts holds of both.
-/

namespace FluxFast.Server

open FluxFast.Theory
open FluxFast.Core
open FluxFast.Core.JsJson (fields asString asArray)

variable {ν μ : Type}

/-! ## The client accepts what the server accepts -/

section Accepted

variable (value : ν → μ)

theorem patchId_of_hasPatchId {isInteger : ν → Bool} {patch : PyDict ν}
    (h : hasPatchId isInteger patch = true) :
    (patchId ((patch.get? "id").map (Json.map id value))).isSome = true := by
  unfold hasPatchId at h
  cases hget : patch.get? "id" with
  | none =>
    rw [hget] at h
    cases h
  | some v =>
    rw [hget] at h
    cases v with
    | string s => rfl
    | number n => rfl
    | null | bool | array | object => cases h

theorem fields_of_isDict {v : Option (Json String ν)} (h : isDict v = true) :
    ((v.map (Json.map id value)).bind fields).isSome = true := by
  cases v with
  | none => cases h
  | some v =>
    cases v with
    | object members =>
      rw [Option.map_some, map_object]
      rfl
    | null | bool | number | string | array => cases h

theorem assertMutationPatch_accepted {isInteger : ν → Bool} {patch : PyDict ν}
    (h : acceptedPatch isInteger patch = true) (key : String) :
    ∃ read, assertMutationPatch key ((Json.object patch.entries).map id value) = .ok read := by
  unfold acceptedPatch at h
  cases hop : patch.get? "op" with
  | none =>
    rw [hop] at h
    cases h
  | some v =>
    rw [hop] at h
    cases v with
    | null | bool | number | array | object => cases h
    | string operation =>
      simp only [Bool.and_eq_true, Bool.or_eq_true, Bool.not_eq_true', decide_eq_true_eq] at h
      -- The same conditions as for live patches, but the client reads them from its own view of the
      -- dictionary.
      obtain ⟨⟨⟨⟨⟨⟨hknown, hid⟩, hmatch⟩, hvalue⟩, hidentity⟩, hitem⟩, hmerge⟩ := h
      set client := patch.mapValues (Json.map id value) with hclient
      have hget : ∀ name, client.get? name = (patch.get? name).map (Json.map id value) :=
        fun name => OrderedMap.get?_mapValues _ _ _
      have hhas : ∀ name, client.has name = patch.has name :=
        fun name => OrderedMap.has_mapValues _ _ _
      have hsome : (client.get? "value").isSome = patch.has "value" := by
        rw [hget, Option.isSome_map]
        rfl
      -- an id, when there is one, is a string or an integer for both sides
      have hidOk : (client.has "id" && (patchId (client.get? "id")).isNone) = false := by
        rw [hhas, hget]
        rcases hid with hnone | hid
        · rw [hnone, Bool.false_and]
        · rw [← Option.not_isSome, patchId_of_hasPatchId value hid, Bool.not_true, Bool.and_false]
      -- a match, when there is one, is an object for both sides
      have hmatchOk : (client.has "match" &&
          ((client.get? "match").bind fields).isNone) = false := by
        rw [hhas, hget]
        rcases hmatch with hnone | hmatch
        · rw [hnone, Bool.false_and]
        · rw [← Option.not_isSome, fields_of_isDict value hmatch, Bool.not_true, Bool.and_false]
      have hcomplete :
          ((["replace-resource", "merge-object", "append-item"].contains operation &&
              (client.get? "value").isNone) ||
            (["replace-item", "remove-item"].contains operation &&
              !((patchId (client.get? "id")).isSome ||
                ((client.get? "match").bind fields).any fun criteria =>
                  decide (0 < criteria.size))) ||
            (decide (operation = "replace-item") && (client.get? "value").isNone) ||
            (decide (operation = "merge-object") &&
              ((client.get? "value").bind fields).isNone)) = false := by
        simp only [Bool.or_eq_false_iff, Bool.and_eq_false_iff, ← Option.not_isSome, hsome,
          Bool.not_eq_false', decide_eq_false_iff_not]
        refine ⟨⟨⟨hvalue, ?_⟩, hitem⟩, ?_⟩
        · refine hidentity.imp_right fun hidentity => ?_
          rw [Bool.or_eq_true, hget, hget]
          exact hidentity.imp (patchId_of_hasPatchId value) (filled_of_isFilledDict value)
        · refine hmerge.imp_right fun hmerge => ?_
          rw [hget]
          exact fields_of_isDict value hmerge
      have hopClient : (client.get? "op").bind asString = some operation := by
        rw [hget, hop]
        rfl
      have hallowed : (!allowedOps.contains operation) = false := by
        rw [show allowedOps = patchOperations from rfl, hknown]
        rfl
      refine ⟨{ op := operation
                id := patchId (client.get? "id")
                criteria := (client.get? "match").bind fields
                value := client.get? "value" }, ?_⟩
      unfold assertMutationPatch
      rw [fields_dict]
      dsimp only
      rw [← hclient, hopClient]
      dsimp only
      rw [hallowed, hidOk, hmatchOk, hcomplete]
      rfl

theorem assertMutationPatches_accepted {isInteger : ν → Bool} {patches : List (PyDict ν)}
    (h : patches.all (acceptedPatch isInteger) = true) (key : String) :
    ∃ read, assertMutationPatches key
      ((Json.array (patches.map fun p => .object p.entries)).map id value) = .ok read := by
  have hitems : (Json.array (patches.map fun p => .object p.entries)).map id value =
      .array (patches.map fun p => (Json.object p.entries).map id value) := by
    rw [Json.map, Json.mapItems_eq, List.map_map]
    rfl
  rw [hitems]
  show ∃ read, (patches.map _).mapM (assertMutationPatch key) = .ok read
  induction patches with
  | nil => exact ⟨[], rfl⟩
  | cons p patches ih =>
    rw [List.all_cons, Bool.and_eq_true] at h
    obtain ⟨first, hfirst⟩ := assertMutationPatch_accepted value h.1 key
    obtain ⟨rest, hrest⟩ := ih h.2 (by rw [Json.map, Json.mapItems_eq, List.map_map]; rfl)
    refine ⟨first :: rest, ?_⟩
    rw [List.map_cons, List.mapM_cons, hfirst, hrest]
    rfl

end Accepted

/-! ## The items a patch selects -/

/-- What the server accepts the client accepts too.  An item patch of an accepted list leaves a
value that is no array as it is; of an array it changes the selected items and keeps the others in
their order, where each item that the selectors can read is selected as they say. -/
theorem item_patches_touch_selected (numbers : JsNumbers μ) (key : String) :
    (∀ (isInteger : ν → Bool) (value : ν → μ) (patches : List (PyDict ν)),
      patches.all (acceptedPatch isInteger) = true → ∃ read, assertMutationPatches key
        ((Json.array (patches.map fun p => .object p.entries)).map id value) = .ok read) ∧
    ∀ (raw : Json String μ) (patches : List (ResourcePatch μ)),
      assertMutationPatches key raw = .ok patches → ∀ patch ∈ patches,
      (patch.op = "replace-item" ∨ patch.op = "remove-item") →
        (∀ current : Json String μ, (∀ items, current ≠ .array items) →
          applyPatchToValue numbers current patch = some current) ∧
        ∀ items : List (Json String μ),
          (∀ item ∈ items, Readable numbers item patch →
            (matchItem numbers item patch).isSome = true) ∧
          ((∀ item ∈ items, (matchItem numbers item patch).isSome = true) →
            ∃ matched : Json String μ → Bool, ActsOn numbers patch items matched ∧
              ∀ item ∈ items, Readable numbers item patch →
                (matched item = true ↔
                  Selected numbers (StrictlyEqual numbers) item patch)) := by
  refine ⟨fun isInteger value patches h => assertMutationPatches_accepted value h key,
    fun raw patches h patch hp hop =>
      ⟨fun current => applyPatchToValue_of_not_array hop, fun items => ⟨?_, ?_⟩⟩⟩
  · intro item _ hread
    obtain ⟨matched, hmatched, -⟩ := matchItem_of_readable hread
    rw [hmatched]
    rfl
  · intro hall
    obtain ⟨raw', haccepted⟩ := mem_of_assertMutationPatches h hp
    refine ⟨_, actsOn_matchItem haccepted hall, fun item _ hread => ?_⟩
    obtain ⟨matched, hmatched, hiff⟩ := matchItem_of_readable hread
    rw [hmatched, Option.getD_some]
    exact hiff

/-- Natural numbers as the numbers of a program. -/
def naturalNumbers : JsNumbers Nat where
  equal a b := a = b
  text n := toString n
  ofNat n := n

def roomPatches : Json String Nat :=
  .array [.object [("op", .string "remove-item"), ("id", .number 2)]]

def removeRoom : ResourcePatch Nat := { op := "remove-item", id := some (.number 2) }

/-- The last room has no `id`. -/
def rooms : List (Json String Nat) :=
  [.object [("id", .number 1)], .object [("id", .number 2)], .object [("name", .string "attic")]]

theorem item_patches_touch_rooms :
    ∃ matched, ActsOn naturalNumbers removeRoom rooms matched ∧
      ∀ item ∈ rooms, (matched item = true ↔
        Selected naturalNumbers (StrictlyEqual naturalNumbers) item removeRoom) := by
  have hreadable : ∀ item ∈ rooms, Readable naturalNumbers item removeRoom := by
    intro item hitem _
    refine ⟨fun id hid => ?_, fun criteria hcriteria => by cases hcriteria⟩
    obtain rfl : PatchId.number 2 = id := Option.some.inj hid
    simp only [rooms, List.mem_cons, List.not_mem_nil, or_false] at hitem
    rcases hitem with rfl | rfl | rfl
    · exact .inl rfl
    · exact .inl rfl
    · exact .inr ⟨"undefined", rfl, by decide⟩
  obtain ⟨-, hitems⟩ := (@item_patches_touch_selected Nat Nat naturalNumbers "rooms").2
    roomPatches [removeRoom] rfl removeRoom (by simp) (.inr rfl)
  obtain ⟨hread, hacts⟩ := hitems rooms
  obtain ⟨matched, hmatched, hselected⟩ :=
    hacts fun item hitem => hread item hitem (hreadable item hitem)
  exact ⟨matched, hmatched, fun item hitem => hselected item hitem (hreadable item hitem)⟩

/-- A `match` with a nested value, and an item with an equal one. -/
def ownerOne : Json String Nat := .object [("owner", .object [("id", .number 1)])]

def nestedMatch : Json String Nat :=
  .array [.object [("op", .string "remove-item"), ("match", ownerOne)]]

/-- An item whose member equals a nested `match` value as a JSON value is not selected. -/
theorem nested_match_not_selected :
    ¬ ∀ (raw : Json String Nat) (patches : List (ResourcePatch Nat)),
      assertMutationPatches "rooms" raw = .ok patches → ∀ patch ∈ patches,
      (patch.op = "replace-item" ∨ patch.op = "remove-item") → ∀ items : List (Json String Nat),
        ∃ matched : Json String Nat → Bool, ActsOn naturalNumbers patch items matched ∧
          ∀ item ∈ items, (matched item = true ↔
            Selected naturalNumbers (JsonEqual naturalNumbers) item patch) := by
  intro hall
  obtain ⟨matched, hacts, hselected⟩ := hall nestedMatch _ rfl _ (List.mem_singleton_self _)
    (.inr rfl) [ownerOne]
  have hkept : some (Json.array [ownerOne]) =
      some (Json.array ([ownerOne].filter fun item => !matched item)) := hacts.2 rfl
  have hnot : matched ownerOne = false := by
    cases hm : matched ownerOne with
    | false => rfl
    | true => simp [hm] at hkept
  have hequal : JsonEqual naturalNumbers (.object [("id", .number 1)])
      (.object [("id", .number 1)]) := by
    refine .object (fun _ => rfl) fun name x y hx hy => ?_
    obtain rfl : x = y := Option.some.inj (hx.symm.trans hy)
    have hmem := OrderedMap.get?_eq_some_iff.mp hx
    obtain ⟨-, rfl⟩ := Prod.mk.inj (List.mem_singleton.mp hmem)
    exact .number rfl
  have hselects : Selected naturalNumbers (JsonEqual naturalNumbers) ownerOne
      { op := "remove-item"
        criteria := some (OrderedMap.ofList [("owner", .object [("id", .number 1)])]) } := by
    refine .inr ⟨_, rfl, by simp [OrderedMap.entries_ofList], fun e he => ?_⟩
    obtain rfl : e = ("owner", .object [("id", .number 1)]) := List.mem_singleton.mp he
    exact ⟨_, rfl, hequal⟩
  rw [(hselected ownerOne (List.mem_singleton_self _)).mpr hselects] at hnot
  cases hnot

end FluxFast.Server
