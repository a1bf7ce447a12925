import FluxFast.Core.LiveProtocol
import FluxFast.Core.SseChunks
import FluxFast.Server.BrokerDelivery
import FluxFast.Server.PyJson
import Mathlib

/-!
# LiveWire — live events from the server to the client

The patches that the event models accept, `encode_sse_event`, and what the client's reader makes of
a stream of events with heartbeats between them.
-/

namespace FluxFast.Server

open FluxFast.Theory
open FluxFast.Core (LiveEvent StreamError Frame maxLiveEventBytes)
open FluxFast.Core.LiveProtocol PyJson

variable {ν μ : Type}

/-! ## Accepted patches -/

/-- A `dict[str, Any]`. -/
abbrev PyDict (ν : Type) := OrderedMap String (Json String ν)

def patchOperations : List String :=
  ["replace-resource", "merge-object", "replace-item", "remove-item", "append-item"]

/-- A string or an integer; a Boolean is a value of its own here. -/
def hasPatchId (isInteger : ν → Bool) (patch : PyDict ν) : Bool :=
  match patch.get? "id" with
  | some (.string _) => true
  | some (.number n) => isInteger n
  | _ => false

def isDict : Option (Json String ν) → Bool
  | some (.object _) => true
  | _ => false

def isFilledDict : Option (Json String ν) → Bool
  | some (.object members) => !members.isEmpty
  | _ => false

/-- `_validate_patch`. -/
def acceptedPatch (isInteger : ν → Bool) (patch : PyDict ν) : Bool :=
  match patch.get? "op" with
  | some (.string operation) =>
    let hasIdentity := hasPatchId isInteger patch || isFilledDict (patch.get? "match")
    patchOperations.contains operation &&
      (!patch.has "id" || hasPatchId isInteger patch) &&
      (!patch.has "match" || isDict (patch.get? "match")) &&
      (!(["replace-resource", "merge-object", "append-item"].contains operation) ||
        patch.has "value") &&
      (!(["replace-item", "remove-item"].contains operation) || hasIdentity) &&
      (operation ≠ "replace-item" || patch.has "value") &&
      (operation ≠ "merge-object" || isDict (patch.get? "value"))
  | _ => false

/-- All that the event models check. -/
def acceptedLiveEvent (isInteger : ν → Bool) (event : LiveEvent (PyDict ν)) : Bool :=
  acceptedEvent event &&
    match event with
    | .patch patches _ => patches.entries.all fun e => e.2.all (acceptedPatch isInteger)
    | _ => true

/-! ## The frame of an event -/

def textMember (name text : String) : String × Json String ν := (name, .string text)

def stringArray (values : List String) : Json String ν := .array (values.map .string)

def optionalMember (name : String) (value : Option (Json String ν)) :
    List (String × Json String ν) := value.toList.map fun v => (name, v)

def dumpPatches (patches : OrderedMap String (List (PyDict ν))) : Json String ν :=
  .object (patches.entries.map fun e => (e.1, .array (e.2.map fun patch => .object patch.entries)))

/-- The members of `model_dump(mode="json", exclude_none=True)`. -/
def dumpMembers : LiveEvent (PyDict ν) → List (String × Json String ν)
  | .ready keys =>
    [textMember "protocol" Core.protocolVersion, textMember "type" "ready",
      ("keys", stringArray keys)]
  | .invalidate keys origin =>
    [textMember "protocol" Core.protocolVersion, textMember "type" "invalidate",
      ("keys", stringArray keys)] ++ optionalMember "originClientId" (origin.map .string)
  | .patch patches origin =>
    [textMember "protocol" Core.protocolVersion, textMember "type" "patch",
      ("patches", dumpPatches patches)] ++ optionalMember "originClientId" (origin.map .string)
  | .resync keys reason =>
    [textMember "protocol" Core.protocolVersion, textMember "type" "resync",
      ("keys", stringArray keys), textMember "reason" reason]

def eventLine : List Char := "event: fluxfast".toList

def dataLine (numbers : Numbers ν μ) (event : LiveEvent (PyDict ν)) : List Char :=
  "data: ".toList ++ (asciiWriter numbers).write (.object (dumpMembers event))

/-- A frame without the empty line that ends it. -/
def frameText (numbers : Numbers ν μ) (event : LiveEvent (PyDict ν)) : List Char :=
  eventLine ++ '\n' :: dataLine numbers event

def encodeSseEvent (numbers : Numbers ν μ) (event : LiveEvent (PyDict ν)) : List UInt8 :=
  Utf8.encode (frameText numbers event ++ ['\n', '\n'])

/-- `LIVE_HEARTBEAT`. -/
def liveHeartbeat : List UInt8 := Utf8.encode (": ping".toList ++ ['\n', '\n'])

/-- What the stream of a subscription sends. -/
inductive Sent (ν : Type) where
  | event (event : LiveEvent (PyDict ν))
  | heartbeat

namespace Sent

def bytes (numbers : Numbers ν μ) : Sent ν → List UInt8
  | .event e => encodeSseEvent numbers e
  | .heartbeat => liveHeartbeat

def event? : Sent ν → Option (LiveEvent (PyDict ν))
  | .event e => some e
  | .heartbeat => none

end Sent

def streamBytes (numbers : Numbers ν μ) (items : List (Sent ν)) : List UInt8 :=
  items.flatMap (Sent.bytes numbers)

def sentEvents (items : List (Sent ν)) : List (LiveEvent (PyDict ν)) :=
  items.filterMap Sent.event?

/-- The event that the client should see: its patches as parsed JSON. -/
def clientEvent (value : ν → μ) : LiveEvent (PyDict ν) → LiveEvent (PyDict μ)
  | .ready keys => .ready keys
  | .invalidate keys origin => .invalidate keys origin
  | .patch patches origin =>
    .patch (patches.mapValues fun ps => ps.map fun p => p.mapValues (Json.map id value)) origin
  | .resync keys reason => .resync keys reason

/-! ## The checks of the client on what the server accepts -/

section Checks

variable (value : ν → μ)

theorem map_stringArray (values : List String) :
    (stringArray values : Json String ν).map id value = .array (values.map .string) := by
  rw [stringArray, Json.map, Json.mapItems_eq, List.map_map]
  rfl

theorem map_object (members : List (String × Json String ν)) :
    (Json.object members).map id value =
      .object (members.map fun m => (m.1, m.2.map id value)) := by
  rw [Json.map, Json.mapMembers_eq]
  rfl

/-- The properties of an object whose members have names of their own. -/
theorem fields_map {members : List (String × Json String ν)}
    (h : (members.map Prod.fst).Nodup) :
    ∃ fields, Core.JsJson.fields ((Json.object members).map id value) = some fields ∧
      ∀ name, fields.get? name =
        (OrderedMap.lookup name members).map (Json.map id value) := by
  rw [map_object]
  refine ⟨_, rfl, fun name => ?_⟩
  rw [OrderedMap.get?_ofList, OrderedMap.lookup_map_values]
  rwa [List.map_map]

theorem fields_dict (patch : PyDict ν) :
    Core.JsJson.fields ((Json.object patch.entries).map id value) =
      some (patch.mapValues (Json.map id value)) := by
  rw [map_object]
  exact congrArg some (OrderedMap.ofList_map_entries _ patch)

theorem assertResourceKeys_strings {keys : List String}
    (h : keys.length ≤ Core.LiveTransport.maxLiveEventKeys) :
    assertResourceKeys (μ := μ) (some (.array (keys.map .string))) =
      if keys.all Core.LiveTransport.isSafeLiveKey then .ok keys else .error unsafeKeyError := by
  have hloop : ∀ keys : List String,
      (keys.map (Json.string (ν := μ))).mapM (m := Except StreamError) assertResourceKey =
        if keys.all Core.LiveTransport.isSafeLiveKey then .ok keys else .error unsafeKeyError := by
    intro keys
    induction keys with
    | nil => rfl
    | cons key keys ih =>
      rw [List.map_cons, List.mapM_cons, ih, List.all_cons, assertResourceKey]
      cases Core.LiveTransport.isSafeLiveKey key with
      | false => rfl
      | true =>
        cases keys.all Core.LiveTransport.isSafeLiveKey with
        | false => rfl
        | true => rfl
  rw [← hloop keys]
  exact if_neg (by rw [List.length_map]; exact Nat.not_lt.mpr h)

theorem jsLength_of_ascii {s : String} (h : ∀ c ∈ s.toList, c.toNat < 0x10000) :
    Core.Text.jsLength s = s.length := by
  rw [← PyText.javascriptStringLength_eq, PyText.javascriptStringLength, ← String.length_toList]
  have hone : (s.toList.map fun c => if c.toNat < 0x10000 then 1 else 2) =
      s.toList.map fun _ => 1 := List.map_congr_left fun c hc => if_pos (h c hc)
  rw [hone]
  simp

theorem assertOriginClientId_valid {origin : Option String}
    (h : validOriginClientId origin = true) :
    assertOriginClientId (μ := μ) (origin.map .string) = .ok origin := by
  cases origin with
  | none => rfl
  | some origin =>
    simp only [validOriginClientId, Bool.and_eq_true, decide_eq_true_eq] at h
    obtain ⟨⟨hne, hlength⟩, hall⟩ := h
    have hchars := List.all_eq_true.mp hall
    have hsmall : ∀ c ∈ origin.toList, c.toNat < 0x10000 := by
      intro c hc
      have hrange := hchars c hc
      simp only [Bool.and_eq_true, decide_eq_true_eq] at hrange
      omega
    have hprintable : isPrintableAscii origin = true := by
      rw [isPrintableAscii, Bool.and_eq_true]
      exact ⟨decide_eq_true hne, hall⟩
    refine if_neg ?_
    rw [hprintable, jsLength_of_ascii hsmall]
    rintro (hempty | hlong | hfalse)
    · exact hne hempty
    · exact Nat.not_lt.mpr hlength hlong
    · cases hfalse

/-! ### Patches -/

/-- A `match` with members reaches the client with properties. -/
theorem filled_of_isFilledDict {v : Option (Json String ν)} (h : isFilledDict v = true) :
    (((v.map (Json.map id value)).bind Core.JsJson.fields).any fun criteria =>
      decide (0 < criteria.size)) = true := by
  cases v with
  | none => cases h
  | some v =>
    cases v with
    | object members =>
      obtain ⟨m, rest, rfl⟩ := List.exists_cons_of_ne_nil
        (show members ≠ [] by rintro rfl; cases h)
      rw [Option.map_some, map_object]
      have hmem := OrderedMap.mem_keys_ofList
        (List.mem_cons_self (a := (m.1, m.2.map id value))
          (l := rest.map fun m => (m.1, m.2.map id value)))
      refine decide_eq_true ?_
      rw [OrderedMap.size_eq_length_keys]
      exact List.length_pos_of_mem hmem
    | null | bool | number | string | array => cases h

theorem hasIdentity_of_accepted {isInteger : ν → Bool} {patch : PyDict ν}
    (h : (hasPatchId isInteger patch || isFilledDict (patch.get? "match")) = true) :
    hasIdentity (patch.mapValues (Json.map id value)) = true := by
  unfold hasIdentity
  rw [OrderedMap.has_mapValues, OrderedMap.get?_mapValues, Bool.or_eq_true]
  rcases Bool.or_eq_true_iff.mp h with hid | hmatch
  · left
    unfold hasPatchId at hid
    rw [OrderedMap.has]
    cases hget : patch.get? "id" with
    | none =>
      rw [hget] at hid
      cases hid
    | some v => rfl
  · exact .inr (filled_of_isFilledDict value hmatch)

/-- The client takes every patch that the server accepts. -/
theorem assertPatch_accepted {isInteger : ν → Bool} {patch : PyDict ν}
    (h : acceptedPatch isInteger patch = true) (key : String) :
    assertPatch key ((Json.object patch.entries).map id value) =
      .ok (patch.mapValues (Json.map id value)) := by
  unfold acceptedPatch at h
  cases hop : patch.get? "op" with
  | none =>
    rw [hop] at h
    cases h
  | some v =>
    rw [hop] at h
    cases v with
    | string operation =>
      simp only [Bool.and_eq_true] at h
      -- The server's check of a patch implies each condition that the client makes.
      obtain ⟨⟨⟨⟨⟨⟨hknown, -⟩, -⟩, hvalue⟩, hidentity⟩, hitem⟩, -⟩ := h
      have hcomplete : incomplete operation (patch.mapValues (Json.map id value)) = false := by
        simp only [incomplete, OrderedMap.has_mapValues, Bool.or_eq_false_iff,
          Bool.and_eq_false_iff, Bool.not_eq_false']
        refine ⟨⟨?_, ?_⟩, ?_⟩
        · simpa [Bool.or_eq_true] using hvalue
        -- an operation on an item has an identity; for the others there is nothing to show
        · rcases Bool.or_eq_true_iff.mp hidentity with hother | hidentity
          · exact .inl (by simpa using hother)
          · exact .inr (hasIdentity_of_accepted value hidentity)
        · simpa [Bool.or_eq_true] using hitem
      unfold assertPatch
      rw [fields_dict]
      dsimp only
      -- the server's operations are the client's list
      rw [OrderedMap.get?_mapValues, hop]
      show (if !livePatchOperations.contains operation then _
        else if incomplete operation _ then _ else _ : Except StreamError _) = _
      rw [hcomplete, if_neg (by rw [show livePatchOperations = patchOperations from rfl, hknown]; decide)]
      rfl
    | null | bool | number | array | object => cases h

/-- A loop of which every step succeeds. -/
theorem mapM_ok {α β : Type} {ε : Type} {f : α → Except ε β} {g : α → β} {xs : List α}
    (h : ∀ x ∈ xs, f x = .ok (g x)) : xs.mapM f = .ok (xs.map g) := by
  induction xs with
  | nil => rfl
  | cons x xs ih =>
    rw [List.mapM_cons, h x List.mem_cons_self, ih fun y hy => h y (List.mem_cons_of_mem _ hy)]
    rfl

theorem assertPatches_accepted {isInteger : ν → Bool} {patches : List (PyDict ν)}
    (h : patches.all (acceptedPatch isInteger) = true) (key : String) :
    assertPatches key ((Json.array (patches.map fun p => .object p.entries)).map id value) =
      .ok (patches.map fun p => p.mapValues (Json.map id value)) := by
  rw [Json.map, Json.mapItems_eq, List.map_map]
  show (patches.map _).mapM (assertPatch key) = _
  rw [List.mapM_map]
  exact mapM_ok fun p hp => assertPatch_accepted value (List.all_eq_true.mp h p hp) key

/-- The object of all patches, key by key. -/
theorem fields_dumpPatches (patches : OrderedMap String (List (PyDict ν))) :
    Core.JsJson.fields ((dumpPatches patches).map id value) =
      some (patches.mapValues fun ps =>
        (Json.array (ps.map fun p => .object p.entries)).map id value) := by
  rw [dumpPatches, map_object, List.map_map]
  exact congrArg some (OrderedMap.ofList_map_entries
    (fun ps => (Json.array (ps.map fun p => .object p.entries)).map id value) patches)

theorem assertAllPatches_accepted {isInteger : ν → Bool}
    {patches : OrderedMap String (List (PyDict ν))}
    (h : (patches.entries.all fun e => e.2.all (acceptedPatch isInteger)) = true) :
    assertAllPatches (patches.mapValues fun ps =>
        (Json.array (ps.map fun p => .object p.entries)).map id value) =
      .ok (patches.mapValues fun ps => ps.map fun p => p.mapValues (Json.map id value)) := by
  unfold assertAllPatches
  rw [OrderedMap.mapValues]
  dsimp only
  have hloop : ∀ e ∈ patches.entries, (assertPatches e.1
      ((Json.array (e.2.map fun p => .object p.entries)).map id value)).map (fun ps => (e.1, ps)) =
        .ok (e.1, e.2.map fun p => p.mapValues (Json.map id value)) := by
    intro e he
    rw [assertPatches_accepted value (List.all_eq_true.mp h e he)]
    rfl
  simp only [List.mapM_map, Function.comp_def]
  rw [mapM_ok hloop]
  exact congrArg Except.ok (OrderedMap.ofList_map_entries
    (fun ps => ps.map fun p : PyDict ν => p.mapValues (Json.map id value)) patches)

/-! ### Events -/

theorem nodup_dumpMembers (event : LiveEvent (PyDict ν)) :
    ((dumpMembers event).map Prod.fst).Nodup := by
  cases event with
  | ready keys => simp [dumpMembers, textMember]
  | resync keys reason => simp [dumpMembers, textMember]
  | invalidate keys origin => cases origin <;> simp [dumpMembers, textMember, optionalMember]
  | patch patches origin => cases origin <;> simp [dumpMembers, textMember, optionalMember]

/-- The client takes an accepted event if and only if its own test takes the keys. -/
theorem assertLiveEvent_accepted (host : Core.JsHost μ) {isInteger : ν → Bool}
    {event : LiveEvent (PyDict ν)} (h : acceptedLiveEvent isInteger event = true) :
    assertLiveEvent host ((Json.object (dumpMembers event)).map id value) =
      if (eventKeys event).all Core.LiveTransport.isSafeLiveKey then .ok (clientEvent value event)
      else .error unsafeKeyError := by
  -- The server has accepted the event; what is left for the client to refuse is a key.
  obtain ⟨haccepted, hpatches⟩ := Bool.and_eq_true_iff.mp h
  have hkeys := validResourceKeys_of_accepted haccepted
  have hcount : (eventKeys event).length ≤ Core.LiveTransport.maxLiveEventKeys :=
    of_decide_eq_true (Bool.and_eq_true_iff.mp hkeys).1
  obtain ⟨fields, hfields, hget⟩ := fields_map value (nodup_dumpMembers event)
  -- the protocol version is a member of every event, so the check of it passes
  have hbody : assertLiveEvent host ((Json.object (dumpMembers event)).map id value) =
      assertEventBody host fields := by
    have hprotocol : (fields.get? "protocol").bind Core.JsJson.asString =
        some Core.protocolVersion := by
      rw [hget]
      cases event <;> rfl
    unfold assertLiveEvent
    rw [hfields]
    exact if_neg (by rw [hprotocol]; exact fun hne => hne rfl)
  have hassert := assertResourceKeys_strings (μ := μ) hcount
  rw [hbody]
  unfold assertEventBody
  -- the body is read back by the type of the event
  cases event with
  | ready keys =>
    simp only [eventKeys] at hassert ⊢
    have htype : (fields.get? "type").bind Core.JsJson.asString = some "ready" := by
      rw [hget]
      rfl
    have hlist : fields.get? "keys" = some (.array (keys.map .string)) := by
      rw [hget]
      exact congrArg some (map_stringArray value keys)
    rw [htype, hlist, if_pos rfl, hassert]
    show (if keys.all _ then _ else _ : Except StreamError _).bind _ = if keys.all _ then _ else _
    split <;> rfl
  | invalidate keys origin =>
    simp only [eventKeys] at hassert ⊢
    have htype : (fields.get? "type").bind Core.JsJson.asString = some "invalidate" := by
      rw [hget]
      rfl
    have hlist : fields.get? "keys" = some (.array (keys.map .string)) := by
      rw [hget]
      exact congrArg some (map_stringArray value keys)
    have horigin : fields.get? "originClientId" = origin.map .string := by
      rw [hget]
      cases origin <;> rfl
    rw [htype, hlist, horigin, if_neg (by decide), if_pos rfl, hassert,
      assertOriginClientId_valid (Bool.and_eq_true_iff.mp haccepted).2]
    show (if keys.all _ then _ else _ : Except StreamError _).bind _ = if keys.all _ then _ else _
    split <;> rfl
  | patch patches origin =>
    simp only [eventKeys] at hassert ⊢
    -- the type comes first, then the members that this type has
    have htype : (fields.get? "type").bind Core.JsJson.asString = some "patch" := by
      rw [hget]
      rfl
    have hobject : (fields.get? "patches").bind Core.JsJson.fields =
        some (patches.mapValues fun ps =>
          (Json.array (ps.map fun p => .object p.entries)).map id value) := by
      rw [hget]
      exact fields_dumpPatches value patches
    have horigin : fields.get? "originClientId" = origin.map .string := by
      rw [hget]
      cases origin <;> rfl
    rw [htype, hobject, horigin]
    dsimp only
    rw [if_neg (by decide), if_neg (by decide), if_pos rfl, OrderedMap.keys_mapValues,
      hassert, assertAllPatches_accepted value hpatches,
      assertOriginClientId_valid (Bool.and_eq_true_iff.mp haccepted).2]
    show (if patches.keys.all _ then _ else _ : Except StreamError _).bind _ =
      if patches.keys.all _ then _ else _
    split <;> rfl
  | resync keys reason =>
    simp only [eventKeys] at hassert ⊢
    have htype : (fields.get? "type").bind Core.JsJson.asString = some "resync" := by
      rw [hget]
      rfl
    have hlist : fields.get? "keys" = some (.array (keys.map .string)) := by
      rw [hget]
      exact congrArg some (map_stringArray value keys)
    -- the reason is one of the client's own list
    have hreason : ((fields.get? "reason").bind Core.JsJson.asString).filter
        Core.LiveProtocol.liveResyncReasons.contains = some reason := by
      rw [hget]
      exact Option.filter_some_pos (Bool.and_eq_true_iff.mp haccepted).2
    rw [htype, hlist, hreason, if_neg (by decide), if_neg (by decide), if_neg (by decide), if_pos rfl,
      hassert]
    show (if keys.all _ then _ else _ : Except StreamError _).bind _ = if keys.all _ then _ else _
    split <;> rfl

end Checks

/-! ## Frames -/

section Frames

open FluxFast.Core (IsLine findSeparator splitFrames readFrame frameBytes firstFailure goodEvents
  reachedFrames crowded pushFailure readLast ChunkSafe)
open FluxFast.Core.FluxSseParser

variable (numbers : Numbers ν μ)

theorem isLine_of_printable {cs : List Char} (h : ∀ c ∈ cs, isPrintable c = true) : IsLine cs := by
  intro c hc
  constructor
  · rintro rfl
    exact absurd (h _ hc) (by decide)
  · rintro rfl
    exact absurd (h _ hc) (by decide)

theorem isPrintable_dataLine (event : LiveEvent (PyDict ν)) :
    ∀ c ∈ dataLine numbers event, isPrintable c = true := by
  intro c hc
  rcases List.mem_append.mp hc with hc | hc
  · exact List.all_eq_true.mp (by decide : "data: ".toList.all isPrintable = true) c hc
  · exact isPrintable_write numbers hc

theorem isLine_eventLine : IsLine eventLine :=
  isLine_of_printable (List.all_eq_true.mp (by decide))

theorem isLine_dataLine (event : LiveEvent (PyDict ν)) : IsLine (dataLine numbers event) :=
  isLine_of_printable (isPrintable_dataLine numbers event)

theorem fields_frameText (event : LiveEvent (PyDict ν)) :
    (Core.splitLines (frameText numbers event)).filterMap Core.readLine =
      [("event".toList, Core.liveEventName.toList),
        ("data".toList, (asciiWriter numbers).write (.object (dumpMembers event)))] := by
  rw [frameText, Core.splitLines_newline isLine_eventLine,
    Core.splitLines_line (isLine_dataLine numbers event)]
  rfl

theorem readFrame_frameText {event : LiveEvent (PyDict ν)}
    (h : acceptedLiveEvent numbers.isInteger event = true)
    (hsize : frameBytes (frameText numbers event) ≤ maxLiveEventBytes) :
    readFrame (readLiveEvent numbers.host) (frameText numbers event) =
      if (eventKeys event).all Core.LiveTransport.isSafeLiveKey then
        .ok (some (clientEvent numbers.value event))
      else .error unsafeKeyError := by
  -- The text has one `event` field and one `data` field.
  have hname : Core.fieldValues (frameText numbers event) "event" =
      [Core.liveEventName.toList] := by
    rw [Core.fieldValues, fields_frameText]
    rfl
  have hdata : Core.fieldValues (frameText numbers event) "data" =
      [(asciiWriter numbers).write (.object (dumpMembers event))] := by
    rw [Core.fieldValues, fields_frameText]
    rfl
  have hparse : Core.parseFrame (readLiveEvent numbers.host) (frameText numbers event) =
      (readLiveEvent numbers.host
        ((asciiWriter numbers).write (.object (dumpMembers event)))).map some := by
    unfold Core.parseFrame
    rw [hname, hdata]
    have hlast : [Core.liveEventName.toList].getLast? = some Core.liveEventName.toList := rfl
    simp [hlast, List.intercalate_singleton]
  -- the data is what the writer wrote, so it is parsed back
  have hread : readLiveEvent numbers.host
      ((asciiWriter numbers).write (.object (dumpMembers event))) =
        assertLiveEvent numbers.host ((Json.object (dumpMembers event)).map id numbers.value) := by
    rw [readLiveEvent, parse_asciiWriter]
  -- the size is checked on the text of the frame, before it is read
  rw [readFrame, Core.assertFrameSize, if_neg (Nat.not_lt.mpr hsize)]
  rw [hparse, hread, assertLiveEvent_accepted numbers.value numbers.host h]
  split <;> rfl

/-! ## Streams -/

/-- An item of the stream without the empty line that ends it. -/
def Sent.text : Sent ν → List Char
  | .event e => frameText numbers e
  | .heartbeat => ": ping".toList

def streamText (items : List (Sent ν)) : List Char :=
  items.flatMap fun item => item.text numbers ++ ['\n', '\n']

theorem streamBytes_eq (items : List (Sent ν)) :
    streamBytes numbers items = Utf8.encode (streamText numbers items) := by
  induction items with
  | nil => rfl
  | cons item items ih =>
    rw [streamBytes, List.flatMap_cons, streamText, List.flatMap_cons, Utf8.encode_append]
    refine congrArg₂ _ ?_ ih
    cases item <;> rfl

theorem isAscii_text {item : Sent ν} : ∀ c ∈ item.text numbers, c.toNat < 0x80 := by
  have hsmall : ∀ c, isPrintable c = true → c.toNat < 0x80 := by
    intro c hc
    simp only [isPrintable, Bool.and_eq_true, decide_eq_true_eq] at hc
    omega
  intro c hc
  cases item with
  | heartbeat =>
    exact hsmall c (List.all_eq_true.mp (by decide : ": ping".toList.all isPrintable = true) c hc)
  | event e =>
    rcases List.mem_append.mp hc with hc | hc
    · exact hsmall c (List.all_eq_true.mp (by decide : eventLine.all isPrintable = true) c hc)
    · rcases List.mem_cons.mp hc with rfl | hc
      · decide
      · exact hsmall c (isPrintable_dataLine numbers e c hc)

theorem decoded_streamBytes (items : List (Sent ν)) :
    decoded (streamBytes numbers items) = streamText numbers items ∧
      (({} : TextDecoder).decode (streamBytes numbers items)).1.flush = [] := by
  have hascii : ∀ c ∈ streamText numbers items, c.toNat < 0x80 := by
    intro c hc
    obtain ⟨item, -, hc⟩ := List.mem_flatMap.mp hc
    rcases List.mem_append.mp hc with hc | hc
    · exact isAscii_text numbers c hc
    · simp only [List.mem_cons, List.not_mem_nil, or_false, or_self] at hc
      rw [hc]
      decide
  obtain ⟨hpending, htext⟩ := TextDecoder.decode_ascii (d := {}) rfl hascii
  rw [streamBytes_eq]
  refine ⟨htext, ?_⟩
  rw [TextDecoder.flush, hpending]

theorem findSeparator_text (item : Sent ν) (rest : List Char) :
    findSeparator (item.text numbers ++ '\n' :: '\n' :: rest) =
      some (item.text numbers, 2, rest) := by
  have hend : findSeparator ('\n' :: '\n' :: rest) = some ([], 2, rest) :=
    Core.findSeparator_of_some rfl
  cases item with
  | heartbeat =>
    rw [Sent.text, Core.findSeparator_line (isLine_of_printable (List.all_eq_true.mp (by decide))),
      hend, Option.map_some, List.append_nil]
  | event e =>
    have hnone : Core.separatorAt ('\n' :: (dataLine numbers e ++ '\n' :: '\n' :: rest)) = none := rfl
    rw [Sent.text, frameText, List.append_assoc, List.cons_append,
      Core.findSeparator_line isLine_eventLine, Core.findSeparator_cons hnone,
      Core.findSeparator_line (isLine_dataLine numbers e), hend]
    simp

theorem splitFrames_streamText (items : List (Sent ν)) :
    splitFrames (streamText numbers items) =
      (items.map fun item => ⟨item.text numbers, 2⟩, []) := by
  induction items with
  | nil => rfl
  | cons item items ih =>
    have hfind := findSeparator_text numbers item (streamText numbers items)
    rw [streamText, List.flatMap_cons, List.append_assoc]
    show splitFrames (item.text numbers ++ '\n' :: '\n' :: streamText numbers items) = _
    rw [Core.splitFrames_some hfind, ih]
    rfl

/-! ## The stream as the client reads it -/

/-- The event's keys pass the client's test. -/
def takesKeys (event : LiveEvent (PyDict ν)) : Prop :=
  ∀ key ∈ eventKeys event, Core.Text.blank key = false ∧
    Core.Text.jsLength key ≤ Core.LiveTransport.maxLiveResourceKeyLength

/-- What both sides test alike is left out. -/
theorem isSafeLiveKey_iff {key : String} (h : safeResourceKey key = true) :
    Core.LiveTransport.isSafeLiveKey key = true ↔ Core.Text.blank key = false ∧
      Core.Text.jsLength key ≤ Core.LiveTransport.maxLiveResourceKeyLength := by
  simp only [safeResourceKey, Bool.and_eq_true, Bool.not_eq_true'] at h
  obtain ⟨⟨-, hcomma⟩, hcontrol⟩ := h
  have hnoComma : Core.Text.hasComma key = false := by
    rw [Core.Text.hasComma, List.any_eq_false]
    intro c hc hsame
    rw [of_decide_eq_true hsame] at hc
    rw [List.contains_iff_mem.mpr hc] at hcomma
    cases hcomma
  have hnoControl : Core.Text.hasControl key = false := by
    rw [Core.Text.hasControl, List.any_eq_false]
    intro c hc hlow
    have hplain := List.any_eq_false.mp hcontrol c hc
    exact hplain (PyText.isControl_iff.mpr (.inl (of_decide_eq_true hlow)))
  rw [Core.LiveTransport.isSafeLiveKey, hnoComma, hnoControl]
  simp

theorem all_isSafeLiveKey_iff {isInteger : ν → Bool} {event : LiveEvent (PyDict ν)}
    (h : acceptedLiveEvent isInteger event = true) :
    (eventKeys event).all Core.LiveTransport.isSafeLiveKey = true ↔ takesKeys event := by
  have hkeys := validResourceKeys_of_accepted (Bool.and_eq_true_iff.mp h).1
  have hsafe := List.all_eq_true.mp (Bool.and_eq_true_iff.mp hkeys).2
  rw [List.all_eq_true]
  exact forall₂_congr fun key hkey => isSafeLiveKey_iff (hsafe key hkey)

def frameOf (item : Sent ν) : Core.Frame := ⟨item.text numbers, 2⟩

theorem readFrame_heartbeat :
    readFrame (readLiveEvent numbers.host) (frameOf numbers .heartbeat).text = .ok none := by
  show readFrame (readLiveEvent numbers.host) ": ping".toList = .ok none
  have hsize : ¬maxLiveEventBytes < frameBytes ": ping".toList := by decide
  rw [readFrame, Core.assertFrameSize, if_neg hsize]
  rfl

theorem pushFailure_stream (items : List (Sent ν)) :
    pushFailure (readLiveEvent numbers.host) (decoded (streamBytes numbers items)) =
      firstFailure (readLiveEvent numbers.host) (items.map (frameOf numbers)) := by
  rw [(decoded_streamBytes numbers items).1, pushFailure, splitFrames_streamText]
  dsimp only
  split
  · next e h => exact h.symm
  · next h =>
    have hnone : firstFailure (readLiveEvent numbers.host) (items.map (frameOf numbers)) = none := h
    rw [hnone]
    rfl

section Items

variable {items : List (Sent ν)}
  (haccepted : ∀ e ∈ sentEvents items, acceptedLiveEvent numbers.isInteger e = true)
  (hfits : ∀ e ∈ sentEvents items, frameBytes (frameText numbers e) ≤ maxLiveEventBytes)

include haccepted hfits

theorem firstFailure_frames :
    firstFailure (readLiveEvent numbers.host) (items.map (frameOf numbers)) = none ↔
      ∀ e ∈ sentEvents items, takesKeys e := by
  induction items with
  | nil => simp [sentEvents, firstFailure]
  | cons item items ih =>
    cases item with
    | heartbeat =>
      rw [List.map_cons, firstFailure, readFrame_heartbeat]
      exact ih haccepted hfits
    | event event =>
      have hevents : sentEvents (.event event :: items) = event :: sentEvents items := rfl
      rw [hevents] at haccepted hfits ⊢
      rw [List.forall_mem_cons] at haccepted hfits ⊢
      rw [List.map_cons, firstFailure, frameOf, Sent.text,
        readFrame_frameText numbers haccepted.1 hfits.1]
      by_cases hkeys : takesKeys event
      · rw [if_pos ((all_isSafeLiveKey_iff haccepted.1).mpr hkeys)]
        exact (ih haccepted.2 hfits.2).trans (and_iff_right hkeys).symm
      · rw [if_neg (fun hall => hkeys ((all_isSafeLiveKey_iff haccepted.1).mp hall))]
        exact iff_of_false (fun hnone => by cases hnone) fun hboth => hkeys hboth.1

theorem goodEvents_frames (hkeys : ∀ e ∈ sentEvents items, takesKeys e) :
    goodEvents (readLiveEvent numbers.host) (items.map (frameOf numbers)) =
      (sentEvents items).map (clientEvent numbers.value) := by
  induction items with
  | nil => rfl
  | cons item items ih =>
    cases item with
    | heartbeat =>
      rw [List.map_cons, goodEvents, readFrame_heartbeat]
      exact ih haccepted hfits hkeys
    | event event =>
      have hevents : sentEvents (.event event :: items) = event :: sentEvents items := rfl
      rw [hevents] at haccepted hfits hkeys ⊢
      rw [List.forall_mem_cons] at haccepted hfits hkeys
      rw [List.map_cons, List.map_cons, goodEvents, frameOf, Sent.text,
        readFrame_frameText numbers haccepted.1 hfits.1,
        if_pos ((all_isSafeLiveKey_iff haccepted.1).mpr hkeys.1)]
      exact congrArg _ (ih haccepted.2 hfits.2 hkeys.2)

/-- In one chunk the stream is read whole. -/
theorem consume_single_stream (hkeys : ∀ e ∈ sentEvents items, takesKeys e) :
    consume (readLiveEvent numbers.host) {} [streamBytes numbers items] =
      ((sentEvents items).map (clientEvent numbers.value), none) := by
  obtain ⟨htext, hflush⟩ := decoded_streamBytes numbers items
  have hframes := splitFrames_streamText numbers items
  have hbuffer : (({} : Core.FluxSseParser).drained (streamBytes numbers items)).buffer = [] := by
    show (splitFrames (decoded (streamBytes numbers items))).2 = []
    rw [htext, hframes]
  have hflushed : (({} : Core.FluxSseParser).drained (streamBytes numbers items)).decoder.flush =
      [] := hflush
  have hevents : goodEvents (readLiveEvent numbers.host)
      (splitFrames (decoded (streamBytes numbers items))).1 =
        (sentEvents items).map (clientEvent numbers.value) := by
    rw [htext, hframes]
    exact goodEvents_frames numbers haccepted hfits hkeys
  rw [consume_single, filled_empty, pushFailure_stream numbers,
    (firstFailure_frames numbers haccepted hfits).mpr hkeys, hbuffer, hflushed, hevents]
  show ((sentEvents items).map _ ++ [], none) = _
  rw [List.append_nil]

theorem consume_single_refused (hkeys : ¬∀ e ∈ sentEvents items, takesKeys e) :
    ∃ failure, consume (readLiveEvent numbers.host) {} [streamBytes numbers items] =
      ([], some failure) := by
  have hfails : firstFailure (readLiveEvent numbers.host) (items.map (frameOf numbers)) ≠ none :=
    fun hnone => hkeys ((firstFailure_frames numbers haccepted hfits).mp hnone)
  obtain ⟨failure, hfailure⟩ := Option.ne_none_iff_exists'.mp hfails
  exact ⟨failure, consume_single_of_push ((pushFailure_stream numbers items).trans hfailure)⟩

theorem reachedFrames_stream (hkeys : ∀ e ∈ sentEvents items, takesKeys e) :
    reachedFrames (readLiveEvent numbers.host)
        (splitFrames (decoded (streamBytes numbers items))).1 = items.map (frameOf numbers) := by
  have hnone := (firstFailure_frames numbers haccepted hfits).mpr hkeys
  have hall := Core.reachedFrames_append hnone []
  rw [List.append_nil] at hall
  rw [(decoded_streamBytes numbers items).1, splitFrames_streamText]
  exact hall.trans (List.append_nil _)

/-- The client reads back every event of every chunking if and only if it takes the keys and no
frame is exactly as long as the limit, where a chunk could end inside the separator. -/
theorem stream_read_back_iff :
    (∀ chunks : List (List UInt8), chunks.flatten = streamBytes numbers items →
      consume (readLiveEvent numbers.host) {} chunks =
        ((sentEvents items).map (clientEvent numbers.value), none)) ↔
    ∀ e ∈ sentEvents items, takesKeys e ∧ frameBytes (frameText numbers e) < maxLiveEventBytes := by
  constructor
  · intro hall
    have hsingle := hall [streamBytes numbers items] (List.append_nil _)
    -- a key that the client refuses fails even the stream in one chunk
    have hkeys : ∀ e ∈ sentEvents items, takesKeys e := by
      by_contra hkeys
      obtain ⟨failure, hfailure⟩ := consume_single_refused numbers haccepted hfits hkeys
      rw [hfailure] at hsingle
      cases (Prod.mk.inj hsingle).2
    intro e he
    refine ⟨hkeys e he, ?_⟩
    -- a frame at the limit fails when it is cut inside its separator
    by_contra hlarge
    obtain ⟨item, hitem, hevent⟩ := List.mem_filterMap.mp he
    cases item with
    | heartbeat => cases hevent
    | event event =>
      cases hevent
      have hreached : frameOf numbers (.event e) ∈ reachedFrames (readLiveEvent numbers.host)
          (splitFrames (decoded (streamBytes numbers items))).1 := by
        rw [reachedFrames_stream numbers haccepted hfits hkeys]
        exact List.mem_map_of_mem hitem
      have hcrowded : crowded (frameOf numbers (.event e)) = true := by
        show (decide (frameBytes (frameText numbers e) ≤ maxLiveEventBytes) &&
          decide (maxLiveEventBytes < frameBytes (frameText numbers e) + 1)) = true
        rw [decide_eq_true (hfits e he), decide_eq_true (Nat.lt_succ_of_le (Nat.not_lt.mp hlarge))]
        rfl
      obtain ⟨xs, ys, -, -, hbytes, -, -, hcut, -⟩ :=
        exists_chunks_of_crowded hreached hcrowded
      have hread := hall [xs, ys] (by rw [hbytes]; simp)
      rw [hcut] at hread
      cases (Prod.mk.inj hread).2
  -- Frames below the limit are not crowded, so every way to cut the stream is safe.
  · intro hall chunks hchunks
    have hkeys : ∀ e ∈ sentEvents items, takesKeys e := fun e he => (hall e he).1
    have hsafe : ChunkSafe (readLiveEvent numbers.host)
        (({} : Core.FluxSseParser).filled chunks.flatten)
        (({} : Core.FluxSseParser).flushed chunks.flatten) := by
      refine .inl ?_
      rw [hchunks, filled_empty]
      refine ⟨?_, ?_⟩
      · rw [pushFailure_stream]
        exact (firstFailure_frames numbers haccepted hfits).mpr hkeys
      · rw [reachedFrames_stream numbers haccepted hfits hkeys]
        intro f hf
        obtain ⟨item, hitem, rfl⟩ := List.mem_map.mp hf
        have hshort : frameBytes (item.text numbers) < maxLiveEventBytes := by
          cases item with
          | heartbeat => exact (by decide : frameBytes ": ping".toList < maxLiveEventBytes)
          | event e => exact (hall e (List.mem_filterMap.mpr ⟨_, hitem, rfl⟩)).2
        show (_ && decide (maxLiveEventBytes < frameBytes (item.text numbers) + 1)) = false
        rw [decide_eq_false (Nat.not_lt.mpr hshort), Bool.and_false]
    have hempty : findSeparator ({} : Core.FluxSseParser).buffer = none := rfl
    rw [consume_eq_single chunks hempty (Nat.zero_le _) hsafe, hchunks]
    exact consume_single_stream numbers haccepted hfits hkeys

end Items

/-- Decimal digits, as both languages write and read them. -/
def digitNumbers : Numbers (Fin 10) Nat where
  isInteger _ := true
  render d := [Char.ofNat (48 + d)]
  value d := d
  same d n := d.val = n
  host :=
    { parseNumber := fun word => word.foldl (fun n c => n * 10 + (c.toNat - 48)) 0
      describe := fun _ => "undefined" }
  isNumber_render := by decide
  parse_render := by decide

/-- A stream of two events with a heartbeat between them. -/
def quietStream : List (Sent (Fin 10)) :=
  [.event (.ready ["tasks"]), .heartbeat, .event (.patch (.ofList [("tasks",
    [.ofList [("op", .string "append-item"), ("value", .array [.number 7, .null])]])])
      (some "tab-1"))]

theorem stream_read_back_quiet :
    consume (readLiveEvent digitNumbers.host) {} [streamBytes digitNumbers quietStream] =
      ((sentEvents quietStream).map (clientEvent digitNumbers.value), none) := by
  have haccepted : (sentEvents quietStream).all (acceptedLiveEvent digitNumbers.isInteger) =
      true := by decide
  have hfits : ((sentEvents quietStream).all fun e =>
      frameBytes (frameText digitNumbers e) < maxLiveEventBytes) = true := by decide +kernel
  have hkeys : ((sentEvents quietStream).all fun e =>
      (eventKeys e).all Core.LiveTransport.isSafeLiveKey) = true := by decide
  have haccepted' := List.all_eq_true.mp haccepted
  have hfits' := List.all_eq_true.mp hfits
  exact (stream_read_back_iff digitNumbers haccepted'
    (fun e he => Nat.le_of_lt (of_decide_eq_true (hfits' e he)))).mpr
      (fun e he => ⟨(all_isSafeLiveKey_iff (haccepted' e he)).mp (List.all_eq_true.mp hkeys e he),
        of_decide_eq_true (hfits' e he)⟩) _ (List.append_nil _)

/-- A key that `strip` leaves as it is and `trim` makes empty. -/
def markedStream : List (Sent (Fin 10)) := [.event (.ready ["\ufeff"])]

/-- The server accepts the event, and the client refuses the stream. -/
theorem stream_with_mark_refused :
    (∀ e ∈ sentEvents markedStream, acceptedLiveEvent digitNumbers.isInteger e = true ∧
      frameBytes (frameText digitNumbers e) ≤ maxLiveEventBytes) ∧
    ∃ failure, consume (readLiveEvent digitNumbers.host) {} [streamBytes digitNumbers markedStream] =
      ([], some failure) := by
  have haccepted : acceptedLiveEvent digitNumbers.isInteger (.ready ["\ufeff"]) = true := by
    decide
  have hfits : frameBytes (frameText digitNumbers (.ready ["\ufeff"])) ≤ maxLiveEventBytes := by
    decide
  have hevents : ∀ e ∈ sentEvents markedStream, e = .ready ["\ufeff"] :=
    fun e he => List.mem_singleton.mp he
  have hall : ∀ e ∈ sentEvents markedStream, acceptedLiveEvent digitNumbers.isInteger e = true ∧
      frameBytes (frameText digitNumbers e) ≤ maxLiveEventBytes := by
    intro e he
    rw [hevents e he]
    exact ⟨haccepted, hfits⟩
  refine ⟨hall, consume_single_refused digitNumbers (fun e he => (hall e he).1)
    (fun e he => (hall e he).2) fun hkeys => ?_⟩
  have hblank := (hkeys _ List.mem_cons_self "\ufeff" List.mem_cons_self).1
  exact absurd hblank (by decide)

end Frames

end FluxFast.Server
