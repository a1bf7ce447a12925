import FluxFast.Core.PageProtocol
import FluxFast.Server.LiveWire

/-!
# PageWire — page envelopes from the server to the client

The envelope that the router builds from a page and what was resolved for it, the JSON that it
becomes, and what the client reads.  `exclude_none` leaves out a field of a model whose value is
`None`; a `None` inside a dictionary or a list stays.
-/

namespace FluxFast.Server

open FluxFast.Theory
open FluxFast.Core (Failure)
open FluxFast.Core.PageProtocol PyJson

variable {ν μ : Type}

/-! ## Envelopes -/

namespace PageWire

structure WireRecord (ν : Type) where
  version : String
  value : Json String ν

structure ErrorDetail (ν : Type) where
  type : String
  message : String
  details : Json String ν := .null

structure PageEnvelope (ν : Type) where
  component : String
  url : String
  pageMeta : PyDict ν
  resources : OrderedMap String (WireRecord ν)
  resourceKeys : Option (List String)
  deferred : Option (List String)
  live : Option (List String)
  resourceErrors : Option (OrderedMap String (ErrorDetail ν))

/-- What the envelope takes from a resource of a page. -/
structure PageResource where
  key : String
  live : Bool := false

structure Page (ν : Type) where
  component : String
  pageMeta : PyDict ν
  resources : List PageResource

def Page.keys (page : Page ν) : List String :=
  page.resources.map PageResource.key

def Page.liveKeys (page : Page ν) : List String :=
  (page.resources.filter PageResource.live).map PageResource.key

/-- `ResourceResolution`. -/
structure Resolution (ν : Type) where
  resources : OrderedMap String (WireRecord ν)
  deferred : List String
  errors : OrderedMap String (ErrorDetail ν)

/-- The envelope of a response to a client with the given capabilities. -/
def buildEnvelope (page : Page ν) (requestedUrl : String) (supportsDeferred supportsLive : Bool)
    (resolution : Resolution ν) : PageEnvelope ν where
  component := page.component
  url := requestedUrl
  pageMeta := page.pageMeta
  resources := resolution.resources
  resourceKeys := if supportsDeferred then some page.keys else none
  deferred :=
    if supportsDeferred && !resolution.deferred.isEmpty then some resolution.deferred else none
  live := if supportsLive && !page.liveKeys.isEmpty then some page.liveKeys else none
  resourceErrors := if resolution.errors.size = 0 then none else some resolution.errors

/-! ## `model_dump(mode="json", exclude_none=True)` -/

/-- A field of a model, left out when it is `None`. -/
def field (name : String) : Json String ν → List (String × Json String ν)
  | .null => []
  | value => [(name, value)]

def dumpRecord (record : WireRecord ν) : Json String ν :=
  .object (field "version" (.string record.version) ++ field "value" record.value)

def dumpError (error : ErrorDetail ν) : Json String ν :=
  .object (field "type" (.string error.type) ++ field "message" (.string error.message) ++
    field "details" error.details)

def dumpDict {α : Type} (dump : α → Json String ν) (values : OrderedMap String α) : Json String ν :=
  .object (values.entries.map fun e => (e.1, dump e.2))

def optional {α : Type} (dump : α → Json String ν) : Option α → Json String ν
  | none => .null
  | some x => dump x

def dumpPage (envelope : PageEnvelope ν) : Json String ν :=
  .object (field "component" (.string envelope.component) ++ field "url" (.string envelope.url) ++
    field "meta" (.object envelope.pageMeta.entries))

def dumpEnvelope (envelope : PageEnvelope ν) : Json String ν :=
  .object (field "protocol" (.string Core.protocolVersion) ++ field "page" (dumpPage envelope) ++
    field "resources" (dumpDict dumpRecord envelope.resources) ++
    field "resourceKeys" (optional stringArray envelope.resourceKeys) ++
    field "deferred" (optional stringArray envelope.deferred) ++
    field "live" (optional stringArray envelope.live) ++
    field "resourceErrors" (optional (dumpDict dumpError) envelope.resourceErrors))

/-- The text of the router's response. -/
def render (numbers : Numbers ν μ) (envelope : PageEnvelope ν) : List Char :=
  (unicodeWriter numbers).write (dumpEnvelope envelope)

/-! ## What the client should see -/

section Seen

variable (numbers : Numbers ν μ)

def clientRecord (record : WireRecord ν) : Core.ResourceWireRecord (Json String μ) where
  version := record.version
  value := record.value.map id numbers.value

/-- `None` details are absent. -/
def clientError (error : ErrorDetail ν) : Core.ResourceErrorDetail (Json String μ) where
  type := error.type
  message := error.message
  details :=
    match error.details with
    | .null => none
    | details => some (details.map id numbers.value)

def clientEnvelope (envelope : PageEnvelope ν) : Core.PageEnvelope (Json String μ) where
  page :=
    { component := envelope.component
      url := envelope.url
      pageMeta := some (envelope.pageMeta.mapValues (Json.map id numbers.value)) }
  resources := envelope.resources.mapValues (clientRecord numbers)
  resourceKeys := envelope.resourceKeys
  deferred := envelope.deferred
  live := envelope.live
  resourceErrors := envelope.resourceErrors.map fun errors => errors.mapValues (clientError numbers)

end Seen

/-! ## The fields of a dumped model -/

/-- A field that is there. -/
def present : Json String ν → Option (Json String ν)
  | .null => none
  | value => some value

theorem lookup_field (name n : String) (v : Json String ν) :
    OrderedMap.lookup name (field n v) = if n = name then present v else none := by
  cases v <;> by_cases h : n = name <;> simp [field, present, OrderedMap.lookup, h]

theorem names_field (n : String) (v : Json String ν) :
    ((field n v).map Prod.fst).Sublist [n] := by
  cases v <;> simp [field]

theorem present_optional {α : Type} {dump : α → Json String ν} (hdump : ∀ x, dump x ≠ .null)
    (o : Option α) : present (optional dump o) = o.map dump := by
  cases o with
  | none => rfl
  | some x =>
    have hx := hdump x
    show present (dump x) = some (dump x)
    cases hd : dump x <;> first | rfl | exact absurd hd hx

section Reading

variable (numbers : Numbers ν μ)

theorem fields_dumpDict {α : Type} (dump : α → Json String ν) (values : OrderedMap String α) :
    Core.JsJson.fields ((dumpDict dump values).map id numbers.value) =
      some (values.mapValues fun x => (dump x).map id numbers.value) := by
  rw [dumpDict, map_object, List.map_map]
  exact congrArg some (OrderedMap.ofList_map_entries (fun x => (dump x).map id numbers.value) values)

theorem assertKeyList_optional (name : String) (keys : Option (List String)) :
    assertKeyList name ((keys.map (stringArray (ν := ν))).map (Json.map id numbers.value)) =
      .ok keys := by
  cases keys with
  | none => rfl
  | some keys =>
    rw [Option.map_some, Option.map_some, map_stringArray, assertKeyList,
      Core.JsJson.asStrings_array]

/-- A record whose value is `None` is dumped without it, and refused. -/
theorem assertRecord_dump (key : String) (record : WireRecord ν) :
    assertRecord key ((dumpRecord record).map id numbers.value) =
      match record.value with
      | .null => .error (protocolError ("Invalid PageEnvelope resource record for '" ++ key ++ "'"))
      | _ => .ok (clientRecord numbers record) := by
  have hnames : ((field "version" (.string record.version) ++
      field "value" record.value).map Prod.fst).Nodup := by
    rw [List.map_append]
    exact ((names_field _ _).append (names_field _ _)).nodup (by decide)
  obtain ⟨fields, hfields, hget⟩ := fields_map numbers.value hnames
  have hversion : (fields.get? "version").bind Core.JsJson.asString = some record.version := by
    rw [hget]
    simp [OrderedMap.lookup_append, lookup_field, present, Json.map, Core.JsJson.asString]
  have hvalue : fields.get? "value" = (present record.value).map (Json.map id numbers.value) := by
    rw [hget]
    simp [OrderedMap.lookup_append, lookup_field]
  unfold assertRecord dumpRecord
  rw [hfields]
  dsimp only
  rw [hversion, hvalue]
  obtain ⟨version, value⟩ := record
  cases value <;> rfl

theorem assertErrorDetail_dump (key : String) (error : ErrorDetail ν) :
    assertErrorDetail key ((dumpError error).map id numbers.value) =
      .ok (clientError numbers error) := by
  have hnames : ((field "type" (.string error.type) ++ field "message" (.string error.message) ++
      field "details" error.details).map Prod.fst).Nodup := by
    rw [List.map_append, List.map_append]
    exact (((names_field _ _).append (names_field _ _)).append (names_field _ _)).nodup (by decide)
  obtain ⟨fields, hfields, hget⟩ := fields_map numbers.value hnames
  have htype : (fields.get? "type").bind Core.JsJson.asString = some error.type := by
    rw [hget]
    simp [OrderedMap.lookup_append, lookup_field, present, Json.map, Core.JsJson.asString]
  have hmessage : (fields.get? "message").bind Core.JsJson.asString = some error.message := by
    rw [hget]
    simp [OrderedMap.lookup_append, lookup_field, present, Json.map, Core.JsJson.asString]
  have hdetails : fields.get? "details" =
      (present error.details).map (Json.map id numbers.value) := by
    rw [hget]
    simp [OrderedMap.lookup_append, lookup_field]
  unfold assertErrorDetail dumpError
  rw [hfields]
  dsimp only
  rw [htype, hmessage, hdetails]
  obtain ⟨type, message, details⟩ := error
  cases details <;> rfl

theorem assertPage_dump (envelope : PageEnvelope ν) :
    assertPage (some ((dumpPage envelope).map id numbers.value)) =
      .ok (clientEnvelope numbers envelope).page := by
  have hnames : ((field "component" (.string envelope.component) ++
      field "url" (.string envelope.url) ++
      field "meta" (.object envelope.pageMeta.entries)).map Prod.fst).Nodup := by
    rw [List.map_append, List.map_append]
    exact (((names_field _ _).append (names_field _ _)).append (names_field _ _)).nodup (by decide)
  obtain ⟨fields, hfields, hget⟩ := fields_map numbers.value hnames
  have hcomponent : (fields.get? "component").bind Core.JsJson.asString =
      some envelope.component := by
    rw [hget]
    simp [OrderedMap.lookup_append, lookup_field, present, Json.map, Core.JsJson.asString]
  have hurl : (fields.get? "url").bind Core.JsJson.asString = some envelope.url := by
    rw [hget]
    simp [OrderedMap.lookup_append, lookup_field, present, Json.map, Core.JsJson.asString]
  have hmeta : (fields.get? "meta").bind Core.JsJson.fields =
      some (envelope.pageMeta.mapValues (Json.map id numbers.value)) := by
    rw [hget, ← fields_dict]
    simp [OrderedMap.lookup_append, lookup_field, present]
  unfold assertPage dumpPage
  rw [Option.bind_some, hfields]
  dsimp only
  rw [hcomponent, hurl, hmeta]
  rfl

theorem assertEntries_ok {α β : Type} {check : String → Json String μ → Except Failure β}
    {dump : α → Json String ν} {see : α → β} {values : OrderedMap String α}
    (h : ∀ e ∈ values.entries, check e.1 ((dump e.2).map id numbers.value) = .ok (see e.2)) :
    assertEntries check (values.mapValues fun x => (dump x).map id numbers.value) =
      .ok (values.mapValues see) := by
  have hloop : ∀ e ∈ values.entries,
      (check e.1 ((dump e.2).map id numbers.value)).map (fun x => (e.1, x)) =
        .ok (e.1, see e.2) := by
    intro e he
    rw [h e he]
    rfl
  unfold assertEntries
  rw [OrderedMap.mapValues]
  simp only [List.mapM_map, Function.comp_def]
  rw [mapM_ok hloop]
  exact congrArg Except.ok (OrderedMap.ofList_map_entries see values)

/-- Entries that were accepted were accepted one by one. -/
theorem of_assertEntries_ok {β : Type} {check : String → Json String μ → Except Failure β}
    {entries : Core.JsJson.Fields μ} {checked : OrderedMap String β}
    (h : assertEntries check entries = .ok checked) :
    ∀ e ∈ entries.entries, ∃ x, check e.1 e.2 = .ok x := by
  intro e he
  unfold assertEntries at h
  cases hloop : entries.entries.mapM (m := Except Failure)
      (fun e => (check e.1 e.2).map fun x => (e.1, x)) with
  | error failure =>
    rw [hloop] at h
    cases h
  | ok results =>
    obtain ⟨result, -, hresult⟩ := (mapM_eq_ok hloop).1 e he
    cases hcheck : check e.1 e.2 with
    | ok x => exact ⟨x, rfl⟩
    | error failure =>
      rw [hcheck] at hresult
      cases hresult

theorem dumpDict_ne_null {α : Type} (dump : α → Json String ν) (values : OrderedMap String α) :
    dumpDict dump values ≠ .null := fun h => by cases h

/-- The client's view of the members of an envelope. -/
structure Dumped (envelope : PageEnvelope ν) (data : Core.JsJson.Fields μ) : Prop where
  protocol : (data.get? "protocol").bind Core.JsJson.asString = some Core.protocolVersion
  page : data.get? "page" = some ((dumpPage envelope).map id numbers.value)
  resources : (data.get? "resources").bind Core.JsJson.fields =
    some (envelope.resources.mapValues fun r => (dumpRecord r).map id numbers.value)
  resourceKeys : data.get? "resourceKeys" =
    (envelope.resourceKeys.map stringArray).map (Json.map id numbers.value)
  deferred : data.get? "deferred" =
    (envelope.deferred.map stringArray).map (Json.map id numbers.value)
  live : data.get? "live" = (envelope.live.map stringArray).map (Json.map id numbers.value)
  resourceErrors : data.get? "resourceErrors" =
    (envelope.resourceErrors.map (dumpDict dumpError)).map (Json.map id numbers.value)
  appVersion : data.get? "appVersion" = none

theorem dumped_dumpEnvelope (envelope : PageEnvelope ν) :
    ∃ data, Core.JsJson.fields ((dumpEnvelope envelope).map id numbers.value) = some data ∧
      Dumped numbers envelope data := by
  -- the names of the dump are distinct, so each member is found under its own
  have hnames : ((field "protocol" (.string Core.protocolVersion) ++
      field "page" (dumpPage envelope) ++ field "resources" (dumpDict dumpRecord envelope.resources) ++
      field "resourceKeys" (optional stringArray envelope.resourceKeys) ++
      field "deferred" (optional stringArray envelope.deferred) ++
      field "live" (optional stringArray envelope.live) ++
      field "resourceErrors" (optional (dumpDict dumpError) envelope.resourceErrors)).map
        Prod.fst).Nodup := by
    simp only [List.map_append]
    exact (((((((names_field _ _).append (names_field _ _)).append (names_field _ _)).append
      (names_field _ _)).append (names_field _ _)).append (names_field _ _)).append
        (names_field _ _)).nodup (by decide)
  obtain ⟨data, hdata, hget⟩ := fields_map numbers.value hnames
  -- a list is never null, so it is left out only where there is none
  have hstrings : ∀ keys : List String, (stringArray keys : Json String ν) ≠ .null :=
    fun keys h => by cases h
  refine ⟨data, hdata, ?_⟩
  constructor
  -- one member after the other; those before it have other names
  case protocol =>
    rw [hget]
    simp [OrderedMap.lookup_append, lookup_field, present, Json.map, Core.JsJson.asString]
  case page =>
    rw [hget]
    simp [OrderedMap.lookup_append, lookup_field, present, dumpPage]
  case resources =>
    rw [hget, ← fields_dumpDict]
    simp [OrderedMap.lookup_append, lookup_field, present, dumpDict]
  case resourceKeys =>
    rw [hget]
    simp [OrderedMap.lookup_append, lookup_field, present_optional hstrings]
  case deferred =>
    rw [hget]
    simp [OrderedMap.lookup_append, lookup_field, present_optional hstrings]
  case live =>
    rw [hget]
    simp [OrderedMap.lookup_append, lookup_field, present_optional hstrings]
  case resourceErrors =>
    rw [hget]
    simp [OrderedMap.lookup_append, lookup_field,
      present_optional (dumpDict_ne_null (dumpError (ν := ν)))]
  case appVersion =>
    rw [hget]
    simp [OrderedMap.lookup_append, lookup_field]

theorem assertResourceErrors_dump
    (errors : Option (OrderedMap String (ErrorDetail ν))) :
    assertResourceErrors ((errors.map (dumpDict dumpError)).map (Json.map id numbers.value)) =
      .ok (errors.map fun errors => errors.mapValues (clientError numbers)) := by
  cases errors with
  | none => rfl
  | some errors =>
    rw [Option.map_some, Option.map_some, assertResourceErrors, fields_dumpDict]
    dsimp only
    rw [assertEntries_ok numbers fun (e : String × ErrorDetail ν) _ =>
      assertErrorDetail_dump numbers e.1 e.2]
    rfl

theorem readPage_eq (envelope : PageEnvelope ν) (url : String) (status : Nat) :
    ∃ data, Dumped numbers envelope data ∧
      readPage numbers.host url status (render numbers envelope) = assertBody data := by
  obtain ⟨data, hdata, hdumped⟩ := dumped_dumpEnvelope numbers envelope
  refine ⟨data, hdumped, ?_⟩
  rw [readPage, render, parse_unicodeWriter]
  dsimp only
  rw [assertPageEnvelope, hdata]
  dsimp only
  rw [hdumped.protocol, if_neg (fun hne => hne rfl)]

/-- An envelope without `None` values is read. -/
theorem readPage_render {envelope : PageEnvelope ν}
    (hvalues : ∀ k r, envelope.resources.get? k = some r → r.value ≠ .null) (url : String)
    (status : Nat) :
    readPage numbers.host url status (render numbers envelope) =
      .ok (clientEnvelope numbers envelope) := by
  obtain ⟨data, hdumped, hread⟩ := readPage_eq numbers envelope url status
  have hresources : assertResources (data.get? "resources") =
      .ok (envelope.resources.mapValues (clientRecord numbers)) := by
    rw [assertResources, hdumped.resources]
    refine assertEntries_ok numbers fun e he => ?_
    rw [assertRecord_dump]
    have hvalue := hvalues e.1 e.2 (OrderedMap.get?_eq_some_iff.mpr he)
    obtain ⟨key, version, value⟩ := e
    cases value <;> first | rfl | exact absurd rfl hvalue
  rw [hread, assertBody, hresources, hdumped.page, hdumped.resourceKeys, hdumped.deferred,
    hdumped.live, hdumped.resourceErrors, hdumped.appVersion, assertPage_dump,
    assertKeyList_optional, assertKeyList_optional, assertKeyList_optional,
    assertResourceErrors_dump]
  rfl

/-- An envelope with a `None` value is refused. -/
theorem readPage_refused {envelope : PageEnvelope ν} {k : String} {r : WireRecord ν}
    (hr : envelope.resources.get? k = some r) (hnull : r.value = .null) (url : String)
    (status : Nat) (seen : Core.PageEnvelope (Json String μ)) :
    readPage numbers.host url status (render numbers envelope) ≠ .ok seen := by
  intro hok
  obtain ⟨data, hdumped, hread⟩ := readPage_eq numbers envelope url status
  rw [hread] at hok
  have hresources : ∃ checked, assertResources (data.get? "resources") = .ok checked := by
    unfold assertBody at hok
    cases hcheck : assertResources (data.get? "resources") with
    | ok checked => exact ⟨checked, rfl⟩
    | error failure =>
      rw [hcheck, hdumped.page, assertPage_dump] at hok
      cases hok
  obtain ⟨checked, hchecked⟩ := hresources
  rw [assertResources, hdumped.resources] at hchecked
  have hentry : (k, (dumpRecord r).map id numbers.value) ∈
      (envelope.resources.mapValues fun r => (dumpRecord r).map id numbers.value).entries :=
    List.mem_map_of_mem (f := fun e : String × WireRecord ν =>
      (e.1, (dumpRecord e.2).map id numbers.value)) (OrderedMap.get?_eq_some_iff.mp hr)
  obtain ⟨x, hx⟩ := of_assertEntries_ok hchecked _ hentry
  rw [assertRecord_dump, hnull] at hx
  cases hx

/-! ## The same page -/

def SameRecord (record : WireRecord ν) (seen : Core.ResourceWireRecord (Json String μ)) : Prop :=
  seen.version = record.version ∧ Json.Agree numbers.same record.value seen.value

/-- Details that are `None` may be absent. -/
def SameError (error : ErrorDetail ν) (seen : Core.ResourceErrorDetail (Json String μ)) : Prop :=
  seen.type = error.type ∧ seen.message = error.message ∧
    match seen.details with
    | none => error.details = .null
    | some details => Json.Agree numbers.same error.details details

/-- A client with the given capabilities sees the page and what was resolved for it.  It is told of
the keys that belong to its capabilities; lists and errors that are empty may be absent. -/
structure SamePage (page : Page ν) (requestedUrl : String) (supportsDeferred supportsLive : Bool)
    (resolution : Resolution ν) (seen : Core.PageEnvelope (Json String μ)) : Prop where
  component : seen.page.component = page.component
  url : seen.page.url = requestedUrl
  pageMeta : ∃ values, seen.page.pageMeta = some values ∧
    page.pageMeta.Agrees (Json.Agree numbers.same) values
  resources : resolution.resources.Agrees (SameRecord numbers) seen.resources
  resourceKeys : seen.resourceKeys = if supportsDeferred then some page.keys else none
  deferred : seen.deferred.getD [] = if supportsDeferred then resolution.deferred else []
  live : seen.live.getD [] = if supportsLive then page.liveKeys else []
  resourceErrors : resolution.errors.Agrees (SameError numbers) (seen.resourceErrors.getD .empty)

/-- Every number of the value is one that its double represents exactly. -/
def Exact (value : Json String ν) : Prop :=
  value.EveryNumber fun n => numbers.same n (numbers.value n)

structure ExactPage (page : Page ν) (resolution : Resolution ν) : Prop where
  pageMeta : ∀ k v, page.pageMeta.get? k = some v → Exact numbers v
  resources : ∀ k r, resolution.resources.get? k = some r → Exact numbers r.value
  resourceErrors : ∀ k e, resolution.errors.get? k = some e → Exact numbers e.details

theorem sameRecord_client (record : WireRecord ν) :
    SameRecord numbers record (clientRecord numbers record) ↔ Exact numbers record.value :=
  (and_iff_right rfl).trans (Json.agree_map record.value)

theorem sameError_client (error : ErrorDetail ν) :
    SameError numbers error (clientError numbers error) ↔ Exact numbers error.details := by
  refine (and_iff_right rfl).trans ((and_iff_right rfl).trans ?_)
  obtain ⟨type, message, details⟩ := error
  cases details with
  | null => exact iff_of_true rfl trivial
  | bool | number | string | array | object => exact Json.agree_map _

theorem getD_guarded (guard : Bool) (keys : List String) :
    (if guard && !keys.isEmpty then some keys else none).getD [] = if guard then keys else [] := by
  cases guard <;> cases keys <;> rfl

/-- Errors are left out only where there are none. -/
theorem getD_clientErrors (errors : OrderedMap String (ErrorDetail ν)) :
    ((if errors.size = 0 then none else some errors).map
      fun found => found.mapValues (clientError numbers)).getD .empty =
        errors.mapValues (clientError numbers) := by
  split
  · next hsize =>
    have hnone : errors.entries = [] := List.length_eq_zero_iff.mp hsize
    apply OrderedMap.ext_entries
    show [] = errors.entries.map _
    rw [hnone]
    rfl
  · rfl

theorem samePage_client (page : Page ν) (requestedUrl : String)
    (supportsDeferred supportsLive : Bool) (resolution : Resolution ν) :
    SamePage numbers page requestedUrl supportsDeferred supportsLive resolution
        (clientEnvelope numbers
          (buildEnvelope page requestedUrl supportsDeferred supportsLive resolution)) ↔
      ExactPage numbers page resolution := by
  -- Each part agrees with what the client reads exactly where its values are exact.
  have hmeta : page.pageMeta.Agrees (Json.Agree numbers.same)
      (page.pageMeta.mapValues (Json.map id numbers.value)) ↔
        ∀ k v, page.pageMeta.get? k = some v → Exact numbers v :=
    (OrderedMap.agrees_mapValues _ _).trans
      (forall₃_congr fun _ v _ => Json.agree_map v)
  have hresources : resolution.resources.Agrees (SameRecord numbers)
      (resolution.resources.mapValues (clientRecord numbers)) ↔
        ∀ k r, resolution.resources.get? k = some r → Exact numbers r.value :=
    (OrderedMap.agrees_mapValues _ _).trans
      (forall₃_congr fun _ r _ => sameRecord_client numbers r)
  have herrors : resolution.errors.Agrees (SameError numbers)
      (resolution.errors.mapValues (clientError numbers)) ↔
        ∀ k e, resolution.errors.get? k = some e → Exact numbers e.details :=
    (OrderedMap.agrees_mapValues _ _).trans
      (forall₃_congr fun _ e _ => sameError_client numbers e)
  rw [← getD_clientErrors numbers] at herrors
  constructor
  -- what the page is said to hold gives the exactness of its parts
  · rintro ⟨-, -, ⟨values, hsome, hagrees⟩, hrecords, -, -, -, hfailures⟩
    cases hsome
    exact ⟨hmeta.mp hagrees, hresources.mp hrecords, herrors.mp hfailures⟩
  -- and the rest of the page is the same whatever its values are
  · rintro ⟨hmetaExact, hvalues, hdetails⟩
    exact ⟨rfl, rfl, ⟨_, rfl, hmeta.mpr hmetaExact⟩, hresources.mpr hvalues, rfl,
      getD_guarded _ _, getD_guarded _ _, herrors.mpr hdetails⟩

/-- The client takes the router's envelope and sees the page that was resolved, if and only if no
resource value is `None` and every number has a double of its own. -/
theorem page_read_back_iff (page : Page ν) (requestedUrl : String)
    (supportsDeferred supportsLive : Bool) (resolution : Resolution ν) (url : String)
    (status : Nat) :
    (∃ seen, readPage numbers.host url status (render numbers
        (buildEnvelope page requestedUrl supportsDeferred supportsLive resolution)) = .ok seen ∧
      SamePage numbers page requestedUrl supportsDeferred supportsLive resolution seen) ↔
    (∀ k r, resolution.resources.get? k = some r → r.value ≠ .null) ∧
      ExactPage numbers page resolution := by
  have hclient := samePage_client numbers page requestedUrl supportsDeferred supportsLive resolution
  constructor
  · rintro ⟨seen, hread, hsame⟩
    have hvalues : ∀ k r, resolution.resources.get? k = some r → r.value ≠ .null :=
      fun k r hr hnull => readPage_refused numbers hr hnull url status seen hread
    refine ⟨hvalues, ?_⟩
    rw [readPage_render numbers hvalues] at hread
    cases hread
    exact hclient.mp hsame
  · rintro ⟨hvalues, hexact⟩
    exact ⟨_, readPage_render numbers hvalues url status, hclient.mpr hexact⟩

/-- A page with one resource, whose loader returned `None`. -/
def emptyHanded : Resolution (Fin 10) where
  resources := .ofList [("profile", { version := "v1", value := .null })]
  deferred := []
  errors := .empty

theorem page_with_none_refused :
    ¬∃ seen, readPage digitNumbers.host "/profile" 200 (render digitNumbers (buildEnvelope
      { component := "Profile", pageMeta := .empty, resources := [{ key := "profile" }] }
        "/profile" true false emptyHanded)) = .ok seen :=
  fun ⟨seen, hread⟩ => readPage_refused digitNumbers (k := "profile") rfl rfl "/profile" 200 seen hread

end Reading

end PageWire

end FluxFast.Server
