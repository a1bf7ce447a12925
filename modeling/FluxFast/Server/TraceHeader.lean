import FluxFast.Core.ServerTrace
import FluxFast.Server.Devtools

/-!
# TraceHeader — the trace header between the server and the browser

The encoder drops as few entries as it must to meet its limit, from the ends of the lists, and marks
the trace.  The browser reads what is left back, field by field, exactly if the header and the
values in it keep within the browser's own limits.
-/

namespace FluxFast.Server.Devtools

open FluxFast.Theory PyJson RedisCachePayload FluxFast.Core.ServerTrace

variable {F : Type} (doubles : Doubles F)

/-! ## Dropping -/

/-- What is left when so many entries are dropped from the ends of the lists, the patches before the
invalidated keys. -/
def Details.drop (k : Nat) : Details F → Details F
  | .page pageMs resourcesMs serializeMs resources =>
    .page pageMs resourcesMs serializeMs (resources.take (resources.length - k))
  | .mutation handlerMs invalidationMs serializeMs patches invalidated invalidationCount liveSignals
      redirect =>
    .mutation handlerMs invalidationMs serializeMs (patches.take (patches.length - k))
      (invalidated.take (invalidated.length - (k - patches.length))) invalidationCount liveSignals
      redirect

/-- A trace that lost entries is marked. -/
def RequestPayload.drop (k : Nat) (p : RequestPayload F) : RequestPayload F :=
  { p with details := p.details.drop k, truncated := p.truncated || decide (0 < k) }

theorem Details.drop_zero (d : Details F) : d.drop 0 = d := by
  cases d with
  | page => rw [drop, Nat.sub_zero, List.take_length]
  | mutation =>
    rw [drop, Nat.sub_zero, Nat.zero_sub, Nat.sub_zero, List.take_length, List.take_length]

theorem RequestPayload.drop_zero (p : RequestPayload F) : p.drop 0 = p := by
  rw [drop, Details.drop_zero, decide_eq_false (Nat.lt_irrefl 0), Bool.or_false]

theorem Details.pop_eq_none_iff {d : Details F} : d.pop = none ↔ d.size = 0 := by
  cases d with
  | page pageMs resourcesMs serializeMs resources =>
    rw [pop, size, List.length_eq_zero_iff]
    split
    · next h => exact iff_of_true rfl h
    · next h => exact iff_of_false (Option.some_ne_none _) h
  | mutation handlerMs invalidationMs serializeMs patches invalidated count signals redirect =>
    rw [pop, size, Nat.add_eq_zero_iff, List.length_eq_zero_iff, List.length_eq_zero_iff]
    split
    · next hpatches =>
      split
      · next h => exact iff_of_true rfl ⟨hpatches, h⟩
      · next h => exact iff_of_false (Option.some_ne_none _) fun hboth => h hboth.2
    · next hpatches => exact iff_of_false (Option.some_ne_none _) fun hboth => hpatches hboth.1

theorem take_dropLast {α : Type} (l : List α) (k : Nat) :
    l.dropLast.take (l.dropLast.length - k) = l.take (l.length - (k + 1)) := by
  rw [List.dropLast_eq_take, List.take_take, List.length_take]
  congr 1
  omega

/-- Dropping one entry and then `k` is dropping `k + 1`. -/
theorem Details.drop_of_pop {d d' : Details F} (h : d.pop = some d') (k : Nat) :
    d'.drop k = d.drop (k + 1) := by
  cases d with
  | page pageMs resourcesMs serializeMs resources =>
    by_cases hne : resources = []
    · rw [pop, if_pos hne] at h
      cases h
    · rw [pop, if_neg hne] at h
      cases h
      rw [drop, drop, take_dropLast]
  | mutation handlerMs invalidationMs serializeMs patches invalidated count signals redirect =>
    by_cases hpatches : patches = []
    · by_cases hne : invalidated = []
      · rw [pop, if_pos hpatches, if_pos hne] at h
        cases h
      · rw [pop, if_pos hpatches, if_neg hne] at h
        cases h
        subst hpatches
        rw [drop, drop, List.take_nil, List.take_nil, List.length_nil, Nat.sub_zero, Nat.sub_zero,
          take_dropLast]
    · rw [pop, if_neg hpatches] at h
      cases h
      have hpos := List.length_pos_iff.mpr hpatches
      have hlater : k - patches.dropLast.length = k + 1 - patches.length := by
        rw [List.length_dropLast]
        omega
      rw [drop, drop, take_dropLast, hlater]

variable {doubles}

/-- The first of the shortened payloads whose header fits. -/
structure FirstFit (doubles : Doubles F) (maximumBytes : Nat) (p : RequestPayload F) (k : Nat)
    (header : List Char) : Prop where
  le_size : k ≤ p.details.size
  header_eq : headerOf doubles (p.drop k) = some header
  fits : header.length ≤ maximumBytes
  long : ∀ j < k, ∃ encoded, headerOf doubles (p.drop j) = some encoded ∧
    maximumBytes < encoded.length

theorem firstFit_zero_iff {maximumBytes : Nat} {p : RequestPayload F} {header : List Char} :
    FirstFit doubles maximumBytes p 0 header ↔
      headerOf doubles p = some header ∧ header.length ≤ maximumBytes := by
  constructor
  · intro h
    have heq := h.header_eq
    rw [p.drop_zero] at heq
    exact ⟨heq, h.fits⟩
  · rintro ⟨heq, hfits⟩
    refine ⟨Nat.zero_le _, ?_, hfits, nofun⟩
    rw [p.drop_zero]
    exact heq

/-- One turn of the loop. -/
theorem firstFit_succ_iff {maximumBytes k : Nat} {p : RequestPayload F} {details : Details F}
    {header : List Char} (hpop : p.details.pop = some details) :
    FirstFit doubles maximumBytes p (k + 1) header ↔
      (∃ encoded, headerOf doubles p = some encoded ∧ maximumBytes < encoded.length) ∧
      FirstFit doubles maximumBytes { p with details := details, truncated := true } k header := by
  -- after one pop, the header of `j` drops is the old one of `j + 1` drops
  have hdrop : ∀ j, p.drop (j + 1) =
      ({ p with details := details, truncated := true } : RequestPayload F).drop j := by
    intro j
    rw [RequestPayload.drop, RequestPayload.drop, ← Details.drop_of_pop hpop,
      decide_eq_true (Nat.succ_pos j), Bool.or_true, Bool.true_or]
  have hsize := Details.size_pop hpop
  constructor
  · intro h
    refine ⟨?_, Nat.le_of_succ_le_succ (h.le_size.trans_eq hsize.symm), hdrop k ▸ h.header_eq,
      h.fits, fun j hj => ?_⟩
    -- the first header is too long, since the fit is later
    · obtain ⟨encoded, hencoded, hlong⟩ := h.long 0 (Nat.succ_pos k)
      rw [p.drop_zero] at hencoded
      exact ⟨encoded, hencoded, hlong⟩
    · obtain ⟨encoded, hencoded, hlong⟩ := h.long (j + 1) (Nat.succ_lt_succ hj)
      exact ⟨encoded, hdrop j ▸ hencoded, hlong⟩
  · rintro ⟨⟨encoded, hencoded, hlong⟩, h⟩
    refine ⟨hsize ▸ Nat.succ_le_succ h.le_size, (hdrop k).symm ▸ h.header_eq, h.fits, ?_⟩
    intro j hj
    -- the headers before the fit: the present one, and those after the pop
    cases j with
    | zero =>
      rw [p.drop_zero]
      exact ⟨encoded, hencoded, hlong⟩
    | succ j =>
      rw [hdrop j]
      exact h.long j (Nat.lt_of_succ_lt_succ hj)

theorem encodePayload_eq_some_iff {maximumBytes : Nat} {p : RequestPayload F}
    {header : List Char} : encodePayload doubles maximumBytes p = some header ↔
      ∃ k, FirstFit doubles maximumBytes p k header := by
  fun_induction encodePayload doubles maximumBytes p with
  | case1 p hnone =>
    refine iff_of_false nofun ?_
    rintro ⟨k, h⟩
    -- a payload that cannot be written is not shortened
    cases k with
    | zero => cases hnone.symm.trans (firstFit_zero_iff.mp h).1
    | succ k =>
      obtain ⟨encoded, hencoded, -⟩ := h.long 0 (Nat.succ_pos k)
      rw [p.drop_zero] at hencoded
      cases hnone.symm.trans hencoded
  | case2 p encoded hencoded hfits =>
    constructor
    · intro h
      cases h
      exact ⟨0, firstFit_zero_iff.mpr ⟨hencoded, hfits⟩⟩
    · rintro ⟨k, h⟩
      cases k with
      | zero => exact hencoded.symm.trans (firstFit_zero_iff.mp h).1
      | succ k =>
        obtain ⟨encoded', hencoded', hlong⟩ := h.long 0 (Nat.succ_pos k)
        rw [p.drop_zero] at hencoded'
        cases hencoded.symm.trans hencoded'
        omega
  | case3 p encoded hencoded hlong hpop =>
    refine iff_of_false nofun ?_
    rintro ⟨k, h⟩
    have hzero : k = 0 := Nat.le_zero.mp (Details.pop_eq_none_iff.mp hpop ▸ h.le_size)
    subst hzero
    obtain ⟨hheader, hfits⟩ := firstFit_zero_iff.mp h
    cases hencoded.symm.trans hheader
    exact hlong hfits
  | case4 p encoded hencoded hlong details hpop ih =>
    rw [ih]
    constructor
    · rintro ⟨k, h⟩
      exact ⟨k + 1, (firstFit_succ_iff hpop).mpr ⟨⟨encoded, hencoded, Nat.not_le.mp hlong⟩, h⟩⟩
    · rintro ⟨k, h⟩
      cases k with
      | zero =>
        obtain ⟨hheader, hfits⟩ := firstFit_zero_iff.mp h
        cases hencoded.symm.trans hheader
        exact absurd hfits hlong
      | succ k => exact ⟨k, ((firstFit_succ_iff hpop).mp h).2⟩

/-! ## The text of a header -/

variable (doubles)

/-- The engine of the browser reads number literals as Python does. -/
def Doubles.js : JsDoubles F where
  parse := doubles.parse
  value := doubles.value

def jsText (s : PyString) : Units := s.flatMap pointUnits

def jsNumber (n : PyNumber F) : F := doubles.parse (n.print doubles.toFloats)

/-- The value as `JSON.parse` gives it. -/
def toJs (j : PyValue F) : JsValue F := j.map jsText (jsNumber doubles)

variable {doubles}

theorem pointUnits_toNat (c : Char) : pointUnits c.toNat = Utf16.encodeChar c := by
  have hmax : c.toNat < 0x110000 := by
    rcases c.valid with h | h
    · exact Nat.lt_trans h (by decide)
    · exact h.2
  unfold pointUnits Utf16.encodeChar
  dsimp only
  by_cases hsmall : c.toNat < 0x10000
  · rw [if_pos hsmall, if_pos hsmall]
  · have hhigh : (c.toNat - 0x10000) / 0x400 % 0x400 = (c.toNat - 0x10000) / 0x400 := by omega
    rw [if_neg hsmall, if_neg hsmall, hhigh]

theorem jsText_points (s : String) : jsText (points s) = units s := by
  rw [jsText, points, List.flatMap_map]
  exact congrArg (List.flatMap · s.toList) (funext pointUnits_toNat)

theorem pointUnits_lt (n : Nat) : ∀ u ∈ pointUnits n, u < 0x10000 := by
  intro u hu
  unfold pointUnits at hu
  split at hu
  · rwa [List.mem_singleton.mp hu]
  · simp only [List.mem_cons, List.not_mem_nil, or_false] at hu
    rcases hu with hu | hu <;> rw [hu] <;> omega

theorem spells_units {σ ν : Type} (L : Json.Lexicon σ ν) {us : List Nat}
    (h : ∀ u ∈ us, u < 0x10000) : Json.Spells L (us.flatMap Json.unicodeEscape) us := by
  induction us with
  | nil => exact Json.Spells.nil L
  | cons u us ih =>
    exact (Json.spells_unicodeEscape L (h u List.mem_cons_self)).append L
      (ih fun v hv => h v (List.mem_cons_of_mem _ hv))

theorem spells_escapePoint {σ ν : Type} (L : Json.Lexicon σ ν) (n : Nat) :
    Json.Spells L (escapePoint n) (pointUnits n) := by
  unfold escapePoint
  split
  · next h =>
    have hunits : pointUnits n = Utf16.encodeChar (Char.ofNatAux n h) :=
      pointUnits_toNat (Char.ofNatAux n h)
    rw [hunits]
    exact Json.spells_escapeAscii L _
  · exact spells_units L (pointUnits_lt n)

theorem spells_text {σ ν : Type} (L : Json.Lexicon σ ν) (s : PyString) :
    Json.Spells L (s.flatMap escapePoint) (jsText s) := by
  induction s with
  | nil => exact Json.Spells.nil L
  | cons n s ih => exact (spells_escapePoint L n).append L ih

theorem legible_ascii : (asciiWriter doubles).Legible (lexicon doubles.js) jsText
    fun n => jsNumber doubles n.val := by
  refine Json.Writer.legible_of_compact rfl rfl (fun s => ?_) (fun n => ?_) fun n => ?_
  · exact ⟨jsText s, spells_text _ s, rfl⟩
  · obtain ⟨hall, hhead⟩ := Json.isNumber_spec (PyNumber.isNumber_print n.property)
    refine ⟨hall, fun hnil => ?_⟩
    rw [show n.val.print doubles.toFloats = [] from hnil] at hhead
    cases hhead
  · show Json.Lexer.classify (lexicon doubles.js) (n.val.print doubles.toFloats) = _
    rw [Json.classify_number _ (PyNumber.isNumber_print n.property)]
    show (if Json.isNumber (n.val.print doubles.toFloats) = true then _ else none).map _ = _
    rw [if_pos (PyNumber.isNumber_print n.property)]
    rfl

/-- `JSON.parse` reads what `json.dumps` wrote. -/
theorem read_dumpsAscii {payload : PyValue F} {text : List Char}
    (h : dumpsAscii doubles payload = some text) :
    Json.read (lexicon doubles.js) text = some (toJs doubles payload) := by
  obtain ⟨written, hwritten, rfl⟩ := Option.map_eq_some_iff.mp h
  have hback : written.map id Subtype.val = payload := by
    refine Json.map_of_convert (fun s t ht => (Option.some.inj ht).symm) (fun n m hm => ?_) payload
      hwritten
    unfold printable? at hm
    split at hm
    · cases hm
      rfl
    · cases hm
  rw [Json.read_write legible_ascii, toJs, ← hback, Json.map_map]
  rfl

/-- An object of named members in the browser. -/
def jsNamed (members : List (String × JsValue F)) : Members F :=
  members.map fun m => (units m.1, m.2)

theorem units_injective : Function.Injective units := fun _ _ h =>
  String.toList_inj.mp (Utf16.encode_injective h)

theorem toJs_named (members : List (String × PyValue F)) : toJs doubles (named members) =
    .object (jsNamed (members.map fun m => (m.1, toJs doubles m.2))) := by
  rw [toJs, named, Json.map, Json.mapMembers_eq, jsNamed, List.map_map, List.map_map]
  refine congrArg Json.object (List.map_congr_left fun m _ => ?_)
  exact Prod.ext (jsText_points m.1) rfl

theorem field_jsNamed (members : List (String × JsValue F)) (name : String) :
    field (jsNamed members) name = OrderedMap.lookup name members := by
  induction members with
  | nil => rfl
  | cons m members ih =>
    show (if units m.1 = units name then _ else OrderedMap.lookup (units name) (jsNamed members)) =
      if m.1 = name then _ else _
    by_cases h : m.1 = name
    · rw [if_pos h, if_pos (congrArg units h)]
    · rw [if_neg h, if_neg fun heq => h (units_injective heq)]
      exact ih

theorem mem_map_units {name : String} {names : List String} :
    units name ∈ names.map units ↔ name ∈ names :=
  List.mem_map_of_injective units_injective

theorem hasOnlyKeys_jsNamed {members : List (String × JsValue F)} {allowed : List String} :
    hasOnlyKeys (jsNamed members) allowed = true ↔ ∀ m ∈ members, m.1 ∈ allowed := by
  rw [hasOnlyKeys, List.all_eq_true, jsNamed, List.forall_mem_map]
  exact forall₂_congr fun m _ => List.contains_iff_mem.trans mem_map_units

theorem picked_jsNamed (members : List (String × JsValue F)) (names : List String) :
    picked (jsNamed members) names = jsNamed (names.filterMap fun name =>
      (OrderedMap.lookup name members).map fun v => (name, v)) := by
  induction names with
  | nil => rfl
  | cons name names ih =>
    rw [picked, List.filterMap_cons, List.filterMap_cons, field_jsNamed]
    cases OrderedMap.lookup name members with
    | none => exact ih
    | some v => exact congrArg (_ :: ·) ih

theorem isOneOf_units {names : List String} {name : String} :
    isOneOf names (some (.string (units name)) : Option (JsValue F)) = true ↔ name ∈ names :=
  List.contains_iff_mem.trans mem_map_units

/-! ## What the browser accepts -/

variable (doubles)

/-- A finite number from zero to a maximum. -/
def Within (maximum : ℚ) (x : F) : Prop := ∃ q, doubles.value x = some q ∧ 0 ≤ q ∧ q ≤ maximum

/-- The duration as it is sent. -/
def Brief (x : F) : Prop := Within doubles maxDevtoolsDurationMs (finiteDuration doubles x)

structure ReadableResource (r : ResourceDiagnostic F) : Prop where
  key : isSafeKey (jsText r.key) = true
  durationMs : Brief doubles r.durationMs
  ttl : Within doubles maxTtl r.ttl
  cacheMs : ∀ x ∈ r.cacheMs, Brief doubles x
  loaderMs : ∀ x ∈ r.loaderMs, Brief doubles x

variable {doubles}

theorem js_value : doubles.js.value = doubles.value := rfl

theorem isSafeDiagnosticNumber_iff {maximum : ℚ} {x : F} :
    isSafeDiagnosticNumber doubles.js maximum (some (.number x)) = true ↔
      Within doubles maximum x := by
  rw [isSafeDiagnosticNumber, js_value]
  unfold Within
  cases doubles.value x with
  | none =>
    constructor
    · intro h
      cases h
    · rintro ⟨q, hq, -⟩
      cases hq
  | some q => simp

theorem isFinite_finiteDuration (x : F) : doubles.isFinite (finiteDuration doubles x) = true := by
  rw [doubles.isFinite_eq, finiteDuration]
  split
  · rw [doubles.value_zero]
    rfl
  · next q hq =>
    split
    · rw [doubles.value_zero]
      rfl
    · next hnonneg =>
      obtain ⟨r, hr, -⟩ := doubles.value_round3 x q hq (not_lt.mp hnonneg)
      rw [hr]
      rfl

theorem toJs_float {x : F} (h : doubles.isFinite x = true) :
    toJs doubles (floatValue x) = .number x :=
  congrArg Json.number (doubles.parse_repr x h)

theorem toJs_duration (x : F) :
    toJs doubles (durationValue doubles x) = .number (finiteDuration doubles x) :=
  toJs_float (isFinite_finiteDuration x)

theorem toJs_text (s : String) : toJs doubles (textValue s) = .string (units s) :=
  congrArg Json.string (jsText_points s)

variable (doubles)

def jsOptional (name : String) : Option (JsValue F) → List (String × JsValue F)
  | none => []
  | some v => [(name, v)]

/-- The members of a resource in the browser. -/
def jsResource (r : ResourceDiagnostic F) : List (String × JsValue F) :=
  [("key", .string (jsText r.key)), ("result", .string (units r.result.text)),
    ("durationMs", .number (finiteDuration doubles r.durationMs)),
    ("scope", .string (units (scopeText r.scopeType))), ("ttl", .number r.ttl),
    ("deferred", .bool r.deferred), ("live", .bool r.live),
    ("cacheBackend", .string (units r.cacheBackend.text)),
    ("cacheResult", .string (units r.cacheResult.text)), ("sent", .bool r.sent),
    ("knownVersion", .bool r.knownVersion)] ++
    (jsOptional "cacheMs" (r.cacheMs.map fun x => .number (finiteDuration doubles x)) ++
      (jsOptional "loaderMs" (r.loaderMs.map fun x => .number (finiteDuration doubles x)) ++
        jsOptional "errorType" (r.errorType.map fun e => .string (units e.text))))

variable {doubles}

theorem toJs_optional (name : String) (v : Option (PyValue F)) :
    (optionalMember name v).map (fun m => (m.1, toJs doubles m.2)) =
      jsOptional name (v.map (toJs doubles)) := by
  cases v with
  | none => rfl
  | some v => rfl

theorem toJs_resource {r : ResourceDiagnostic F} (httl : doubles.isFinite r.ttl = true) :
    toJs doubles (resourcePayload doubles r) = .object (jsNamed (jsResource doubles r)) := by
  rw [resourcePayload, toJs_named, resourceMembers, jsResource, List.map_append, List.map_append,
    List.map_append, toJs_optional, toJs_optional, toJs_optional, Option.map_map, Option.map_map,
    Option.map_map]
  have hduration : toJs doubles ∘ durationValue doubles =
      fun x => .number (finiteDuration doubles x) := funext toJs_duration
  have herror : (toJs doubles ∘ fun e : ResourceErrorType => textValue e.text) =
      fun e => .string (units e.text) := funext fun e => toJs_text e.text
  rw [hduration, herror]
  simp only [List.map_cons, List.map_nil, toJs_text, toJs_duration, toJs_float httl]
  rfl

theorem lookup_jsOptional (name name' : String) (v : Option (JsValue F))
    (rest : List (String × JsValue F)) : OrderedMap.lookup name' (jsOptional name v ++ rest) =
      if name = name' then v.or (OrderedMap.lookup name' rest)
      else OrderedMap.lookup name' rest := by
  cases v with
  | none => simp [jsOptional]
  | some v => simp [jsOptional, OrderedMap.lookup]

theorem lookup_jsOptional_last (name name' : String) (v : Option (JsValue F)) :
    OrderedMap.lookup name' (jsOptional name v) = if name = name' then v else none := by
  cases v with
  | none => simp [jsOptional, OrderedMap.lookup]
  | some v => simp [jsOptional, OrderedMap.lookup]

/-- The members of a resource have the names that the browser knows, in the same order. -/
theorem names_jsResource (r : ResourceDiagnostic F) :
    ((jsResource doubles r).map Prod.fst).Sublist resourceTraceKeys := by
  have hoptional : ∀ (name : String) (v : Option (JsValue F)),
      ((jsOptional name v).map Prod.fst).Sublist [name] := by
    intro name v
    cases v with
    | none => exact List.nil_sublist _
    | some v => exact List.Sublist.refl _
  rw [jsResource, List.map_append, List.map_append, List.map_append]
  exact (List.Sublist.refl _).append
    ((hoptional "cacheMs" _).append ((hoptional "loaderMs" _).append (hoptional "errorType" _)))

theorem nodup_resourceTraceKeys : resourceTraceKeys.Nodup := by decide

/-- Picking the members of an object in the order in which it has them gives the object. -/
theorem filterMap_lookup {members : List (String × JsValue F)} {names : List String}
    (hnames : (members.map Prod.fst).Sublist names) (hnodup : names.Nodup) :
    (names.filterMap fun name => (OrderedMap.lookup name members).map fun v => (name, v)) =
      members := by
  -- induction on the names; the members keep their order among them
  induction names generalizing members with
  | nil => rw [List.map_eq_nil_iff.mp (List.sublist_nil.mp hnames), List.filterMap_nil]
  | cons name names ih =>
    obtain ⟨hnew, hrest⟩ := List.nodup_cons.mp hnodup
    rw [List.filterMap_cons]
    cases members with
    | nil => exact ih (List.nil_sublist _) hrest
    | cons m members =>
      obtain ⟨name', v⟩ := m
      -- the name is the first member's, or no member's at all
      by_cases heq : name' = name
      · subst heq
        have hlater : ∀ later ∈ names, OrderedMap.lookup later ((name', v) :: members) =
            OrderedMap.lookup later members := fun later hlater =>
          if_neg fun (h : name' = later) => hnew (h ▸ hlater)
        have hsub : (members.map Prod.fst).Sublist names := List.cons_sublist_cons.mp hnames
        have hrestEq : (names.filterMap fun later =>
            (OrderedMap.lookup later ((name', v) :: members)).map fun v => (later, v)) =
            members := by
          -- the names are distinct, so the first member is not met again
          refine (List.filterMap_congr fun later hmem => ?_).trans (ih hsub hrest)
          rw [hlater later hmem]
        rw [hrestEq, OrderedMap.lookup, if_pos rfl]
        rfl
      · have hsub : ((name', v) :: members).map Prod.fst |>.Sublist names := by
          cases hnames with
          | cons _ h => exact h
          | cons_cons => exact absurd rfl heq
        have hnone : OrderedMap.lookup name ((name', v) :: members) = none :=
          OrderedMap.lookup_eq_none_iff.mpr fun hmem => hnew (hsub.subset hmem)
        rw [hnone]
        exact ih hsub hrest

theorem isOneOf_result (result : ResourceDiagnosticResult) :
    isOneOf ["cache-hit", "cache-miss", "loader", "deferred", "omitted-known", "error"]
      (some (.string (units result.text)) : Option (JsValue F)) = true :=
  isOneOf_units.mpr (by cases result <;> decide)

theorem isOneOf_scope (scopeType : ScopeType) :
    isOneOf ["public", "user", "tenant", "request", "custom"]
      (some (.string (units (scopeText scopeType))) : Option (JsValue F)) = true :=
  isOneOf_units.mpr (by cases scopeType <;> decide)

theorem isOneOf_backend (backend : CacheBackendType) :
    isOneOf ["memory", "redis", "custom"]
      (some (.string (units backend.text)) : Option (JsValue F)) = true :=
  isOneOf_units.mpr (by cases backend <;> decide)

theorem isOneOf_cacheResult (result : CacheDiagnosticResult) :
    isOneOf ["hit", "miss", "bypass"]
      (some (.string (units result.text)) : Option (JsValue F)) = true :=
  isOneOf_units.mpr (by cases result <;> decide)

theorem isOneOf_redirect (redirect : MutationRedirectType) :
    isOneOf ["none", "internal", "external"]
      (some (.string (units redirect.text)) : Option (JsValue F)) = true :=
  isOneOf_units.mpr (by cases redirect <;> decide)

theorem isOneOf_requestType (requestType : RequestType) :
    isOneOf ["page", "mutation"]
      (some (.string (units requestType.text)) : Option (JsValue F)) = true :=
  isOneOf_units.mpr (by cases requestType <;> decide)

theorem absentOr_duration_iff (v : Option F) :
    absentOr (isSafeDiagnosticNumber doubles.js maxDevtoolsDurationMs)
        (v.map fun x => .number (finiteDuration doubles x)) = true ↔
      ∀ x ∈ v, Brief doubles x := by
  cases v with
  | none => exact iff_of_true rfl nofun
  | some x =>
    show isSafeDiagnosticNumber doubles.js _ (some (.number _)) = true ↔ _
    rw [isSafeDiagnosticNumber_iff]
    exact ⟨fun h y hy => Option.some.inj hy ▸ h, fun h => h x rfl⟩

theorem absentOr_error (e : Option ResourceErrorType) :
    absentOr (isOneOf ["ResourceError", "ResourceContractError", "ResourceCacheError"])
      (e.map fun e => (.string (units e.text) : JsValue F)) = true := by
  cases e with
  | none => rfl
  | some e => exact (@isOneOf_units F _ _).mpr (by cases e <;> decide)

theorem isResourceTrace_iff {r : ResourceDiagnostic F} :
    isResourceTrace doubles.js (jsNamed (jsResource doubles r)) = true ↔
      ReadableResource doubles r := by
  have hkeys : hasOnlyKeys (jsNamed (jsResource doubles r)) resourceTraceKeys = true :=
    hasOnlyKeys_jsNamed.mpr fun m hm => (names_jsResource r).subset (List.mem_map_of_mem hm)
  have hchecks : isResourceTrace doubles.js (jsNamed (jsResource doubles r)) = true ↔
      isSafeKey (jsText r.key) = true ∧
      isSafeDiagnosticNumber doubles.js maxDevtoolsDurationMs
        (some (.number (finiteDuration doubles r.durationMs))) = true ∧
      isSafeDiagnosticNumber doubles.js maxTtl (some (.number r.ttl)) = true ∧
      absentOr (isSafeDiagnosticNumber doubles.js maxDevtoolsDurationMs)
        (r.cacheMs.map fun x => .number (finiteDuration doubles x)) = true ∧
      absentOr (isSafeDiagnosticNumber doubles.js maxDevtoolsDurationMs)
        (r.loaderMs.map fun x => .number (finiteDuration doubles x)) = true := by
    rw [isResourceTrace, hkeys]
    simp [field_jsNamed, jsResource, OrderedMap.lookup, lookup_jsOptional, lookup_jsOptional_last,
      isBoolean, isOneOf_result, isOneOf_scope, isOneOf_backend, isOneOf_cacheResult,
      absentOr_error, isSafeResourceKey, and_assoc]
  rw [hchecks, isSafeDiagnosticNumber_iff, isSafeDiagnosticNumber_iff, absentOr_duration_iff,
    absentOr_duration_iff]
  constructor
  · rintro ⟨hkey, hduration, httl, hcache, hloader⟩
    exact ⟨hkey, hduration, httl, hcache, hloader⟩
  · intro h
    exact ⟨h.key, h.durationMs, h.ttl, h.cacheMs, h.loaderMs⟩

theorem sanitizeResourceTrace_iff {r : ResourceDiagnostic F} {y : JsValue F} :
    sanitizeResourceTrace doubles.js (.object (jsNamed (jsResource doubles r))) = some y ↔
      ReadableResource doubles r ∧ y = .object (jsNamed (jsResource doubles r)) := by
  rw [sanitizeResourceTrace, picked_jsNamed,
    filterMap_lookup (names_jsResource r) nodup_resourceTraceKeys, ← isResourceTrace_iff]
  split
  · next h => rw [Option.some.injEq, and_iff_right h, eq_comm]
  · next h => exact iff_of_false nofun fun hboth => h hboth.1

/-- Where each of the items is checked, all of them are. -/
theorem mapM_checked {α β : Type} {items : List α} {image : α → β} {check : β → Option β}
    {P : α → Prop} (h : ∀ a ∈ items, ∀ y, check (image a) = some y ↔ P a ∧ y = image a)
    {ys : List β} : (items.map image).mapM check = some ys ↔
      (∀ a ∈ items, P a) ∧ ys = items.map image := by
  induction items generalizing ys with
  | nil =>
    rw [List.map_nil, List.mapM_nil]
    exact ⟨fun hys => ⟨nofun, (Option.some.inj hys).symm⟩, fun hys => congrArg some hys.2.symm⟩
  | cons a items ih =>
    have hrest := fun b hb => h b (List.mem_cons_of_mem a hb)
    rw [List.map_cons, List.mapM_cons, List.forall_mem_cons]
    constructor
    · intro hys
      obtain ⟨y, hy, hys⟩ := Option.bind_eq_some_iff.mp hys
      obtain ⟨zs, hzs, hcons⟩ := Option.bind_eq_some_iff.mp hys
      cases hcons
      obtain ⟨hP, rfl⟩ := (h a List.mem_cons_self y).mp hy
      obtain ⟨hall, rfl⟩ := (ih hrest).mp hzs
      exact ⟨⟨hP, hall⟩, rfl⟩
    · rintro ⟨⟨hP, hall⟩, rfl⟩
      rw [(h a List.mem_cons_self _).mpr ⟨hP, rfl⟩]
      show ((items.map image).mapM check).bind _ = _
      rw [(ih hrest).mpr ⟨hall, rfl⟩]
      rfl

/-! ## Mutations -/

variable (doubles)

def jsCount (n : Nat) : JsValue F := .number (jsNumber doubles (.int n))

def jsOperations (operations : OrderedMap PatchOperation Nat) : List (String × JsValue F) :=
  operations.entries.map fun e => (e.1.text, jsCount doubles e.2)

def jsPatch (p : MutationPatchDiagnostic) : List (String × JsValue F) :=
  [("key", .string (jsText p.key)),
    ("operations", .object (jsNamed (jsOperations doubles p.operations)))]

variable {doubles}

theorem toJs_count (n : Nat) : toJs doubles (countValue n) = jsCount doubles n := rfl

theorem toJs_patch (p : MutationPatchDiagnostic) :
    toJs doubles (patchPayload p) = .object (jsNamed (jsPatch doubles p)) := by
  rw [patchPayload, toJs_named, List.map_cons, List.map_cons, List.map_nil, toJs_named,
    List.map_map]
  rfl

/-- A count is read as it is, up to a million. -/
theorem isIntegerWithin_iff {low n : Nat} : isIntegerWithin doubles.js low maxCount
    (some (jsCount doubles n)) = true ↔ low ≤ n ∧ n ≤ 1000000 := by
  have hread : jsNumber doubles (.int n) = doubles.parse (Json.reprInt n) := rfl
  rw [jsCount, isIntegerWithin, js_value, hread]
  -- below `2 ^ 53` the count is read exactly, above it it stays too large
  by_cases hsmall : n ≤ 2 ^ 53
  · rw [doubles.value_parse_int n hsmall]
    have hmax : maxSafeInteger.natAbs = 9007199254740991 := by decide
    have hcount : maxCount = 1000000 := rfl
    have hchecks : (decide ((n : ℚ).den = 1) && decide ((n : ℚ).num.natAbs ≤ maxSafeInteger.natAbs) &&
        decide ((low : Int) ≤ (n : ℚ).num) && decide ((n : ℚ).num ≤ maxCount)) = true ↔
        (n ≤ 9007199254740991 ∧ low ≤ n) ∧ n ≤ 1000000 := by
      simp [hmax, hcount]
    rw [hchecks]
    omega
  · have hlarge : 2 ^ 53 ≤ n := by omega
    refine iff_of_false (fun h => ?_) fun h => by omega
    cases hvalue : doubles.value (doubles.parse (Json.reprInt n)) with
    | none =>
      rw [hvalue] at h
      cases h
    | some q =>
      have hq := doubles.le_value_parse_int n q hlarge hvalue
      rw [hvalue] at h
      simp only [Bool.and_eq_true, decide_eq_true_eq] at h
      have hnum : (q.num : ℚ) = q := Rat.den_eq_one_iff q |>.mp h.1.1.1
      have hcount : (q.num : ℚ) ≤ 1000000 := by exact_mod_cast h.2
      rw [hnum] at hcount
      have habsurd : (2 ^ 53 : ℚ) ≤ 1000000 := hq.trans hcount
      norm_num at habsurd

variable (doubles)

structure ReadablePatch (p : MutationPatchDiagnostic) : Prop where
  key : isSafeKey (jsText p.key) = true
  counts : ∀ e ∈ p.operations.entries, 1 ≤ e.2 ∧ e.2 ≤ 1000000

variable {doubles}

theorem operation_mem (op : PatchOperation) : op.text ∈ patchOperations := by
  cases op <;> decide

theorem sanitizePatchTrace_iff {p : MutationPatchDiagnostic} {y : JsValue F} :
    sanitizePatchTrace doubles.js (.object (jsNamed (jsPatch doubles p))) = some y ↔
      ReadablePatch p ∧ y = .object (jsNamed (jsPatch doubles p)) := by
  -- what the reader checks first holds of every written patch
  have hnames : ((jsPatch doubles p).map Prod.fst).Sublist ["key", "operations"] :=
    List.Sublist.refl _
  have hkeys : hasOnlyKeys (jsNamed (jsPatch doubles p)) ["key", "operations"] = true :=
    hasOnlyKeys_jsNamed.mpr fun m hm => hnames.subset (List.mem_map_of_mem hm)
  have hoperations : hasOnlyKeys (jsNamed (jsOperations doubles p.operations)) patchOperations =
      true := by
    refine hasOnlyKeys_jsNamed.mpr fun m hm => ?_
    obtain ⟨e, -, rfl⟩ := List.mem_map.mp hm
    exact operation_mem e.1
  -- the counts are the only check on the operations that can fail
  have hcounts : (jsNamed (jsOperations doubles p.operations)).all
      (fun m => isIntegerWithin doubles.js 1 maxCount (some m.2)) = true ↔
      ∀ e ∈ p.operations.entries, 1 ≤ e.2 ∧ e.2 ≤ 1000000 := by
    rw [List.all_eq_true, jsNamed, List.forall_mem_map, jsOperations, List.forall_mem_map]
    exact forall₂_congr fun e _ => isIntegerWithin_iff
  have hkey : field (jsNamed (jsPatch doubles p)) "key" = some (.string (jsText p.key)) := by
    rw [field_jsNamed]
    simp [jsPatch, OrderedMap.lookup]
  have hfield : field (jsNamed (jsPatch doubles p)) "operations" =
      some (.object (jsNamed (jsOperations doubles p.operations))) := by
    rw [field_jsNamed]
    simp [jsPatch, OrderedMap.lookup]
  have hreadable : ReadablePatch p ↔ isSafeKey (jsText p.key) = true ∧
      ∀ e ∈ p.operations.entries, 1 ≤ e.2 ∧ e.2 ≤ 1000000 :=
    ⟨fun h => ⟨h.key, h.counts⟩, fun h => ⟨h.1, h.2⟩⟩
  rw [sanitizePatchTrace, hfield, hreadable, ← hcounts]
  dsimp only
  rw [hkeys, hkey, hoperations, picked_jsNamed, filterMap_lookup hnames (by decide)]
  show (if (true && isSafeKey (jsText p.key) && true && _) = true then _ else _) = _ ↔ _
  rw [Bool.true_and, Bool.and_true]
  split
  · next h => rw [Option.some.injEq, and_iff_right (Bool.and_eq_true_iff.mp h), eq_comm]
  · next h =>
    refine iff_of_false (fun hsome => ?_) fun hboth => h (Bool.and_eq_true_iff.mpr hboth.1)
    cases hsome

/-! ## Payloads -/

variable (doubles)

def jsCommon (p : RequestPayload F) : List (String × JsValue F) :=
  [("protocol", .string (units devtoolsProtocol)), ("requestId", .string (jsText p.requestId)),
    ("type", .string (units p.requestType.text)),
    ("durationMs", .number (finiteDuration doubles p.totalMs)), ("truncated", .bool p.truncated)]

def jsDuration (name : String) (x : F) : String × JsValue F :=
  (name, .number (finiteDuration doubles x))

def jsDetails : Details F → List (String × JsValue F)
  | .page pageMs resourcesMs serializeMs resources =>
    [jsDuration doubles "pageMs" pageMs,
      jsDuration doubles "resourcesMs" resourcesMs,
      jsDuration doubles "serializeMs" serializeMs,
      ("resources", .array (resources.map fun r => .object (jsNamed (jsResource doubles r))))]
  | .mutation handlerMs invalidationMs serializeMs patches invalidated invalidationCount liveSignals
      redirect =>
    [jsDuration doubles "handlerMs" handlerMs,
      jsDuration doubles "invalidationMs" invalidationMs,
      jsDuration doubles "serializeMs" serializeMs,
      ("patches", .array (patches.map fun p => .object (jsNamed (jsPatch doubles p)))),
      ("invalidated", .array (invalidated.map fun key => .string (jsText key))),
      ("invalidationCount", jsCount doubles invalidationCount),
      ("liveSignals", jsCount doubles liveSignals), ("redirect", .string (units redirect.text))]

def jsMembers (p : RequestPayload F) : Members F :=
  jsNamed (jsCommon doubles p ++ jsDetails doubles p.details)

/-- The payload in the browser. -/
def jsPayload (p : RequestPayload F) : JsValue F := .object (jsMembers doubles p)

/-- The `ttl` of each resource can be written. -/
def Details.Finite : Details F → Prop
  | .page _ _ _ resources => ∀ r ∈ resources, doubles.isFinite r.ttl = true
  | .mutation .. => True

/-- The values that the browser lets through. -/
def ReadableDetails : Details F → Prop
  | .page pageMs resourcesMs serializeMs resources =>
    Brief doubles pageMs ∧ Brief doubles resourcesMs ∧ Brief doubles serializeMs ∧
      ∀ r ∈ resources, ReadableResource doubles r
  | .mutation handlerMs invalidationMs serializeMs patches invalidated invalidationCount liveSignals
      _ =>
    Brief doubles handlerMs ∧ Brief doubles invalidationMs ∧ Brief doubles serializeMs ∧
      (∀ p ∈ patches, ReadablePatch p) ∧ (∀ key ∈ invalidated, isSafeKey (jsText key) = true) ∧
      invalidationCount ≤ 1000000 ∧ liveSignals ≤ 1000000

/-- What the lists of a trace always satisfy. -/
def Bounded : Details F → Prop
  | .page _ _ _ resources => resources.length ≤ maxDiagnosticResources
  | .mutation _ _ _ patches invalidated invalidationCount _ _ =>
    patches.length ≤ maxDiagnosticMutationKeys ∧ invalidated.length ≤ maxDiagnosticMutationKeys ∧
      invalidated.length ≤ invalidationCount

variable {doubles}

theorem toJs_array {α : Type} {items : List α} {payload : α → PyValue F} {image : α → JsValue F}
    (h : ∀ a ∈ items, toJs doubles (payload a) = image a) :
    toJs doubles (.array (items.map payload)) = .array (items.map image) := by
  rw [toJs, Json.map, Json.mapItems_eq, List.map_map]
  exact congrArg Json.array (List.map_congr_left h)

theorem toJs_details {d : Details F} (h : d.Finite doubles) :
    (d.members doubles).map (fun m => (m.1, toJs doubles m.2)) = jsDetails doubles d := by
  cases d with
  | page pageMs resourcesMs serializeMs resources =>
    have hresources := toJs_array fun r hr => toJs_resource (h r hr)
    simp only [Details.members, jsDetails, jsDuration, List.map_cons, List.map_nil, toJs_duration,
      hresources]
  | mutation handlerMs invalidationMs serializeMs patches invalidated count signals redirect =>
    have hpatches := toJs_array fun p (_ : p ∈ patches) => @toJs_patch F doubles p
    have hinvalidated : toJs doubles (.array (invalidated.map .string)) =
        .array (invalidated.map fun key => .string (jsText key)) := toJs_array fun _ _ => rfl
    simp only [Details.members, jsDetails, jsDuration, List.map_cons, List.map_nil, toJs_duration,
      toJs_text, toJs_count, hpatches, hinvalidated]

theorem toJs_payload {p : RequestPayload F} (h : p.details.Finite doubles) :
    toJs doubles (p.json doubles) = jsPayload doubles p := by
  have hcommon : toJs doubles (.string p.requestId) = .string (jsText p.requestId) := rfl
  rw [RequestPayload.json, toJs_named, List.map_append, toJs_details h, jsPayload, jsMembers,
    jsCommon]
  simp only [List.map_cons, List.map_nil, toJs_text, toJs_duration, hcommon]
  rfl

/-- The names of the details, those of a page or those of a mutation. -/
def Details.names : Details F → List String
  | .page .. => pageKeys
  | .mutation .. => mutationKeys

theorem names_jsDetails (d : Details F) : (jsDetails doubles d).map Prod.fst = d.names := by
  cases d with
  | page | mutation => rfl

theorem names_members (p : RequestPayload F) :
    (jsCommon doubles p ++ jsDetails doubles p.details).map Prod.fst =
      commonKeys ++ p.details.names := by
  rw [List.map_append, names_jsDetails]
  rfl

theorem nodup_names (d : Details F) : (commonKeys ++ d.names).Nodup := by
  cases d with
  | page =>
    show (commonKeys ++ pageKeys).Nodup
    decide
  | mutation =>
    show (commonKeys ++ mutationKeys).Nodup
    decide

theorem nodup_members (p : RequestPayload F) :
    ((jsCommon doubles p ++ jsDetails doubles p.details).map Prod.fst).Nodup := by
  rw [names_members]
  exact nodup_names p.details

theorem hasOnlyKeys_jsMembers {p : RequestPayload F} {names : List String}
    (h : p.details.names = names) :
    hasOnlyKeys (jsMembers doubles p) (commonKeys ++ names) = true := by
  refine hasOnlyKeys_jsNamed.mpr fun m hm => ?_
  rw [← h, ← @names_members F doubles]
  exact List.mem_map_of_mem hm

theorem field_jsMembers {p : RequestPayload F} {name : String} {v : JsValue F}
    (h : (name, v) ∈ jsCommon doubles p ++ jsDetails doubles p.details) :
    field (jsMembers doubles p) name = some v := by
  rw [jsMembers, field_jsNamed]
  exact OrderedMap.lookup_of_mem (nodup_members p) h

/-! ## Pages and mutations -/

/-- Members of the payload, copied in some order. -/
theorem picked_jsMembers {p : RequestPayload F} {picks : List (String × JsValue F)}
    (h : picks ⊆ jsCommon doubles p ++ jsDetails doubles p.details) :
    picked (jsMembers doubles p) (picks.map Prod.fst) = jsNamed picks := by
  induction picks with
  | nil => rfl
  | cons m picks ih =>
    obtain ⟨hm, hpicks⟩ := List.cons_subset.mp h
    rw [List.map_cons, picked, List.filterMap_cons, field_jsMembers hm]
    exact congrArg (_ :: ·) (ih hpicks)

/-- The common members of a trace, and members of its details. -/
theorem picked_common {p : RequestPayload F} {picks : List (String × JsValue F)}
    (h : picks ⊆ jsDetails doubles p.details) :
    picked (jsMembers doubles p) (commonKeys ++ picks.map Prod.fst) =
      jsNamed (jsCommon doubles p ++ picks) := by
  have hsubset : jsCommon doubles p ++ picks ⊆ jsCommon doubles p ++ jsDetails doubles p.details :=
    List.append_subset.mpr ⟨List.subset_append_left _ _, List.subset_append_of_subset_right _ h⟩
  rw [← picked_jsMembers hsubset, List.map_append]
  rfl

/-- Checks, then a list that is copied once its entries are checked. -/
theorem checked_map_iff {β γ : Type} {c : Bool} {C P : Prop} {checked : Option β} {ys : β}
    {f : β → γ} {y : γ} (hc : c = true ↔ C) (hchecked : ∀ zs, checked = some zs ↔ P ∧ zs = ys) :
    (if c = true then checked.map f else none) = some y ↔ (C ∧ P) ∧ y = f ys := by
  by_cases h : c = true
  · rw [if_pos h, Option.map_eq_some_iff]
    constructor
    · rintro ⟨zs, hzs, rfl⟩
      obtain ⟨hP, rfl⟩ := (hchecked zs).mp hzs
      exact ⟨⟨hc.mp h, hP⟩, rfl⟩
    · rintro ⟨⟨-, hP⟩, rfl⟩
      exact ⟨ys, (hchecked ys).mpr ⟨hP, rfl⟩, rfl⟩
  · rw [if_neg h]
    exact iff_of_false nofun fun hboth => h (hc.mpr hboth.1.1)

theorem sanitizePage_iff {p : RequestPayload F} {pageMs resourcesMs serializeMs : F}
    {resources : List (ResourceDiagnostic F)}
    (hdetails : p.details = .page pageMs resourcesMs serializeMs resources)
    (hbounded : Bounded p.details) {y : JsValue F} :
    sanitizePage doubles.js (jsMembers doubles p) = some y ↔
      ReadableDetails doubles p.details ∧ y = jsPayload doubles p := by
  set durations : List (String × JsValue F) := [jsDuration doubles "pageMs" pageMs,
    jsDuration doubles "resourcesMs" resourcesMs,
    jsDuration doubles "serializeMs" serializeMs] with hdurations
  set copied : List (JsValue F) := resources.map fun r => .object (jsNamed (jsResource doubles r))
  have hfields : jsDetails doubles p.details = durations ++
      [("resources", .array copied)] := hdetails ▸ rfl
  have hfield : ∀ m ∈ jsDetails doubles p.details, field (jsMembers doubles p) m.1 = some m.2 :=
    fun m hm => field_jsMembers (List.mem_append_right _ hm)
  have hfirst : durations ⊆ jsDetails doubles p.details := hfields ▸ List.subset_append_left _ _
  -- the copy keeps the common members and the durations; the resources are checked apart
  have hcopied : picked (jsMembers doubles p)
      (commonKeys ++ ["pageMs", "resourcesMs", "serializeMs"]) = jsNamed (jsCommon doubles p ++
        durations) :=
    picked_common hfirst
  have hwhole : jsPayload doubles p = .object (jsNamed (jsCommon doubles p ++
      durations) ++
      [(units "resources", .array copied)]) := by
    rw [jsPayload, jsMembers, hfields, ← List.append_assoc]
    exact congrArg Json.object List.map_append
  have hkeys : hasOnlyKeys (jsMembers doubles p) (commonKeys ++ pageKeys) = true :=
    hasOnlyKeys_jsMembers (hdetails ▸ rfl)
  -- the recorder bounds the list, so the reader's bound on it always holds
  have hlength : copied.length ≤ maxDevtoolsTraceResources := by
    rw [hdetails] at hbounded
    exact (List.length_map _).trans_le hbounded
  have hchecked : ∀ ys, copied.mapM (sanitizeResourceTrace doubles.js) = some ys ↔
      (∀ r ∈ resources, ReadableResource doubles r) ∧ ys = copied :=
    fun ys => mapM_checked fun r _ y => sanitizeResourceTrace_iff
  rw [hfields, hdurations] at hfield
  simp only [jsDuration, List.cons_append, List.nil_append, List.forall_mem_cons] at hfield
  obtain ⟨hpageMs, hresourcesMs, hserializeMs, hresources, -⟩ := hfield
  -- what is left of the checks is about the durations alone
  have hconditions : (hasOnlyKeys (jsMembers doubles p) (commonKeys ++ pageKeys) &&
      isSafeDiagnosticNumber doubles.js maxDevtoolsDurationMs
        (some (.number (finiteDuration doubles pageMs))) &&
      isSafeDiagnosticNumber doubles.js maxDevtoolsDurationMs
        (some (.number (finiteDuration doubles resourcesMs))) &&
      isSafeDiagnosticNumber doubles.js maxDevtoolsDurationMs
        (some (.number (finiteDuration doubles serializeMs))) &&
      decide (copied.length ≤ maxDevtoolsTraceResources)) = true ↔
      Brief doubles pageMs ∧ Brief doubles resourcesMs ∧ Brief doubles serializeMs := by
    rw [hkeys, decide_eq_true hlength]
    simp only [Bool.true_and, Bool.and_true, Bool.and_eq_true, isSafeDiagnosticNumber_iff, and_assoc]
    rfl
  rw [sanitizePage, hresources]
  dsimp only
  rw [hpageMs, hresourcesMs, hserializeMs]
  -- the copy of a checked payload is the payload, so only the conditions remain
  rw [checked_map_iff hconditions hchecked, hdetails, ReadableDetails, hwhole, hcopied]
  simp only [and_assoc]

theorem sanitizeMutation_iff {p : RequestPayload F} {handlerMs invalidationMs serializeMs : F}
    {patches : List MutationPatchDiagnostic} {invalidated : List PyString}
    {invalidationCount liveSignals : Nat} {redirect : MutationRedirectType}
    (hdetails : p.details = .mutation handlerMs invalidationMs serializeMs patches invalidated
      invalidationCount liveSignals redirect)
    (hbounded : Bounded p.details) {y : JsValue F} :
    sanitizeMutation doubles.js (jsMembers doubles p) = some y ↔
      ReadableDetails doubles p.details ∧ y = jsPayload doubles p := by
  set durations : List (String × JsValue F) := [jsDuration doubles "handlerMs" handlerMs,
    jsDuration doubles "invalidationMs" invalidationMs,
    jsDuration doubles "serializeMs" serializeMs] with hdurations
  set copied : List (JsValue F) := patches.map fun p => .object (jsNamed (jsPatch doubles p))
  set keys : List (JsValue F) := invalidated.map fun key => .string (jsText key)
  have hfields : jsDetails doubles p.details = durations ++
      ("patches", .array copied) :: [("invalidated", .array keys),
        ("invalidationCount", jsCount doubles invalidationCount),
        ("liveSignals", jsCount doubles liveSignals),
        ("redirect", .string (units redirect.text))] := hdetails ▸ rfl
  have hfield : ∀ m ∈ jsDetails doubles p.details, field (jsMembers doubles p) m.1 = some m.2 :=
    fun m hm => field_jsMembers (List.mem_append_right _ hm)
  have hfirst : durations ⊆ jsDetails doubles p.details := hfields ▸ List.subset_append_left _ _
  -- the copied members stand in three parts: before, at and after the patches
  have hcopied : picked (jsMembers doubles p)
      (commonKeys ++ ["handlerMs", "invalidationMs", "serializeMs"]) = jsNamed (jsCommon doubles p ++
        durations) :=
    picked_common hfirst
  have hlast : [("invalidated", .array keys),
      ("invalidationCount", jsCount doubles invalidationCount),
      ("liveSignals", jsCount doubles liveSignals), ("redirect", .string (units redirect.text))] ⊆
      jsCommon doubles p ++ jsDetails doubles p.details := by
    rw [hfields]
    exact List.subset_append_of_subset_right _
      (List.subset_append_of_subset_right _ (List.subset_cons_self _ _))
  have hrest : picked (jsMembers doubles p)
      ["invalidated", "invalidationCount", "liveSignals", "redirect"] =
        jsNamed [("invalidated", .array keys),
          ("invalidationCount", jsCount doubles invalidationCount),
          ("liveSignals", jsCount doubles liveSignals),
          ("redirect", .string (units redirect.text))] := picked_jsMembers hlast
  have hwhole : jsPayload doubles p = .object (jsNamed (jsCommon doubles p ++
      durations) ++
      (units "patches", .array copied) :: jsNamed [("invalidated", .array keys),
        -- together the parts are the whole payload
        ("invalidationCount", jsCount doubles invalidationCount),
        ("liveSignals", jsCount doubles liveSignals),
        ("redirect", .string (units redirect.text))]) := by
    rw [jsPayload, jsMembers, hfields, ← List.append_assoc]
    exact congrArg Json.object List.map_append
  have hkeys : hasOnlyKeys (jsMembers doubles p) (commonKeys ++ mutationKeys) = true :=
    hasOnlyKeys_jsMembers (hdetails ▸ rfl)
  rw [hdetails] at hbounded
  obtain ⟨hpatchesBound, hinvalidatedBound, hcountBound⟩ := hbounded
  -- the recorder bounds both lists, so the reader's bounds always hold
  have hlength : copied.length ≤ maxDevtoolsTraceMutationKeys :=
    (List.length_map _).trans_le hpatchesBound
  have hkeysLength : keys.length = invalidated.length := List.length_map _
  have hkeysBound : keys.length ≤ maxDevtoolsTraceMutationKeys :=
    hkeysLength.trans_le hinvalidatedBound
  have hsafe : keys.all (fun key => isSafeResourceKey (some key)) = true ↔
      ∀ key ∈ invalidated, isSafeKey (jsText key) = true := by
    rw [List.all_eq_true, List.forall_mem_map]
    rfl
  have hsignalsBound : isIntegerWithin doubles.js 0 maxCount (some (jsCount doubles liveSignals)) =
      true ↔ liveSignals ≤ 1000000 :=
    (@isIntegerWithin_iff F doubles 0 liveSignals).trans (and_iff_right (Nat.zero_le _))
  have hchecked : ∀ ys, copied.mapM (sanitizePatchTrace doubles.js) = some ys ↔
      (∀ p ∈ patches, ReadablePatch p) ∧ ys = copied :=
    fun ys => mapM_checked fun p _ y => sanitizePatchTrace_iff
  rw [hfields, hdurations] at hfield
  simp only [jsDuration, List.cons_append, List.nil_append, List.forall_mem_cons] at hfield
  obtain ⟨hhandlerMs, hinvalidationMs, hserializeMs, hpatches, hinvalidated, hcount, hsignals,
    hredirect, -⟩ := hfield
  -- what is left of the checks is about durations, keys and counts
  have hconditions : (hasOnlyKeys (jsMembers doubles p) (commonKeys ++ mutationKeys) &&
      isSafeDiagnosticNumber doubles.js maxDevtoolsDurationMs
        (some (.number (finiteDuration doubles handlerMs))) &&
      isSafeDiagnosticNumber doubles.js maxDevtoolsDurationMs
        (some (.number (finiteDuration doubles invalidationMs))) &&
      isSafeDiagnosticNumber doubles.js maxDevtoolsDurationMs
        (some (.number (finiteDuration doubles serializeMs))) &&
      decide (copied.length ≤ maxDevtoolsTraceMutationKeys) &&
      decide (keys.length ≤ maxDevtoolsTraceMutationKeys) &&
      keys.all (fun key => isSafeResourceKey (some key)) &&
      isIntegerWithin doubles.js keys.length maxCount (some (jsCount doubles invalidationCount)) &&
      isIntegerWithin doubles.js 0 maxCount (some (jsCount doubles liveSignals)) &&
      isOneOf ["none", "internal", "external"]
        (some (.string (units redirect.text)) : Option (JsValue F))) = true ↔
      Brief doubles handlerMs ∧ Brief doubles invalidationMs ∧ Brief doubles serializeMs ∧
        (∀ key ∈ invalidated, isSafeKey (jsText key) = true) ∧ invalidationCount ≤ 1000000 ∧
        liveSignals ≤ 1000000 := by
    rw [hkeys, decide_eq_true hlength, decide_eq_true hkeysBound, isOneOf_redirect, hkeysLength]
    simp only [Bool.true_and, Bool.and_true, Bool.and_eq_true, isSafeDiagnosticNumber_iff,
      isIntegerWithin_iff, hsignalsBound, hsafe, and_assoc, hcountBound, true_and]
    rfl
  rw [sanitizeMutation, hpatches, hinvalidated]
  dsimp only
  rw [hhandlerMs, hinvalidationMs, hserializeMs, hcount, hsignals, hredirect]
  rw [checked_map_iff hconditions hchecked, hdetails, ReadableDetails, hwhole, hcopied, hrest]
  -- the reader tests the patches last, the statement names them among the details
  constructor
  · rintro ⟨⟨⟨hhandler, hinvalidation, hserialize, hkeysSafe, hcounts⟩, hpatchesSafe⟩, rfl⟩
    exact ⟨⟨hhandler, hinvalidation, hserialize, hpatchesSafe, hkeysSafe, hcounts⟩, rfl⟩
  · rintro ⟨⟨hhandler, hinvalidation, hserialize, hpatchesSafe, hkeysSafe, hcounts⟩, rfl⟩
    exact ⟨⟨⟨hhandler, hinvalidation, hserialize, hkeysSafe, hcounts⟩, hpatchesSafe⟩, rfl⟩

/-- What the collector makes sure of: the request id that it drew, details that go with the type of
the request, and lists within their limits. -/
structure Collected (p : RequestPayload F) : Prop where
  requestId : ∃ token, IsToken token ∧ p.requestId = points "ffdev_" ++ token.map Char.toNat
  names : p.details.names = if p.requestType = .page then pageKeys else mutationKeys
  bounded : Bounded p.details

variable (doubles)

/-- The values that the browser lets through. -/
structure Readable (p : RequestPayload F) : Prop where
  totalMs : Brief doubles p.totalMs
  details : ReadableDetails doubles p.details

variable {doubles}

theorem token_unit {c : Char} (h : c ∈ "0123456789abcdef".toList) :
    pointUnits c.toNat = [c.toNat] ∧ isControlUnit c.toNat = false ∧
      (c.toNat < 0x80 && isBase64Url (Char.ofNat c.toNat)) = true := by
  have hall : ("0123456789abcdef".toList.all fun c => pointUnits c.toNat = [c.toNat] &&
      !isControlUnit c.toNat && (c.toNat < 0x80 && isBase64Url (Char.ofNat c.toNat))) = true := by
    decide
  simpa [and_assoc] using List.all_eq_true.mp hall c h

theorem jsText_requestId {p : RequestPayload F} {token : List Char} (htoken : IsToken token)
    (h : p.requestId = points "ffdev_" ++ token.map Char.toNat) :
    jsText p.requestId = units "ffdev_" ++ token.map Char.toNat := by
  have hunits : ∀ cs : List Char, (∀ c ∈ cs, c ∈ "0123456789abcdef".toList) →
      jsText (cs.map Char.toNat) = cs.map Char.toNat := by
    intro cs hcs
    induction cs with
    | nil => rfl
    | cons c cs ih =>
      obtain ⟨hc, hrest⟩ := List.forall_mem_cons.mp hcs
      rw [List.map_cons, jsText, List.flatMap_cons, (token_unit hc).1]
      exact congrArg _ (ih hrest)
  rw [h, jsText, List.flatMap_append]
  exact congrArg₂ _ (jsText_points "ffdev_") (hunits token htoken.2)

theorem requestId_checks {p : RequestPayload F} (h : Collected p) :
    isSafeText 96 (jsText p.requestId) = true ∧
      isRequestId (some (.string (jsText p.requestId)) : Option (JsValue F)) = true := by
  obtain ⟨token, htoken, hid⟩ := h.requestId
  have hpart : units "ffdev_" = [102, 102, 100, 101, 118, 95] := by decide
  have hcontrol : ∀ c ∈ token, isControlUnit c.toNat = false :=
    fun c hc => (token_unit (htoken.2 c hc)).2.1
  have hword : ∀ c ∈ token, (c.toNat < 0x80 && isBase64Url (Char.ofNat c.toNat)) = true :=
    fun c hc => (token_unit (htoken.2 c hc)).2.2
  -- a prefix of six characters and a token of sixteen
  have hlength : (units "ffdev_" ++ token.map Char.toNat).length = 22 := by
    rw [List.length_append, List.length_map, htoken.1, hpart]
    rfl
  have hcontrols : (units "ffdev_" ++ token.map Char.toNat).any isControlUnit = false := by
    rw [List.any_append, hpart, List.any_map]
    exact List.any_eq_false.mpr fun c hc => by simp [hcontrol c hc]
  have htake : (units "ffdev_" ++ token.map Char.toNat).take 6 = units "ffdev_" := by
    rw [hpart]
    rfl
  have hdrop : (units "ffdev_" ++ token.map Char.toNat).drop 6 = token.map Char.toNat := by
    rw [hpart]
    rfl
  have hne : (token.map Char.toNat).isEmpty = false := by
    rw [List.isEmpty_eq_false_iff_exists_mem, ← List.length_pos_iff_exists_mem, List.length_map,
      htoken.1]
    decide
  have hwords : (token.map Char.toNat).all
      (fun u => u < 0x80 && isBase64Url (Char.ofNat u)) = true := by
    rw [List.all_map]
    exact List.all_eq_true.mpr hword
  rw [jsText_requestId htoken hid]
  constructor
  -- the text is short and has no control character
  · have hnonempty : (units "ffdev_" ++ token.map Char.toNat).isEmpty = false := by
      rw [hpart]
      rfl
    rw [isSafeText, hcontrols, hlength, hnonempty]
    rfl
  · show (decide ((units "ffdev_" ++ token.map Char.toNat).take 6 = _) && _ && _) = true
    rw [htake, hdrop, hne, hwords, decide_eq_true rfl]
    rfl

theorem sanitizeServerTrace_iff {p : RequestPayload F} (h : Collected p) {y : JsValue F} :
    sanitizeServerTrace doubles.js (jsPayload doubles p) = some y ↔
      Readable doubles p ∧ y = jsPayload doubles p := by
  have hfield : ∀ m ∈ jsCommon doubles p, field (jsMembers doubles p) m.1 = some m.2 :=
    fun m hm => field_jsMembers (List.mem_append_left _ hm)
  simp only [jsCommon, List.forall_mem_cons] at hfield
  obtain ⟨hprotocol, hrequestId, htype, hduration, htruncated, -⟩ := hfield
  obtain ⟨hsafe, hid⟩ := @requestId_checks F p h
  have hown : isOneOf [devtoolsProtocolVersion]
      (some (.string (units devtoolsProtocol)) : Option (JsValue F)) = true :=
    isOneOf_units.mpr (List.mem_singleton.mpr rfl)
  have hcommon : isCommonTrace doubles.js (jsMembers doubles p) = true ↔
      Brief doubles p.totalMs := by
    rw [isCommonTrace, hprotocol, hrequestId, htype, hduration, htruncated, hid,
      isOneOf_requestType, hown]
    show (true && isSafeText 96 (jsText p.requestId) && true && true && _ && true) = true ↔ _
    rw [hsafe]
    simp only [Bool.true_and, Bool.and_true, isSafeDiagnosticNumber_iff]
    rfl
  have hbody : (if isOneOf ["page"] (field (jsMembers doubles p) "type") then
      sanitizePage doubles.js (jsMembers doubles p)
      else sanitizeMutation doubles.js (jsMembers doubles p)) = some y ↔
      ReadableDetails doubles p.details ∧ y = jsPayload doubles p := by
    rw [htype]
    have hnames := h.names
    have hbounded := h.bounded
    -- the type decides which checks apply; `h.names` makes the details of the same type
    cases hkind : p.requestType with
    | page =>
      have hpage : isOneOf ["page"] (some (.string (units RequestType.page.text)) :
          Option (JsValue F)) = true := isOneOf_units.mpr (List.mem_singleton_self _)
      rw [hpage, if_pos rfl]
      cases hdetails : p.details with
      | page => rw [sanitizePage_iff hdetails hbounded, hdetails]
      | mutation =>
        rw [hkind, hdetails] at hnames
        exact absurd (show mutationKeys = pageKeys from hnames) (by decide)
    | mutation =>
      have hpage : ¬isOneOf ["page"] (some (.string (units RequestType.mutation.text)) :
          Option (JsValue F)) = true := fun hmem =>
        absurd (isOneOf_units.mp hmem) (by decide)
      rw [if_neg hpage]
      cases hdetails : p.details with
      | page =>
        rw [hkind, hdetails] at hnames
        exact absurd (show pageKeys = mutationKeys from hnames) (by decide)
      | mutation => rw [sanitizeMutation_iff hdetails hbounded, hdetails]
  have hreadable : Readable doubles p ↔ Brief doubles p.totalMs ∧
      ReadableDetails doubles p.details := ⟨fun h => ⟨h.totalMs, h.details⟩, fun h => ⟨h.1, h.2⟩⟩
  show (if isCommonTrace doubles.js (jsMembers doubles p) = true then _ else none) = some y ↔ _
  rw [hreadable]
  -- the common check is the one on the total duration
  by_cases hbrief : Brief doubles p.totalMs
  · rw [if_pos (hcommon.mpr hbrief), hbody, and_iff_right hbrief]
  · rw [if_neg fun h => hbrief (hcommon.mp h)]
    exact iff_of_false nofun fun hboth => hbrief hboth.1.1

/-! ## The header -/

theorem every_of_named {members : List (String × PyValue F)} {P : PyString → Prop}
    {Q : PyNumber F → Prop} {name : String} {v : PyValue F} (h : (named members).Every P Q)
    (hm : (name, v) ∈ members) : v.Every P Q :=
  (Json.membersEvery_iff.mp h _ (List.mem_map_of_mem hm)).2

theorem finite_of_dumpsAscii {p : RequestPayload F} {text : List Char}
    (h : dumpsAscii doubles (p.json doubles) = some text) : p.details.Finite doubles := by
  obtain ⟨written, hwritten, -⟩ := Option.map_eq_some_iff.mp h
  have hevery := (Json.convert_isSome_iff (p.json doubles)).mp (Option.isSome_of_eq_some hwritten)
  cases hdetails : p.details with
  | mutation => trivial
  | page pageMs resourcesMs serializeMs resources =>
    intro r hr
    rw [RequestPayload.json, hdetails] at hevery
    have hmember : ("resources", .array (resources.map (resourcePayload doubles))) ∈
        (Details.page pageMs resourcesMs serializeMs resources).members doubles :=
      .tail _ (.tail _ (.tail _ (.head _)))
    have hresources := every_of_named hevery (List.mem_append_right _ hmember)
    have hresource := Json.itemsEvery_iff.mp hresources _ (List.mem_map_of_mem hr)
    have httlMember : ("ttl", floatValue r.ttl) ∈ resourceMembers doubles r := by
      simp [resourceMembers]
    have httl : (printable? doubles.toFloats (.float r.ttl)).isSome :=
      every_of_named hresource httlMember
    unfold printable? at httl
    split at httl
    · next hprintable => exact hprintable
    · cases httl

theorem distinct_jsNamed {members : List (String × JsValue F)}
    (hnodup : (members.map Prod.fst).Nodup) (hvalues : ∀ m ∈ members, m.2.distinct = true) :
    (Json.object (jsNamed members)).distinct = true := by
  rw [Json.distinct, Bool.and_eq_true, decide_eq_true_eq, Json.membersDistinct_iff, jsNamed,
    List.forall_mem_map, List.map_map]
  refine ⟨?_, hvalues⟩
  have hnames : (members.map fun m => units m.1) = (members.map Prod.fst).map units := by
    rw [List.map_map]
    rfl
  exact hnames ▸ hnodup.map units_injective

theorem distinct_jsResource (r : ResourceDiagnostic F) :
    (Json.object (jsNamed (jsResource doubles r))).distinct = true := by
  have hoptional : ∀ (name : String) (v : Option (JsValue F)), (∀ x ∈ v, x.distinct = true) →
      ∀ m ∈ jsOptional name v, m.2.distinct = true := by
    intro name v hv m hm
    cases v with
    | none => cases hm
    | some x =>
      rw [List.mem_singleton.mp hm]
      exact hv x rfl
  have hmap : ∀ {α : Type} (v : Option α) (f : α → JsValue F), (∀ a, (f a).distinct = true) →
      ∀ x ∈ v.map f, x.distinct = true := by
    intro α v f hf x hx
    obtain ⟨a, -, rfl⟩ := Option.map_eq_some_iff.mp hx
    exact hf a
  refine distinct_jsNamed ((names_jsResource r).nodup nodup_resourceTraceKeys) ?_
  rw [jsResource, List.forall_mem_append, List.forall_mem_append, List.forall_mem_append]
  refine ⟨?_, hoptional _ _ (hmap _ _ fun _ => rfl), hoptional _ _ (hmap _ _ fun _ => rfl),
    hoptional _ _ (hmap _ _ fun _ => rfl)⟩
  simp [Json.distinct]

theorem operation_text_injective : Function.Injective PatchOperation.text := by
  intro op op' h
  cases op <;> cases op' <;> first | rfl | exact absurd h (by decide)

theorem distinct_jsPatch (p : MutationPatchDiagnostic) :
    (Json.object (jsNamed (jsPatch doubles p))).distinct = true := by
  have hoperations : (Json.object (jsNamed (jsOperations doubles p.operations))).distinct = true := by
    refine distinct_jsNamed ?_ fun m hm => ?_
    · have hnames : (jsOperations doubles p.operations).map Prod.fst =
          p.operations.keys.map PatchOperation.text := by
        rw [jsOperations, OrderedMap.keys, List.map_map, List.map_map]
        rfl
      exact hnames ▸ p.operations.nodup_keys.map operation_text_injective
    · obtain ⟨e, -, rfl⟩ := List.mem_map.mp hm
      rfl
  have hnames : (["key", "operations"] : List String).Nodup := by decide
  refine distinct_jsNamed hnames ?_
  rw [jsPatch, List.forall_mem_cons, List.forall_mem_singleton]
  exact ⟨rfl, hoperations⟩

theorem distinct_array {α : Type} {items : List α} {image : α → JsValue F}
    (h : ∀ a, (image a).distinct = true) : (Json.array (items.map image)).distinct = true := by
  rw [Json.distinct, Json.itemsDistinct_iff, List.forall_mem_map]
  exact fun a _ => h a

theorem distinct_jsPayload (p : RequestPayload F) : (jsPayload doubles p).distinct = true := by
  refine distinct_jsNamed (nodup_members p) (List.forall_mem_append.mpr ⟨?_, ?_⟩)
  · simp [jsCommon, Json.distinct]
  · cases p.details with
    | page pageMs resourcesMs serializeMs resources =>
      have hresources := @distinct_array F _ resources _ (@distinct_jsResource F doubles)
      simp only [jsDetails, List.forall_mem_cons]
      exact ⟨rfl, rfl, rfl, hresources, nofun⟩
    | mutation handlerMs invalidationMs serializeMs patches invalidated count signals redirect =>
      have hpatches := @distinct_array F _ patches _ (@distinct_jsPatch F doubles)
      have hinvalidated := @distinct_array F _ invalidated (fun key => .string (jsText key))
        fun _ => rfl
      simp only [jsDetails, List.forall_mem_cons]
      exact ⟨rfl, rfl, rfl, hpatches, hinvalidated, rfl, rfl, rfl, nofun⟩

theorem isBase64Url_charOf {s : Nat} (h : s < 64) : isBase64Url (Base64.charOf s) = true := by
  have hall : ∀ s : Fin 64, isBase64Url (Base64.charOf s) = true := by decide
  exact hall ⟨s, h⟩

/-- The header of a text is read back, within the limit of the browser. -/
theorem decodeBase64Url_encode {c : Char} {text : List Char} (h : c ≠ '\ufeff') :
    decodeBase64Url (Base64.encode (Utf8.encode (c :: text))) =
      if (Base64.encode (Utf8.encode (c :: text))).length ≤ maxDevtoolsTraceHeaderChars then
        some (c :: text) else none := by
  set header := Base64.encode (Utf8.encode (c :: text)) with hheader
  -- the length of the base64 text is never 1 modulo 4
  have hbytes : 0 < (Utf8.encode (c :: text)).length := by
    rw [Utf8.length_encode, List.map_cons, List.sum_cons]
    have hpos := c.utf8Size_pos
    omega
  have hlength : header.length = (4 * (Utf8.encode (c :: text)).length + 2) / 3 :=
    Base64.length_encode _
  have hne : header ≠ [] := by
    rw [← List.length_pos_iff, hlength]
    omega
  have hmod : header.length % 4 ≠ 1 := by omega
  have halphabet : header.all isBase64Url = true := by
    rw [hheader, Base64.encode, List.all_map, List.all_eq_true]
    intro s hs
    refine isBase64Url_charOf (Base64.sextets_lt _ ?_ s hs)
    rw [List.forall_mem_map]
    exact fun b _ => b.toNat_lt
  have hdecoded : (Base64.decode (Base64.pad header)).bind Utf8.decode = some (c :: text) := by
    rw [hheader, Base64.decode_pad_encode, Option.bind_some, Utf8.decode_encode]
  rw [decodeBase64Url]
  -- the size is the only check of the decoder that can fail here
  by_cases hfits : header.length ≤ maxDevtoolsTraceHeaderChars
  · rw [if_pos hfits, if_neg (by simp [hne, hmod, halphabet, hfits]), hdecoded]
    apply congrArg some
    dsimp only
    split
    · next rest heq => exact absurd (List.cons.inj heq).1 h
    · rfl
  · rw [if_neg hfits, if_pos (.inr (.inl (Nat.not_le.mp hfits)))]

theorem dumpsAscii_head {p : RequestPayload F} {text : List Char}
    (h : dumpsAscii doubles (p.json doubles) = some text) : ∃ rest, text = '\x7b' :: rest := by
  obtain ⟨written, hwritten, rfl⟩ := Option.map_eq_some_iff.mp h
  obtain ⟨members, -, rfl⟩ := Option.map_eq_some_iff.mp hwritten
  cases members with
  | nil => exact ⟨_, rfl⟩
  | cons m members => exact ⟨_, rfl⟩

theorem unsupportedProtocol_jsPayload (p : RequestPayload F) :
    unsupportedProtocol (jsPayload doubles p) = none := by
  have hprotocol : field (jsMembers doubles p) "protocol" =
      some (.string (units devtoolsProtocolVersion)) :=
    field_jsMembers (List.mem_append_left _ (.head _))
  rw [jsPayload, unsupportedProtocol, hprotocol]
  simp

/-- What the browser makes of the header of a payload. -/
theorem decode_headerOf {p : RequestPayload F} (h : Collected p) {header : List Char}
    (hheader : headerOf doubles p = some header) {y : JsValue F} :
    decodeServerDiagnosticTrace doubles.js (some header) = some y ↔
      header.length ≤ maxDevtoolsTraceHeaderBytes ∧ Readable doubles p ∧
        y = jsPayload doubles p := by
  obtain ⟨text, htext, rfl⟩ := Option.map_eq_some_iff.mp hheader
  obtain ⟨rest, rfl⟩ := dumpsAscii_head htext
  -- the header's text reads back as the payload, whose names are distinct
  have hread : parse doubles.js ('\x7b' :: rest) = some (jsPayload doubles p) := by
    rw [parse, read_dumpsAscii htext, toJs_payload (finite_of_dumpsAscii htext), Option.map_some,
      Json.dedupe_of_distinct _ (distinct_jsPayload p)]
  set header := Base64.encode (Utf8.encode ('\x7b' :: rest))
  have hdecoded : decodeBase64Url header =
      if header.length ≤ maxDevtoolsTraceHeaderChars then some ('\x7b' :: rest) else none :=
    decodeBase64Url_encode (by decide)
  -- the reader's own bound on the size decides before anything is sanitised
  by_cases hfits : header.length ≤ maxDevtoolsTraceHeaderBytes
  · have hinput : (decodeBase64Url header).bind (parse doubles.js) =
        some (jsPayload doubles p) := by
      rw [hdecoded, if_pos (show header.length ≤ maxDevtoolsTraceHeaderChars from hfits)]
      exact hread
    rw [and_iff_right hfits, ← sanitizeServerTrace_iff h, decodeServerDiagnosticTrace,
      inspectServerDiagnosticTrace, hinput]
    dsimp only
    rw [unsupportedProtocol_jsPayload]
    cases sanitizeServerTrace doubles.js (jsPayload doubles p) with
    | none => exact Iff.rfl
    | some trace => exact Iff.rfl
  -- too long: nothing is decoded, so nothing is sanitised
  · have hinput : (decodeBase64Url header).bind (parse doubles.js) = none := by
      rw [hdecoded, if_neg (show ¬header.length ≤ maxDevtoolsTraceHeaderChars from hfits)]
      rfl
    rw [decodeServerDiagnosticTrace, inspectServerDiagnosticTrace, hinput]
    refine iff_of_false (fun hsome => ?_) fun hall => hfits hall.1
    cases hsome

/-! ## A model of the numbers -/

theorem takeWhile_decimal (n : Nat) :
    (Nat.toDigits 10 n ++ ".0".toList).takeWhile Char.isDigit = Nat.toDigits 10 n := by
  rw [List.takeWhile_append_of_pos Json.isDigit_of_mem_toDigits]
  exact List.append_nil _

theorem isNumber_decimal (n : Nat) :
    Json.isNumber (Nat.toDigits 10 n ++ ".0".toList) = true := by
  have hdrop : (Nat.toDigits 10 n ++ ".0".toList).dropWhile Char.isDigit = ".0".toList :=
    List.dropWhile_append_of_pos Json.isDigit_of_mem_toDigits
  have hhead : (Nat.toDigits 10 n ++ ".0".toList).head? = (Nat.toDigits 10 n).head? :=
    List.head?_append_of_ne_nil _ Nat.toDigits_ne_nil
  have hunsigned : Json.isUnsigned (Nat.toDigits 10 n ++ ".0".toList) = true := by
    have hplain := Json.isUnsigned_toDigits n
    have htake : (Nat.toDigits 10 n).takeWhile Char.isDigit = Nat.toDigits 10 n :=
      List.takeWhile_eq_self_iff.mpr Json.isDigit_of_mem_toDigits
    rw [Json.isUnsigned, Json.digitsThen, htake, Bool.and_eq_true, Bool.and_eq_true] at hplain
    rw [Json.isUnsigned, Json.digitsThen, takeWhile_decimal, hdrop, hhead, Bool.and_eq_true,
      Bool.and_eq_true]
    exact ⟨⟨hplain.1.1, by decide⟩, hplain.2⟩
  unfold Json.isNumber
  split
  · next cs hcs =>
    exact absurd (hhead.symm.trans (congrArg List.head? hcs)) (Json.head_toDigits_ne_minus n)
  · exact hunsigned

theorem ofDigitChars_reprInt (n : Nat) :
    Nat.ofDigitChars 10 ((Json.reprInt n).takeWhile Char.isDigit) 0 = n := by
  show Nat.ofDigitChars 10 ((Nat.toDigits 10 n).takeWhile Char.isDigit) 0 = n
  rw [List.takeWhile_eq_self_iff.mpr Json.isDigit_of_mem_toDigits]
  exact Nat.ofDigitChars_ten_toDigits

/-- Natural numbers as doubles. -/
def naturals : Doubles Nat where
  parse word := Nat.ofDigitChars 10 (word.takeWhile Char.isDigit) 0
  repr n := Nat.toDigits 10 n ++ ".0".toList
  isFinite _ := true
  isOne n := n = 1
  isNumber_repr n _ := isNumber_decimal n
  isFloat_repr n _ := List.any_eq_true.mpr
    ⟨'.', List.mem_append_right _ (by decide), by decide⟩
  parse_repr n _ := by
    rw [takeWhile_decimal]
    exact Nat.ofDigitChars_ten_toDigits
  value n := some n
  isFinite_eq _ := rfl
  value_parse_int n _ := congrArg (fun m : Nat => some (m : ℚ)) (ofDigitChars_reprInt n)
  le_value_parse_int n q hn hq := by
    rw [ofDigitChars_reprInt] at hq
    rw [← Option.some.inj hq]
    exact_mod_cast hn
  zero := 0
  value_zero := rfl
  round3 n := n
  value_round3 _ q h hq := ⟨q, h, hq⟩

/-! ## Traces of the server -/

/-- What every step of the engine keeps. -/
structure Started (token : List Char) (c : Collector F) : Prop where
  requestId : c.requestId = points "ffdev_" ++ token.map Char.toNat
  requestType : c.requestType = .page
  bounded : c.resources.length ≤ maxDiagnosticResources

theorem Started.step {token : List Char} {c : Collector F} (h : Started token c)
    (s : ResourceStep F) : Started token (c.step doubles s) := by
  cases s with
  | startResource =>
    rw [Collector.step]
    split
    · exact ⟨h.requestId, h.requestType, h.bounded⟩
    · next hroom =>
      refine ⟨h.requestId, h.requestType, ?_⟩
      rw [List.length_append]
      exact Nat.lt_of_not_le hroom
  | recordCache | recordLoader | finishResource =>
    exact ⟨h.requestId, h.requestType, (List.length_modify ..).trans_le h.bounded⟩

theorem started_steps (token : List Char) (steps : List (ResourceStep F)) :
    Started token (steps.foldl (Collector.step doubles) (.new token .page)) :=
  List.foldlRecOn steps _ ⟨rfl, rfl, Nat.zero_le _⟩ fun _ h s _ => h.step s

theorem collected_of_built {trace : RequestDiagnostic F} (h : Built doubles trace) :
    Collected (requestPayload trace) := by
  cases h with
  | page token htoken steps totalMs pageMs resourcesMs serializeMs =>
    have hstarted := @started_steps F doubles token steps
    have hdetails : (requestPayload ((steps.foldl (Collector.step doubles)
        (.new token .page)).build doubles totalMs pageMs resourcesMs serializeMs)).details =
        .page (finiteDuration doubles pageMs) (finiteDuration doubles resourcesMs)
          (finiteDuration doubles serializeMs)
          (steps.foldl (Collector.step doubles) (.new token .page)).resources := by
      rw [requestPayload, Collector.build, hstarted.requestType]
    refine ⟨⟨token, htoken, hstarted.requestId⟩, ?_, ?_⟩
    · rw [hdetails]
      exact (if_pos hstarted.requestType).symm
    · rw [hdetails]
      exact hstarted.bounded
  | mutation token htoken handlerMs invalidationMs serializeMs totalMs patches invalidated =>
    refine ⟨⟨token, htoken, rfl⟩, rfl, ?_, ?_, ?_⟩
    · exact (List.length_map _).trans_le (List.length_take_le _ _)
    · exact (List.length_map _).trans_le (List.length_take_le _ _)
    · exact (List.length_map _).trans_le (List.length_take_le' _ _)

theorem Collected.drop {p : RequestPayload F} (h : Collected p) (k : Nat) :
    Collected (p.drop k) := by
  have hnames : (p.details.drop k).names = p.details.names := by
    cases p.details with
    | page | mutation => rfl
  have hbounded := h.bounded
  refine ⟨h.requestId, hnames.trans h.names, ?_⟩
  show Bounded (p.details.drop k)
  cases hdetails : p.details with
  | page =>
    rw [hdetails] at hbounded
    exact (List.length_take_le' _ _).trans hbounded
  | mutation =>
    rw [hdetails] at hbounded
    exact ⟨(List.length_take_le' _ _).trans hbounded.1,
      (List.length_take_le' _ _).trans hbounded.2.1, (List.length_take_le' _ _).trans hbounded.2.2⟩

/-- The encoder gives the header of the trace that lost the fewest entries, if one fits. -/
theorem encodeDiagnosticTrace_eq_some_iff {trace : RequestDiagnostic F} {maximumBytes : Int}
    {header : List Char} : encodeDiagnosticTrace doubles trace maximumBytes = some header ↔
      0 < maximumBytes ∧
        ∃ k, FirstFit doubles maximumBytes.toNat (requestPayload trace) k header := by
  rw [encodeDiagnosticTrace]
  by_cases hpos : 0 < maximumBytes
  · rw [if_neg (Int.not_le.mpr hpos), and_iff_right hpos, encodePayload_eq_some_iff]
  · rw [if_pos (Int.not_lt.mp hpos)]
    exact iff_of_false nofun fun hboth => hpos hboth.1

/-- The browser reads what the server sends of a trace, unless the header is longer than its own
limit or a value is out of its ranges. -/
theorem decode_encodeDiagnosticTrace {trace : RequestDiagnostic F} (hbuilt : Built doubles trace)
    {maximumBytes : Int} {header : List Char}
    (hheader : encodeDiagnosticTrace doubles trace maximumBytes = some header) :
    ∃ k, FirstFit doubles maximumBytes.toNat (requestPayload trace) k header ∧
      ∀ y, decodeServerDiagnosticTrace doubles.js (some header) = some y ↔
        header.length ≤ maxDevtoolsTraceHeaderBytes ∧
          Readable doubles ((requestPayload trace).drop k) ∧
          y = jsPayload doubles ((requestPayload trace).drop k) := by
  have hpos : ¬maximumBytes ≤ 0 := fun hzero => by
    rw [encodeDiagnosticTrace, if_pos hzero] at hheader
    cases hheader
  rw [encodeDiagnosticTrace, if_neg hpos] at hheader
  obtain ⟨k, hfit⟩ := encodePayload_eq_some_iff.mp hheader
  have hcollected := (collected_of_built hbuilt).drop k
  exact ⟨k, hfit, fun y => decode_headerOf hcollected hfit.header_eq⟩

def homeTrace : RequestDiagnostic Nat :=
  (([.startResource (points "user") .user 30 false true .redis,
    .recordCache 0 false 2, .recordLoader 0 5, .finishResource 0 .loader true false none 7] :
      List (ResourceStep Nat)).foldl (Collector.step naturals)
    (.new "0123456789abcdef".toList .page)).build naturals 12 3 8 1

theorem built_homeTrace : Built naturals homeTrace :=
  .page _ ⟨by decide, fun _ h => h⟩ _ 12 3 8 1

theorem decode_encodeDiagnosticTrace_home : ∃ header k,
    FirstFit naturals 7168 (requestPayload homeTrace) k header ∧
      ∀ y, decodeServerDiagnosticTrace naturals.js (some header) = some y ↔
        header.length ≤ maxDevtoolsTraceHeaderBytes ∧
          Readable naturals ((requestPayload homeTrace).drop k) ∧
          y = jsPayload naturals ((requestPayload homeTrace).drop k) := by
  have hfits : ((headerOf naturals (requestPayload homeTrace)).any
      fun header => header.length ≤ 7168) = true := by decide +kernel
  obtain ⟨header, hheader, hlength⟩ := (Option.any_eq_true _ _).mp hfits
  have hencoded : encodeDiagnosticTrace naturals homeTrace 7168 = some header := by
    rw [encodeDiagnosticTrace, if_neg (by decide)]
    exact encodePayload_eq_some_iff.mpr
      ⟨0, firstFit_zero_iff.mpr ⟨hheader, of_decide_eq_true hlength⟩⟩
  exact ⟨header, decode_encodeDiagnosticTrace built_homeTrace hencoded⟩

end FluxFast.Server.Devtools
