import FluxFast.Theory.Templates
import FluxFast.Validation.FieldPath
import Mathlib.Data.List.Sort
import Mathlib.Data.List.TakeWhile

/-!
# RouteUrls — the path builders of pages and mutations

The compiler writes one replacement for each path parameter, in the order of their names.  What the
chain of replacements returns is compared with the template filled at once.
-/

namespace FluxFast.Codegen

open FluxFast.Theory FluxFast.Validation

/-- A JavaScript string, as its code units. -/
abbrev JsString := List UInt16

def jsText (s : String) : JsString := (Utf16.encode s.toList).map UInt16.ofNat

def openBrace : UInt16 := 123

def closeBrace : UInt16 := 125

def colon : UInt16 := 58

def slash : UInt16 := 47

def dollarSign : UInt16 := 36

/-! ## Placeholders -/

/-- `[^{}:]`. -/
def isNameUnit (c : UInt16) : Bool := c != openBrace && c != closeBrace && c != colon

/-- `[^{}]`. -/
def isConverterUnit (c : UInt16) : Bool := c != openBrace && c != closeBrace

/-- A match of `\{([^{}:]+)(?::[^{}]+)?\}` and its group. -/
def Spells (name token : JsString) : Prop :=
  name ≠ [] ∧ (∀ c ∈ name, isNameUnit c = true) ∧
    (token = openBrace :: (name ++ [closeBrace]) ∨
      ∃ converter, converter ≠ [] ∧ (∀ c ∈ converter, isConverterUnit c = true) ∧
        token = openBrace :: (name ++ colon :: (converter ++ [closeBrace])))

structure RoutePlaceholder where
  name : JsString
  token : JsString
  spelled : Spells name token
  deriving DecidableEq

/-- The match at the front of a text; no other way to match leads further. -/
def matchPlaceholder : JsString → Option RoutePlaceholder
  | [] => none
  | c :: text =>
    let name := text.takeWhile isNameUnit
    let rest := text.dropWhile isNameUnit
    let converter := rest.tail.takeWhile isConverterUnit
    if h : c = openBrace ∧ name ≠ [] then
      if rest.head? = some closeBrace then
        some ⟨name, openBrace :: (name ++ [closeBrace]),
          h.2, fun _ => List.mem_takeWhile_imp, .inl rfl⟩
      else if hc : rest.head? = some colon ∧ converter ≠ [] ∧
          (rest.tail.dropWhile isConverterUnit).head? = some closeBrace then
        some ⟨name, openBrace :: (name ++ colon :: (converter ++ [closeBrace])),
          h.2, fun _ => List.mem_takeWhile_imp,
          .inr ⟨converter, hc.2.1, fun _ => List.mem_takeWhile_imp, rfl⟩⟩
      else none
    else none

/-- The text read from the left, `skip` units of it belonging to the last match. -/
def scan : Nat → JsString → List (Piece UInt16 RoutePlaceholder)
  | _, [] => []
  | skip + 1, _ :: text => scan skip text
  | 0, c :: text =>
    match matchPlaceholder (c :: text) with
    | some placeholder => .hole placeholder :: scan (placeholder.token.length - 1) text
    | none => .literal c :: scan 0 text

def pieces (path : JsString) : List (Piece UInt16 RoutePlaceholder) := scan 0 path

/-- `path.matchAll(pattern)`. -/
def placeholders (path : JsString) : List RoutePlaceholder :=
  (pieces path).filterMap fun
    | .literal _ => none
    | .hole placeholder => some placeholder

/-! ## The compiler -/

inductive ParameterLocation
  | path
  | query
  deriving DecidableEq

def ParameterLocation.text : ParameterLocation → JsString
  | .path => jsText "path"
  | .query => jsText "query"

structure RouteParameter where
  name : JsString
  location : ParameterLocation
  deriving DecidableEq

def compareText (left right : JsString) : Ordering :=
  if left < right then .lt else if right < left then .gt else .eq

def sortParameters (parameters : List RouteParameter) : List RouteParameter :=
  parameters.insertionSort fun left right =>
    ((compareText left.location.text right.location.text).then
      (compareText left.name right.name)).isLE

def pathParameters (parameters : List RouteParameter) : List RouteParameter :=
  parameters.filter fun parameter => parameter.location = .path

/-- `SchemaCompilationError`. -/
structure CompilationError where
  path : JsString
  reason : JsString
  deriving DecidableEq

def quoted (name : JsString) : JsString := (stringify (name.map UInt16.toNat)).map UInt16.ofNat

def checkPlaceholder (place : String) (parameters : List RouteParameter)
    (placeholder : RoutePlaceholder) : Except CompilationError Unit :=
  if ((pathParameters parameters).filter fun p => p.name = placeholder.name).length = 1 then .ok ()
  else .error ⟨jsText (place ++ ".path"),
    jsText "placeholder " ++ quoted placeholder.name ++
      jsText " must have exactly one path parameter"⟩

def checkParameter (place noun : String) (path : JsString) (parameter : RouteParameter) :
    Except CompilationError Unit :=
  if ((placeholders path).filter fun p => p.name = parameter.name).length = 1 then .ok ()
  else .error ⟨jsText (place ++ ".parameters"),
    jsText "path parameter " ++ quoted parameter.name ++
      jsText (" must appear exactly once in the " ++ noun ++ " path")⟩

/-- The check of the placeholders of a `noun` at `place`. -/
def checkPlaceholders (place noun : String) (path : JsString) (parameters : List RouteParameter) :
    Except CompilationError Unit := do
  (placeholders path).forM (checkPlaceholder place parameters)
  (pathParameters parameters).forM (checkParameter place noun path)

/-- `PageRouteCompiler.validateRoutes`, for one page. -/
def validateRoutes (index : Nat) : JsString → List RouteParameter → Except CompilationError Unit :=
  checkPlaceholders s!"$.pages[{index}]" "route"

/-- `validatePlaceholders` of the mutation compiler. -/
def validatePlaceholders (index : Nat) :
    JsString → List RouteParameter → Except CompilationError Unit :=
  checkPlaceholders s!"$.mutations[{index}]" "mutation"

/-- The replacements that `renderRoute` and `renderOperation` write; `none` where a parameter has no
placeholder. -/
def replacements (path : JsString) (parameters : List RouteParameter) :
    Option (List RoutePlaceholder) :=
  (pathParameters (sortParameters parameters)).mapM fun parameter =>
    (placeholders path).find? fun candidate => candidate.name = parameter.name

/-! ## The generated code -/

/-- The value of a parameter. -/
inductive InputValue (N : Type*)
  | string (s : JsString)
  | number (n : N)

/-- `String(value)`; `numberText` writes a number. -/
def InputValue.text {N : Type*} (numberText : N → JsString) : InputValue N → JsString
  | .string s => s
  | .number n => numberText n

def isUnreserved (c : Char) : Bool :=
  c.isAlphanum || ['-', '_', '.', '!', '~', '*', '\'', '(', ')'].contains c

/-- `none` is the `URIError` of a surrogate that stands alone. -/
def encodeURIComponent (s : JsString) : Option JsString :=
  (Utf16.decode (s.map UInt16.toNat)).map fun cs =>
    (PercentEncoding.encode isUnreserved (String.ofList cs)).toList.map fun c => UInt16.ofNat c.toNat

/-- `GetSubstitution` for a match without groups. -/
def getSubstitution (matched before after : JsString) : JsString → JsString
  | 36 :: 36 :: text => 36 :: getSubstitution matched before after text
  | 36 :: 38 :: text => matched ++ getSubstitution matched before after text
  | 36 :: 96 :: text => before ++ getSubstitution matched before after text
  | 36 :: 39 :: text => after ++ getSubstitution matched before after text
  | c :: text => c :: getSubstitution matched before after text
  | [] => []

/-- `text.replace(token, replacement)`. -/
def replace (text token replacement : JsString) : JsString :=
  match text.dropInfix? token with
  | some (before, after) => before ++ getSubstitution token before after replacement ++ after
  | none => text

section Generated

variable {N : Type*} (numberText : N → JsString)

/-- The chain of replacements; an input has a value for every name. -/
def runReplacements (input : JsString → InputValue N) : List RoutePlaceholder → JsString → Option JsString
  | [], path => some path
  | placeholder :: rest, path => do
    let value ← encodeURIComponent ((input placeholder.name).text numberText)
    runReplacements input rest (replace path placeholder.token value)

/-- The path that the generated builder returns. -/
def builtPath (path : JsString) (parameters : List RouteParameter) (input : JsString → InputValue N) :
    Option JsString := do
  let chain ← replacements path parameters
  runReplacements numberText input chain path

/-! ## What the builders are for -/

def filledPiece (input : JsString → InputValue N) :
    Piece UInt16 RoutePlaceholder → Option JsString
  | .literal c => some [c]
  | .hole placeholder => encodeURIComponent ((input placeholder.name).text numberText)

/-- The template with every placeholder replaced at once. -/
def filledPath (path : JsString) (input : JsString → InputValue N) : Option JsString :=
  ((pieces path).mapM (filledPiece numberText input)).map List.flatten

end Generated

/-! ## Reading a template -/

theorem takeWhile_units {p : UInt16 → Bool} {units rest : JsString} (h : ∀ c ∈ units, p c = true)
    (hrest : ∀ c ∈ rest.head?, p c = false) :
    (units ++ rest).takeWhile p = units ∧ (units ++ rest).dropWhile p = rest := by
  cases rest with
  | nil =>
    rw [List.append_nil]
    exact ⟨List.takeWhile_eq_self_iff.mpr h, List.dropWhile_eq_nil_iff.mpr h⟩
  | cons c rest =>
    have hc : ¬p c = true := by simp [hrest c rfl]
    rw [List.takeWhile_append_of_pos h, List.dropWhile_append_of_pos h,
      List.takeWhile_cons_of_neg hc, List.dropWhile_cons_of_neg hc, List.append_nil]
    exact ⟨rfl, rfl⟩

theorem token_leads {text : JsString} {placeholder : RoutePlaceholder}
    (h : matchPlaceholder text = some placeholder) : placeholder.token <+: text := by
  cases text with
  | nil => cases h
  | cons c text =>
    have hname : text.takeWhile isNameUnit ++ text.dropWhile isNameUnit = text :=
      List.takeWhile_append_dropWhile
    have hconverter : (text.dropWhile isNameUnit).tail.takeWhile isConverterUnit ++
        (text.dropWhile isNameUnit).tail.dropWhile isConverterUnit =
        (text.dropWhile isNameUnit).tail := List.takeWhile_append_dropWhile
    simp only [matchPlaceholder] at h
    split at h
    -- the brace is closed right after the name, or a colon and a converter come first
    · next hopen =>
      rw [hopen.1]
      split at h
      · next hclose =>
        obtain ⟨rest, hrest⟩ := List.head?_eq_some_iff.mp hclose
        cases h
        exact ⟨rest, by rw [hrest] at hname; simpa using hname⟩
      · split at h
        · next hfound =>
          obtain ⟨rest, hrest⟩ := List.head?_eq_some_iff.mp hfound.1
          obtain ⟨more, hmore⟩ := List.head?_eq_some_iff.mp hfound.2.2
          have hdrop : text.dropWhile isNameUnit = colon :: (text.dropWhile isNameUnit).tail := by
            rw [hrest]
            rfl
          rw [hmore] at hconverter
          rw [hdrop, ← hconverter] at hname
          cases h
          refine ⟨more, ?_⟩
          conv_rhs => rw [← hname]
          simp
        · cases h
    · cases h

/-- The match does not depend on what follows. -/
theorem matchPlaceholder_append (placeholder : RoutePlaceholder) (rest : JsString) :
    matchPlaceholder (placeholder.token ++ rest) = some placeholder := by
  obtain ⟨name, token, hne, hname, hplain | ⟨converter, hsome, hunits, hconverted⟩⟩ := placeholder
  -- Without a converter the name ends at the closing brace.
  · subst hplain
    have hclose : ∀ c ∈ (closeBrace :: rest).head?, isNameUnit c = false := fun c hc => by
      rw [← Option.some.inj hc]
      decide
    obtain ⟨htake, hdrop⟩ := takeWhile_units hname hclose
    have htext : openBrace :: (name ++ [closeBrace]) ++ rest =
        openBrace :: (name ++ closeBrace :: rest) := by simp
    rw [htext]
    simp only [matchPlaceholder, htake, hdrop]
    rw [dif_pos ⟨trivial, hne⟩]
    rfl
  -- with one it ends at the colon, and the converter at the closing brace
  · subst hconverted
    have hcolon : ∀ c ∈ (colon :: (converter ++ closeBrace :: rest)).head?, isNameUnit c = false :=
      fun c hc => by
        rw [← Option.some.inj hc]
        decide
    have hclose : ∀ c ∈ (closeBrace :: rest).head?, isConverterUnit c = false := fun c hc => by
      rw [← Option.some.inj hc]
      decide
    obtain ⟨htake, hdrop⟩ := takeWhile_units hname hcolon
    obtain ⟨htake', hdrop'⟩ := takeWhile_units hunits hclose
    have htext : openBrace :: (name ++ colon :: (converter ++ [closeBrace])) ++ rest =
        openBrace :: (name ++ colon :: (converter ++ closeBrace :: rest)) := by simp
    rw [htext]
    simp only [matchPlaceholder, htake, hdrop, List.tail_cons, htake', hdrop']
    have hnot : ¬(colon :: (converter ++ closeBrace :: rest)).head? = some closeBrace := fun h =>
      absurd (Option.some.inj h) (by decide)
    rw [dif_pos ⟨trivial, hne⟩, if_neg hnot, dif_pos ⟨rfl, hsome, rfl⟩]

theorem openBrace_not_mem {p : UInt16 → Bool} (hp : p openBrace = false) {units : JsString}
    (h : ∀ c ∈ units, p c = true) : openBrace ∉ units := by
  intro hmem
  rw [h _ hmem] at hp
  cases hp

/-- Tokens can be told from one another and from what stands around them. -/
theorem tokens_apart : Template.Tokens RoutePlaceholder.token openBrace where
  head placeholder := by
    obtain ⟨name, token, -, hname, hplain | ⟨converter, -, hunits, hconverted⟩⟩ := placeholder
    · refine ⟨name ++ [closeBrace], hplain, ?_⟩
      have hopen : openBrace ∉ name := openBrace_not_mem (by decide) hname
      have hclose : openBrace ≠ closeBrace := by decide
      simp [hopen, hclose]
    · refine ⟨_, hconverted, ?_⟩
      have hopen : openBrace ∉ name := openBrace_not_mem (by decide) hname
      have hopen' : openBrace ∉ converter := openBrace_not_mem (by decide) hunits
      have hclose : openBrace ≠ closeBrace := by decide
      have hcolon : openBrace ≠ colon := by decide
      simp [hopen, hopen', hclose, hcolon]
  apart {k l x y} h := by
    have hk := matchPlaceholder_append k x
    rw [h, matchPlaceholder_append l y] at hk
    exact (Option.some.inj hk).symm

/-- The pieces are the template, taken apart. -/
theorem render_scan (value : RoutePlaceholder → JsString) (skip : Nat) (text : JsString) :
    Template.render RoutePlaceholder.token value [] (scan skip text) = text.drop skip := by
  induction text generalizing skip with
  | nil => simp [scan, Template.render]
  | cons c text ih =>
    cases skip with
    | succ skip => exact ih skip
    | zero =>
      unfold scan
      cases h : matchPlaceholder (c :: text) with
      | none =>
        show c :: Template.render RoutePlaceholder.token value [] (scan 0 text) = c :: text
        rw [ih 0]
        rfl
      | some placeholder =>
        obtain ⟨rest, hrest⟩ := token_leads h
        obtain ⟨letters, htoken, -⟩ := tokens_apart.head placeholder
        show placeholder.token ++ Template.render RoutePlaceholder.token value []
          (scan (placeholder.token.length - 1) text) = c :: text
        rw [ih, ← hrest, htoken]
        rw [htoken] at hrest
        rw [← (List.cons.inj hrest).2]
        simp

/-- The literals spell no placeholder. -/
theorem scan_ne_literal (skip : Nat) (text : JsString) (placeholder : RoutePlaceholder)
    (front back : List (Piece UInt16 RoutePlaceholder)) :
    scan skip text ≠ front ++ placeholder.token.map .literal ++ back := by
  obtain ⟨letters, htoken, -⟩ := tokens_apart.head placeholder
  induction text generalizing skip front with
  | nil =>
    intro h
    have hlength := congrArg List.length h
    rw [htoken] at hlength
    simp [scan] at hlength
  | cons c text ih =>
    cases skip with
    | succ skip => exact ih skip front
    | zero =>
      intro h
      -- what the front piece and the others are written from
      have hback := congrArg (Template.render RoutePlaceholder.token (fun _ => []) []) h
      rw [render_scan] at hback
      unfold scan at h
      cases hmatch : matchPlaceholder (c :: text) with
      | none =>
        rw [hmatch] at h
        cases front with
        | nil =>
          rw [List.nil_append, Template.render_append, Template.render_literals,
            List.drop_zero] at hback
          rw [hback, matchPlaceholder_append] at hmatch
          cases hmatch
        | cons p front => exact ih 0 front (List.cons.inj h).2
      | some other =>
        rw [hmatch] at h
        cases front with
        | nil =>
          rw [htoken] at h
          cases (List.cons.inj h).1
        | cons p front => exact ih _ front (List.cons.inj h).2

/-! ## Encoded values -/

theorem ofNat_toNat_inj {c d : Char} (hc : c.toNat < 128) (hd : d.toNat < 128)
    (h : UInt16.ofNat c.toNat = UInt16.ofNat d.toNat) : c = d := by
  have hvalue := congrArg UInt16.toNat h
  rw [UInt16.toNat_ofNat', UInt16.toNat_ofNat'] at hvalue
  rw [Nat.mod_eq_of_lt (by omega), Nat.mod_eq_of_lt (by omega)] at hvalue
  exact Char.toNat_inj.mp hvalue

/-- What an encoded value is made of. -/
theorem encodeURIComponent_eq_some {s value : JsString} (h : encodeURIComponent s = some value) :
    ∃ cs, Utf16.decode (s.map UInt16.toNat) = some cs ∧
      value = (PercentEncoding.encode isUnreserved (String.ofList cs)).toList.map
        fun c => UInt16.ofNat c.toNat := by
  unfold encodeURIComponent at h
  obtain ⟨cs, hdecode, rfl⟩ := Option.map_eq_some_iff.mp h
  exact ⟨cs, hdecode, rfl⟩

/-- A reserved character does not occur in an encoded value. -/
theorem not_mem_encoded {s value : JsString} (h : encodeURIComponent s = some value) {c : Char}
    (hc : c.toNat < 128) (hreserved : isUnreserved c = false) (hpercent : c ≠ '%')
    (hdigit : ∀ n < 16, PercentEncoding.hexDigit n ≠ c) : UInt16.ofNat c.toNat ∉ value := by
  obtain ⟨cs, -, rfl⟩ := encodeURIComponent_eq_some h
  intro hmem
  obtain ⟨d, hd, heq⟩ := List.mem_map.mp hmem
  have hsmall := PercentEncoding.lt_of_mem_encode _ d hd
  rw [ofNat_toNat_inj hsmall hc heq] at hd
  exact PercentEncoding.not_mem_encode hreserved hpercent hdigit _ hd

theorem openBrace_not_mem_encoded {s value : JsString} (h : encodeURIComponent s = some value) :
    openBrace ∉ value :=
  have hfree : UInt16.ofNat '\x7b'.toNat ∉ value := not_mem_encoded h (by decide) (by decide) (by decide) (by decide)
  hfree

theorem dollarSign_not_mem_encoded {s value : JsString} (h : encodeURIComponent s = some value) :
    dollarSign ∉ value :=
  have hfree : UInt16.ofNat '$'.toNat ∉ value := not_mem_encoded h (by decide) (by decide) (by decide) (by decide)
  hfree

theorem slash_not_mem_encoded {s value : JsString} (h : encodeURIComponent s = some value) :
    slash ∉ value :=
  have hfree : UInt16.ofNat '/'.toNat ∉ value := not_mem_encoded h (by decide) (by decide) (by decide) (by decide)
  hfree

theorem decode_injective {us vs : List Nat} (hus : ∀ u ∈ us, u < 0x10000)
    (hvs : ∀ v ∈ vs, v < 0x10000) {cs : List Char} (hu : Utf16.decode us = some cs)
    (hv : Utf16.decode vs = some cs) : us = vs := by
  have hpoints : ∀ (ps : List Nat) (cs : List Char),
      (ps.mapM fun n => if h : n.isValidChar then some (Char.ofNatAux n h) else none) = some cs →
        ps = cs.map Char.toNat := by
    intro ps
    induction ps with
    | nil =>
      intro cs h
      rw [← Option.some.inj h]
      rfl
    | cons p ps ih =>
      intro cs h
      rw [List.mapM_cons] at h
      obtain ⟨c, hc, hrest⟩ := Option.bind_eq_some_iff.mp h
      obtain ⟨cs', hcs, hcons⟩ := Option.bind_eq_some_iff.mp hrest
      rw [← Option.some.inj hcons, List.map_cons, ← ih cs' hcs]
      split at hc
      · rw [← Option.some.inj hc]
        rfl
      · cases hc
  have hcodes : Utf16.codePoints us = Utf16.codePoints vs := by
    rw [hpoints _ _ hu, hpoints _ _ hv]
  rw [← flatMap_codePoints hus, hcodes, flatMap_codePoints hvs]

/-- Different values have different encodings. -/
theorem encodeURIComponent_injective {s t value : JsString} (hs : encodeURIComponent s = some value)
    (ht : encodeURIComponent t = some value) : s = t := by
  obtain ⟨cs, hdecode, rfl⟩ := encodeURIComponent_eq_some hs
  obtain ⟨ds, hdecode', heq⟩ := encodeURIComponent_eq_some ht
  have hback : ∀ text : String,
      ((PercentEncoding.encode isUnreserved text).toList.map fun c => UInt16.ofNat c.toNat).map
        (fun u => Char.ofNat u.toNat) = (PercentEncoding.encode isUnreserved text).toList := by
    intro text
    rw [List.map_map]
    refine (List.map_congr_left fun c hc => ?_).trans (List.map_id _)
    have hsmall := PercentEncoding.lt_of_mem_encode _ c hc
    show Char.ofNat (UInt16.ofNat c.toNat).toNat = c
    rw [UInt16.toNat_ofNat', Nat.mod_eq_of_lt (by omega), Char.ofNat_toNat]
  have hchars : cs = ds := by
    have hlist := congrArg (List.map fun u : UInt16 => Char.ofNat u.toNat) heq
    rw [hback, hback] at hlist
    have hpercent : isUnreserved '%' = false := by decide
    exact String.ofList_injective
      (PercentEncoding.encode_injective hpercent (String.toList_inj.mp hlist))
  rw [← hchars] at hdecode'
  have hunits := decode_injective toNat_lt_of_mem toNat_lt_of_mem hdecode hdecode'
  exact List.map_injective_iff.mpr (fun u v huv => UInt16.toNat_inj.mp huv) hunits

theorem getSubstitution_eq {matched before after text : JsString} (h : dollarSign ∉ text) :
    getSubstitution matched before after text = text := by
  induction text with
  | nil => rfl
  | cons c text ih =>
    have hc : c ≠ 36 := fun heq => h (heq ▸ List.mem_cons_self)
    have hrest := ih fun hmem => h (List.mem_cons_of_mem _ hmem)
    unfold getSubstitution
    split <;> simp_all

/-- Without a dollar the replacement stands for itself. -/
theorem replace_eq {text token value : JsString} (h : dollarSign ∉ value) :
    replace text token value = Template.replaceFirst token value text := by
  unfold replace Template.replaceFirst
  split
  · next before after hfound => rw [hfound, getSubstitution_eq h]
  · next hnone => rw [hnone]

/-! ## Checked templates -/

theorem forM_eq_ok {α ε : Type*} {as : List α} {check : α → Except ε Unit}
    (h : as.forM check = .ok ()) : ∀ a ∈ as, check a = .ok () := by
  induction as with
  | nil => exact fun a ha => absurd ha List.not_mem_nil
  | cons b as ih =>
    change (check b >>= fun _ => as.forM check) = .ok () at h
    cases hb : check b with
    | error e =>
      rw [hb] at h
      cases h
    | ok u =>
      rw [hb] at h
      intro a ha
      rcases List.mem_cons.mp ha with rfl | ha
      · exact hb
      · exact ih h a ha

/-- The names of the placeholders and of the path parameters are the same, each once. -/
theorem counts_of_checked {place noun : String} {path : JsString} {parameters : List RouteParameter}
    (h : checkPlaceholders place noun path parameters = .ok ()) :
    (∀ k ∈ placeholders path,
      ((pathParameters parameters).filter fun p => p.name = k.name).length = 1) ∧
    ∀ p ∈ pathParameters parameters,
      ((placeholders path).filter fun k => k.name = p.name).length = 1 := by
  unfold checkPlaceholders at h
  cases hfirst : (placeholders path).forM (checkPlaceholder place parameters) with
  | error e =>
    rw [hfirst] at h
    cases h
  | ok u =>
    rw [hfirst] at h
    constructor
    · intro k hk
      have hcheck := forM_eq_ok hfirst k hk
      unfold checkPlaceholder at hcheck
      split at hcheck
      · next hcount => exact hcount
      · cases hcheck
    · intro p hp
      have hcheck := forM_eq_ok h p hp
      unfold checkParameter at hcheck
      split at hcheck
      · next hcount => exact hcount
      · cases hcheck

/-- The chain has every placeholder of the template, and has it once. -/
structure Chained (path : JsString) (chain : List RoutePlaceholder) : Prop where
  nodup : chain.Nodup
  names : ∀ k ∈ chain, ∀ l ∈ chain, k.name = l.name → k = l
  once : ∀ k ∈ chain, Template.Once (pieces path) k
  holes : ∀ k, .hole k ∈ pieces path ↔ k ∈ chain

theorem mem_placeholders {path : JsString} {k : RoutePlaceholder} :
    k ∈ placeholders path ↔ .hole k ∈ pieces path := by
  unfold placeholders
  rw [List.mem_filterMap]
  constructor
  · rintro ⟨piece, hpiece, hk⟩
    cases piece with
    | literal c => cases hk
    | hole l => rwa [← Option.some.inj hk]
  · exact fun hk => ⟨.hole k, hk, rfl⟩

/-- Elements of which one is counted stand apart. -/
theorem eq_of_count {α β : Type*} [DecidableEq β] {as : List α} {name : α → β} {n : β}
    (h : (as.filter fun a => name a = n).length = 1) {a b : α} (ha : a ∈ as) (hb : b ∈ as)
    (hname : name a = n) (hname' : name b = n) : a = b := by
  obtain ⟨c, hc⟩ := List.length_eq_one_iff.mp h
  have hmem : ∀ d ∈ as, name d = n → d = c := fun d hd hdn => by
    have hfilter : d ∈ as.filter fun a => name a = n := List.mem_filter.mpr ⟨hd, by simp [hdn]⟩
    rw [hc] at hfilter
    exact List.mem_singleton.mp hfilter
  rw [hmem a ha hname, hmem b hb hname']

theorem named_of_count {α β : Type*} [DecidableEq β] {as : List α} {name : α → β} {n : β}
    (h : (as.filter fun a => name a = n).length = 1) : ∃ a ∈ as, name a = n := by
  obtain ⟨a, ha⟩ := List.length_eq_one_iff.mp h
  have hmem : a ∈ as.filter fun a => name a = n := by
    rw [ha]
    exact List.mem_singleton_self a
  obtain ⟨hfrom, hname⟩ := List.mem_filter.mp hmem
  exact ⟨a, hfrom, of_decide_eq_true hname⟩

theorem nodup_of_counts {α β : Type*} [DecidableEq β] {as : List α} {name : α → β}
    (h : ∀ a ∈ as, (as.filter fun b => name b = name a).length = 1) : (as.map name).Nodup := by
  rw [List.nodup_iff_count_le_one]
  intro n
  by_cases hn : n ∈ as.map name
  · obtain ⟨a, ha, rfl⟩ := List.mem_map.mp hn
    rw [List.count_eq_countP, List.countP_map, List.countP_eq_length_filter]
    exact le_of_eq (h a ha)
  · rw [List.count_eq_zero_of_not_mem hn]
    exact Nat.zero_le 1

/-- What was found for each element, under the same names. -/
theorem exists_mapM {α β γ : Type*} {f : α → Option β} {g : α → γ} {name : β → γ} {as : List α}
    (hname : ∀ a b, f a = some b → name b = g a) (h : ∀ a ∈ as, ∃ b, f a = some b) :
    ∃ bs, as.mapM f = some bs ∧ bs.map name = as.map g ∧
      (∀ b ∈ bs, ∃ a ∈ as, f a = some b) ∧ ∀ a ∈ as, ∃ b ∈ bs, f a = some b := by
  induction as with
  | nil => exact ⟨[], rfl, rfl, by simp, by simp⟩
  | cons a as ih =>
    obtain ⟨b, hb⟩ := h a List.mem_cons_self
    obtain ⟨bs, hbs, hnames, hfrom, hto⟩ := ih fun c hc => h c (List.mem_cons_of_mem _ hc)
    refine ⟨b :: bs, ?_, ?_, ?_, ?_⟩
    · rw [List.mapM_cons, hb, hbs]
      rfl
    · rw [List.map_cons, List.map_cons, hname a b hb, hnames]
    · intro c hc
      rcases List.mem_cons.mp hc with rfl | hc
      · exact ⟨a, List.mem_cons_self, hb⟩
      · obtain ⟨d, hd, hdc⟩ := hfrom c hc
        exact ⟨d, List.mem_cons_of_mem _ hd, hdc⟩
    · intro c hc
      rcases List.mem_cons.mp hc with rfl | hc
      · exact ⟨b, List.mem_cons_self, hb⟩
      · obtain ⟨d, hd, hdc⟩ := hto c hc
        exact ⟨d, List.mem_cons_of_mem _ hd, hdc⟩

/-- A placeholder is the only one of its name. -/
theorem once_of_nodup {path : JsString} (h : (placeholders path).Nodup) {k : RoutePlaceholder}
    (hk : k ∈ placeholders path) : Template.Once (pieces path) k := by
  obtain ⟨front, back, hsplit⟩ := List.append_of_mem (mem_placeholders.mp hk)
  refine ⟨front, back, hsplit, ?_⟩
  unfold placeholders at h
  rw [hsplit, List.filterMap_append, List.filterMap_cons] at h
  obtain ⟨-, hback, hfront⟩ := List.nodup_append.mp h
  constructor
  · intro hmem
    exact hfront k (List.mem_filterMap.mpr ⟨_, hmem, rfl⟩) k List.mem_cons_self rfl
  · intro hmem
    exact (List.nodup_cons.mp hback).1 (List.mem_filterMap.mpr ⟨_, hmem, rfl⟩)

theorem chained_of_checked {place noun : String} {path : JsString} {parameters : List RouteParameter}
    (h : checkPlaceholders place noun path parameters = .ok ()) :
    ∃ chain, replacements path parameters = some chain ∧ Chained path chain ∧
      ∀ p ∈ pathParameters parameters, ∃ k ∈ chain, k.name = p.name := by
  obtain ⟨hplaceholders, hparameters⟩ := counts_of_checked h
  -- Sorting changes the order of the replacements only.
  have hsorted : (pathParameters (sortParameters parameters)).Perm (pathParameters parameters) :=
    (List.perm_insertionSort _ _).filter _
  have hfind : ∀ p ∈ pathParameters (sortParameters parameters), ∃ k,
      (placeholders path).find? (fun candidate => candidate.name = p.name) = some k := by
    intro p hp
    obtain ⟨k, hk, hname⟩ := named_of_count (hparameters p (hsorted.mem_iff.mp hp))
    exact Option.isSome_iff_exists.mp (List.find?_isSome.mpr ⟨k, hk, by simp [hname]⟩)
  have hname : ∀ (p : RouteParameter) k,
      (placeholders path).find? (fun candidate => candidate.name = p.name) = some k →
        k.name = p.name := fun p k hk => by
    have hfound := List.find?_some hk
    simpa using hfound
  obtain ⟨chain, hchain, hnames, hfrom, hto⟩ := exists_mapM hname hfind
  -- two placeholders of one name are one, since each name is counted once
  have hunique : ∀ k ∈ placeholders path, ∀ l ∈ placeholders path, k.name = l.name → k = l := by
    intro k hk l hl heq
    obtain ⟨p, hp, hpk⟩ := named_of_count (hplaceholders k hk)
    exact eq_of_count (hparameters p hp) hk hl hpk.symm (by rw [hpk, heq])
  -- the chain visits every placeholder: each has a parameter, and each parameter finds one
  have hmem : ∀ k, k ∈ chain ↔ k ∈ placeholders path := by
    intro k
    constructor
    · intro hk
      obtain ⟨p, -, hp⟩ := hfrom k hk
      exact List.mem_of_find?_eq_some hp
    · intro hk
      obtain ⟨p, hp, hpk⟩ := named_of_count (hplaceholders k hk)
      obtain ⟨l, hl, hpl⟩ := hto p (hsorted.mem_iff.mpr hp)
      have hkl : k = l := hunique k hk l (List.mem_of_find?_eq_some hpl) (by rw [hname p l hpl, hpk])
      rw [hkl]
      exact hl
  have hnamed : ∀ p ∈ pathParameters parameters, ∃ k ∈ chain, k.name = p.name := by
    intro p hp
    obtain ⟨k, hk, hpk⟩ := hto p (hsorted.mem_iff.mpr hp)
    exact ⟨k, hk, hname p k hpk⟩
  -- names, uniqueness, single occurrence and completeness of the chain
  refine ⟨chain, hchain, ⟨?_, ?_, ?_, ?_⟩, hnamed⟩
  · have hsortedNames : (chain.map RoutePlaceholder.name).Nodup := by
      rw [hnames]
      refine ((hsorted.map RouteParameter.name).nodup_iff).mpr (nodup_of_counts fun p hp => ?_)
      obtain ⟨k, hk, hkp⟩ := named_of_count (hparameters p hp)
      rw [← hkp]
      exact hplaceholders k hk
    exact hsortedNames.of_map
  · exact fun k hk l hl => hunique k ((hmem k).mp hk) l ((hmem l).mp hl)
  · intro k hk
    have hnodup : ((placeholders path).map RoutePlaceholder.name).Nodup := by
      refine nodup_of_counts fun l hl => ?_
      obtain ⟨p, hp, hpl⟩ := named_of_count (hplaceholders l hl)
      rw [← hpl]
      exact hparameters p hp
    exact once_of_nodup hnodup.of_map ((hmem k).mp hk)
  · exact fun k => mem_placeholders.symm.trans (hmem k).symm

/-! ## Chains and fillings -/

section Values

variable {N : Type*} {numberText : N → JsString}

def encodedValue (numberText : N → JsString) (input : JsString → InputValue N)
    (placeholder : RoutePlaceholder) : Option JsString :=
  encodeURIComponent ((input placeholder.name).text numberText)

/-- What stands for a placeholder; a value that cannot be encoded is left out. -/
def valueOf (numberText : N → JsString) (input : JsString → InputValue N)
    (placeholder : RoutePlaceholder) : JsString :=
  (encodedValue numberText input placeholder).getD []

theorem valueOf_free (input : JsString → InputValue N) (placeholder : RoutePlaceholder) :
    openBrace ∉ valueOf numberText input placeholder ∧
      dollarSign ∉ valueOf numberText input placeholder ∧
      slash ∉ valueOf numberText input placeholder := by
  unfold valueOf
  cases h : encodedValue numberText input placeholder with
  | none => simp
  | some value =>
    exact ⟨openBrace_not_mem_encoded h, dollarSign_not_mem_encoded h, slash_not_mem_encoded h⟩

theorem runReplacements_eq {input : JsString → InputValue N} {chain : List RoutePlaceholder}
    (h : ∀ k ∈ chain, (encodedValue numberText input k).isSome) (path : JsString) :
    runReplacements numberText input chain path =
      some (Template.fill RoutePlaceholder.token (valueOf numberText input) chain path) := by
  induction chain generalizing path with
  | nil => rfl
  | cons k chain ih =>
    obtain ⟨value, hvalue⟩ := Option.isSome_iff_exists.mp (h k List.mem_cons_self)
    have hof : valueOf numberText input k = value := by rw [valueOf, hvalue, Option.getD_some]
    unfold encodedValue at hvalue
    rw [runReplacements, hvalue]
    show runReplacements numberText input chain (replace path k.token value) = _
    rw [ih (fun l hl => h l (List.mem_cons_of_mem _ hl)), replace_eq (dollarSign_not_mem_encoded hvalue),
      ← hof]
    rfl

theorem runReplacements_none {input : JsString → InputValue N} {chain : List RoutePlaceholder}
    {k : RoutePlaceholder} (hk : k ∈ chain) (h : encodedValue numberText input k = none)
    (path : JsString) : runReplacements numberText input chain path = none := by
  induction chain generalizing path with
  | nil => exact absurd hk List.not_mem_nil
  | cons l chain ih =>
    unfold runReplacements
    rcases List.mem_cons.mp hk with rfl | hk
    · unfold encodedValue at h
      rw [h]
      rfl
    · cases encodeURIComponent ((input l.name).text numberText) with
      | none => rfl
      | some value => exact ih hk _

/-- All values at once. -/
theorem filledPath_eq {input : JsString → InputValue N} {path : JsString}
    {chain : List RoutePlaceholder} (hholes : ∀ k, .hole k ∈ pieces path → k ∈ chain)
    (h : ∀ k ∈ chain, (encodedValue numberText input k).isSome) :
    filledPath numberText path input =
      some (Template.render RoutePlaceholder.token (valueOf numberText input) chain (pieces path)) := by
  unfold filledPath
  generalize pieces path = ps at hholes
  suffices hpieces : ps.mapM (filledPiece numberText input) = some (ps.map
      (Template.pieceText RoutePlaceholder.token (valueOf numberText input) chain)) by
    rw [hpieces]
    rfl
  induction ps with
  | nil => rfl
  | cons p ps ih =>
    have hpiece : filledPiece numberText input p =
        some (Template.pieceText RoutePlaceholder.token (valueOf numberText input) chain p) := by
      cases p with
      | literal c => rfl
      | hole k =>
        have hk := hholes k List.mem_cons_self
        obtain ⟨value, hvalue⟩ := Option.isSome_iff_exists.mp (h k hk)
        rw [Template.pieceText, if_pos hk, valueOf, hvalue]
        exact hvalue
    rw [List.mapM_cons, hpiece, ih fun k hk => hholes k (List.mem_cons_of_mem _ hk)]
    rfl

theorem filledPath_none {input : JsString → InputValue N} {path : JsString} {k : RoutePlaceholder}
    (hk : .hole k ∈ pieces path) (h : encodedValue numberText input k = none) :
    filledPath numberText path input = none := by
  unfold filledPath
  generalize pieces path = ps at hk
  suffices hpieces : ps.mapM (filledPiece numberText input) = none by
    rw [hpieces]
    rfl
  induction ps with
  | nil => exact absurd hk List.not_mem_nil
  | cons p ps ih =>
    rw [List.mapM_cons]
    rcases List.mem_cons.mp hk with rfl | hk
    · have hpiece : filledPiece numberText input (.hole k) = none := h
      rw [hpiece]
      rfl
    · rw [ih hk]
      cases filledPiece numberText input p <;> rfl

/-- No value brings the text of a placeholder in front of the placeholder while it waits for its
turn. -/
def NoDecoy (numberText : N → JsString) (path : JsString) (parameters : List RouteParameter)
    (input : JsString → InputValue N) : Prop :=
  ∀ chain, replacements path parameters = some chain →
    Template.Clear RoutePlaceholder.token (valueOf numberText input) (pieces path) chain

/-- Each placeholder is a whole segment of the path. -/
def WholeSegments (path : JsString) : Prop :=
  Template.Segments RoutePlaceholder.token slash (pieces path)

variable {path : JsString} {parameters : List RouteParameter} {chain : List RoutePlaceholder}

theorem Chained.builtPath_eq (hchain : Chained path chain)
    (hreplacements : replacements path parameters = some chain) {input : JsString → InputValue N}
    (hclear : NoDecoy numberText path parameters input) :
    builtPath numberText path parameters input = filledPath numberText path input := by
  have hbuilt : builtPath numberText path parameters input =
      runReplacements numberText input chain path := by
    rw [builtPath, hreplacements]
    rfl
  rw [hbuilt]
  by_cases hall : ∀ k ∈ chain, (encodedValue numberText input k).isSome
  · have hfill := Template.fill_eq_render tokens_apart hchain.nodup hchain.once
      (hclear chain hreplacements)
    have hpath := render_scan (valueOf numberText input) 0 path
    rw [List.drop_zero] at hpath
    rw [runReplacements_eq hall, filledPath_eq (fun k => (hchain.holes k).mp) hall, ← hfill]
    unfold pieces
    rw [hpath]
  · push Not at hall
    obtain ⟨k, hk, hnone⟩ := hall
    have hvalue : encodedValue numberText input k = none := Option.not_isSome_iff_eq_none.mp hnone
    rw [runReplacements_none hk hvalue, filledPath_none ((hchain.holes k).mpr hk) hvalue]

/-- Templates whose placeholders are whole segments have room for no decoy. -/
theorem Chained.noDecoy (hchain : Chained path chain)
    (hreplacements : replacements path parameters = some chain) (hwhole : WholeSegments path)
    (input : JsString → InputValue N) : NoDecoy numberText path parameters input := by
  intro chain' hchain'
  obtain rfl := Option.some.inj (hreplacements.symm.trans hchain')
  exact Template.clear_of_segments tokens_apart hwhole (fun k front back => scan_ne_literal 0 path k front back)
    hchain.once fun k => (valueOf_free input k).1

/-- The values can be read back from the path. -/
theorem Chained.text_eq (hchain : Chained path chain) (hwhole : WholeSegments path)
    {input input' : JsString → InputValue N} {url : JsString}
    (hfilled : filledPath numberText path input = some url)
    (hfilled' : filledPath numberText path input' = some url) :
    ∀ k ∈ chain, (input k.name).text numberText = (input' k.name).text numberText := by
  have hall : ∀ (input : JsString → InputValue N), filledPath numberText path input = some url →
      ∀ k ∈ chain, (encodedValue numberText input k).isSome := by
    intro input hfilled k hk
    by_contra hnone
    rw [filledPath_none ((hchain.holes k).mpr hk) (Option.not_isSome_iff_eq_none.mp hnone)] at hfilled
    cases hfilled
  have hfirst := hall input hfilled
  have hsecond := hall input' hfilled'
  have hholes : ∀ k, .hole k ∈ pieces path → k ∈ chain := fun k => (hchain.holes k).mp
  rw [filledPath_eq hholes hfirst] at hfilled
  rw [filledPath_eq hholes hsecond] at hfilled'
  have hvalues := Template.render_injective hwhole (fun k => (valueOf_free input k).2.2)
    (fun k => (valueOf_free input' k).2.2) hholes
    (Option.some.inj (hfilled.trans hfilled'.symm))
  intro k hk
  obtain ⟨value, hvalue⟩ := Option.isSome_iff_exists.mp (hfirst k hk)
  obtain ⟨value', hvalue'⟩ := Option.isSome_iff_exists.mp (hsecond k hk)
  have heq := hvalues k ((hchain.holes k).mpr hk)
  rw [valueOf, valueOf, hvalue, hvalue', Option.getD_some, Option.getD_some] at heq
  rw [heq] at hvalue
  exact encodeURIComponent_injective hvalue hvalue'

/-- Any encoded values are the values of an input. -/
theorem Chained.exists_input (hchain : Chained path chain) {value : RoutePlaceholder → JsString}
    (hvalue : ∀ k, ∃ s, encodeURIComponent s = some (value k)) :
    ∃ input : JsString → InputValue N, ∀ k ∈ chain, encodedValue numberText input k = some (value k) := by
  choose text htext using hvalue
  let input : JsString → InputValue N := fun name =>
    match chain.find? fun k => k.name = name with
    | some k => .string (text k)
    | none => .string []
  refine ⟨input, fun k hk => ?_⟩
  have hfound : (chain.find? fun l => l.name = k.name).isSome :=
    List.find?_isSome.mpr ⟨k, hk, decide_eq_true rfl⟩
  obtain ⟨l, hl⟩ := Option.isSome_iff_exists.mp hfound
  have hname := List.find?_some hl
  have hkl : l = k := hchain.names l (List.mem_of_find?_eq_some hl) k hk (by simpa using hname)
  have hinput : input k.name = .string (text k) := by
    simp only [input, hl, hkl]
  rw [encodedValue, hinput]
  exact htext k

/-- Where the chain is always right there is no decoy. -/
theorem Chained.noDecoy_of_built (hchain : Chained path chain)
    (hreplacements : replacements path parameters = some chain)
    (h : ∀ input : JsString → InputValue N,
      builtPath numberText path parameters input = filledPath numberText path input)
    (input : JsString → InputValue N) : NoDecoy numberText path parameters input := by
  intro chain' hchain'
  obtain rfl := Option.some.inj (hreplacements.symm.trans hchain')
  -- The values that a hole may take are the encoded texts; the empty one and a letter are among
  -- them.
  have hempty : encodeURIComponent [] = some [] := by decide
  have hletter : ∃ text, (∃ s, encodeURIComponent s = some text) ∧ text ≠ [] :=
    ⟨jsText "x", ⟨jsText "x", by decide⟩, by decide⟩
  refine (Template.fill_eq_render_iff tokens_apart hchain.nodup hchain.once
    (fun text => ∃ s, encodeURIComponent s = some text) (fun text ⟨s, hs⟩ => openBrace_not_mem_encoded hs) hletter).mp ?_ _ ?_
  -- every value of the holes comes from an input, so the hypothesis speaks of it
  · intro value hvalue
    obtain ⟨input, hinput⟩ := hchain.exists_input (N := N) hvalue
    have hall : ∀ k ∈ chain, (encodedValue numberText input k).isSome := fun k hk => by
      rw [hinput k hk]
      rfl
    have hof : ∀ k ∈ chain, valueOf numberText input k = value k := fun k hk => by
      rw [valueOf, hinput k hk, Option.getD_some]
    have hright := h input
    have hpath := render_scan value 0 path
    rw [List.drop_zero] at hpath
    rw [builtPath, hreplacements] at hright
    change runReplacements numberText input chain path = _ at hright
    rw [runReplacements_eq hall, filledPath_eq (fun k => (hchain.holes k).mp) hall,
      Template.fill_congr hof, Template.render_congr hof] at hright
    unfold pieces at hright ⊢
    rw [hpath]
    exact Option.some.inj hright
  · intro k
    unfold valueOf
    cases hvalue : encodedValue numberText input k with
    | none => exact ⟨[], hempty⟩
    | some value => exact ⟨_, hvalue⟩

end Values

theorem checked_of_validated {index : Nat} {path : JsString} {parameters : List RouteParameter}
    (h : validateRoutes index path parameters = .ok () ∨
      validatePlaceholders index path parameters = .ok ()) :
    ∃ chain, replacements path parameters = some chain ∧ Chained path chain ∧
      ∀ p ∈ pathParameters parameters, ∃ k ∈ chain, k.name = p.name := by
  rcases h with h | h
  · exact chained_of_checked h
  · exact chained_of_checked h

/-- The chain fills its template at once whatever the input, and where the placeholders are whole
segments it tells inputs with different texts apart. -/
def FillsAtOnce {N : Type*} (numberText : N → JsString) (path : JsString)
    (parameters : List RouteParameter) : Prop :=
  (∀ input, builtPath numberText path parameters input = filledPath numberText path input) ∧
    (WholeSegments path → ∀ input input' url,
      builtPath numberText path parameters input = some url →
      builtPath numberText path parameters input' = some url →
      ∀ parameter ∈ pathParameters parameters,
        (input parameter.name).text numberText = (input' parameter.name).text numberText)

/-- A builder fills its template at once if and only if no input holds a decoy, as is the case where
the placeholders are whole segments. -/
theorem fillsAtOnce_iff {N : Type*} (numberText : N → JsString) {index : Nat} {path : JsString}
    {parameters : List RouteParameter}
    (h : validateRoutes index path parameters = .ok () ∨
      validatePlaceholders index path parameters = .ok ()) :
    (FillsAtOnce numberText path parameters ↔ ∀ input, NoDecoy numberText path parameters input) ∧
      (WholeSegments path → FillsAtOnce numberText path parameters) := by
  obtain ⟨chain, hreplacements, hchain, hnamed⟩ := checked_of_validated h
  have hfills : (∀ input, NoDecoy numberText path parameters input) →
      FillsAtOnce numberText path parameters := by
    intro hclear
    refine ⟨fun input => hchain.builtPath_eq hreplacements (hclear input), ?_⟩
    intro hwhole input input' url hbuilt hbuilt' parameter hparameter
    rw [hchain.builtPath_eq hreplacements (hclear input)] at hbuilt
    rw [hchain.builtPath_eq hreplacements (hclear input')] at hbuilt'
    obtain ⟨k, hk, hname⟩ := hnamed parameter hparameter
    rw [← hname]
    exact hchain.text_eq hwhole hbuilt hbuilt' k hk
  refine ⟨⟨fun hclaim => hchain.noDecoy_of_built hreplacements hclaim.1, hfills⟩, fun hwhole => ?_⟩
  exact hfills (hchain.noDecoy hreplacements hwhole)

def nestedPath : JsString := jsText "/\x7bz\x7bb\x7d\x7d/\x7bzx\x7d"

def nestedParameters : List RouteParameter := [⟨jsText "b", .path⟩, ⟨jsText "zx", .path⟩]

/-- `/{a}/{b}`. -/
def segmentPath : JsString := jsText "/\x7ba\x7d/\x7bb\x7d"

def segmentParameters : List RouteParameter := [⟨jsText "a", .path⟩, ⟨jsText "b", .path⟩]

/-- A placeholder without a converter. -/
def plainPlaceholder (c : UInt16) (h : isNameUnit c = true) : RoutePlaceholder where
  name := [c]
  token := [openBrace, c, closeBrace]
  spelled := ⟨List.cons_ne_nil _ _, fun d hd => by rw [List.mem_singleton.mp hd]; exact h, .inl rfl⟩

theorem wholeSegments_segmentPath : WholeSegments segmentPath := by
  have hpieces : pieces segmentPath =
      [.literal slash, .hole (plainPlaceholder 97 (by decide)), .literal slash,
        .hole (plainPlaceholder 98 (by decide))] := by
    decide
  unfold WholeSegments
  rw [hpieces]
  constructor
  · intro k hk
    simp only [List.mem_cons, Piece.hole.injEq, reduceCtorEq, false_or, List.not_mem_nil,
      or_false] at hk
    rcases hk with rfl | rfl <;> decide
  -- a hole stands behind one piece or behind three
  · intro front k back h
    rcases front with _ | ⟨p, _ | ⟨q, _ | ⟨r, _ | ⟨s, front⟩⟩⟩⟩
    · exact .inl rfl
    · obtain ⟨rfl, -⟩ := List.cons.inj h
      exact .inr ⟨[], rfl⟩
    · simp at h
    · simp only [List.cons_append, List.nil_append, List.cons.injEq] at h
      exact .inr ⟨[p, q], by rw [← h.2.2.1]; rfl⟩
    · simp at h
  · intro front k back h
    rcases front with _ | ⟨p, _ | ⟨q, _ | ⟨r, _ | ⟨s, front⟩⟩⟩⟩
    · simp at h
    · simp only [List.cons_append, List.nil_append, List.cons.injEq] at h
      exact .inr ⟨_, h.2.2.symm⟩
    · simp at h
    · simp only [List.cons_append, List.nil_append, List.cons.injEq] at h
      exact .inl h.2.2.2.2.symm
    · simp at h

/-- A template that is filled at once, and one that is not. -/
theorem fillsAtOnce_iff_nested :
    FillsAtOnce (fun n : Nat => jsText (toString n)) segmentPath segmentParameters ∧
      (FillsAtOnce (fun n : Nat => jsText (toString n)) nestedPath nestedParameters ↔
        ∀ input, NoDecoy (fun n : Nat => jsText (toString n)) nestedPath nestedParameters input) :=
  ⟨(fillsAtOnce_iff _ (.inl (by decide : validateRoutes 0 segmentPath segmentParameters = .ok ()))).2
      wholeSegments_segmentPath,
    (fillsAtOnce_iff _ (.inl (by decide : validateRoutes 0 nestedPath nestedParameters = .ok ()))).1⟩

/-- Between the stray braces `x` completes the text of the second placeholder. -/
theorem not_fillsAtOnce_nested :
    validateRoutes 0 nestedPath nestedParameters = .ok () ∧
      ¬FillsAtOnce (fun n : Nat => jsText (toString n)) nestedPath nestedParameters := by
  refine ⟨by decide, fun h => ?_⟩
  let input : JsString → InputValue Nat := fun name =>
    if name = jsText "b" then .string (jsText "x") else .string (jsText "v")
  have hbuilt : builtPath (fun n : Nat => jsText (toString n)) nestedPath nestedParameters input =
      some (jsText "/v/\x7bzx\x7d") := by decide
  have hfilled : filledPath (fun n : Nat => jsText (toString n)) nestedPath input =
      some (jsText "/\x7bzx\x7d/v") := by decide
  have heq := h.1 input
  rw [hbuilt, hfilled] at heq
  exact absurd heq (by decide)

end FluxFast.Codegen
