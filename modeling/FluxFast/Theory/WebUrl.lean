import FluxFast.Theory.PercentEncoding
import Mathlib.Data.List.DropRight
import Mathlib.Data.List.Infix

/-!
# WebUrl — parsing of absolute http and https URLs

The URL parser of the web platform, without a base URL and for the two web schemes.  What it makes of
an authority, and whether it accepts a URL of another scheme, are parameters.  A path is a stack of
segments: a dot segment, also a percent-encoded one, leaves the stack as it is or pops it.
-/

namespace FluxFast.Theory

namespace WebUrl

/-! ## Characters -/

/-- A C0 control or a space, which is stripped from both ends. -/
def trimmable (c : Char) : Bool := c.toNat ≤ 32

/-- A tab or newline, which is removed everywhere. -/
def dropped (c : Char) : Bool := c = '\t' || c = '\n' || c = '\r'

def isSlash (c : Char) : Bool := c = '/' || c = '\\'

/-- `?` or `#`, which end the path. -/
def endsPath (c : Char) : Bool := c = '?' || c = '#'

def endsAuthority (c : Char) : Bool := isSlash c || endsPath c

def schemeChar (c : Char) : Bool := c.isAlphanum || c = '+' || c = '-' || c = '.'

/-- What the path percent-encode set leaves as it is.  No segment holds a slash. -/
def pathSafe (c : Char) : Bool :=
  32 < c.toNat && c.toNat < 127 && !(['"', '#', '<', '>', '?', '^', '\x60', '{', '}', '/'].contains c)

/-- Start trimmed, tabs and newlines removed. -/
def lead (text : List Char) : List Char := (text.dropWhile trimmable).filter fun c => !dropped c

def clean (text : List Char) : List Char := (lead text).rdropWhile trimmable

/-! ## Segments -/

def dotForms : List (List Char) := [['.'], ['%', '2', 'e'], ['%', '2', 'E']]

def singleDot (segment : List Char) : Bool := dotForms.contains segment

def doubleDot (segment : List Char) : Bool :=
  dotForms.any fun a => dotForms.any fun b => segment = a ++ b

def encodeSegment (segment : List Char) : List Char :=
  (PercentEncoding.encode pathSafe (String.ofList segment)).toList

/-- A segment that a slash follows. -/
def enter (stack : List (List Char)) (segment : List Char) : List (List Char) :=
  if doubleDot segment then stack.dropLast
  else if singleDot segment then stack
  else stack ++ [encodeSegment segment]

/-- The last segment: a dot segment leaves an empty one. -/
def finish (stack : List (List Char)) (segment : List Char) : List (List Char) :=
  if doubleDot segment then stack.dropLast ++ [[]]
  else if singleDot segment then stack ++ [[]]
  else stack ++ [encodeSegment segment]

def walk (stack : List (List Char)) : List (List Char) → List (List Char)
  | [] => stack
  | [last] => finish stack last
  | segment :: next :: rest => walk (enter stack segment) (next :: rest)

/-- The raw segments of a path text, which is empty or begins with a slash. -/
def segments : List Char → List (List Char)
  | [] => [[]]
  | _ :: rest => rest.splitOnP isSlash

/-! ## URLs -/

structure Authority where
  username : List Char := []
  password : List Char := []
  /-- Host and port, in their normal form. -/
  host : List Char
  deriving DecidableEq

/-- What the parser does outside this file. -/
structure Parser where
  authority : List Char → List Char → Option Authority
  other : List Char → Bool

/-- The scheme of a cleaned text, and what follows its colon. -/
def scheme? (text : List Char) : Option (List Char × List Char) :=
  match text with
  | [] => none
  | first :: _ =>
    if first.isAlpha then
      match text.dropWhile schemeChar with
      | ':' :: rest => some ((text.takeWhile schemeChar).map Char.toLower, rest)
      | _ => none
    else none

/-- The authority after any number of slashes, and what follows it. -/
def afterSlashes (rest : List Char) : List Char × List Char :=
  (rest.dropWhile isSlash).span fun c => !endsAuthority c

def webSchemes : List (List Char) := [['h', 't', 't', 'p'], ['h', 't', 't', 'p', 's']]

structure Url where
  scheme : List Char
  authority : Authority
  path : List (List Char)
  query : List Char
  fragment : List Char

inductive Parsed where
  | web (url : Url)
  | other

/-- `new URL(text)`; `none` is its `TypeError`. -/
def parse (p : Parser) (text : List Char) : Option Parsed :=
  match scheme? (clean text) with
  | none => none
  | some (scheme, rest) =>
    if scheme ∈ webSchemes then
      -- the slashes after the colon are not counted, backslashes are among them
      let (authority, tail) := afterSlashes rest
      if authority = [] then none
      else
        match p.authority scheme authority with
        | none => none
        | some parsed =>
          let (path, rest) := tail.span fun c => !endsPath c
          let (query, fragment) := rest.span fun c => c ≠ '#'
          some (.web
            { scheme, authority := parsed, path := walk [] (segments path)
              query := query.drop 1, fragment := fragment.drop 1 })
    -- another scheme is judged by the parser as a whole
    else if p.other (clean text) then some .other
    else none

/-- What follows the authority of a text. -/
def tailOf (text : List Char) : List Char :=
  match scheme? text with
  | none => []
  | some (_, rest) => (afterSlashes rest).2

def Url.pathname (u : Url) : List Char := u.path.flatMap fun segment => '/' :: segment

def Url.origin (u : Url) : List Char × List Char := (u.scheme, u.authority.host)

/-! ## Cleaning -/

section Cleaning

variable {text before after : List Char}

theorem not_dropped_of_not_trimmable {c : Char} (h : trimmable c = false) : dropped c = false := by
  unfold dropped
  simp only [Bool.or_eq_false_iff, decide_eq_false_iff_not]
  refine ⟨⟨?_, ?_⟩, ?_⟩
  · rintro rfl
    exact absurd h (by decide)
  · rintro rfl
    exact absurd h (by decide)
  · rintro rfl
    exact absurd h (by decide)

/-- From the first character that stays, only tabs and newlines go. -/
theorem lead_append (hfirst : ∀ c ∈ after.head?, trimmable c = false) :
    lead (before ++ after) = lead before ++ after.filter fun c => !dropped c := by
  unfold lead
  cases hall : before.all trimmable with
  | true =>
    have hbefore : before.dropWhile trimmable = [] :=
      List.dropWhile_eq_nil_iff.mpr (List.all_eq_true.mp hall)
    have hafter : after.dropWhile trimmable = after := by
      cases after with
      | nil => rfl
      | cons c rest =>
        have hc := hfirst c rfl
        rw [List.dropWhile_cons_of_neg (by simp [hc])]
    rw [List.dropWhile_append_of_pos (List.all_eq_true.mp hall), hbefore, hafter]
    rfl
  | false =>
    have hne : (before.dropWhile trimmable).isEmpty = false := by
      rw [List.isEmpty_eq_false_iff, ne_eq, List.dropWhile_eq_nil_iff]
      intro h
      rw [List.all_eq_true.mpr h] at hall
      cases hall
    rw [List.dropWhile_append, hne, if_neg (by decide), List.filter_append]

theorem filter_eq_self_of_kept (h : ∀ c ∈ text, trimmable c = false) :
    (text.filter fun c => !dropped c) = text :=
  List.filter_eq_self.mpr fun c hc => by rw [not_dropped_of_not_trimmable (h c hc)]; rfl

/-- The end of a text is trimmed on its own, where the part before it ends in a character that
stays. -/
theorem rdropWhile_append_of_last {c : Char} (hc : trimmable c = false) :
    (before ++ [c] ++ after).rdropWhile trimmable = before ++ [c] ++ after.rdropWhile trimmable := by
  induction after using List.reverseRecOn with
  | nil =>
    rw [List.append_nil, List.rdropWhile_concat_neg _ _ _ (by simp [hc]), List.rdropWhile_nil,
      List.append_nil]
  | append_singleton rest last ih =>
    rw [← List.append_assoc]
    cases hlast : trimmable last with
    | true => rw [List.rdropWhile_concat_pos _ _ _ hlast, List.rdropWhile_concat_pos _ _ _ hlast, ih]
    | false =>
      rw [List.rdropWhile_concat_neg _ _ _ (by simp [hlast]),
        List.rdropWhile_concat_neg _ _ _ (by simp [hlast]), List.append_assoc]

/-- What is trimmed from the end. -/
def trimmed (text : List Char) : List Char := (lead text).rtakeWhile trimmable

theorem lead_eq (text : List Char) : lead text = clean text ++ trimmed text :=
  List.rdropWhile_append_rtakeWhile.symm

theorem trimmable_of_mem_trimmed {c : Char} (h : c ∈ trimmed text) : trimmable c = true := by
  unfold trimmed List.rtakeWhile at h
  exact List.mem_takeWhile_imp (List.mem_reverse.mp h)

end Cleaning

/-! ## Taking a text apart -/

/-- A text with a scheme and a non-empty authority, taken apart. -/
structure Shape (text scheme slashes authority tail : List Char) : Prop where
  text_eq : text = scheme ++ ':' :: (slashes ++ (authority ++ tail))
  scheme_chars : ∀ c ∈ scheme, schemeChar c = true
  scheme_first : scheme.head?.any Char.isAlpha = true
  slashes : ∀ c ∈ slashes, isSlash c = true
  nonempty : authority ≠ []
  authority : ∀ c ∈ authority, endsAuthority c = false
  tail : ∀ c ∈ tail.head?, endsAuthority c = true

section Shapes

variable {text scheme slashes authority tail rest : List Char}

theorem isSlash_of_not_endsAuthority {c : Char} (h : endsAuthority c = false) : isSlash c = false :=
  (Bool.or_eq_false_iff.mp h).1

theorem Shape.scheme? (h : Shape text scheme slashes authority tail) :
    scheme? text = some (scheme.map Char.toLower, slashes ++ (authority ++ tail)) := by
  have htext := h.text_eq
  subst htext
  cases hscheme : scheme with
  | nil =>
    have hfirst := h.scheme_first
    rw [hscheme] at hfirst
    cases hfirst
  -- the colon is no scheme character, so it ends what is taken
  | cons first others =>
    have hfirst : first.isAlpha = true := by
      have hfirst := h.scheme_first
      rwa [hscheme] at hfirst
    have hchars : ∀ c ∈ first :: others, schemeChar c = true := hscheme ▸ h.scheme_chars
    have hcolon : ¬schemeChar ':' = true := by decide
    have hdrop : (first :: others ++ ':' :: (slashes ++ (authority ++ tail))).dropWhile schemeChar =
        (':' :: (slashes ++ (authority ++ tail))).dropWhile schemeChar :=
      List.dropWhile_append_of_pos hchars
    have htake : (first :: others ++ ':' :: (slashes ++ (authority ++ tail))).takeWhile schemeChar =
        first :: others ++ (':' :: (slashes ++ (authority ++ tail))).takeWhile schemeChar :=
      List.takeWhile_append_of_pos hchars
    rw [List.dropWhile_cons_of_neg hcolon] at hdrop
    rw [List.takeWhile_cons_of_neg hcolon, List.append_nil] at htake
    show (if first.isAlpha then match List.dropWhile schemeChar (first :: others ++ ':' :: _) with
      | ':' :: rest => some ((List.takeWhile schemeChar (first :: others ++ ':' :: _)).map
        Char.toLower, rest)
      | _ => none else none) = _
    rw [if_pos hfirst, hdrop, htake]
    rfl

theorem Shape.afterSlashes (h : Shape text scheme slashes authority tail) :
    afterSlashes (slashes ++ (authority ++ tail)) = (authority, tail) := by
  obtain ⟨first, others, hauthority⟩ := List.exists_cons_of_ne_nil h.nonempty
  have hfirst : ¬isSlash first = true := by
    rw [isSlash_of_not_endsAuthority (h.authority first (hauthority ▸ List.mem_cons_self))]
    decide
  have hdrop : (slashes ++ (authority ++ tail)).dropWhile isSlash = authority ++ tail := by
    rw [List.dropWhile_append_of_pos h.slashes, hauthority, List.cons_append,
      List.dropWhile_cons_of_neg hfirst]
  have hkept : ∀ c ∈ authority, (!endsAuthority c) = true := fun c hc => by
    rw [h.authority c hc]
    rfl
  have hend : tail.takeWhile (fun c => !endsAuthority c) = [] ∧
      tail.dropWhile (fun c => !endsAuthority c) = tail := by
    cases htail : tail with
    | nil => exact ⟨rfl, rfl⟩
    | cons c others =>
      have hc : ¬(!endsAuthority c) = true := by
        rw [h.tail c (by rw [htail]; rfl)]
        decide
      exact ⟨List.takeWhile_cons_of_neg hc, List.dropWhile_cons_of_neg hc⟩
  unfold WebUrl.afterSlashes
  rw [hdrop, List.span_eq_takeWhile_dropWhile, List.takeWhile_append_of_pos hkept,
    List.dropWhile_append_of_pos hkept, hend.1, hend.2, List.append_nil]

theorem Shape.tailOf (h : Shape text scheme slashes authority tail) : tailOf text = tail := by
  unfold WebUrl.tailOf
  rw [h.scheme?]
  show (WebUrl.afterSlashes _).2 = tail
  rw [h.afterSlashes]

/-- A text that has a scheme and an authority has a shape. -/
theorem exists_shape {lower : List Char} (hscheme : WebUrl.scheme? text = some (lower, rest))
    (hauthority : (WebUrl.afterSlashes rest).1 ≠ []) :
    ∃ scheme slashes, Shape text scheme slashes (WebUrl.afterSlashes rest).1
      (WebUrl.afterSlashes rest).2 := by
  unfold WebUrl.scheme? at hscheme
  split at hscheme
  · cases hscheme
  · next first others =>
    split at hscheme
    · next hfirst =>
      split at hscheme
      · next rest' hrest =>
        cases hscheme
        -- the scheme and the slashes are the longest runs of their characters
        refine ⟨(first :: others).takeWhile schemeChar, rest.takeWhile isSlash, ?_, ?_, ?_, ?_,
          hauthority, ?_, ?_⟩
        · have hsplit : rest = rest.takeWhile isSlash ++
              ((WebUrl.afterSlashes rest).1 ++ (WebUrl.afterSlashes rest).2) := by
            unfold WebUrl.afterSlashes
            rw [List.span_eq_takeWhile_dropWhile, List.takeWhile_append_dropWhile,
              List.takeWhile_append_dropWhile]
          rw [← hsplit, ← hrest, List.takeWhile_append_dropWhile]
        · exact fun c hc => List.mem_takeWhile_imp hc
        · have hchar : schemeChar first = true := by
            unfold schemeChar Char.isAlphanum
            rw [hfirst]
            rfl
          rw [List.takeWhile_cons_of_pos hchar]
          exact hfirst
        · exact fun c hc => List.mem_takeWhile_imp hc
        · intro c hc
          unfold WebUrl.afterSlashes at hc
          rw [List.span_eq_takeWhile_dropWhile] at hc
          have hkept := List.mem_takeWhile_imp hc
          exact Bool.not_eq_true' _ ▸ hkept
        · intro c hc
          unfold WebUrl.afterSlashes at hc
          rw [List.span_eq_takeWhile_dropWhile] at hc
          have hnot := List.head?_dropWhile_not (fun c => !endsAuthority c) (rest.dropWhile isSlash)
          rw [Option.mem_def.mp hc] at hnot
          simpa using hnot
      · cases hscheme
    · cases hscheme

/-! ### Longer texts -/

theorem Shape.append (h : Shape text scheme slashes authority tail) {more : List Char}
    (hmore : ∀ c ∈ (tail ++ more).head?, endsAuthority c = true) :
    Shape (text ++ more) scheme slashes authority (tail ++ more) where
  text_eq := by
    rw [h.text_eq]
    simp only [List.append_assoc, List.cons_append]
  scheme_chars := h.scheme_chars
  scheme_first := h.scheme_first
  slashes := h.slashes
  nonempty := h.nonempty
  authority := h.authority
  tail := hmore

/-- Characters that end nothing go to an authority that nothing follows. -/
theorem Shape.append_authority (h : Shape text scheme slashes authority []) {more after : List Char}
    (hmore : ∀ c ∈ more, endsAuthority c = false)
    (hafter : ∀ c ∈ after.head?, endsAuthority c = true) :
    Shape (text ++ more ++ after) scheme slashes (authority ++ more) after where
  text_eq := by
    rw [h.text_eq]
    simp only [List.append_assoc, List.cons_append, List.append_nil]
  scheme_chars := h.scheme_chars
  scheme_first := h.scheme_first
  slashes := h.slashes
  nonempty hnil := h.nonempty (List.append_eq_nil_iff.mp hnil).1
  authority c hc := (List.mem_append.mp hc).elim (h.authority c) (hmore c)
  tail := hafter

/-- A slash at the end of a text belongs to what follows the authority. -/
theorem Shape.drop_slash (h : Shape (text ++ ['/']) scheme slashes authority tail) :
    ∃ before, tail = before ++ ['/'] ∧ Shape text scheme slashes authority before := by
  have hlast : tail ≠ [] := by
    rintro rfl
    obtain ⟨rest, last, hauthority⟩ : ∃ rest last, authority = rest ++ [last] :=
      ⟨_, _, (List.dropLast_append_getLast h.nonempty).symm⟩
    have htext := h.text_eq
    rw [List.append_nil, hauthority, ← List.append_assoc, ← List.cons_append, ← List.append_assoc]
      at htext
    have hslash : last = '/' := (List.cons.inj (List.append_inj_right' htext rfl)).1.symm
    have hend := h.authority last (by rw [hauthority]; simp)
    rw [hslash] at hend
    exact absurd hend (by decide)
  obtain ⟨before, last, rfl⟩ : ∃ before last, tail = before ++ [last] :=
    ⟨_, _, (List.dropLast_append_getLast hlast).symm⟩
  have htext := h.text_eq
  rw [← List.append_assoc, ← List.append_assoc, ← List.cons_append, ← List.append_assoc] at htext
  obtain ⟨hbefore, hslash⟩ := List.append_inj' htext rfl
  obtain ⟨rfl, -⟩ := List.cons.inj hslash
  refine ⟨before, rfl, ?_, h.scheme_chars, h.scheme_first, h.slashes, h.nonempty, h.authority, ?_⟩
  · rw [hbefore]
    simp only [List.append_assoc]
  · intro c hc
    refine h.tail c ?_
    rw [List.head?_append]
    rw [Option.mem_def.mp hc]
    rfl

end Shapes

/-! ## Parsing -/

section Parsing

variable {p : Parser} {text : List Char} {u : Url}

def pathText (tail : List Char) : List Char := tail.takeWhile fun c => !endsPath c

/-- What a web URL was parsed from. -/
structure Read (p : Parser) (text : List Char) (u : Url) : Prop where
  shape : ∃ scheme slashes authority,
    Shape (clean text) scheme slashes authority (tailOf (clean text)) ∧
      p.authority u.scheme authority = some u.authority
  path : u.path = walk [] (segments (pathText (tailOf (clean text))))
  query : u.query = (((tailOf (clean text)).dropWhile fun c => !endsPath c).takeWhile
    fun c => c ≠ '#').drop 1
  fragment : u.fragment = (((tailOf (clean text)).dropWhile fun c => !endsPath c).dropWhile
    fun c => c ≠ '#').drop 1

theorem read_of_parse (h : parse p text = some (.web u)) : Read p text u := by
  unfold parse at h
  cases hscheme : scheme? (clean text) with
  | none => simp [hscheme] at h
  | some parts =>
    obtain ⟨lower, rest⟩ := parts
    simp only [hscheme] at h
    split at h
    · split at h
      · cases h
      · next hauthority =>
        obtain ⟨scheme, slashes, hshape⟩ := exists_shape hscheme hauthority
        rw [← hshape.tailOf] at hshape
        -- the tail depends on the text alone
        have htail : (afterSlashes rest).2 = tailOf (clean text) := by
          rw [tailOf, hscheme]
        cases hparsed : p.authority lower (afterSlashes rest).1 with
        | none => simp [hparsed] at h
        | some parsed =>
          simp only [hparsed, List.span_eq_takeWhile_dropWhile, Option.some.injEq, Parsed.web.injEq]
            at h
          subst h
          refine ⟨⟨scheme, slashes, _, hshape, hparsed⟩, ?_, ?_, ?_⟩
          · rw [← htail]
            rfl
          · rw [← htail]
          · rw [← htail]
    · split at h
      · cases h
      · cases h

end Parsing

/-! ## A path glued to a URL -/

/-- The text without one slash at its end. -/
def withoutSlash (text : List Char) : List Char :=
  if text.getLast? = some '/' then text.dropLast else text

section Gluing

variable {p : Parser} {text path search : List Char} {u : Url}

theorem withoutSlash_cases (text : List Char) :
    text = withoutSlash text ++ ['/'] ∨ withoutSlash text = text := by
  unfold withoutSlash
  split
  · next hlast =>
    refine .inl ?_
    have hne : text ≠ [] := by
      rintro rfl
      cases hlast
    have hget := List.getLast?_eq_some_getLast hne
    rw [hlast] at hget
    rw [Option.some.inj hget, List.dropLast_append_getLast]
  · exact .inr rfl

/-- A path that begins with a slash and has no character to trim, and a query with its mark. -/
structure Suffix (path search : List Char) : Prop where
  slash : path.head? = some '/'
  kept : ∀ c ∈ path, trimmable c = false
  search : search = [] ∨ search.head? = some '?'

/-- The query as the parser reads it. -/
def cleanEnd (search : List Char) : List Char :=
  (search.filter fun c => !dropped c).rdropWhile trimmable

theorem cleanEnd_head (h : search = [] ∨ search.head? = some '?') :
    cleanEnd search = [] ∨ (cleanEnd search).head? = some '?' := by
  rcases h with rfl | h
  · exact .inl rfl
  · cases search with
    | nil => cases h
    | cons c rest =>
      cases h
      refine .inr ?_
      unfold cleanEnd
      rw [List.filter_cons_of_pos (by decide)]
      have hmark := @rdropWhile_append_of_last [] (rest.filter fun c => !dropped c) '?' (by decide)
      rw [List.nil_append, List.singleton_append] at hmark
      rw [hmark]
      rfl

theorem clean_append (h : Suffix path search) (base : List Char) :
    clean (base ++ (path ++ search)) = lead base ++ (path ++ cleanEnd search) := by
  obtain ⟨rest, last, hpath⟩ : ∃ rest last, path = rest ++ [last] := by
    have hne : path ≠ [] := by
      rintro rfl
      cases h.slash
    exact ⟨_, _, (List.dropLast_append_getLast hne).symm⟩
  have hfirst : ∀ c ∈ (path ++ search).head?, trimmable c = false := by
    intro c hc
    rw [List.head?_append, h.slash] at hc
    cases hc
    decide
  unfold clean
  rw [lead_append hfirst, List.filter_append, filter_eq_self_of_kept h.kept]
  have hlast : trimmable last = false := h.kept last (by rw [hpath]; simp)
  have htrim := @rdropWhile_append_of_last (lead base ++ rest) (search.filter fun c => !dropped c)
    last hlast
  rw [hpath]
  simp only [List.append_assoc] at htrim ⊢
  exact htrim

/-- How what follows the authority grows when the text loses its slash but keeps what the parser
would trim from its end. -/
inductive Tails (text : List Char) : List Char → Prop
  | slash {tail : List Char} (h : tailOf (clean text) = tail ++ ['/']) : Tails text tail
  | trimmed (h : tailOf (clean text) ≠ []) : Tails text (tailOf (clean text) ++ trimmed text)
  | bare (h : tailOf (clean text) = []) : Tails text []

/-- What follows the authority of the glued text. -/
theorem tailOf_append (hread : Read p text u) (h : Suffix path search) :
    tailOf (clean (withoutSlash text ++ (path ++ search))) =
        tailOf (lead (withoutSlash text)) ++ (path ++ cleanEnd search) ∧
      Tails text (tailOf (lead (withoutSlash text))) := by
  obtain ⟨scheme, slashes, authority, hshape, -⟩ := hread.shape
  have hhead : (path ++ cleanEnd search).head? = some '/' := by
    rw [List.head?_append, h.slash]
    rfl
  -- what ends the authority before the path is added still ends it after
  have hends : ∀ tail : List Char, (∀ c ∈ tail.head?, endsAuthority c = true) →
      ∀ c ∈ (tail ++ (path ++ cleanEnd search)).head?, endsAuthority c = true := by
    intro tail htail c hc
    cases tail with
    | nil =>
      rw [List.nil_append, hhead] at hc
      cases hc
      decide
    | cons first rest => exact htail c hc
  rw [clean_append h]
  rcases withoutSlash_cases text with hslash | hsame
  · -- the slash that goes was the end of the path
    have hfirst : ∀ c ∈ ['/'].head?, trimmable c = false := by
      intro c hc
      cases hc
      decide
    have hlead : lead text = lead (withoutSlash text) ++ ['/'] := by
      have hglued := @lead_append (withoutSlash text) ['/'] hfirst
      rw [← hslash] at hglued
      exact hglued
    have hclean : clean text = lead (withoutSlash text) ++ ['/'] := by
      rw [clean, hlead, List.rdropWhile_concat_neg _ _ _ (by decide)]
    rw [hclean] at hshape
    obtain ⟨before, htail, hbefore⟩ := hshape.drop_slash
    have hwhole := hbefore.append (hends before hbefore.tail)
    rw [hwhole.tailOf, hbefore.tailOf]
    refine ⟨rfl, ?_⟩
    rw [← hbefore.tailOf]
    refine .slash ?_
    rw [hbefore.tailOf, hclean]
    exact htail
  · rw [hsame, lead_eq]
    -- the blanks at the end are part of no path yet, and none ends the authority
    have hkept : ∀ c ∈ trimmed text, endsAuthority c = false := by
      intro c hc
      have htrim := trimmable_of_mem_trimmed hc
      cases hends : endsAuthority c with
      | false => rfl
      | true =>
        unfold endsAuthority isSlash endsPath at hends
        simp only [Bool.or_eq_true, decide_eq_true_eq] at hends
        rcases hends with (rfl | rfl) | (rfl | rfl) <;> exact absurd htrim (by decide)
    -- without a tail the blanks go into the authority, with one into the path
    by_cases htail : tailOf (clean text) = []
    · rw [htail] at hshape
      have hwhole := hshape.append_authority hkept (hends [] (fun c hc => by cases hc))
      have halone : Shape (clean text ++ trimmed text ++ []) scheme slashes
          (authority ++ trimmed text) [] :=
        hshape.append_authority hkept (fun c hc => by cases hc)
      rw [List.append_nil] at halone
      rw [List.nil_append] at hwhole
      rw [hwhole.tailOf, halone.tailOf]
      exact ⟨rfl, .bare htail⟩
    · have hfirst : ∀ c ∈ (tailOf (clean text) ++ trimmed text).head?, endsAuthority c = true := by
        intro c hc
        refine hshape.tail c ?_
        rwa [List.head?_append_of_ne_nil _ htail] at hc
      have halone := hshape.append hfirst
      have hwhole := halone.append (hends _ hfirst)
      rw [hwhole.tailOf, halone.tailOf]
      exact ⟨rfl, .trimmed htail⟩

end Gluing

end WebUrl

end FluxFast.Theory
