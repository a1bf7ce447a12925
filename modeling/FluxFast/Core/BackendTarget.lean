import FluxFast.Core.UriComponent
import FluxFast.Theory.DotSegments

/-!
# BackendTarget — the first URL that is requested of the backend

`safePathname` and `targetUrl` of the transport proxy, and `initialTarget` of the initial-page fetch.
Both append a path that the caller supplies to the text of the backend URL and compare origins; only
the proxy looks at the segments of the path.
-/

namespace FluxFast.Core

open FluxFast.Theory.WebUrl

/-! ## The transport proxy -/

/-- `/[\\\u0000-\u0020\u007f?#]/`. -/
def forbiddenInProxy (c : Char) : Bool :=
  c = '\\' || trimmable c || c.toNat = 127 || endsPath c

def safePathname (path : List Char) : Bool :=
  path.head? = some '/' && !(['/', '/'].isPrefixOf path) && !path.any forbiddenInProxy &&
    (path.splitOnP (· = '/')).all fun segment =>
      match decodeURIComponent segment with
      | none => false
      | some decoded => decoded ≠ ['.'] && decoded ≠ ['.', '.']

/-- The checks of both on a parsed backend URL. -/
def hasCredentialsOrSuffix (backend : Url) : Bool :=
  backend.authority.username ≠ [] || backend.authority.password ≠ [] || backend.query ≠ [] ||
    backend.fragment ≠ []

def targetUrl (p : Parser) (backendUrl pathname search : List Char) : Except String (List Char) :=
  match parse p backendUrl with
  | none => .error "Invalid URL"
  | some .other => .error "Invalid FluxFast backend URL"
  | some (.web backend) =>
    if hasCredentialsOrSuffix backend then .error "Invalid FluxFast backend URL"
    else
      let target := withoutSlash backendUrl ++ (pathname ++ search)
      match parse p target with
      | none => .error "Invalid URL"
      | some .other => .error "Invalid FluxFast transport target"
      | some (.web requested) =>
        if requested.origin ≠ backend.origin then .error "Invalid FluxFast transport target"
        else .ok target

/-! ## The initial page -/

/-- `/[\\\u0000-\u0020\u007f]/`. -/
def forbiddenInInitial (c : Char) : Bool := c = '\\' || trimmable c || c.toNat = 127

def initialTarget (p : Parser) (backendUrl path : List Char) :
    Except String (List Char × List Char × List Char) :=
  -- the first guard looks at the text of the path, before any URL is parsed
  if path.head? ≠ some '/' ∨ ['/', '/'].isPrefixOf path ∨ path.any forbiddenInInitial then
    .error "FluxFast initial paths must be origin-relative"
  else
    match parse p backendUrl with
    | none => .error "FluxFast backendUrl must be a valid HTTP(S) URL"
    | some .other => .error ("FluxFast backendUrl must be a valid HTTP(S) URL without credentials, " ++
        "query, or fragment")
    | some (.web backend) =>
      if hasCredentialsOrSuffix backend then
        .error ("FluxFast backendUrl must be a valid HTTP(S) URL without credentials, " ++
          "query, or fragment")
      else
        let fullUrl := withoutSlash backendUrl ++ path
        match parse p fullUrl with
        | none => .error "Invalid URL"
        | some .other => .error "FluxFast initial paths must be origin-relative"
        | some (.web requested) =>
          -- the second guard compares origins only: nothing looks at the path that came out
          if requested.origin ≠ backend.origin then
            .error "FluxFast initial paths must be origin-relative"
          else .ok (fullUrl, backend.origin)

/-! ## When the path stays under the prefix -/

/-- What is left of the backend URL when the path is appended to it. -/
def baseTail (backendUrl : List Char) : List Char := tailOf (lead (withoutSlash backendUrl))

/-- The raw segments of that. -/
def baseSegments (backendUrl : List Char) : List (List Char) :=
  match baseTail backendUrl with
  | [] => []
  | _ :: rest => rest.splitOnP isSlash

/-- The segments of the prefix, as the backend URL alone is parsed. -/
def prefixSegments (backendUrl : List Char) : List (List Char) :=
  withoutEmpty (walk [] (segments (tailOf (clean backendUrl))))

/-- Where the appended path begins, relative to the prefix. -/
def start (backendUrl : List Char) : Place (List Char) :=
  Place.of (prefixSegments backendUrl) ((baseSegments backendUrl).foldl enter [])

/-- Blanks after the named last segment of the backend URL, which are trimmed where it is parsed
alone and belong to the segment once a path follows. -/
def gluedName (backendUrl : List Char) : Bool :=
  !(tailOf (clean backendUrl)).any endsPath && trimmed backendUrl ≠ [] &&
    (segments (tailOf (clean backendUrl))).getLast?.any fun last => last ≠ [] && named last

/-- The path cannot reach the path of the URL, or every part of the prefix that its dot segments
leave is entered again. -/
def returns (backendUrl path : List Char) : Bool :=
  (baseTail backendUrl).any endsPath ||
    ((moves (segments (pathText path))).foldl Place.move (start backendUrl)).missing = []

/-! ## The path that is requested -/

section Requested

variable {p : Parser} {backendUrl path search : List Char} {backend requested : Url}

/-- Nothing ends the path before `after`. -/
theorem pathText_append {before after : List Char} (h : before.any endsPath = false) :
    pathText (before ++ after) = before ++ pathText after := by
  unfold pathText
  refine List.takeWhile_append_of_pos fun c hc => ?_
  rw [List.any_eq_false] at h
  simpa using h c hc

theorem pathText_append_of_any {before : List Char} (h : before.any endsPath = true)
    (after : List Char) : pathText (before ++ after) = pathText before := by
  induction before with
  | nil => cases h
  | cons c before ih =>
    unfold pathText at ih ⊢
    cases hc : endsPath c with
    | true =>
      rw [List.cons_append, List.takeWhile_cons_of_neg (by simp [hc]),
        List.takeWhile_cons_of_neg (by simp [hc])]
    | false =>
      rw [List.any_cons, hc, Bool.false_or] at h
      rw [List.cons_append, List.takeWhile_cons_of_pos (by simp [hc]),
        List.takeWhile_cons_of_pos (by simp [hc]), ih h]

theorem pathText_of_not_any {text : List Char} (h : text.any endsPath = false) :
    pathText text = text := by
  have happend : pathText (text ++ []) = text ++ pathText [] := pathText_append h
  rwa [List.append_nil, show pathText [] = [] from rfl, List.append_nil] at happend

/-- A query is not part of the path. -/
theorem pathText_append_search (hsearch : search = [] ∨ search.head? = some '?') :
    pathText (path ++ search) = pathText path := by
  cases hany : path.any endsPath with
  | true => exact pathText_append_of_any hany search
  | false =>
    have hnil : pathText search = [] := by
      rcases hsearch with rfl | hsearch
      · rfl
      · cases search with
        | nil => rfl
        | cons c rest =>
          cases hsearch
          rfl
    rw [pathText_append hany, hnil, List.append_nil, pathText_of_not_any hany]

theorem segments_append {tail : List Char} {c : Char} {rest : List Char} (hc : isSlash c = true) :
    segments (tail ++ c :: rest) = (match tail with
      | [] => []
      | _ :: others => others.splitOnP isSlash) ++ rest.splitOnP isSlash := by
  cases tail with
  | nil => rfl
  | cons first others => exact List.splitOnP_append_cons others rest hc

theorem slashFree_nil : SlashFree [] := fun _ h => by cases h

theorem withoutEmpty_prefix (path : List (List Char)) : withoutEmpty path <+: path := by
  unfold withoutEmpty
  split
  · exact List.dropLast_prefix path
  · exact List.prefix_refl path

/-- An empty query and an empty fragment leave no slash behind the path. -/
theorem not_any_of_slash {tail : List Char} (hread : Read p backendUrl backend)
    (hquery : backend.query = []) (hfragment : backend.fragment = [])
    (htail : tailOf (clean backendUrl) = tail ++ ['/']) : tail.any endsPath = false := by
  rw [hread.query, htail] at hquery
  rw [hread.fragment, htail] at hfragment
  cases hany : tail.any endsPath with
  | false => rfl
  | true =>
    obtain ⟨c, hc, hends⟩ := List.any_eq_true.mp hany
    -- what stands from the first mark on ends in a slash, so one of the two holds it
    have hrest : ∃ mark before, ((tail ++ ['/']).dropWhile fun c => !endsPath c) =
        mark :: (before ++ ['/']) := by
      have hne : (tail.dropWhile fun c => !endsPath c) ≠ [] := by
        intro hnil
        have hall := List.dropWhile_eq_nil_iff.mp hnil c hc
        rw [hends] at hall
        cases hall
      obtain ⟨mark, before, hmark⟩ := List.exists_cons_of_ne_nil hne
      refine ⟨mark, before, ?_⟩
      rw [List.dropWhile_append, hmark]
      rfl
    obtain ⟨mark, before, hrest⟩ := hrest
    rw [hrest] at hquery hfragment
    have hsplit : ((mark :: (before ++ ['/'])).takeWhile fun c => c ≠ '#') ++
        ((mark :: (before ++ ['/'])).dropWhile fun c => c ≠ '#') = mark :: (before ++ ['/']) :=
      List.takeWhile_append_dropWhile
    generalize (mark :: (before ++ ['/'])).takeWhile (fun c => c ≠ '#') = query at hquery hsplit
    cases hdrop : (mark :: (before ++ ['/'])).dropWhile (fun c => c ≠ '#') with
    | nil =>
      rw [hdrop, List.append_nil] at hsplit
      rw [hsplit] at hquery
      simp at hquery
    | cons hash fragment =>
      have hhash : hash = '#' := by
        have hnot := List.head?_dropWhile_not (fun c => decide (c ≠ '#')) (mark :: (before ++ ['/']))
        rw [hdrop] at hnot
        simpa using hnot
      rw [hdrop] at hfragment hsplit
      obtain rfl : fragment = [] := hfragment
      have hlast := congrArg List.getLast? hsplit
      rw [List.getLast?_append, List.getLast?_singleton, Option.some_or, ← List.cons_append,
        List.getLast?_append, List.getLast?_singleton, Option.some_or, hhash] at hlast
      cases hlast

/-- A mark that ends the path stands in the backend URL as it is parsed alone. -/
theorem any_endsPath_of_baseTail (hread : Read p backendUrl backend) (hquery : backend.query = [])
    (hfragment : backend.fragment = []) (hsuffix : Suffix path search)
    (hany : (baseTail backendUrl).any endsPath = true) :
    (tailOf (clean backendUrl)).any endsPath = true ∧
      pathText (baseTail backendUrl) = pathText (tailOf (clean backendUrl)) := by
  have htails := (tailOf_append hread hsuffix).2
  rw [show tailOf (lead (withoutSlash backendUrl)) = baseTail backendUrl from rfl] at htails
  generalize baseTail backendUrl = tail at hany htails
  cases htails with
  | slash h =>
    rw [not_any_of_slash hread hquery hfragment h] at hany
    cases hany
  | trimmed h =>
    have hends : (tailOf (clean backendUrl)).any endsPath = true := by
      rw [List.any_append] at hany
      refine (Bool.or_eq_true_iff.mp hany).resolve_right fun hblank => ?_
      obtain ⟨c, hc, hends⟩ := List.any_eq_true.mp hblank
      have htrim := trimmable_of_mem_trimmed hc
      unfold endsPath at hends
      simp only [Bool.or_eq_true, decide_eq_true_eq] at hends
      rcases hends with rfl | rfl <;> exact absurd htrim (by decide)
    exact ⟨hends, pathText_append_of_any hends _⟩
  | bare h => cases hany

/-- The requested path is under the prefix exactly when the appended path returns. -/
theorem under_iff_returns (hread : Read p backendUrl backend) (hquery : backend.query = [])
    (hfragment : backend.fragment = []) (hsuffix : Suffix path search)
    (hrequested : Read p (withoutSlash backendUrl ++ (path ++ search)) requested) :
    Under (withoutSlash backend.pathname) requested.pathname ↔ returns backendUrl path = true := by
  obtain ⟨htail, htails⟩ := tailOf_append hread hsuffix
  have hbackendFree : SlashFree backend.path := by
    rw [hread.path]
    exact slashFree_nil.walk _
  have hrequestedFree : SlashFree requested.path := by
    rw [hrequested.path]
    exact slashFree_nil.walk _
  have hunder : Under (withoutSlash backend.pathname) requested.pathname ↔
      withoutEmpty backend.path <+: requested.path := by
    show Under (withoutSlash (join backend.path)) (join requested.path) ↔ _
    rw [withoutSlash_join hbackendFree]
    exact under_join_iff hbackendFree.withoutEmpty hrequestedFree
  have hpath := hrequested.path
  rw [htail] at hpath
  rw [hunder]
  unfold returns
  rw [show tailOf (lead (withoutSlash backendUrl)) = baseTail backendUrl from rfl] at hpath htails
  cases hany : (baseTail backendUrl).any endsPath with
  | true =>
    -- the appended path is part of an empty query or fragment
    refine iff_of_true ?_ rfl
    have hsame : requested.path = backend.path := by
      rw [hpath, hread.path, pathText_append_of_any hany,
        (any_endsPath_of_baseTail hread hquery hfragment hsuffix hany).2]
    rw [hsame]
    exact withoutEmpty_prefix _
  | false =>
    rw [Bool.false_or, decide_eq_true_iff]
    have hslash : ∃ rest, pathText path = '/' :: rest := by
      cases path with
      | nil => cases hsuffix.slash
      | cons c rest =>
        cases hsuffix.slash
        exact ⟨_, rfl⟩
    obtain ⟨rest, hrest⟩ := hslash
    have hwalk : requested.path = (moves (segments (pathText path))).foldl Move.act
        ((baseSegments backendUrl).foldl enter []) := by
      rw [hpath, pathText_append hany, pathText_append_search (cleanEnd_head hsuffix.search), hrest,
        segments_append (by decide), walk_append (List.splitOnP_ne_nil _ _), walk_eq_foldl]
      rfl
    have hbegins : withoutEmpty backend.path = prefixSegments backendUrl := by
      rw [hread.path, prefixSegments]
      congr 3
      refine pathText_of_not_any ?_
      generalize baseTail backendUrl = tail at hany htails
      cases htails with
      | slash h =>
        rw [h, List.any_append, hany]
        rfl
      | trimmed h => exact (Bool.or_eq_false_iff.mp (List.any_append ▸ hany)).1
      | bare h => rw [h]; rfl
    rw [hwalk, hbegins]
    exact ((Place.locates_of _ _).moves _).prefix_iff

end Requested

/-! ## Paths without dot segments -/

section Named

variable {p : Parser} {backendUrl path search : List Char} {backend requested : Url}

/-- Characters that are no slash go to the last piece. -/
theorem splitOnP_append_of_not (xs : List Char) {ys : List Char} (hys : ∀ c ∈ ys, isSlash c = false) :
    ∃ before last, xs.splitOnP isSlash = before ++ [last] ∧
      (xs ++ ys).splitOnP isSlash = before ++ [last ++ ys] := by
  induction xs with
  | nil => exact ⟨[], [], rfl, by rw [List.nil_append, List.splitOnP_eq_singleton hys]; rfl⟩
  | cons x xs ih =>
    obtain ⟨before, last, hxs, hboth⟩ := ih
    rw [List.cons_append, List.splitOnP_cons_eq_if_modifyHead, List.splitOnP_cons_eq_if_modifyHead,
      hxs, hboth]
    cases isSlash x with
    | true => exact ⟨[] :: before, last, rfl, rfl⟩
    | false =>
      cases before with
      | nil => exact ⟨[], x :: last, rfl, rfl⟩
      | cons first before => exact ⟨(x :: first) :: before, last, rfl, rfl⟩

theorem named_of_blank (last : List Char) {blanks : List Char}
    (hblanks : ∀ c ∈ blanks, trimmable c = true)
    (hne : blanks ≠ []) : named (last ++ blanks) = true := by
  obtain ⟨c, rest, rfl⟩ := List.exists_cons_of_ne_nil hne
  have hc := hblanks c List.mem_cons_self
  have hmem : c ∈ last ++ c :: rest := by simp
  -- No spelling of a dot segment holds a blank, so a segment with one is not a dot segment.
  have hforms : ∀ form ∈ dotForms, ∀ x ∈ form, trimmable x = false := by
    have hall : (dotForms.all fun form => form.all fun x => !trimmable x) = true := by decide
    intro form hform x hx
    have hform := List.all_eq_true.mp (List.all_eq_true.mp hall form hform) x hx
    simpa using hform
  have hsingle : singleDot (last ++ c :: rest) = false := by
    cases hdot : singleDot (last ++ c :: rest) with
    | false => rfl
    | true =>
      have hfree := hforms _ (List.contains_iff_mem.mp hdot) c hmem
      rw [hc] at hfree
      cases hfree
  have hdouble : doubleDot (last ++ c :: rest) = false := by
    cases hdot : doubleDot (last ++ c :: rest) with
    | false => rfl
    | true =>
      -- a double dot is two spellings side by side; the blank would be in one of them
      obtain ⟨a, ha, hb⟩ := List.any_eq_true.mp hdot
      obtain ⟨b, hb, heq⟩ := List.any_eq_true.mp hb
      rw [of_decide_eq_true heq] at hmem
      rcases List.mem_append.mp hmem with h | h
      · have hfree := hforms a ha c h
        rw [hc] at hfree
        cases hfree
      · have hfree := hforms b hb c h
        rw [hc] at hfree
        cases hfree
  rw [named, hsingle, hdouble]
  rfl

theorem walk_concat (raw : List (List Char)) (last : List Char) :
    walk [] (raw ++ [last]) = finish (raw.foldl enter []) last := by
  rw [walk_append (by simp)]
  rfl

theorem withoutEmpty_concat_nil (stack : List (List Char)) :
    withoutEmpty (stack ++ [[]]) = stack := by
  unfold withoutEmpty
  rw [List.getLast?_append, List.getLast?_singleton, Option.some_or, if_pos rfl,
    List.dropLast_concat]

theorem withoutEmpty_concat {stack : List (List Char)} {segment : List Char} (h : segment ≠ []) :
    withoutEmpty (stack ++ [segment]) = stack ++ [segment] := by
  unfold withoutEmpty
  rw [List.getLast?_append, List.getLast?_singleton, Option.some_or, if_neg]
  exact fun heq => h (Option.some.inj heq)

theorem encodeSegment_nil : encodeSegment [] = [] := by decide

/-- The prefix against the stack before the appended path, for a last raw segment that blanks
follow. -/
theorem withoutEmpty_finish_prefix_iff (stack : List (List Char)) (last : List Char)
    {blanks : List Char} (hblanks : ∀ c ∈ blanks, trimmable c = true) :
    (withoutEmpty (finish stack last) <+: enter stack (last ++ blanks) ↔
        ¬(blanks ≠ [] ∧ last ≠ [] ∧ named last = true)) ∧
      (withoutEmpty (finish stack last)).length ≤ (enter stack (last ++ blanks)).length := by
  by_cases hnil : blanks = []
  · subst hnil
    rw [List.append_nil]
    have hpre : withoutEmpty (finish stack last) <+: enter stack last := by
      unfold finish enter
      split
      · rw [withoutEmpty_concat_nil]
      · split
        · rw [withoutEmpty_concat_nil]
        · exact withoutEmpty_prefix _
    exact ⟨iff_of_true hpre fun h => h.1 rfl, hpre.length_le⟩
  · have hpushed : enter stack (last ++ blanks) = stack ++ [encodeSegment (last ++ blanks)] := by
      have hnamed := named_of_blank last hblanks hnil
      rw [named, Bool.and_eq_true, Bool.not_eq_true', Bool.not_eq_true'] at hnamed
      rw [enter, hnamed.1, hnamed.2]
      rfl
    rw [hpushed]
    cases hlast : named last with
    | false =>
      have hpre : withoutEmpty (finish stack last) <+: stack ++ [encodeSegment (last ++ blanks)] := by
        unfold finish
        split
        · rw [withoutEmpty_concat_nil]
          exact (List.dropLast_prefix stack).trans (List.prefix_append _ _)
        · split
          · rw [withoutEmpty_concat_nil]
            exact List.prefix_append _ _
          · next hdouble hsingle =>
            simp [named, hdouble, hsingle] at hlast
      exact ⟨iff_of_true hpre fun h => by simp at h, hpre.length_le⟩
    | true =>
      have hfinish : finish stack last = stack ++ [encodeSegment last] := by
        rw [named, Bool.and_eq_true, Bool.not_eq_true', Bool.not_eq_true'] at hlast
        rw [finish, hlast.1, hlast.2]
        rfl
      rw [hfinish]
      by_cases hempty : last = []
      · subst hempty
        rw [encodeSegment_nil, withoutEmpty_concat_nil]
        exact ⟨iff_of_true (List.prefix_append _ _) fun h => h.2.1 rfl, by simp⟩
      · rw [withoutEmpty_concat (encodeSegment_ne_nil hempty)]
        refine ⟨iff_of_false (fun hpre => ?_) fun h => h ⟨hnil, hempty, rfl⟩, by simp⟩
        -- the blanks make the segment longer
        have hsame := (List.prefix_append_right_inj stack).mp hpre
        have hsegment : encodeSegment last = encodeSegment (last ++ blanks) :=
          (List.cons_prefix_cons.mp hsame).1
        rw [encodeSegment_append] at hsegment
        exact encodeSegment_ne_nil hnil (List.self_eq_append_right.mp hsegment)

/-- Before the appended path the stack has the prefix, unless blanks were glued to its last name. -/
theorem start_missing (hread : Read p backendUrl backend) (hsuffix : Suffix path search)
    (hany : (baseTail backendUrl).any endsPath = false) :
    ((start backendUrl).missing = [] ↔ gluedName backendUrl = false) ∧
      ((start backendUrl).missing = [] ∨ (start backendUrl).aside ≠ 0) := by
  have htails := (tailOf_append hread hsuffix).2
  have hblanks : ∀ c ∈ trimmed backendUrl, trimmable c = true :=
    fun c hc => trimmable_of_mem_trimmed hc
  have hstack : (prefixSegments backendUrl <+: (baseSegments backendUrl).foldl enter [] ↔
        gluedName backendUrl = false) ∧
      (prefixSegments backendUrl).length ≤ ((baseSegments backendUrl).foldl enter []).length := by
    unfold baseSegments gluedName prefixSegments
    rw [show tailOf (lead (withoutSlash backendUrl)) = baseTail backendUrl from rfl] at htails
    generalize baseTail backendUrl = tail at hany htails
    cases htails with
    | slash h =>
      have hsegments : segments (tailOf (clean backendUrl)) = (match tail with
          | [] => []
          | _ :: rest => rest.splitOnP isSlash) ++ [[]] := by
        rw [h]
        exact segments_append (by decide)
      have hlast : (segments (tailOf (clean backendUrl))).getLast? = some [] := by
        rw [hsegments]
        simp
      rw [hsegments, walk_concat]
      have hfinish : ∀ stack, finish stack [] = stack ++ [[]] := fun stack => by
        show stack ++ [encodeSegment []] = _
        rw [encodeSegment_nil]
      rw [hfinish, withoutEmpty_concat_nil]
      refine ⟨iff_of_true (List.prefix_refl _) ?_, le_rfl⟩
      simp
    | trimmed h =>
      obtain ⟨c, rest, htail⟩ := List.exists_cons_of_ne_nil h
      have hnot : ∀ c ∈ trimmed backendUrl, isSlash c = false := by
        intro c hc
        have htrim := hblanks c hc
        cases hslash : isSlash c with
        | false => rfl
        | true =>
          unfold isSlash at hslash
          simp only [Bool.or_eq_true, decide_eq_true_eq] at hslash
          rcases hslash with rfl | rfl <;> exact absurd htrim (by decide)
      obtain ⟨before, last, hrest, hboth⟩ := splitOnP_append_of_not rest hnot
      have hends : (tailOf (clean backendUrl)).any endsPath = false :=
        (Bool.or_eq_false_iff.mp (List.any_append ▸ hany)).1
      rw [hends, htail]
      show (withoutEmpty (walk [] (rest.splitOnP isSlash)) <+:
          ((rest ++ trimmed backendUrl).splitOnP isSlash).foldl enter [] ↔ _) ∧ _
      rw [hrest, hboth, walk_concat, List.foldl_append]
      obtain ⟨hiff, hle⟩ := withoutEmpty_finish_prefix_iff (before.foldl enter []) last hblanks
      refine ⟨hiff.trans ?_, ?_⟩
      · rw [show segments (c :: rest) = rest.splitOnP isSlash from rfl, hrest]
        simp only [List.getLast?_append, List.getLast?_singleton, Option.some_or, Option.any_some,
          Bool.not_false, Bool.true_and, Bool.and_eq_false_iff]
        by_cases hnil : trimmed backendUrl = []
        · simp [hnil]
        · by_cases hempty : last = []
          · simp [hempty]
          · simp [hnil, hempty]
      · show _ ≤ (List.foldl enter [] ((rest ++ trimmed backendUrl).splitOnP isSlash)).length
        rw [hboth, List.foldl_append, show segments (c :: rest) = rest.splitOnP isSlash from rfl,
          hrest, walk_concat]
        exact hle
    | bare h =>
      rw [h]
      refine ⟨iff_of_true ?_ ?_, by decide⟩
      · exact List.prefix_refl _
      · have hlast : ((segments []).getLast?.any fun last => last ≠ [] && named last) = false := by
          decide
        rw [hlast, Bool.and_false]
  have hlocates : (start backendUrl).Locates (prefixSegments backendUrl)
      ((baseSegments backendUrl).foldl enter []) := Place.locates_of _ _
  refine ⟨hlocates.prefix_iff.symm.trans hstack.1, ?_⟩
  -- the stack is at least as high as the prefix
  obtain ⟨hbefore, extra, hextra, hlength, -⟩ := hlocates
  have hle := hstack.2
  rw [hbefore, hextra, List.length_append, List.length_append] at hle
  cases hmissing : (start backendUrl).missing with
  | nil => exact .inl rfl
  | cons x rest =>
    rw [hmissing, List.length_cons] at hle
    exact .inr (by omega)

/-- The proxy refuses every spelling of a dot segment. -/
theorem named_of_decoded {segment : List Char}
    (h : (match decodeURIComponent segment with
      | none => false
      | some decoded => decoded ≠ ['.'] && decoded ≠ ['.', '.']) = true) : named segment = true := by
  -- Both spellings of a dot decode to a dot: a segment that decodes to neither name is neither.
  have hsingle : ∀ form ∈ dotForms, decodeURIComponent form = some ['.'] := by
    have hall : (dotForms.all fun form => decodeURIComponent form == some ['.']) = true := by decide
    intro form hform
    simpa using List.all_eq_true.mp hall form hform
  have hdouble : ∀ a ∈ dotForms, ∀ b ∈ dotForms,
      decodeURIComponent (a ++ b) = some ['.', '.'] := by
    have hall : (dotForms.all fun a => dotForms.all fun b =>
        decodeURIComponent (a ++ b) == some ['.', '.']) = true := by decide
    intro a ha b hb
    simpa using List.all_eq_true.mp (List.all_eq_true.mp hall a ha) b hb
  rw [named, Bool.and_eq_true, Bool.not_eq_true', Bool.not_eq_true']
  constructor
  · cases hdot : doubleDot segment with
    | false => rfl
    | true =>
      obtain ⟨a, ha, hb⟩ := List.any_eq_true.mp hdot
      obtain ⟨b, hb, heq⟩ := List.any_eq_true.mp hb
      rw [of_decide_eq_true heq, hdouble a ha b hb] at h
      simp at h
  · cases hdot : singleDot segment with
    | false => rfl
    | true =>
      rw [hsingle segment (List.contains_iff_mem.mp hdot)] at h
      simp at h

/-- A path without dot segments returns unless blanks were glued to the prefix. -/
theorem returns_of_named (hread : Read p backendUrl backend) (hquery : backend.query = [])
    (hfragment : backend.fragment = []) (hsuffix : Suffix path search)
    (hnamed : ∀ segment ∈ segments (pathText path), named segment = true) :
    returns backendUrl path = true ↔ gluedName backendUrl = false := by
  unfold returns
  cases hany : (baseTail backendUrl).any endsPath with
  | true =>
    refine iff_of_true rfl ?_
    unfold gluedName
    rw [(any_endsPath_of_baseTail hread hquery hfragment hsuffix hany).1]
    rfl
  | false =>
    obtain ⟨hstart, haside⟩ := start_missing hread hsuffix hany
    rw [Bool.false_or, decide_eq_true_iff, Place.missing_pushes haside _ (moves_of_named hnamed)]
    exact hstart

end Named

/-! ## Both entry points -/

section Accepted

variable {p : Parser} {backendUrl path search target origin : List Char}

/-- What both require of the backend URL and of the appended one. -/
structure Accepted (p : Parser) (backendUrl suffix target : List Char) (backend requested : Url) :
    Prop where
  backend_eq : parse p backendUrl = some (.web backend)
  query : backend.query = []
  fragment : backend.fragment = []
  target_eq : target = withoutSlash backendUrl ++ suffix
  requested_eq : parse p target = some (.web requested)
  origin : requested.origin = backend.origin

theorem no_suffix {backend : Url} (h : ¬hasCredentialsOrSuffix backend = true) :
    backend.query = [] ∧ backend.fragment = [] := by
  unfold hasCredentialsOrSuffix at h
  simp only [Bool.or_eq_true, decide_eq_true_eq, not_or, ne_eq, not_not] at h
  exact ⟨h.1.2, h.2⟩

theorem accepted_targetUrl (h : targetUrl p backendUrl path search = .ok target) :
    ∃ backend requested, Accepted p backendUrl (path ++ search) target backend requested := by
  unfold targetUrl at h
  split at h
  · cases h
  · cases h
  · next backend hbackend =>
    split at h
    · cases h
    · next hplain =>
      dsimp only at h
      split at h
      · cases h
      · cases h
      · next requested hrequested =>
        split at h
        · cases h
        · next horigin =>
          cases h
          obtain ⟨hquery, hfragment⟩ := no_suffix hplain
          exact ⟨backend, requested, hbackend, hquery, hfragment, rfl, hrequested,
            not_not.mp horigin⟩

theorem accepted_initialTarget {result : List Char × List Char × List Char}
    (h : initialTarget p backendUrl path = .ok result) :
    Suffix path [] ∧ ∃ backend requested, result.2 = backend.origin ∧
      Accepted p backendUrl (path ++ []) result.1 backend requested := by
  unfold initialTarget at h
  split at h
  · cases h
  · next hpath =>
    simp only [not_or, not_not] at hpath
    obtain ⟨hslash, -, hchars⟩ := hpath
    -- The guard's own character class leaves no blank at the end of the path, which a parser would
    -- trim.
    have hsuffix : Suffix path [] := by
      refine ⟨hslash, fun c hc => ?_, .inl rfl⟩
      cases htrim : trimmable c with
      | false => rfl
      | true =>
        refine absurd (List.any_eq_true.mpr ⟨c, hc, ?_⟩) hchars
        rw [forbiddenInInitial, htrim]
        simp
    refine ⟨hsuffix, ?_⟩
    -- the remaining branches of the source, in its order: no URL, wrong scheme, wrong origin
    split at h
    · cases h
    · cases h
    · next backend hbackend =>
      split at h
      · cases h
      · next hplain =>
        dsimp only at h
        split at h
        · cases h
        · cases h
        · next requested hrequested =>
          split at h
          · cases h
          · next horigin =>
            cases h
            obtain ⟨hquery, hfragment⟩ := no_suffix hplain
            exact ⟨backend, requested, rfl, hbackend, hquery, hfragment, by rw [List.append_nil],
              hrequested, not_not.mp horigin⟩

theorem splitOnP_congr {p q : Char → Bool} {text : List Char} (h : ∀ c ∈ text, p c = q c) :
    text.splitOnP p = text.splitOnP q := by
  induction text with
  | nil => rfl
  | cons c text ih =>
    rw [List.splitOnP_cons_eq_if_modifyHead, List.splitOnP_cons_eq_if_modifyHead,
      h c List.mem_cons_self, ih fun x hx => h x (List.mem_cons_of_mem _ hx)]

/-- A path that the proxy accepts has no dot segment. -/
theorem named_of_safePathname (h : safePathname path = true)
    (hsearch : search = [] ∨ search.head? = some '?') :
    Suffix path search ∧ ∀ segment ∈ segments (pathText path), named segment = true := by
  unfold safePathname at h
  simp only [Bool.and_eq_true, decide_eq_true_eq, Bool.not_eq_true'] at h
  obtain ⟨⟨⟨hslash, -⟩, hchars⟩, hsegments⟩ := h
  -- The characters that the proxy forbids cover what ends a path and what a parser trims.
  rw [List.any_eq_false] at hchars
  have hallowed : ∀ c ∈ path, forbiddenInProxy c = false := fun c hc => by simpa using hchars c hc
  have hparts : ∀ c ∈ path, c ≠ '\\' ∧ trimmable c = false ∧ endsPath c = false := by
    intro c hc
    have hc := hallowed c hc
    unfold forbiddenInProxy at hc
    simp only [Bool.or_eq_false_iff, decide_eq_false_iff_not] at hc
    exact ⟨hc.1.1.1, hc.1.1.2, hc.2⟩
  refine ⟨⟨hslash, fun c hc => (hparts c hc).2.1, hsearch⟩, ?_⟩
  cases path with
  | nil => cases hslash
  | cons first rest =>
    obtain rfl : first = '/' := Option.some.inj hslash
    have htext : pathText ('/' :: rest) = '/' :: rest := by
      refine pathText_of_not_any ?_
      rw [List.any_eq_false]
      intro c hc
      rw [(hparts c hc).2.2]
      decide
    -- no backslash is left, so the split at slashes is the parser's own
    have hsame : rest.splitOnP isSlash = rest.splitOnP (· = '/') := by
      refine splitOnP_congr fun c hc => ?_
      have hne := (hparts c (List.mem_cons_of_mem _ hc)).1
      simp [isSlash, hne]
    intro segment hsegment
    rw [htext, show segments ('/' :: rest) = rest.splitOnP isSlash from rfl, hsame] at hsegment
    refine named_of_decoded (List.all_eq_true.mp hsegments segment ?_)
    rw [List.splitOnP_cons_eq_if_modifyHead]
    exact List.mem_cons_of_mem _ hsegment

end Accepted

/-- The first URL that either entry point requests has the backend's origin.  Through the proxy its
path is under the prefix unless blanks follow the named last segment of the backend URL; through the
initial-page fetch exactly when the appended path returns to every part of the prefix it leaves. -/
theorem requested_under_iff (p : Parser) (backendUrl : List Char) :
    (∀ pathname search target, safePathname pathname = true →
      (search = [] ∨ search.head? = some '?') →
      targetUrl p backendUrl pathname search = .ok target →
      ∃ backend requested, parse p backendUrl = some (.web backend) ∧
        parse p target = some (.web requested) ∧ requested.origin = backend.origin ∧
        (Under (withoutSlash backend.pathname) requested.pathname ↔
          gluedName backendUrl = false)) ∧
    ∀ path target origin, initialTarget p backendUrl path = .ok (target, origin) →
      ∃ backend requested, parse p backendUrl = some (.web backend) ∧
        parse p target = some (.web requested) ∧ requested.origin = backend.origin ∧
        (Under (withoutSlash backend.pathname) requested.pathname ↔
          returns backendUrl path = true) := by
  constructor
  -- Through the proxy every segment is a name, so the path comes back under the prefix as soon as
  -- the backend URL does not glue a name to it.
  · intro pathname search target hsafe hsearch htarget
    obtain ⟨backend, requested, haccepted⟩ := accepted_targetUrl htarget
    obtain ⟨hsuffix, hnamed⟩ := named_of_safePathname hsafe hsearch
    have hread := read_of_parse haccepted.backend_eq
    have hrequested := read_of_parse haccepted.requested_eq
    rw [haccepted.target_eq] at hrequested
    refine ⟨backend, requested, haccepted.backend_eq, haccepted.requested_eq, haccepted.origin, ?_⟩
    rw [under_iff_returns hread haccepted.query haccepted.fragment hsuffix hrequested]
    exact returns_of_named hread haccepted.query haccepted.fragment hsuffix hnamed
  -- The initial page checks no segment: there the condition stays one on the path itself.
  · intro path target origin htarget
    obtain ⟨hsuffix, backend, requested, -, haccepted⟩ := accepted_initialTarget htarget
    have hread := read_of_parse haccepted.backend_eq
    have hrequested := read_of_parse haccepted.requested_eq
    rw [haccepted.target_eq] at hrequested
    exact ⟨backend, requested, haccepted.backend_eq, haccepted.requested_eq, haccepted.origin,
      under_iff_returns hread haccepted.query haccepted.fragment hsuffix hrequested⟩

/-- Authorities that are a host and perhaps a port. -/
def hostParser : Parser where
  authority _ text :=
    if text.all fun c => c.isAlphanum || c = '.' || c = '-' || c = ':' then some { host := text }
    else none
  other _ := true

/-- Through both, `/rooms` is requested under `/prefix`. -/
theorem requested_under_iff_rooms :
    (∃ requested, parse hostParser "https://b.example/prefix/rooms?tag=a".toList =
        some (.web requested) ∧ Under "/prefix".toList requested.pathname) ∧
      ∃ requested, parse hostParser "https://b.example/prefix/rooms".toList =
        some (.web requested) ∧ Under "/prefix".toList requested.pathname := by
  obtain ⟨hproxy, hinitial⟩ := requested_under_iff hostParser "https://b.example/prefix".toList
  obtain ⟨backend, requested, hbackend, hrequested, -, hiff⟩ :=
    hproxy "/rooms".toList "?tag=a".toList _ (by decide) (by decide) rfl
  obtain ⟨backend', requested', hbackend', hrequested', -, hiff'⟩ :=
    hinitial "/rooms".toList _ _ rfl
  have hbegins : ∀ backend, parse hostParser "https://b.example/prefix".toList =
      some (.web backend) → withoutSlash backend.pathname = "/prefix".toList := by
    intro backend h
    cases h
    decide
  rw [hbegins _ hbackend] at hiff
  rw [hbegins _ hbackend'] at hiff'
  exact ⟨⟨requested, hrequested, hiff.mpr (by decide)⟩,
    requested', hrequested', hiff'.mpr (by decide)⟩

/-- The initial-page fetch of `/../admin` leaves the prefix; the proxy refuses the path. -/
theorem initialTarget_leaves_prefix :
    safePathname "/../admin".toList = false ∧
      initialTarget hostParser "https://b.example/prefix".toList "/../admin".toList =
        .ok ("https://b.example/prefix/../admin".toList, "https".toList, "b.example".toList) ∧
      ∃ requested, parse hostParser "https://b.example/prefix/../admin".toList =
        some (.web requested) ∧ requested.pathname = "/admin".toList ∧
          ¬Under "/prefix".toList requested.pathname := by
  refine ⟨by decide, rfl, _, rfl, by decide, ?_⟩
  rintro (h | h)
  · exact absurd h (by decide)
  · exact absurd h (by decide)

end FluxFast.Core
