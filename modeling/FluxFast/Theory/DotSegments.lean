import FluxFast.Theory.WebUrl

/-!
# DotSegments — when a walk over dot segments ends under a prefix

A walk pushes and pops segments.  `Place` follows it relative to a prefix: the part of the prefix it
is in, the part it has left and would have to enter again, segment by segment, and how many other
segments it is below.  The walk ends under the prefix exactly when no part of the prefix is missing.
-/

namespace FluxFast.Theory

namespace WebUrl

/-! ## Moves -/

inductive Move (α : Type) where
  | push (x : α)
  | pop

section Moves

variable {α : Type} [DecidableEq α]

def Move.act (stack : List α) : Move α → List α
  | .push x => stack ++ [x]
  | .pop => stack.dropLast

structure Place (α : Type) where
  kept : List α
  missing : List α := []
  aside : Nat := 0
  deriving DecidableEq

def Place.push (x : α) : Place α → Place α
  | ⟨kept, next :: rest, 0⟩ =>
    if x = next then ⟨kept ++ [x], rest, 0⟩ else ⟨kept, next :: rest, 1⟩
  | ⟨kept, missing, below⟩ => ⟨kept, missing, below + 1⟩

def Place.pop : Place α → Place α
  | ⟨kept, missing, below + 1⟩ => ⟨kept, missing, below⟩
  | ⟨kept, missing, 0⟩ =>
    match kept.getLast? with
    | none => ⟨kept, missing, 0⟩
    | some x => ⟨kept.dropLast, x :: missing, 0⟩

theorem Place.push_whole (x : α) (kept : List α) (below : Nat) :
    Place.push x ⟨kept, [], below⟩ = ⟨kept, [], below + 1⟩ := rfl

theorem Place.push_missing (x next : α) (kept rest : List α) :
    Place.push x ⟨kept, next :: rest, 0⟩ =
      if x = next then ⟨kept ++ [x], rest, 0⟩ else ⟨kept, next :: rest, 1⟩ := rfl

theorem Place.push_aside (x : α) (kept missing : List α) (below : Nat) :
    Place.push x ⟨kept, missing, below + 1⟩ = ⟨kept, missing, below + 2⟩ := by
  cases missing with
  | nil => rfl
  | cons next rest => rfl

def Place.move (at_ : Place α) : Move α → Place α
  | .push x => at_.push x
  | .pop => at_.pop

/-- The place of a stack relative to a prefix. -/
def Place.of : List α → List α → Place α
  | [], stack => { kept := [], aside := stack.length }
  | x :: before, [] => { kept := [], missing := x :: before }
  | x :: before, y :: stack =>
    if x = y then { Place.of before stack with kept := x :: (Place.of before stack).kept }
    else { kept := [], missing := x :: before, aside := (y :: stack).length }

/-- `at_` is the place of `stack` relative to `before`. -/
structure Place.Locates (at_ : Place α) (before stack : List α) : Prop where
  before_eq : before = at_.kept ++ at_.missing
  stack_eq : ∃ extra, stack = at_.kept ++ extra ∧ extra.length = at_.aside ∧
    ∀ x, at_.missing.head? = some x → extra.head? ≠ some x

theorem Place.locates_of (before stack : List α) : (Place.of before stack).Locates before stack := by
  induction before generalizing stack with
  | nil => exact ⟨rfl, stack, rfl, rfl, fun x hx => by cases hx⟩
  | cons x before ih =>
    cases stack with
    | nil => exact ⟨rfl, [], rfl, rfl, fun y _ h => by cases h⟩
    | cons y stack =>
      unfold Place.of
      split
      · next heq =>
        obtain ⟨hbefore, extra, hstack, hlength, hhead⟩ := ih stack
        refine ⟨congrArg (x :: ·) hbefore, extra, ?_, hlength, hhead⟩
        rw [heq]
        exact congrArg (y :: ·) hstack
      · next hne =>
        refine ⟨rfl, y :: stack, rfl, rfl, fun z hz h => hne ?_⟩
        cases hz
        cases h
        rfl

omit [DecidableEq α] in
/-- Under the prefix means that nothing of it is missing. -/
theorem Place.Locates.prefix_iff {at_ : Place α} {before stack : List α}
    (h : at_.Locates before stack) : before <+: stack ↔ at_.missing = [] := by
  obtain ⟨extra, hstack, -, hhead⟩ := h.stack_eq
  rw [h.before_eq, hstack, List.prefix_append_right_inj]
  constructor
  · intro hpre
    cases hmissing : at_.missing with
    | nil => rfl
    | cons x rest =>
      rw [hmissing] at hpre
      obtain ⟨more, hmore⟩ := hpre
      refine absurd ?_ (hhead x (by rw [hmissing]; rfl))
      rw [← hmore]
      rfl
  · intro hnone
    rw [hnone]
    exact List.nil_prefix

theorem Place.Locates.push {at_ : Place α} {before stack : List α} (h : at_.Locates before stack)
    (x : α) : (at_.push x).Locates before (stack ++ [x]) := by
  obtain ⟨kept, missing, aside⟩ := at_
  obtain ⟨hbefore, extra, rfl, hlength, hhead⟩ := h
  cases extra with
  | nil =>
    obtain rfl : aside = 0 := hlength.symm
    cases missing with
    | nil =>
      rw [Place.push_whole]
      exact ⟨hbefore, [x], by simp, rfl, fun y hy => by cases hy⟩
    | cons next rest =>
      rw [Place.push_missing]
      split
      · next heq =>
        subst heq
        exact ⟨by rw [hbefore]; simp, [], by simp, rfl, fun y _ h => by cases h⟩
      · next hne =>
        refine ⟨hbefore, [x], by simp, rfl, fun y hy h => hne ?_⟩
        cases hy
        cases h
        rfl
  | cons first others =>
    obtain rfl : aside = others.length + 1 := hlength.symm
    rw [Place.push_aside]
    exact ⟨hbefore, first :: others ++ [x], by simp, by simp, hhead⟩

omit [DecidableEq α] in
theorem Place.Locates.pop {at_ : Place α} {before stack : List α} (h : at_.Locates before stack) :
    at_.pop.Locates before stack.dropLast := by
  obtain ⟨kept, missing, aside⟩ := at_
  obtain ⟨hbefore, extra, rfl, hlength, hhead⟩ := h
  induction extra using List.reverseRecOn with
  | nil =>
    cases hlength
    unfold Place.pop
    dsimp only at hbefore ⊢
    induction kept using List.reverseRecOn with
    | nil => exact ⟨hbefore, [], rfl, rfl, fun y _ h => by cases h⟩
    | append_singleton others last =>
      simp only [List.getLast?_append, List.getLast?_singleton, Option.some_or]
      refine ⟨by rw [hbefore]; simp, [], by simp, rfl, fun y _ h => by cases h⟩
  | append_singleton others last =>
    rw [List.length_append] at hlength
    cases hlength
    refine ⟨hbefore, others, by rw [← List.append_assoc, List.dropLast_concat]; rfl, rfl,
      fun y hy h => ?_⟩
    refine hhead y hy ?_
    rw [List.head?_append, h]
    rfl

theorem Place.Locates.move {at_ : Place α} {before stack : List α} (h : at_.Locates before stack)
    (m : Move α) : (at_.move m).Locates before (m.act stack) := by
  cases m with
  | push x => exact h.push x
  | pop => exact h.pop

theorem Place.Locates.moves {at_ : Place α} {before stack : List α} (h : at_.Locates before stack)
    (ms : List (Move α)) :
    (ms.foldl Place.move at_).Locates before (ms.foldl Move.act stack) := by
  induction ms generalizing at_ stack with
  | nil => exact h
  | cons m ms ih => exact ih (h.move m)

/-- Pushing alone never enters a part of the prefix that is missing beside other segments. -/
theorem Place.missing_pushes {at_ : Place α} (h : at_.missing = [] ∨ at_.aside ≠ 0)
    (ms : List (Move α)) (hms : ∀ m ∈ ms, ∃ x, m = .push x) :
    (ms.foldl Place.move at_).missing = at_.missing := by
  induction ms generalizing at_ with
  | nil => rfl
  | cons m ms ih =>
    obtain ⟨x, rfl⟩ := hms m List.mem_cons_self
    have hstep : (at_.push x).missing = at_.missing ∧ (at_.push x).aside ≠ 0 := by
      obtain ⟨kept, missing, aside⟩ := at_
      cases aside with
      | zero =>
        obtain rfl : missing = [] := h.resolve_right fun h => h rfl
        exact ⟨rfl, Nat.succ_ne_zero _⟩
      | succ below =>
        rw [Place.push_aside]
        exact ⟨rfl, Nat.succ_ne_zero _⟩
    show (ms.foldl Place.move (at_.push x)).missing = _
    rw [ih (.inr hstep.2) fun m hm => hms m (List.mem_cons_of_mem _ hm)]
    exact hstep.1

end Moves

/-! ## Segments as moves -/

section Segments

variable {stack before path : List (List Char)} {segment : List Char}

def named (segment : List Char) : Bool := !doubleDot segment && !singleDot segment

def enterMoves (segment : List Char) : List (Move (List Char)) :=
  if doubleDot segment then [.pop]
  else if singleDot segment then []
  else [.push (encodeSegment segment)]

def finishMoves (segment : List Char) : List (Move (List Char)) :=
  if doubleDot segment then [.pop, .push []]
  else if singleDot segment then [.push []]
  else [.push (encodeSegment segment)]

/-- The moves of a path, from its raw segments. -/
def moves : List (List Char) → List (Move (List Char))
  | [] => []
  | [last] => finishMoves last
  | segment :: next :: rest => enterMoves segment ++ moves (next :: rest)

theorem enter_eq_foldl (stack : List (List Char)) (segment : List Char) :
    enter stack segment = (enterMoves segment).foldl Move.act stack := by
  unfold enter enterMoves
  split
  · rfl
  · split
    · rfl
    · rfl

theorem finish_eq_foldl (stack : List (List Char)) (segment : List Char) :
    finish stack segment = (finishMoves segment).foldl Move.act stack := by
  unfold finish finishMoves
  split
  · rfl
  · split
    · rfl
    · rfl

theorem walk_eq_foldl (raw : List (List Char)) (stack : List (List Char)) :
    walk stack raw = (moves raw).foldl Move.act stack := by
  induction raw using moves.induct generalizing stack with
  | case1 => rfl
  | case2 last => exact finish_eq_foldl stack last
  | case3 segment next rest ih =>
    unfold walk moves
    rw [List.foldl_append, ← enter_eq_foldl, ← ih]

theorem moves_of_named {raw : List (List Char)} (h : ∀ segment ∈ raw, named segment = true) :
    ∀ m ∈ moves raw, ∃ x, m = .push x := by
  have hnamed : ∀ {segment}, named segment = true →
      doubleDot segment = false ∧ singleDot segment = false := by
    intro segment hsegment
    simpa [named] using hsegment
  induction raw using moves.induct with
  | case1 =>
    intro m hm
    cases hm
  | case2 last =>
    obtain ⟨hdouble, hsingle⟩ := hnamed (h last List.mem_cons_self)
    intro m hm
    unfold moves finishMoves at hm
    rw [hdouble, hsingle] at hm
    exact ⟨_, List.mem_singleton.mp hm⟩
  | case3 segment next rest ih =>
    obtain ⟨hdouble, hsingle⟩ := hnamed (h segment List.mem_cons_self)
    intro m hm
    unfold moves enterMoves at hm
    rw [hdouble, hsingle] at hm
    rcases List.mem_append.mp hm with hfirst | hrest
    · exact ⟨_, List.mem_singleton.mp hfirst⟩
    · exact ih (fun s hs => h s (List.mem_cons_of_mem _ hs)) m hrest

theorem walk_append {raw after : List (List Char)} (hafter : after ≠ []) :
    walk stack (raw ++ after) = walk (raw.foldl enter stack) after := by
  induction raw generalizing stack with
  | nil => rfl
  | cons segment raw ih =>
    cases hrest : raw ++ after with
    | nil => exact absurd (List.append_eq_nil_iff.mp hrest).2 hafter
    | cons next rest =>
      rw [List.cons_append, hrest]
      show walk (enter stack segment) (next :: rest) = _
      rw [← hrest, ih]
      rfl

theorem encodeSegment_append (a b : List Char) :
    encodeSegment (a ++ b) = encodeSegment a ++ encodeSegment b := by
  unfold encodeSegment
  rw [String.ofList_append, PercentEncoding.toList_encode_append]

theorem encodeSegment_ne_nil (h : segment ≠ []) : encodeSegment segment ≠ [] := by
  intro hnil
  have hempty := PercentEncoding.eq_empty_of_encode hnil
  apply h
  have hlist := congrArg String.toList hempty
  rwa [String.toList_ofList] at hlist

theorem slash_not_mem_encodeSegment (segment : List Char) : '/' ∉ encodeSegment segment :=
  PercentEncoding.not_mem_encode (by decide) (by decide) (by decide) _

/-- No segment of a walk holds a slash. -/
def SlashFree (path : List (List Char)) : Prop := ∀ segment ∈ path, '/' ∉ segment

theorem SlashFree.push (h : SlashFree path) (hsegment : '/' ∉ segment) :
    SlashFree (path ++ [segment]) := by
  intro s hs
  rcases List.mem_append.mp hs with hs | hs
  · exact h s hs
  · rw [List.mem_singleton.mp hs]
    exact hsegment

theorem SlashFree.dropLast (h : SlashFree path) : SlashFree path.dropLast :=
  fun s hs => h s (List.dropLast_subset _ hs)

theorem SlashFree.enter (h : SlashFree stack) (segment : List Char) :
    SlashFree (enter stack segment) := by
  unfold WebUrl.enter
  split
  · exact h.dropLast
  · split
    · exact h
    · exact h.push (slash_not_mem_encodeSegment segment)

theorem SlashFree.finish (h : SlashFree stack) (segment : List Char) :
    SlashFree (finish stack segment) := by
  unfold WebUrl.finish
  split
  · exact h.dropLast.push List.not_mem_nil
  · split
    · exact h.push List.not_mem_nil
    · exact h.push (slash_not_mem_encodeSegment segment)

theorem SlashFree.walk (h : SlashFree stack) (raw : List (List Char)) :
    SlashFree (walk stack raw) := by
  induction raw using moves.induct generalizing stack with
  | case1 => exact h
  | case2 last => exact h.finish last
  | case3 segment next rest ih => exact ih (h.enter segment)

/-! ## Under a prefix -/

/-- The text of a path. -/
def join (path : List (List Char)) : List Char := path.flatMap fun segment => '/' :: segment

theorem join_append (a b : List (List Char)) : join (a ++ b) = join a ++ join b :=
  List.flatMap_append

/-- The path is the prefix, or goes on after it with a slash. -/
def Under (before path : List Char) : Prop := path = before ∨ before ++ ['/'] <+: path

theorem join_head (path : List (List Char)) : join path = [] ∨ ∃ rest, join path = '/' :: rest := by
  cases path with
  | nil => exact .inl rfl
  | cons segment rest => exact .inr ⟨_, rfl⟩

/-- The first segment can be read back from the text of a path. -/
theorem segment_append_inj {a b x y : List Char} (ha : '/' ∉ a) (hb : '/' ∉ b)
    (hx : x = [] ∨ ∃ rest, x = '/' :: rest) (hy : y = [] ∨ ∃ rest, y = '/' :: rest)
    (h : a ++ x = b ++ y) : a = b ∧ x = y := by
  rcases hx with rfl | ⟨x, rfl⟩
  · rcases hy with rfl | ⟨y, rfl⟩
    · exact ⟨by simpa using h, rfl⟩
    · rw [List.append_nil] at h
      exact absurd (by rw [h]; simp) ha
  · rcases hy with rfl | ⟨y, rfl⟩
    · rw [List.append_nil] at h
      exact absurd (by rw [← h]; simp) hb
    · obtain ⟨hsame, hrest⟩ := PercentEncoding.append_separator_inj ha hb h
      exact ⟨hsame, by rw [hrest]⟩

theorem under_join_iff (hbefore : SlashFree before) (hpath : SlashFree path) :
    Under (join before) (join path) ↔ before <+: path := by
  -- induction on the shorter path, together with the first segment of the longer one
  induction before generalizing path with
  | nil =>
    refine iff_of_true ?_ List.nil_prefix
    rcases join_head path with hnil | ⟨rest, hrest⟩
    · exact .inl hnil
    · exact .inr ⟨rest, hrest.symm⟩
  | cons segment before ih =>
    cases path with
    | nil =>
      refine iff_of_false ?_ (by simp)
      rintro (h | h)
      · cases h
      · exact absurd (List.prefix_nil.mp h) (by simp)
    | cons first path =>
      have hsegment := hbefore segment List.mem_cons_self
      have hfirst := hpath first List.mem_cons_self
      have hrest : Under (join before) (join path) ↔ before <+: path :=
        ih (fun s hs => hbefore s (List.mem_cons_of_mem _ hs))
          fun s hs => hpath s (List.mem_cons_of_mem _ hs)
      rw [List.cons_prefix_cons, ← hrest]
      constructor
      -- a segment holds no slash, so equal texts have equal first segments
      · rintro (h | ⟨more, h⟩)
        · obtain ⟨hsame, htext⟩ := segment_append_inj hfirst hsegment (join_head path)
            (join_head before) (List.cons.inj h).2
          exact ⟨hsame.symm, .inl htext⟩
        · have htext : segment ++ (join before ++ ['/'] ++ more) = first ++ join path := by
            have htail : segment ++ join before ++ ['/'] ++ more = first ++ join path :=
              (List.cons.inj h).2
            rw [← htail]
            simp only [List.append_assoc]
          have hhead : join before ++ ['/'] ++ more = [] ∨
              ∃ rest, join before ++ ['/'] ++ more = '/' :: rest := by
            rcases join_head before with hnil | ⟨rest, hrest⟩
            · exact .inr ⟨more, by rw [hnil]; rfl⟩
            · exact .inr ⟨rest ++ ['/'] ++ more, by rw [hrest]; rfl⟩
          obtain ⟨hsame, hmore⟩ := segment_append_inj hsegment hfirst hhead (join_head path) htext
          exact ⟨hsame, .inr ⟨more, hmore⟩⟩
      · rintro ⟨rfl, h | ⟨more, h⟩⟩
        · exact .inl (by show '/' :: (segment ++ join path) = _; rw [h]; rfl)
        · refine .inr ⟨more, ?_⟩
          show '/' :: (segment ++ join before) ++ ['/'] ++ more = '/' :: (segment ++ join path)
          rw [← h]
          simp

/-! ## The prefix that a URL names -/

/-- The segments of a path without the empty one that a slash at its end leaves. -/
def withoutEmpty (path : List (List Char)) : List (List Char) :=
  if path.getLast? = some [] then path.dropLast else path

theorem SlashFree.withoutEmpty (h : SlashFree path) : SlashFree (withoutEmpty path) := by
  unfold WebUrl.withoutEmpty
  split
  · exact h.dropLast
  · exact h

theorem withoutSlash_join (h : SlashFree path) : withoutSlash (join path) = join (withoutEmpty path) := by
  induction path using List.reverseRecOn with
  | nil => rfl
  | append_singleton before last ih =>
    unfold withoutEmpty
    rw [List.getLast?_append, List.getLast?_singleton, Option.some_or, List.dropLast_concat,
      join_append]
    by_cases hlast : last = []
    · subst hlast
      rw [if_pos rfl]
      unfold withoutSlash
      rw [if_pos (by simp [join])]
      exact List.dropLast_concat
    · have hne : ¬some last = some ([] : List Char) := fun h => hlast (Option.some.inj h)
      rw [if_neg hne]
      unfold withoutSlash
      rw [if_neg, join_append]
      intro hslash
      have hmem : '/' ∈ last := by
        have hend : join [last] = '/' :: last := by simp [join]
        rw [hend, List.getLast?_append, List.getLast?_cons, List.getLast?_eq_some_getLast hlast]
          at hslash
        rw [← Option.some.inj hslash]
        exact List.getLast_mem hlast
      exact h last (by simp) hmem

end Segments

end WebUrl

end FluxFast.Theory
