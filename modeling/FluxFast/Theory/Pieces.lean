import Mathlib.Data.List.Chain
import Mathlib.Data.List.Infix

/-!
# Pieces — searching a list and splitting it at a separator

`indexOf` and `lastIndexOf` find the first and the last place of a needle.  A list is `Apart` when
no two of its separators are adjacent; such a list is its non-empty pieces joined by the separator,
up to a separator at one end.
-/

namespace FluxFast.Theory

variable {α : Type*}

/-! ## Searching -/

section Search

variable [DecidableEq α]

def indexOf (needle : List α) : List α → Option Nat
  | [] => if needle = [] then some 0 else none
  | x :: xs =>
    if needle.isPrefixOf (x :: xs) then some 0 else (indexOf needle xs).map (· + 1)

def lastIndexOf (needle : List α) : List α → Option Nat
  | [] => if needle = [] then some 0 else none
  | x :: xs =>
    match lastIndexOf needle xs with
    | some i => some (i + 1)
    | none => if needle.isPrefixOf (x :: xs) then some 0 else none

variable {needle s front back : List α} {i : Nat}

theorem indexOf_eq_none_iff (hne : needle ≠ []) :
    indexOf needle s = none ↔ ¬ needle <:+: s := by
  induction s with
  | nil => simp [indexOf, hne]
  | cons x xs ih =>
    rw [indexOf, List.infix_cons_iff, not_or, ← ih, ← List.isPrefixOf_iff_prefix]
    by_cases hp : needle.isPrefixOf (x :: xs) = true
    · simp [hp]
    · simp [hp]

theorem lastIndexOf_eq_none_iff (hne : needle ≠ []) :
    lastIndexOf needle s = none ↔ ¬ needle <:+: s := by
  induction s with
  | nil => simp [lastIndexOf, hne]
  | cons x xs ih =>
    rw [lastIndexOf, List.infix_cons_iff, not_or, ← ih, ← List.isPrefixOf_iff_prefix]
    cases hlast : lastIndexOf needle xs with
    | some i => simp
    | none =>
      by_cases hp : needle.isPrefixOf (x :: xs) = true
      · simp [hp]
      · simp [hp]

/-- The first place has no other before it. -/
theorem indexOf_append (hne : needle ≠ []) (hfirst : ¬ needle <:+: (front ++ needle).dropLast) :
    indexOf needle (front ++ needle ++ back) = some front.length := by
  induction front with
  | nil =>
    obtain ⟨y, ys, rfl⟩ := List.exists_cons_of_ne_nil hne
    rw [List.nil_append, List.cons_append, indexOf, if_pos]
    · rfl
    · exact List.isPrefixOf_iff_prefix.mpr ⟨back, rfl⟩
  | cons x front ih =>
    have hlater : ¬ needle <:+: (front ++ needle).dropLast := by
      intro h
      apply hfirst
      rw [List.cons_append, List.dropLast_cons_of_ne_nil (by simp [hne])]
      exact h.trans (List.suffix_cons ..).isInfix
    have hhere : needle.isPrefixOf (x :: (front ++ needle ++ back)) = false := by
      rw [← Bool.not_eq_true, List.isPrefixOf_iff_prefix]
      intro hp
      apply hfirst
      -- the needle fits in front of the last element, so it begins the shorter list too
      apply List.IsPrefix.isInfix
      have hwhole : (x :: front ++ needle).dropLast <+: x :: (front ++ needle ++ back) :=
        (List.dropLast_prefix _).trans ⟨back, by simp⟩
      refine List.prefix_of_prefix_length_le hp hwhole ?_
      simp
    rw [List.cons_append, List.cons_append, indexOf, hhere, ih hlater]
    simp

/-- The last place has no other after it. -/
theorem lastIndexOf_append (hne : needle ≠ []) (hlast : ¬ needle <:+: (needle ++ back).tail) :
    lastIndexOf needle (front ++ needle ++ back) = some front.length := by
  induction front with
  | nil =>
    obtain ⟨y, ys, rfl⟩ := List.exists_cons_of_ne_nil hne
    have hnone := (lastIndexOf_eq_none_iff hne).mpr hlast
    rw [List.cons_append, List.tail_cons] at hnone
    rw [List.nil_append, List.cons_append, lastIndexOf, hnone]
    dsimp only
    rw [if_pos]
    · rfl
    · exact List.isPrefixOf_iff_prefix.mpr ⟨back, rfl⟩
  | cons x front ih =>
    rw [List.cons_append, List.cons_append, lastIndexOf, ih]
    rfl

theorem indexOf_eq_some (hne : needle ≠ []) (h : indexOf needle s = some i) :
    ∃ front back, s = front ++ needle ++ back ∧ front.length = i ∧
      ¬ needle <:+: (front ++ needle).dropLast := by
  induction s generalizing i with
  | nil => simp [indexOf, hne] at h
  | cons x xs ih =>
    rw [indexOf] at h
    split at h
    · next hp =>
      obtain ⟨back, hback⟩ := List.isPrefixOf_iff_prefix.mp hp
      refine ⟨[], back, hback.symm, Option.some.inj h, fun hinside => ?_⟩
      have hlength := hinside.length_le
      have hpos := List.length_pos_of_ne_nil hne
      simp only [List.nil_append, List.length_dropLast] at hlength
      omega
    · next hp =>
      obtain ⟨j, hj, rfl⟩ := Option.map_eq_some_iff.mp h
      obtain ⟨front, back, rfl, rfl, hfirst⟩ := ih hj
      refine ⟨x :: front, back, rfl, rfl, ?_⟩
      rw [List.cons_append, List.dropLast_cons_of_ne_nil (by simp [hne]), List.infix_cons_iff]
      rintro (hhead | hlater)
      · apply hp
        apply List.isPrefixOf_iff_prefix.mpr
        refine hhead.trans ((List.prefix_cons_inj x).mpr ?_)
        exact (List.dropLast_prefix _).trans ⟨back, rfl⟩
      · exact hfirst hlater

theorem lastIndexOf_eq_some (hne : needle ≠ []) (h : lastIndexOf needle s = some i) :
    ∃ front back, s = front ++ needle ++ back ∧ front.length = i ∧
      ¬ needle <:+: (needle ++ back).tail := by
  induction s generalizing i with
  | nil => simp [lastIndexOf, hne] at h
  | cons x xs ih =>
    rw [lastIndexOf] at h
    cases hrest : lastIndexOf needle xs with
    | some j =>
      rw [hrest] at h
      obtain ⟨front, back, rfl, rfl, hlast⟩ := ih hrest
      exact ⟨x :: front, back, rfl, Option.some.inj h, hlast⟩
    | none =>
      rw [hrest] at h
      dsimp only at h
      split at h
      · next hp =>
        obtain ⟨back, hback⟩ := List.isPrefixOf_iff_prefix.mp hp
        refine ⟨[], back, hback.symm, Option.some.inj h, ?_⟩
        rw [hback, List.tail_cons]
        exact (lastIndexOf_eq_none_iff hne).mp hrest
      · cases h

end Search

/-! ## Lists whose separators stand apart -/

variable {sep : α} {s t p : List α} {ps qs : List (List α)}

/-- No two separators are adjacent. -/
def Apart (sep : α) (s : List α) : Prop := s.IsChain fun a b => ¬ (a = sep ∧ b = sep)

theorem apart_iff : Apart sep s ↔ ¬ [sep, sep] <:+: s := by
  rw [Apart, List.isChain_iff_forall_rel_of_append_cons_cons]
  constructor
  · rintro h ⟨front, back, rfl⟩
    have hsplit : front ++ [sep, sep] ++ back = front ++ sep :: sep :: back := by simp
    exact h hsplit ⟨rfl, rfl⟩
  · rintro h a b front back rfl ⟨rfl, rfl⟩
    exact h ⟨front, back, by simp⟩

/-- The pieces joined by the separator. -/
def join (sep : α) (ps : List (List α)) : List α := [sep].intercalate ps

@[simp] theorem join_nil : join sep [] = [] := rfl

@[simp] theorem join_singleton (p : List α) : join sep [p] = p := List.intercalate_singleton

theorem join_append (hps : ps ≠ []) (hqs : qs ≠ []) :
    join sep (ps ++ qs) = join sep ps ++ sep :: join sep qs := by
  induction ps with
  | nil => exact absurd rfl hps
  | cons p ps ih =>
    cases ps with
    | nil =>
      rw [List.singleton_append, join, List.intercalate_cons_of_ne_nil hqs]
      simp [join]
    | cons p' ps =>
      rw [List.cons_append, join, List.intercalate_cons_of_ne_nil (by simp),
        show [sep].intercalate (p' :: ps ++ qs) = _ from ih (by simp)]
      simp [join]

theorem join_cons (p : List α) (hqs : qs ≠ []) :
    join sep (p :: qs) = p ++ sep :: join sep qs := by
  rw [← List.singleton_append, join_append (by simp) hqs, join_singleton]

theorem join_concat (hps : ps ≠ []) (p : List α) :
    join sep (ps ++ [p]) = join sep ps ++ sep :: p := by
  rw [join_append hps (by simp), join_singleton]

/-- Proper pieces: none is empty, and none has a separator in it. -/
def Proper (sep : α) (ps : List (List α)) : Prop := ∀ p ∈ ps, p ≠ [] ∧ sep ∉ p

theorem apart_of_not_mem (h : sep ∉ p) : Apart sep p :=
  apart_iff.mpr fun hinside => h (hinside.subset (by simp))

/-- Proper pieces keep the separators around and between them apart. -/
theorem apart_around (h : Proper sep ps) (hps : ps ≠ []) :
    Apart sep (sep :: (join sep ps ++ [sep])) := by
  induction ps with
  | nil => exact absurd rfl hps
  | cons p ps ih =>
    obtain ⟨hne, hnot⟩ := h p (by simp)
    have hfirst : Apart sep (sep :: (p ++ [sep])) := by
      obtain ⟨x, xs, rfl⟩ := List.exists_cons_of_ne_nil hne
      refine List.IsChain.cons_cons (fun hx => hnot (by simp [hx.2])) ?_
      show List.IsChain _ ((x :: xs) ++ [sep])
      refine List.isChain_append.mpr ⟨apart_of_not_mem hnot, List.IsChain.singleton sep, fun y hy _ _ hboth => ?_⟩
      exact hnot (hboth.1 ▸ List.mem_of_mem_getLast? hy)
    cases ps with
    | nil => simpa using hfirst
    | cons q ps =>
      have hlater := ih (fun r hr => h r (List.mem_cons_of_mem _ hr)) (by simp)
      rw [join_cons p (by simp), List.append_assoc, List.cons_append]
      exact List.isChain_cons_split.mpr ⟨hfirst, hlater⟩

theorem apart_cons_join (h : Proper sep ps) : Apart sep (sep :: join sep ps) := by
  cases ps with
  | nil => exact List.IsChain.singleton sep
  | cons p ps =>
    have haround := apart_around h (by simp)
    rw [← List.cons_append] at haround
    exact haround.left_of_append

theorem apart_join_concat (h : Proper sep ps) : Apart sep (join sep ps ++ [sep]) := by
  cases ps with
  | nil => exact List.IsChain.singleton sep
  | cons p ps => exact (apart_around h (by simp)).tail

/-! ## A separator at one end -/

/-- The joined pieces, or these after a separator. -/
def Front (sep : α) (ps : List (List α)) (s : List α) : Prop :=
  s = join sep ps ∨ (ps ≠ [] ∧ s = sep :: join sep ps)

/-- The joined pieces, or these before a separator. -/
def Back (sep : α) (ps : List (List α)) (s : List α) : Prop :=
  s = join sep ps ∨ (ps ≠ [] ∧ s = join sep ps ++ [sep])

theorem Front.apart (hs : Front sep ps s) (h : Proper sep ps) : Apart sep (s ++ [sep]) := by
  rcases hs with rfl | ⟨hps, rfl⟩
  · exact apart_join_concat h
  · exact apart_around h hps

theorem Back.apart (hs : Back sep ps s) (h : Proper sep ps) : Apart sep (sep :: s) := by
  rcases hs with rfl | ⟨hps, rfl⟩
  · exact apart_cons_join h
  · exact apart_around h hps

/-- The joined pieces begin with no separator. -/
theorem not_cons_join (h : Proper sep ps) : join sep ps ≠ sep :: t := by
  intro heq
  have happart := apart_cons_join h
  rw [heq] at happart
  exact happart.rel ⟨rfl, rfl⟩

/-- The joined pieces end with no separator. -/
theorem not_concat_join (h : Proper sep ps) : join sep ps ≠ t ++ [sep] := by
  intro heq
  apply apart_iff.mp (apart_join_concat h)
  rw [heq]
  exact ⟨t, [], by simp⟩

theorem join_ne_nil (h : Proper sep ps) (hps : ps ≠ []) : join sep ps ≠ [] := by
  obtain ⟨p, rest, rfl⟩ := List.exists_cons_of_ne_nil hps
  have hp := (h p (by simp)).1
  cases rest with
  | nil => simpa using hp
  | cons q rest => simp [join_cons p (by simp : q :: rest ≠ [])]

theorem mem_join {x : α} : x ∈ join sep ps → x = sep ∨ ∃ p ∈ ps, x ∈ p := by
  induction ps with
  | nil => simp
  | cons p ps ih =>
    intro hx
    cases ps with
    | nil => exact .inr ⟨p, by simp, by simpa using hx⟩
    | cons q ps =>
      rw [join_cons p (by simp), List.mem_append, List.mem_cons] at hx
      rcases hx with hx | rfl | hx
      · exact .inr ⟨p, by simp, hx⟩
      · exact .inl rfl
      · rcases ih hx with rfl | ⟨r, hr, hxr⟩
        · exact .inl rfl
        · exact .inr ⟨r, List.mem_cons_of_mem _ hr, hxr⟩

/-! ## Splitting -/

variable [DecidableEq α]

/-- `s.split(sep).filter(Boolean)`. -/
def pieces (sep : α) (s : List α) : List (List α) := (s.splitOn sep).filter fun p => p ≠ []

theorem pieces_append (s t : List α) :
    pieces sep (s ++ sep :: t) = pieces sep s ++ pieces sep t := by
  rw [pieces, List.splitOn_append_cons_self, List.filter_append]
  rfl

theorem pieces_nil : pieces sep [] = [] := by
  simp [pieces, List.splitOn_nil]

theorem pieces_cons (s : List α) : pieces sep (sep :: s) = pieces sep s := by
  rw [← List.nil_append (sep :: s), pieces_append, pieces_nil, List.nil_append]

theorem pieces_concat (s : List α) : pieces sep (s ++ [sep]) = pieces sep s := by
  rw [pieces_append, pieces_nil, List.append_nil]

theorem splitOn_join (h : Proper sep ps) (hps : ps ≠ []) : (join sep ps).splitOn sep = ps :=
  List.splitOn_intercalate sep (fun l hl => (h l hl).2) hps

theorem pieces_join (h : Proper sep ps) : pieces sep (join sep ps) = ps := by
  cases ps with
  | nil => exact pieces_nil
  | cons p ps =>
    rw [pieces, splitOn_join h (by simp)]
    exact List.filter_eq_self.mpr fun l hl => by simpa using (h l hl).1

theorem join_splitOn (s : List α) : join sep (s.splitOn sep) = s :=
  List.intercalate_splitOn sep

theorem Front.pieces_eq (hs : Front sep ps s) (h : Proper sep ps) : pieces sep s = ps := by
  rcases hs with rfl | ⟨-, rfl⟩
  · exact pieces_join h
  · rw [pieces_cons, pieces_join h]

theorem Back.pieces_eq (hs : Back sep ps s) (h : Proper sep ps) : pieces sep s = ps := by
  rcases hs with rfl | ⟨-, rfl⟩
  · exact pieces_join h
  · rw [pieces_concat, pieces_join h]

/-- Where no separator stands before another or at the end, only the first piece can be empty. -/
theorem front_pieces (h : Apart sep (s ++ [sep])) : Front sep (pieces sep s) s := by
  obtain ⟨p, rest, hsplit⟩ := List.exists_cons_of_ne_nil (List.splitOn_ne_nil sep s)
  have hs : join sep (p :: rest) = s := hsplit ▸ join_splitOn s
  -- an empty piece after the first would put two separators side by side
  have hrest : ∀ q ∈ rest, q ≠ [] := by
    rintro q hq rfl
    obtain ⟨front, back, rfl⟩ := List.append_of_mem hq
    apply apart_iff.mp h
    rw [← hs, ← List.cons_append, join_append (by simp) (by simp)]
    cases back with
    | nil => exact ⟨join sep (p :: front), [], by simp⟩
    | cons b back =>
      rw [join_cons [] (by simp)]
      exact ⟨join sep (p :: front), join sep (b :: back) ++ [sep], by simp⟩
  have hfilter : rest.filter (fun q => q ≠ []) = rest :=
    List.filter_eq_self.mpr fun q hq => by simpa using hrest q hq
  have hpieces : pieces sep s = if p = [] then rest else p :: rest := by
    rw [pieces, hsplit, List.filter_cons, hfilter]
    by_cases hp : p = []
    · simp [hp]
    · simp [hp]
  -- the first piece is empty when the text starts with the separator
  by_cases hp : p = []
  · rw [if_pos hp] at hpieces
    cases rest with
    | nil =>
      left
      rw [hpieces, ← hs, hp]
      rfl
    | cons q rest =>
      right
      rw [hpieces]
      refine ⟨by simp, ?_⟩
      rw [← hs, hp, join_cons [] (by simp), List.nil_append]
  · rw [if_neg hp] at hpieces
    left
    rw [hpieces, hs]

/-- Where no separator stands after another or at the start, only the last piece can be empty. -/
theorem back_pieces (h : Apart sep (sep :: s)) : Back sep (pieces sep s) s := by
  obtain ⟨rest, p, hsplit⟩ := List.eq_nil_or_concat' (s.splitOn sep) |>.resolve_left
    (List.splitOn_ne_nil sep s)
  have hs : join sep (rest ++ [p]) = s := hsplit ▸ join_splitOn s
  -- an empty piece before the last would put two separators side by side
  have hrest : ∀ q ∈ rest, q ≠ [] := by
    rintro q hq rfl
    obtain ⟨front, back, rfl⟩ := List.append_of_mem hq
    apply apart_iff.mp h
    have htail : join sep ([] :: (back ++ [p])) = sep :: join sep (back ++ [p]) :=
      join_cons [] (by simp)
    rw [← hs, List.append_assoc, List.cons_append]
    generalize back ++ [p] = back at htail
    cases front with
    | nil =>
      rw [List.nil_append, htail]
      exact ⟨[], join sep back, rfl⟩
    | cons f front =>
      rw [join_append (by simp) (by simp), htail]
      exact ⟨sep :: join sep (f :: front), join sep back, by simp⟩
  have hfilter : rest.filter (fun q => q ≠ []) = rest :=
    List.filter_eq_self.mpr fun q hq => by simpa using hrest q hq
  have hpieces : pieces sep s = if p = [] then rest else rest ++ [p] := by
    rw [pieces, hsplit, List.filter_append, hfilter]
    by_cases hp : p = []
    · simp [hp]
    · simp [hp]
  -- the last piece is empty when the text ends with the separator
  by_cases hp : p = []
  · rw [if_pos hp] at hpieces
    cases rest with
    | nil =>
      left
      rw [hpieces, ← hs, hp]
      rfl
    | cons q rest =>
      right
      rw [hpieces]
      refine ⟨by simp, ?_⟩
      rw [← hs, hp, join_concat (by simp)]
  · rw [if_neg hp] at hpieces
    left
    rw [hpieces, hs]

end FluxFast.Theory
