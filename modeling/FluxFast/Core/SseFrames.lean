import FluxFast.Core.SseParser

/-!
# SseFrames — the frames of a buffer

The separators are found alike whether a text is there as a whole or arrives in parts.
-/

namespace FluxFast.Core

open FluxFast.Theory

/-! ## Separators -/

def separators : List (List Char) := [['\r', '\n', '\r', '\n'], ['\n', '\n'], ['\r', '\r']]

theorem separatorAt_eq_some {text : List Char} {n : Nat} (h : separatorAt text = some n) :
    ∃ sep ∈ separators, ∃ rest, sep.length = n ∧ text = sep ++ rest := by
  unfold separatorAt at h
  split at h <;> cases h
  · exact ⟨_, List.mem_cons_self, _, rfl, rfl⟩
  · exact ⟨_, List.mem_cons_of_mem _ List.mem_cons_self, _, rfl, rfl⟩
  · exact ⟨_, List.mem_cons_of_mem _ (List.mem_cons_of_mem _ List.mem_cons_self), _, rfl, rfl⟩

theorem separatorAt_separator {sep : List Char} (h : sep ∈ separators) (rest : List Char) :
    separatorAt (sep ++ rest) = some sep.length := by
  simp only [separators, List.mem_cons, List.not_mem_nil, or_false] at h
  rcases h with rfl | rfl | rfl <;> rfl

/-- A separator ends in two characters that no malformed sequence stands for. -/
theorem separator_ends {sep : List Char} (h : sep ∈ separators) :
    ∃ before y x, sep = before ++ [y, x] ∧ sep.dropLast = before ++ [y] ∧ y ≠ replacement ∧
      x ≠ replacement := by
  simp only [separators, List.mem_cons, List.not_mem_nil, or_false] at h
  rcases h with rfl | rfl | rfl
  · exact ⟨['\r', '\n'], '\r', '\n', rfl, rfl, by decide, by decide⟩
  · exact ⟨[], '\n', '\n', rfl, rfl, by decide, by decide⟩
  · exact ⟨[], '\r', '\r', rfl, rfl, by decide, by decide⟩

theorem separatorAt_append {text : List Char} {n : Nat} (h : separatorAt text = some n)
    (more : List Char) : separatorAt (text ++ more) = some n := by
  obtain ⟨sep, hsep, rest, rfl, rfl⟩ := separatorAt_eq_some h
  rw [List.append_assoc]
  exact separatorAt_separator hsep _

/-- A separator that only more text completes leaves none behind its first character. -/
theorem separatorAt_append_none {c : Char} {text : List Char} (hnone : separatorAt (c :: text) = none)
    (hlater : (findSeparator text).isSome = true) (more : List Char) :
    separatorAt (c :: text ++ more) = none := by
  cases h : separatorAt (c :: text ++ more) with
  | none => rfl
  | some n =>
    -- A separator that appears only with what follows would have to begin with the whole text,
    -- which then holds no separator later on.
    exfalso
    obtain ⟨sep, hsep, rest, -, heq⟩ := separatorAt_eq_some h
    have hbegins : c :: text <+: sep := by
      rcases List.prefix_or_prefix_of_prefix (List.prefix_append (c :: text) more)
        (heq ▸ List.prefix_append sep rest) with hp | hp
      · exact hp
      · obtain ⟨rest', hrest⟩ := hp
        rw [← hrest, separatorAt_separator hsep] at hnone
        cases hnone
    simp only [separators, List.mem_cons, List.not_mem_nil, or_false] at hsep
    rcases hsep with rfl | rfl | rfl
    -- one case for each text that is shorter than the separator
    · match text, hbegins with
      | [], _ => exact absurd hlater (by decide)
      | [_], hp =>
        obtain ⟨rest, hrest⟩ := hp
        simp only [List.cons_append, List.cons.injEq, List.nil_append] at hrest
        obtain ⟨rfl, rfl, -⟩ := hrest
        exact absurd hlater (by decide)
      | [_, _], hp =>
        obtain ⟨rest, hrest⟩ := hp
        simp only [List.cons_append, List.cons.injEq, List.nil_append] at hrest
        obtain ⟨rfl, rfl, rfl, -⟩ := hrest
        exact absurd hlater (by decide)
      | _ :: _ :: _ :: text, hp =>
        obtain ⟨rest, hrest⟩ := hp
        simp only [List.cons_append, List.cons.injEq] at hrest
        obtain ⟨rfl, rfl, rfl, rfl, -⟩ := hrest
        cases hnone
    · match text, hbegins with
      | [], _ => exact absurd hlater (by decide)
      | _ :: text, hp =>
        obtain ⟨rest, hrest⟩ := hp
        simp only [List.cons_append, List.cons.injEq] at hrest
        obtain ⟨rfl, rfl, -⟩ := hrest
        cases hnone
    · match text, hbegins with
      | [], _ => exact absurd hlater (by decide)
      | _ :: text, hp =>
        obtain ⟨rest, hrest⟩ := hp
        simp only [List.cons_append, List.cons.injEq] at hrest
        obtain ⟨rfl, rfl, -⟩ := hrest
        cases hnone

theorem findSeparator_of_some {text : List Char} {n : Nat} (h : separatorAt text = some n) :
    findSeparator text = some ([], n, text.drop n) := by
  cases text <;> simp only [findSeparator, h]

theorem findSeparator_cons {c : Char} {text : List Char} (h : separatorAt (c :: text) = none) :
    findSeparator (c :: text) =
      (findSeparator text).map fun found => (c :: found.1, found.2) := by
  simp only [findSeparator, h]

theorem findSeparator_append {text frame rest : List Char} {n : Nat}
    (h : findSeparator text = some (frame, n, rest)) (more : List Char) :
    findSeparator (text ++ more) = some (frame, n, rest ++ more) := by
  induction text generalizing frame with
  | nil => cases h
  | cons c text ih =>
    cases hat : separatorAt (c :: text) with
    | some m =>
      rw [findSeparator_of_some hat] at h
      cases h
      rw [findSeparator_of_some (separatorAt_append hat more)]
      obtain ⟨sep, -, rest, rfl, heq⟩ := separatorAt_eq_some hat
      rw [heq, List.append_assoc, List.drop_left, List.drop_left]
    | none =>
      rw [findSeparator_cons hat] at h
      obtain ⟨⟨frame', n', rest'⟩, hfound, heq⟩ := Option.map_eq_some_iff.mp h
      cases heq
      have hnone := separatorAt_append_none hat (by rw [hfound]; rfl) more
      rw [List.cons_append] at hnone ⊢
      rw [findSeparator_cons hnone, ih hfound]
      rfl

/-- The frame, its separator and the rest, and where the search stops when it is cut short. -/
theorem findSeparator_spec {text frame rest : List Char} {n : Nat}
    (h : findSeparator text = some (frame, n, rest)) :
    ∃ sep ∈ separators, sep.length = n ∧ text = frame ++ (sep ++ rest) ∧
      findSeparator (frame ++ sep) = some (frame, n, []) ∧
      findSeparator (frame ++ sep.dropLast) = none := by
  induction text generalizing frame with
  | nil => cases h
  | cons c text ih =>
    cases hat : separatorAt (c :: text) with
    | some m =>
      rw [findSeparator_of_some hat] at h
      cases h
      obtain ⟨sep, hsep, rest, rfl, heq⟩ := separatorAt_eq_some hat
      refine ⟨sep, hsep, rfl, by rw [heq, List.drop_left]; rfl, ?_, ?_⟩
      · simp only [separators, List.mem_cons, List.not_mem_nil, or_false] at hsep
        rcases hsep with rfl | rfl | rfl <;> rfl
      · simp only [separators, List.mem_cons, List.not_mem_nil, or_false] at hsep
        rcases hsep with rfl | rfl | rfl <;> rfl
    | none =>
      rw [findSeparator_cons hat] at h
      obtain ⟨⟨frame', n', rest'⟩, hfound, heq⟩ := Option.map_eq_some_iff.mp h
      cases heq
      obtain ⟨sep, hsep, hlength, htext, hwhole, hcut⟩ := ih hfound
      -- a separator at the first character of a beginning would be one of the whole text
      have hbegin : ∀ part more, text = part ++ more → separatorAt (c :: part) = none := by
        intro part more hpart
        cases hc : separatorAt (c :: part) with
        | none => rfl
        | some m =>
          have hmore := separatorAt_append hc more
          rw [List.cons_append, ← hpart, hat] at hmore
          cases hmore
      refine ⟨sep, hsep, hlength, by rw [htext]; rfl, ?_, ?_⟩
      · rw [List.cons_append, findSeparator_cons (hbegin _ rest (by rw [htext, List.append_assoc])),
          hwhole]
        rfl
      · obtain ⟨before, y, x, hends, hdrop, -⟩ := separator_ends hsep
        rw [List.cons_append, findSeparator_cons (hbegin (frame' ++ sep.dropLast) (x :: rest) ?_),
          hcut]
        · rfl
        · rw [htext, hdrop, hends]
          simp

/-! ## Frames -/

theorem splitLoop_of_none {text : List Char} (h : findSeparator text = none) (fuel : Nat) :
    splitLoop fuel text = ([], text) := by
  cases fuel with
  | zero => rfl
  | succ fuel => simp only [splitLoop, h]

theorem rest_length_lt {text frame rest : List Char} {n : Nat}
    (h : findSeparator text = some (frame, n, rest)) : rest.length + 2 ≤ text.length := by
  obtain ⟨sep, hsep, -, rfl, -⟩ := findSeparator_spec h
  obtain ⟨before, y, x, rfl, -⟩ := separator_ends hsep
  simp only [List.length_append, List.length_cons, List.length_nil]
  omega

theorem splitLoop_fuel {text : List Char} {fuel fuel' : Nat} (h : text.length ≤ fuel)
    (h' : text.length ≤ fuel') : splitLoop fuel text = splitLoop fuel' text := by
  induction fuel generalizing text fuel' with
  | zero =>
    obtain rfl : text = [] := List.eq_nil_of_length_eq_zero (Nat.le_zero.mp h)
    rw [splitLoop_of_none rfl, splitLoop_of_none rfl]
  | succ fuel ih =>
    cases hfind : findSeparator text with
    | none => rw [splitLoop_of_none hfind, splitLoop_of_none hfind]
    | some found =>
      obtain ⟨frame, n, rest⟩ := found
      have hlt := rest_length_lt hfind
      obtain ⟨fuel', rfl⟩ : ∃ k, fuel' = k + 1 := ⟨fuel' - 1, by omega⟩
      have heq : splitLoop fuel rest = splitLoop fuel' rest := ih (by omega) (by omega)
      simp only [splitLoop, hfind, heq]

theorem splitFrames_none {text : List Char} (h : findSeparator text = none) :
    splitFrames text = ([], text) := splitLoop_of_none h _

theorem splitFrames_some {text frame rest : List Char} {n : Nat}
    (h : findSeparator text = some (frame, n, rest)) :
    splitFrames text = (⟨frame, n⟩ :: (splitFrames rest).1, (splitFrames rest).2) := by
  have hlt := rest_length_lt h
  obtain ⟨fuel, hfuel⟩ : ∃ k, text.length = k + 1 := ⟨text.length - 1, by omega⟩
  have heq : splitLoop fuel rest = splitFrames rest := splitLoop_fuel (by omega) le_rfl
  unfold splitFrames at heq ⊢
  rw [hfuel]
  simp only [splitLoop, h, heq]

/-- Strong induction along the frames of a text. -/
theorem frames_induction {motive : List Char → Prop}
    (hnone : ∀ text, findSeparator text = none → motive text)
    (hsome : ∀ text frame n rest, findSeparator text = some (frame, n, rest) → motive rest →
      motive text) (text : List Char) : motive text := by
  induction hlength : text.length using Nat.strong_induction_on generalizing text with
  | h length ih =>
    cases hfind : findSeparator text with
    | none => exact hnone text hfind
    | some found =>
      have hlt := rest_length_lt hfind
      exact hsome text _ _ _ hfind (ih _ (by omega) _ rfl)

theorem findSeparator_rest (text : List Char) : findSeparator (splitFrames text).2 = none := by
  induction text using frames_induction with
  | hnone text h => rw [splitFrames_none h]; exact h
  | hsome text frame n rest h ih => rw [splitFrames_some h]; exact ih

/-- The frames of a text that arrives in two parts. -/
theorem splitFrames_append (text more : List Char) :
    splitFrames (text ++ more) =
      ((splitFrames text).1 ++ (splitFrames ((splitFrames text).2 ++ more)).1,
        (splitFrames ((splitFrames text).2 ++ more)).2) := by
  induction text using frames_induction with
  | hnone text h => rw [splitFrames_none h]; rfl
  | hsome text frame n rest h ih =>
    rw [splitFrames_some (findSeparator_append h more), splitFrames_some h, ih]
    rfl

/-- The text up to the end of a frame's separator, and one character short of it. -/
theorem exists_frame {text : List Char} {frames later : List Frame} {f : Frame}
    (h : (splitFrames text).1 = frames ++ f :: later) :
    ∃ before sep after, sep ∈ separators ∧ sep.length = f.separator ∧
      text = before ++ (f.text ++ (sep ++ after)) ∧
      splitFrames (before ++ (f.text ++ sep)) = (frames ++ [f], []) ∧
      splitFrames (before ++ (f.text ++ sep.dropLast)) = (frames, f.text ++ sep.dropLast) := by
  induction frames generalizing text with
  | nil =>
    cases hfind : findSeparator text with
    | none =>
      rw [splitFrames_none hfind] at h
      cases h
    | some found =>
      obtain ⟨frame, n, rest⟩ := found
      rw [splitFrames_some hfind] at h
      obtain ⟨rfl, -⟩ := List.cons.inj h
      obtain ⟨sep, hsep, hlength, htext, hwhole, hcut⟩ := findSeparator_spec hfind
      refine ⟨[], sep, rest, hsep, hlength, htext, ?_, splitFrames_none hcut⟩
      rw [List.nil_append, splitFrames_some hwhole]
      rfl
  | cons first frames ih =>
    cases hfind : findSeparator text with
    | none =>
      rw [splitFrames_none hfind] at h
      cases h
    | some found =>
      obtain ⟨frame, n, rest⟩ := found
      rw [splitFrames_some hfind] at h
      obtain ⟨rfl, hrest⟩ := List.cons.inj h
      obtain ⟨before, sep, after, hsep, hlength, htext, hwhole, hcut⟩ := ih hrest
      obtain ⟨sep₀, -, -, htext₀, hwhole₀, -⟩ := findSeparator_spec hfind
      have hmore : ∀ part, splitFrames (frame ++ sep₀ ++ part) =
          (⟨frame, n⟩ :: (splitFrames part).1, (splitFrames part).2) := fun part =>
        splitFrames_some (findSeparator_append hwhole₀ part)
      refine ⟨frame ++ sep₀ ++ before, sep, after, hsep, hlength, ?_, ?_, ?_⟩
      · rw [htext₀, htext]
        simp
      · rw [List.append_assoc, hmore, hwhole]
        rfl
      · rw [List.append_assoc, hmore, hcut]

/-- What is left before more text is a proper beginning of the next frame and its separator. -/
theorem rest_prefix {rest more frame after : List Char} {n : Nat}
    (hrest : findSeparator rest = none)
    (h : findSeparator (rest ++ more) = some (frame, n, after)) :
    ∃ sep ∈ separators, sep.length = n ∧ rest <+: frame ++ sep.dropLast := by
  obtain ⟨sep, hsep, hlength, htext, hwhole, -⟩ := findSeparator_spec h
  refine ⟨sep, hsep, hlength, ?_⟩
  obtain ⟨before, y, x, hends, hdrop, -⟩ := separator_ends hsep
  have hsplit : rest ++ more = (frame ++ sep.dropLast) ++ (x :: after) := by
    rw [htext, hdrop, hends]
    simp
  rcases List.prefix_or_prefix_of_prefix (List.prefix_append rest more)
    (hsplit ▸ List.prefix_append (frame ++ sep.dropLast) (x :: after)) with hp | ⟨tail, htail⟩
  · exact hp
  · cases tail with
    | nil =>
      rw [List.append_nil] at htail
      exact htail ▸ List.prefix_refl _
    | cons c tail =>
      -- then the whole separator has arrived
      exfalso
      rw [← htail, List.append_assoc] at hsplit
      have hsame := List.append_cancel_left hsplit
      obtain ⟨rfl, -⟩ := List.cons.inj hsame
      have hfull : rest = frame ++ sep ++ tail := by
        rw [← htail, hdrop, hends]
        simp
      rw [hfull, findSeparator_append hwhole] at hrest
      cases hrest

/-! ## Lines -/

/-- No line ends inside. -/
def IsLine (line : List Char) : Prop := ∀ c ∈ line, c ≠ '\n' ∧ c ≠ '\r'

theorem IsLine.tail {c : Char} {line : List Char} (h : IsLine (c :: line)) : IsLine line :=
  fun d hd => h d (List.mem_cons_of_mem _ hd)

theorem findSeparator_line {line : List Char} (h : IsLine line) (text : List Char) :
    findSeparator (line ++ text) =
      (findSeparator text).map fun found => (line ++ found.1, found.2) := by
  induction line with
  | nil => exact Option.map_id'.symm
  | cons c line ih =>
    obtain ⟨hnewline, hreturn⟩ := h c List.mem_cons_self
    have hnone : separatorAt (c :: (line ++ text)) = none := by
      unfold separatorAt
      split
      · next heq => exact absurd (List.cons.inj heq).1 hreturn
      · next heq => exact absurd (List.cons.inj heq).1 hnewline
      · next heq => exact absurd (List.cons.inj heq).1 hreturn
      · rfl
    rw [List.cons_append, findSeparator_cons hnone, ih h.tail, Option.map_map]
    rfl

theorem splitLines_cons {c : Char} {rest : List Char} (hnewline : c ≠ '\n') (hreturn : c ≠ '\r') :
    splitLines (c :: rest) = (splitLines rest).modifyHead (c :: ·) := by
  rw [splitLines.eq_5]
  · exact fun _ hc => absurd hc hreturn
  · exact hreturn
  · exact hnewline

theorem splitLines_line {line : List Char} (h : IsLine line) : splitLines line = [line] := by
  induction line with
  | nil => rfl
  | cons c line ih =>
    obtain ⟨hnewline, hreturn⟩ := h c List.mem_cons_self
    rw [splitLines_cons hnewline hreturn, ih h.tail]
    rfl

theorem splitLines_newline {line : List Char} (h : IsLine line) (rest : List Char) :
    splitLines (line ++ '\n' :: rest) = line :: splitLines rest := by
  induction line with
  | nil => rfl
  | cons c line ih =>
    obtain ⟨hnewline, hreturn⟩ := h c List.mem_cons_self
    rw [List.cons_append, splitLines_cons hnewline hreturn, ih h.tail]
    rfl

end FluxFast.Core
