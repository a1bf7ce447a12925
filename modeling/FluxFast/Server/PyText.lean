import FluxFast.Core.Text

/-!
# PyText — the Python view of strings, next to the JavaScript one

`str.strip`, `len` in code points and the length that `_javascript_string_length` counts.  The two
languages differ on U+FEFF, on some control characters and on characters outside the basic plane.
-/

namespace FluxFast.Server

open FluxFast.Core

/-- The code points that `str.strip` removes. -/
def PyText.isStrippedPoint (n : Nat) : Bool :=
  (9 ≤ n && n ≤ 13) || (28 ≤ n && n ≤ 32) || n = 0x85 || n = 0xa0 || n = 0x1680 ||
    (0x2000 ≤ n && n ≤ 0x200a) || n = 0x2028 || n = 0x2029 || n = 0x202f || n = 0x205f || n = 0x3000

def PyText.isControlPoint (n : Nat) : Bool := n < 32 || (127 ≤ n && n ≤ 159)

def isStripped (c : Char) : Bool := PyText.isStrippedPoint c.toNat

def isControl (c : Char) : Bool := PyText.isControlPoint c.toNat

namespace PyText

def stripChars (cs : List Char) : List Char := (cs.dropWhile isStripped).rdropWhile isStripped

/-- `str.strip()`. -/
def strip (s : String) : String := String.ofList (stripChars s.toList)

/-- `not value.strip()`. -/
def blank (s : String) : Bool := s.toList.all isStripped

/-- `_contains_control_characters`. -/
def containsControlCharacters (s : String) : Bool := s.toList.any isControl

/-- `_javascript_string_length`. -/
def javascriptStringLength (s : String) : Nat :=
  (s.toList.map fun c => if c.toNat < 0x10000 then 1 else 2).sum

/-! ## Stripping -/

theorem stripChars_sublist (cs : List Char) : (stripChars cs).Sublist cs :=
  (List.rdropWhile_prefix _ _).sublist.trans (List.dropWhile_sublist _)

theorem stripChars_eq_nil_iff {cs : List Char} :
    stripChars cs = [] ↔ cs.all isStripped = true := by
  rw [stripChars, List.rdropWhile_eq_nil_iff, List.all_eq_true]
  constructor
  · intro h c hc
    rw [← List.takeWhile_append_dropWhile (p := isStripped) (l := cs)] at hc
    rcases List.mem_append.mp hc with hc | hc
    · exact List.mem_takeWhile_imp hc
    · exact h c hc
  · intro h c hc
    exact h c ((List.dropWhile_sublist _).subset hc)

theorem stripChars_idem (cs : List Char) : stripChars (stripChars cs) = stripChars cs := by
  have hdrop : (stripChars cs).dropWhile isStripped = stripChars cs := by
    cases hstrip : stripChars cs with
    | nil => rfl
    | cons c rest =>
      obtain ⟨after, hafter⟩ : stripChars cs <+: cs.dropWhile isStripped :=
        List.rdropWhile_prefix _ _
      have hhead : (cs.dropWhile isStripped).head? = some c := by
        rw [← hafter, hstrip]
        rfl
      have hkept := List.head?_dropWhile_not isStripped cs
      rw [hhead] at hkept
      rw [List.dropWhile_cons_of_neg (by simpa using hkept)]
  show ((stripChars cs).dropWhile isStripped).rdropWhile isStripped = _
  rw [hdrop]
  exact List.rdropWhile_idempotent _ _

theorem strip_idem (s : String) : strip (strip s) = strip s := by
  simp [strip, stripChars_idem]

theorem strip_eq_empty_iff {s : String} : strip s = "" ↔ blank s = true := by
  rw [blank, ← stripChars_eq_nil_iff, strip, ← String.toList_inj]
  simp

theorem length_strip_le (s : String) : (strip s).length ≤ s.length := by
  rw [strip, String.length_ofList, ← String.length_toList]
  exact (stripChars_sublist s.toList).length_le

theorem blank_of_sublist {s t : String} (h : s.toList.Sublist t.toList) (hblank : blank t = true) :
    blank s = true :=
  List.all_eq_true.mpr fun c hc => List.all_eq_true.mp hblank c (h.subset hc)

/-- Text that has nothing to strip does not begin or end with white space. -/
theorem ends_of_strip {s : String} (h : strip s = s) :
    (∀ c ∈ s.toList.head?, isStripped c = false) ∧ ∀ c ∈ s.toList.getLast?, isStripped c = false := by
  have hchars : stripChars s.toList = s.toList := by
    rw [← String.toList_ofList (l := stripChars s.toList)]
    exact congrArg String.toList h
  have hfront : s.toList.dropWhile isStripped = s.toList := by
    refine (List.dropWhile_sublist _).eq_of_length_le ?_
    calc s.toList.length = (stripChars s.toList).length := by rw [hchars]
      _ ≤ (s.toList.dropWhile isStripped).length := (List.rdropWhile_prefix _ _).length_le
  rw [stripChars, hfront] at hchars
  have hhead := List.head?_dropWhile_not isStripped s.toList
  have hlast := List.head?_dropWhile_not isStripped s.toList.reverse
  rw [hfront] at hhead
  rw [show s.toList.reverse.dropWhile isStripped = s.toList.reverse by
    rw [← List.reverse_inj, List.reverse_reverse]
    exact hchars, List.head?_reverse] at hlast
  constructor
  · intro c hc
    rw [Option.mem_def.mp hc] at hhead
    simpa using hhead
  · intro c hc
    rw [Option.mem_def.mp hc] at hlast
    simpa using hlast

/-! ## The two languages -/

theorem javascriptStringLength_eq (s : String) : javascriptStringLength s = Text.jsLength s := by
  rw [javascriptStringLength, Text.jsLength, Text.codeUnits, List.length_flatMap]
  refine congrArg List.sum (List.map_congr_left fun c _ => ?_)
  unfold Text.charUnits
  split
  · rename_i hsmall
    rw [if_pos hsmall, List.length_singleton]
  · rename_i hlarge
    rw [if_neg hlarge]
    rfl

/-- A code point is one UTF-16 unit or two. -/
theorem length_le_jsLength (s : String) : s.length ≤ Text.jsLength s := by
  rw [← javascriptStringLength_eq, javascriptStringLength, ← String.length_toList]
  have hone : s.toList.length = (s.toList.map fun _ => 1).sum := by simp
  rw [hone]
  refine List.sum_le_sum fun c _ => ?_
  split <;> omega

theorem isControl_iff {c : Char} :
    isControl c = true ↔ c.toNat < 0x20 ∨ (0x7f ≤ c.toNat ∧ c.toNat ≤ 0x9f) := by
  simp [isControl, isControlPoint]

theorem hasControlCharacters_eq (s : String) :
    Text.hasControlCharacters s = containsControlCharacters s := by
  rw [Text.hasControlCharacters, containsControlCharacters]
  refine congrArg _ (funext fun c => ?_)
  simp [isControl, isControlPoint]

end PyText

end FluxFast.Server
