import Mathlib.Data.List.Basic

/-!
# Utf16 — code units of characters

Characters outside the basic plane are pairs of surrogates.  Decoding joins the pairs and fails on
a surrogate that stands alone.
-/

namespace FluxFast.Theory

namespace Utf16

def isHigh (u : Nat) : Bool := 0xd800 ≤ u && u ≤ 0xdbff

def isLow (u : Nat) : Bool := 0xdc00 ≤ u && u ≤ 0xdfff

def join (high low : Nat) : Nat := 0x10000 + (high - 0xd800) * 0x400 + (low - 0xdc00)

def encodeChar (c : Char) : List Nat :=
  let n := c.toNat
  if n < 0x10000 then [n]
  else [0xd800 + (n - 0x10000) / 0x400, 0xdc00 + (n - 0x10000) % 0x400]

def encode (cs : List Char) : List Nat := cs.flatMap encodeChar

/-- The code points; a surrogate that stands alone is one. -/
def codePoints : List Nat → List Nat
  | [] => []
  | [u] => [u]
  | u :: v :: us =>
    if isHigh u && isLow v then join u v :: codePoints us else u :: codePoints (v :: us)

/-- The characters, if no surrogate stands alone. -/
def decode (us : List Nat) : Option (List Char) :=
  (codePoints us).mapM fun n => if h : n.isValidChar then some (Char.ofNatAux n h) else none

/-- The characters, with U+FFFD for every surrogate that stands alone. -/
def toWellFormed (us : List Nat) : List Char :=
  (codePoints us).map fun n => if h : n.isValidChar then Char.ofNatAux n h else '\ufffd'

/-! ## Decoding what was encoded -/

theorem encodeChar_cases (c : Char) :
    (encodeChar c = [c.toNat] ∧ isHigh c.toNat = false) ∨
      ∃ high low, encodeChar c = [high, low] ∧ isHigh high = true ∧ isLow low = true ∧
        join high low = c.toNat := by
  have hvalid := c.valid
  rcases hvalid with hsmall | ⟨hlarge, hmax⟩
  · refine .inl ⟨if_pos (by show c.toNat < _; exact Nat.lt_trans hsmall (by decide)), ?_⟩
    have hn : c.toNat < 0xd800 := hsmall
    simp [isHigh]
    omega
  · have hn : 0xdfff < c.toNat := hlarge
    have hm : c.toNat < 0x110000 := hmax
    by_cases hbmp : c.toNat < 0x10000
    · refine .inl ⟨if_pos hbmp, ?_⟩
      simp [isHigh]
      omega
    · refine .inr ⟨_, _, if_neg hbmp, ?_, ?_, ?_⟩
      · simp [isHigh]
        omega
      · simp [isLow]
        omega
      · unfold join
        omega

theorem encodeChar_lt (c : Char) : ∀ u ∈ encodeChar c, u < 0x10000 := by
  have hm : c.toNat < 0x110000 := by
    rcases c.valid with h | h
    · exact Nat.lt_trans h (by omega)
    · exact h.2
  intro u hu
  unfold encodeChar at hu
  dsimp only at hu
  generalize c.toNat = n at hm hu
  split at hu
  · next h =>
    rw [List.mem_singleton.mp hu]
    exact h
  · simp only [List.mem_cons, List.not_mem_nil, or_false] at hu
    rcases hu with hu | hu <;> rw [hu] <;> omega

theorem codePoints_encodeChar (c : Char) (us : List Nat) :
    codePoints (encodeChar c ++ us) = c.toNat :: codePoints us := by
  rcases encodeChar_cases c with ⟨henc, hhigh⟩ | ⟨high, low, henc, hhigh, hlow, hjoin⟩
  · rw [henc]
    cases us with
    | nil => rfl
    | cons v us =>
      show codePoints (c.toNat :: v :: us) = _
      rw [codePoints, hhigh]
      rfl
  · rw [henc]
    show codePoints (high :: low :: us) = _
    rw [codePoints, hhigh, hlow, hjoin]
    rfl

theorem codePoints_encode (cs : List Char) : codePoints (encode cs) = cs.map Char.toNat := by
  induction cs with
  | nil => rfl
  | cons c cs ih =>
    show codePoints (encodeChar c ++ encode cs) = _
    rw [codePoints_encodeChar, ih]
    rfl

theorem decode_encode (cs : List Char) : decode (encode cs) = some cs := by
  rw [decode, codePoints_encode]
  induction cs with
  | nil => rfl
  | cons c cs ih =>
    have hc : (if h : c.toNat.isValidChar then some (Char.ofNatAux c.toNat h) else none) =
        some c := dif_pos c.valid
    rw [List.map_cons, List.mapM_cons, hc, ih]
    rfl

theorem toWellFormed_encode (cs : List Char) : toWellFormed (encode cs) = cs := by
  rw [toWellFormed, codePoints_encode, List.map_map]
  have hchar : ((fun n => if h : n.isValidChar then Char.ofNatAux n h else '\ufffd') ∘ Char.toNat) =
      id := funext fun c => dif_pos c.valid
  rw [hchar, List.map_id]

theorem encode_injective : Function.Injective encode := fun cs ds h => by
  have hsame := congrArg decode h
  rw [decode_encode, decode_encode] at hsame
  exact Option.some.inj hsame

end Utf16

end FluxFast.Theory
