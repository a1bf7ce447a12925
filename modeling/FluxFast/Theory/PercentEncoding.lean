import Mathlib.Data.List.Basic

/-!
# PercentEncoding — texts with the unsafe bytes escaped

The percent-encoding of the UTF-8 bytes of a text: a byte that is safe stands for itself, any other
is `%` and two upper-case hexadecimal digits.  Which bytes are safe is a parameter.  The encoding is
injective as soon as `%` itself is not safe, and a character outside the safe set, `%` and the
digits never occurs in it, so such a character can separate encoded parts.
-/

namespace FluxFast.Theory

namespace PercentEncoding

def hexDigit (n : Nat) : Char :=
  Char.ofNat (if n < 10 then 48 + n else 55 + n)

def percentByte (b : UInt8) : List Char :=
  ['%', hexDigit (b.toNat / 16), hexDigit (b.toNat % 16)]

section Encoding

variable (safe : Char → Bool)

def encodeByte (b : UInt8) : List Char :=
  if safe (Char.ofNat b.toNat) && b.toNat < 128 then [Char.ofNat b.toNat] else percentByte b

def utf8 (s : String) : List UInt8 := s.toByteArray.data.toList

def encode (s : String) : String := String.ofList ((utf8 s).flatMap (encodeByte safe))

end Encoding

theorem utf8_injective : Function.Injective utf8 := by
  intro s t h
  have hdata : s.toByteArray.data = t.toByteArray.data := Array.toList_inj.mp h
  exact String.toByteArray_inj.mp (congrArg ByteArray.mk hdata)

theorem utf8_append (s t : String) : utf8 (s ++ t) = utf8 s ++ utf8 t := by
  unfold utf8
  rw [String.toByteArray_append, ByteArray.data_append, Array.toList_append]

theorem hexDigit_inj : ∀ m < 16, ∀ n < 16, hexDigit m = hexDigit n → m = n := by decide

theorem charOfByte_inj {b c : UInt8} (hb : b.toNat < 128) (hc : c.toNat < 128)
    (h : Char.ofNat b.toNat = Char.ofNat c.toNat) : b = c := by
  have hchar : ∀ m < 128, (Char.ofNat m).toNat = m := by decide
  apply UInt8.toNat_inj.mp
  rw [← hchar _ hb, ← hchar _ hc, h]

section Injective

variable {safe : Char → Bool}

/-- One encoded byte is read back from the front of a text, whatever follows. -/
theorem encodeByte_append_inj (hpercent : safe '%' = false) {b c : UInt8} {xs ys : List Char}
    (h : encodeByte safe b ++ xs = encodeByte safe c ++ ys) : b = c ∧ xs = ys := by
  -- a byte that is written as itself is not the percent sign and is a character of its own
  have hsafe : ∀ d : UInt8, (safe (Char.ofNat d.toNat) && decide (d.toNat < 128)) = true →
      Char.ofNat d.toNat ≠ '%' ∧ d.toNat < 128 := by
    intro d hd
    obtain ⟨hsafe, hlt⟩ := Bool.and_eq_true_iff.mp hd
    refine ⟨fun heq => ?_, of_decide_eq_true hlt⟩
    rw [heq, hpercent] at hsafe
    cases hsafe
  unfold encodeByte at h
  split at h
  · next hb =>
    obtain ⟨hb, hblt⟩ := hsafe b hb
    split at h
    · next hc =>
      obtain ⟨-, hclt⟩ := hsafe c hc
      obtain ⟨hchar, hrest⟩ := List.cons.inj h
      exact ⟨charOfByte_inj hblt hclt hchar, hrest⟩
    · exact absurd (List.cons.inj h).1 hb
  · split at h
    · next hc => exact absurd (List.cons.inj h).1.symm (hsafe c hc).1
    · -- two escapes agree digit by digit
      obtain ⟨-, hrest⟩ := List.cons.inj h
      obtain ⟨hhigh, hrest⟩ := List.cons.inj hrest
      obtain ⟨hlow, hrest⟩ := List.cons.inj hrest
      have hb := b.toNat_lt
      have hc := c.toNat_lt
      have hquotient := hexDigit_inj _ (by omega) _ (by omega) hhigh
      have hremainder := hexDigit_inj _ (by omega) _ (by omega) hlow
      exact ⟨UInt8.toNat_inj.mp (by omega), hrest⟩

theorem encodeByte_ne_nil (b : UInt8) : encodeByte safe b ≠ [] := by
  unfold encodeByte percentByte
  split <;> simp

theorem toList_encode_append (safe : Char → Bool) (s t : String) :
    (encode safe (s ++ t)).toList = (encode safe s).toList ++ (encode safe t).toList := by
  unfold encode
  rw [String.toList_ofList, String.toList_ofList, String.toList_ofList, utf8_append,
    List.flatMap_append]

/-- Only the empty text has an empty encoding. -/
theorem eq_empty_of_encode {s : String} (h : (encode safe s).toList = []) : s = "" := by
  rw [encode, String.toList_ofList, List.flatMap_eq_nil_iff] at h
  refine utf8_injective (List.eq_nil_iff_forall_not_mem.mpr fun b hb => ?_)
  exact encodeByte_ne_nil b (h b hb)

theorem flatMap_encodeByte_injective (hpercent : safe '%' = false) :
    ∀ bs cs : List UInt8, bs.flatMap (encodeByte safe) = cs.flatMap (encodeByte safe) → bs = cs
  | [], [], _ => rfl
  | [], c :: cs, h => by
    rw [List.flatMap_cons] at h
    exact absurd (List.append_eq_nil_iff.mp h.symm).1 (encodeByte_ne_nil c)
  | b :: bs, [], h => by
    rw [List.flatMap_cons] at h
    exact absurd (List.append_eq_nil_iff.mp h).1 (encodeByte_ne_nil b)
  | b :: bs, c :: cs, h => by
    rw [List.flatMap_cons, List.flatMap_cons] at h
    obtain ⟨hbyte, hrest⟩ := encodeByte_append_inj hpercent h
    rw [hbyte, flatMap_encodeByte_injective hpercent bs cs hrest]

theorem encode_injective (hpercent : safe '%' = false) : Function.Injective (encode safe) := by
  intro s t h
  apply utf8_injective
  apply flatMap_encodeByte_injective hpercent
  exact String.ofList_injective h

/-- A character that is neither safe nor part of an escape does not occur. -/
theorem not_mem_encode {sep : Char} (hsafe : safe sep = false) (hpercent : sep ≠ '%')
    (hdigit : ∀ n < 16, hexDigit n ≠ sep) (s : String) : sep ∉ (encode safe s).toList := by
  rw [encode, String.toList_ofList, List.mem_flatMap]
  rintro ⟨b, -, hb⟩
  unfold encodeByte percentByte at hb
  split at hb
  · next hchar =>
    rw [List.mem_singleton] at hb
    rw [← hb, hsafe, Bool.false_and] at hchar
    cases hchar
  · have hlt := b.toNat_lt
    simp only [List.mem_cons, List.not_mem_nil, or_false] at hb
    rcases hb with hb | hb | hb
    · exact hpercent hb
    · exact hdigit _ (by omega) hb.symm
    · exact hdigit _ (by omega) hb.symm

end Injective

/-- An encoded text is ASCII. -/
theorem lt_of_mem_encode (s : String) : ∀ c ∈ (encode safe s).toList, c.toNat < 128 := by
  intro c hc
  have hdigit : ∀ n < 16, (hexDigit n).toNat < 128 := by decide
  have hchar : ∀ m < 128, (Char.ofNat m).toNat < 128 := by decide
  rw [encode, String.toList_ofList, List.mem_flatMap] at hc
  obtain ⟨b, -, hb⟩ := hc
  have hlt := b.toNat_lt
  unfold encodeByte percentByte at hb
  split at hb
  · next hsmall =>
    rw [List.mem_singleton.mp hb]
    exact hchar _ (of_decide_eq_true (Bool.and_eq_true_iff.mp hsmall).2)
  · simp only [List.mem_cons, List.not_mem_nil, or_false] at hb
    rcases hb with rfl | rfl | rfl
    · decide
    · exact hdigit _ (by omega)
    · exact hdigit _ (by omega)

/-- A separator that occurs in neither left part splits a text in one way only. -/
theorem append_separator_inj {α : Type*} {sep : α} {as bs xs ys : List α} (ha : sep ∉ as)
    (hb : sep ∉ bs) (h : as ++ sep :: xs = bs ++ sep :: ys) : as = bs ∧ xs = ys := by
  induction as generalizing bs with
  | nil =>
    cases bs with
    | nil => exact ⟨rfl, (List.cons.inj h).2⟩
    | cons b bs => exact absurd (List.cons.inj h).1 (List.ne_of_not_mem_cons hb)
  | cons a as ih =>
    cases bs with
    | nil => exact absurd (List.cons.inj h).1.symm (List.ne_of_not_mem_cons ha)
    | cons b bs =>
      obtain ⟨hhead, htail⟩ := List.cons.inj h
      obtain ⟨hleft, hright⟩ :=
        ih (List.not_mem_of_not_mem_cons ha) (List.not_mem_of_not_mem_cons hb) htail
      exact ⟨by rw [hhead, hleft], hright⟩

end PercentEncoding

end FluxFast.Theory
