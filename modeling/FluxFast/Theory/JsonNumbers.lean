import FluxFast.Theory.JsonText
import Mathlib

/-!
# JsonNumbers — number literals as integers

A number without fraction and exponent is an integer.  Its digits bound its size, and the digits of
an integer are such a literal again.
-/

namespace FluxFast.Theory

namespace Json

/-- There is a fraction or an exponent. -/
def isFloat (word : List Char) : Bool := word.any fun c => c = '.' || c = 'e' || c = 'E'

def digitsOf (word : List Char) : List Char := word.filter Char.isDigit

def parseInt (word : List Char) : Int :=
  let size := Nat.ofDigitChars 10 (digitsOf word) 0
  if word.head? = some '-' then -size else size

def reprInt : Int → List Char
  | .ofNat n => Nat.toDigits 10 n
  | .negSucc n => '-' :: Nat.toDigits 10 (n + 1)

/-! ## Digits -/

theorem isDigit_of_mem_toDigits {n : Nat} : ∀ c ∈ Nat.toDigits 10 n, c.isDigit = true :=
  fun _ hc => Nat.isDigit_of_mem_toDigits (by decide) (by decide) hc

theorem ofDigitChars_lt {ds : List Char} (h : ∀ c ∈ ds, c.isDigit = true) :
    Nat.ofDigitChars 10 ds 0 < 10 ^ ds.length := by
  induction ds with
  | nil => simp
  | cons d ds ih =>
    have hd : d.toNat - '0'.toNat ≤ 9 := by
      have hdigit := h d List.mem_cons_self
      simp only [Char.isDigit, Bool.and_eq_true, decide_eq_true_eq] at hdigit
      have hle : d.toNat ≤ 57 := hdigit.2
      show d.toNat - 48 ≤ 9
      omega
    have hds := ih fun c hc => h c (List.mem_cons_of_mem _ hc)
    have hhead : 10 ^ ds.length * (d.toNat - '0'.toNat) ≤ 10 ^ ds.length * 9 :=
      Nat.mul_le_mul_left _ hd
    rw [Nat.ofDigitChars_cons, Nat.ofDigitChars_eq_ofDigitChars_zero, List.length_cons,
      Nat.pow_succ, Nat.mul_zero, Nat.zero_add]
    omega

theorem head_digits_ne_zero {n : Nat} (h : 1 ≤ n) : (Nat.toDigits 10 n).head? ≠ some '0' := by
  induction n using Nat.strongRecOn with
  | ind n ih =>
    by_cases hsmall : n < 10
    · rw [Nat.toDigits_of_lt_base hsmall]
      have hall : ∀ d : Fin 10, 1 ≤ d.val → [d.val.digitChar].head? ≠ some '0' := by decide
      exact hall ⟨n, hsmall⟩ h
    · have hlarge : 10 ≤ n := Nat.not_lt.mp hsmall
      rw [Nat.toDigits_of_base_le (by decide) hlarge, List.head?_append_of_ne_nil _ Nat.toDigits_ne_nil]
      exact ih (n / 10) (by omega) (by omega)

theorem isUnsigned_toDigits (n : Nat) : isUnsigned (Nat.toDigits 10 n) = true := by
  have htake : (Nat.toDigits 10 n).takeWhile Char.isDigit = Nat.toDigits 10 n :=
    List.takeWhile_eq_self_iff.mpr isDigit_of_mem_toDigits
  have hdrop : (Nat.toDigits 10 n).dropWhile Char.isDigit = [] :=
    List.dropWhile_eq_nil_iff.mpr isDigit_of_mem_toDigits
  rw [isUnsigned, digitsThen, htake, hdrop, Bool.and_eq_true, Bool.and_eq_true]
  refine ⟨⟨by simp, rfl⟩, ?_⟩
  cases n with
  | zero => rfl
  | succ n =>
    rw [Bool.or_eq_true]
    exact .inl (decide_eq_true (head_digits_ne_zero (Nat.succ_pos n)))

theorem head_toDigits_ne_minus (n : Nat) : (Nat.toDigits 10 n).head? ≠ some '-' := by
  intro h
  have hdigit := isDigit_of_mem_toDigits '-' (List.mem_of_mem_head? h)
  exact absurd hdigit (by decide)

/-! ## Integers as literals -/

theorem isNumber_reprInt (n : Int) : isNumber (reprInt n) = true := by
  cases n with
  | ofNat n =>
    have hunsigned : isNumber (Nat.toDigits 10 n) = isUnsigned (Nat.toDigits 10 n) := by
      unfold isNumber
      split
      · next cs hcs =>
        exact absurd (congrArg List.head? hcs) (head_toDigits_ne_minus n)
      · rfl
    exact hunsigned.trans (isUnsigned_toDigits n)
  | negSucc n => exact isUnsigned_toDigits (n + 1)

theorem digitsOf_reprInt (n : Int) : digitsOf (reprInt n) = Nat.toDigits 10 n.natAbs := by
  cases n with
  | ofNat n => exact List.filter_eq_self.mpr isDigit_of_mem_toDigits
  | negSucc n =>
    show ('-' :: Nat.toDigits 10 (n + 1)).filter Char.isDigit = _
    rw [List.filter_cons_of_neg (by decide)]
    exact List.filter_eq_self.mpr isDigit_of_mem_toDigits

theorem parseInt_reprInt (n : Int) : parseInt (reprInt n) = n := by
  unfold parseInt
  rw [digitsOf_reprInt, Nat.ofDigitChars_ten_toDigits]
  cases n with
  | ofNat n => exact if_neg (head_toDigits_ne_minus n)
  | negSucc n => exact if_pos rfl

theorem isFloat_reprInt (n : Int) : isFloat (reprInt n) = false := by
  have hdigits : ∀ n : Nat, isFloat (Nat.toDigits 10 n) = false := by
    intro n
    refine List.any_eq_false.mpr fun c hc hmark => ?_
    have hdigit := isDigit_of_mem_toDigits c hc
    simp only [Bool.or_eq_true, decide_eq_true_eq] at hmark
    rcases hmark with (rfl | rfl) | rfl
    all_goals exact absurd hdigit (by decide)
  cases n with
  | ofNat n => exact hdigits n
  | negSucc n => exact hdigits (n + 1)

/-- The digits of a literal are at least as many as those of its integer. -/
theorem length_digits_parseInt_le {word : List Char} {limit : Nat} (hlimit : 0 < limit)
    (h : (digitsOf word).length ≤ limit) : (digitsOf (reprInt (parseInt word))).length ≤ limit := by
  have hsize : (parseInt word).natAbs = Nat.ofDigitChars 10 (digitsOf word) 0 := by
    unfold parseInt
    dsimp only
    split
    · rw [Int.natAbs_neg, Int.natAbs_natCast]
    · exact Int.natAbs_natCast _
  have hlt := @ofDigitChars_lt (digitsOf word) fun c hc => (List.mem_filter.mp hc).2
  rw [digitsOf_reprInt, hsize, Nat.length_toDigits_le_iff (by decide) hlimit]
  exact Nat.lt_of_lt_of_le hlt (Nat.pow_le_pow_right (by decide) h)

end Json

end FluxFast.Theory
