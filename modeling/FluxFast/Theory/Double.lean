import Mathlib.Data.Int.Log
import Mathlib.Data.List.DropRight
import Mathlib.Data.Rat.Floor
import Mathlib.Tactic.FieldSimp
import Mathlib.Tactic.Linarith
import Mathlib.Tactic.Positivity

/-!
# Double — arithmetic rounded to 53 bits

A finite double is a rational that 53 bits and a power of two can write.  An operation is the exact
one, rounded to the nearest double, and to the even one of two.  The exponent has no bound, so
nothing overflows and nothing is subnormal.
-/

namespace FluxFast.Theory

/-- The nearest integer, and of two the even one. -/
def roundHalfEven (x : ℚ) : ℤ :=
  if x - ⌊x⌋ < 1 / 2 ∨ x - ⌊x⌋ = 1 / 2 ∧ ⌊x⌋ % 2 = 0 then ⌊x⌋ else ⌊x⌋ + 1

theorem abs_roundHalfEven_sub_le (x : ℚ) : |(roundHalfEven x : ℚ) - x| ≤ 1 / 2 := by
  have hle := Int.floor_le x
  have hlt := Int.lt_floor_add_one x
  unfold roundHalfEven
  split
  · next h =>
    rw [abs_le]
    constructor
    · rcases h with h | ⟨h, -⟩ <;> linarith
    · linarith
  · next h =>
    have hhalf : 1 / 2 ≤ x - ⌊x⌋ := not_lt.mp fun hlt => h (.inl hlt)
    push_cast
    rw [abs_le]
    constructor <;> linarith

/-- The distance of two doubles next to `x`. -/
def spacing (x : ℚ) : ℚ := 2 ^ (Int.log 2 |x| - 52)

theorem spacing_pos (x : ℚ) : 0 < spacing x := zpow_pos two_pos _

/-- A nonzero number has 53 bits before the spacing. -/
theorem spacing_le {x : ℚ} (hx : x ≠ 0) : spacing x * 2 ^ 52 ≤ |x| := by
  have hlog := Int.zpow_log_le_self (b := 2) one_lt_two (abs_pos.mpr hx)
  refine le_trans (le_of_eq ?_) hlog
  rw [spacing, zpow_sub₀ two_ne_zero]
  norm_num

theorem abs_lt_spacing (x : ℚ) : |x| < spacing x * 2 ^ 53 := by
  have hlog := Int.lt_zpow_succ_log_self (b := 2) one_lt_two |x|
  refine lt_of_lt_of_le hlog (le_of_eq ?_)
  rw [spacing, zpow_sub₀ two_ne_zero, zpow_add_one₀]
  · norm_num
    ring
  · norm_num

/-- The double nearest to `x`. -/
def nearest (x : ℚ) : ℚ := roundHalfEven (x / spacing x) * spacing x

/-- Rounding moves a number by one part in `2 ^ 53` at most. -/
theorem abs_nearest_sub_le (x : ℚ) : |nearest x - x| ≤ |x| / 2 ^ 53 := by
  by_cases hx : x = 0
  · subst hx
    simp [nearest, roundHalfEven]
  · have hpos := spacing_pos x
    have hscaled : nearest x - x = (roundHalfEven (x / spacing x) - x / spacing x) * spacing x := by
      rw [nearest, sub_mul, div_mul_cancel₀ _ hpos.ne']
    have hhalf := abs_roundHalfEven_sub_le (x / spacing x)
    rw [hscaled, abs_mul, abs_of_pos hpos]
    calc |(roundHalfEven (x / spacing x) : ℚ) - x / spacing x| * spacing x
        ≤ 1 / 2 * spacing x := mul_le_mul_of_nonneg_right hhalf hpos.le
      _ = spacing x * 2 ^ 52 / 2 ^ 53 := by ring
      _ ≤ |x| / 2 ^ 53 := div_le_div_of_nonneg_right (spacing_le hx) (by positivity)

/-- The digits stand behind the decimal point, which is then moved to the right. -/
structure Decimal where
  digits : List Char
  point : ℤ
  deriving DecidableEq

/-- The integers of `digits` digits next to `x`, scaled, the closer one first. -/
def decimalNeighbours (x : ℚ) (digits : Nat) : List ℤ :=
  let scaled : ℚ := x * 10 ^ ((digits : ℤ) - (Int.log 10 x + 1))
  if scaled - ⌊scaled⌋ ≤ 1 / 2 then [⌊scaled⌋, ⌊scaled⌋ + 1] else [⌊scaled⌋ + 1, ⌊scaled⌋]

/-- The shortest decimal that is nearest to the positive double `x`, and of these the closest; 17
digits tell all doubles apart. -/
def shortestDecimal (x : ℚ) : Decimal :=
  let point := Int.log 10 x + 1
  let found := (List.range 17).findSome? fun i =>
    ((decimalNeighbours x (i + 1)).find? fun (n : ℤ) =>
      nearest (n * 10 ^ (point - (i + 1 : ℤ))) = x).map fun n => (i + 1, n)
  let (count, n) := found.getD (17, (decimalNeighbours x 17).headD 0)
  let digits := Nat.toDigits 10 n.toNat
  ⟨digits.rdropWhile (· = '0'), point - count + digits.length⟩

def Representable (x : ℚ) : Prop := ∃ m e : ℤ, |m| ≤ 2 ^ 53 ∧ x = m * 2 ^ e

theorem representable_nearest (x : ℚ) : Representable (nearest x) := by
  refine ⟨roundHalfEven (x / spacing x), Int.log 2 |x| - 52, ?_, rfl⟩
  have hpos := spacing_pos x
  have hhalf := abs_roundHalfEven_sub_le (x / spacing x)
  have hless : |x / spacing x| < 2 ^ 53 := by
    rw [abs_div, abs_of_pos hpos, div_lt_iff₀ hpos, mul_comm]
    exact abs_lt_spacing x
  have hround : |(roundHalfEven (x / spacing x) : ℚ)| < 2 ^ 53 + 1 := by
    rw [abs_le] at hhalf
    rw [abs_lt] at hless ⊢
    constructor <;> linarith [hhalf.1, hhalf.2, hless.1, hless.2]
  have hint : |roundHalfEven (x / spacing x)| < 2 ^ 53 + 1 := by exact_mod_cast hround
  omega

structure Double where
  value : ℚ
  representable : Representable value

namespace Double

theorem value_injective : Function.Injective value := by
  rintro ⟨x, hx⟩ ⟨y, hy⟩ rfl
  rfl

instance : LinearOrder Double := LinearOrder.lift' value value_injective

theorem le_iff {a b : Double} : a ≤ b ↔ a.value ≤ b.value := Iff.rfl

theorem lt_iff {a b : Double} : a < b ↔ a.value < b.value := Iff.rfl

def round (x : ℚ) : Double := ⟨nearest x, representable_nearest x⟩

instance : Zero Double := ⟨round 0⟩

instance : Add Double := ⟨fun a b => round (a.value + b.value)⟩

instance : Mul Double := ⟨fun a b => round (a.value * b.value)⟩

theorem value_zero : (0 : Double).value = 0 := by
  show nearest 0 = 0
  simp [nearest, roundHalfEven]

theorem add_eq (a b : Double) : a + b = round (a.value + b.value) := rfl

theorem mul_eq (a b : Double) : a * b = round (a.value * b.value) := rfl

theorem abs_round_sub_le (x : ℚ) : |(round x).value - x| ≤ |x| / 2 ^ 53 := abs_nearest_sub_le x

/-- Rounding keeps the sign. -/
theorem round_le_zero_iff {x : ℚ} : round x ≤ 0 ↔ x ≤ 0 := by
  have herror := abs_le.mp (abs_round_sub_le x)
  rw [le_iff, value_zero]
  constructor
  · intro h
    by_contra hpos
    rw [not_le] at hpos
    rw [abs_of_pos hpos] at herror
    linarith [herror.1]
  · intro h
    rw [abs_of_nonpos h] at herror
    linarith [herror.2]

/-- What 53 bits can write is not rounded. -/
example : round 1000 = ⟨1000, 1000, 0, by norm_num, by norm_num⟩ := by
  apply value_injective
  with_unfolding_all decide

end Double

end FluxFast.Theory
