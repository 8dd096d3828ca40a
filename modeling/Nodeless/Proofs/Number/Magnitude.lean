import Mathlib.Algebra.Order.Field.Power
import Mathlib.Data.Nat.Cast.Order.Field
import Mathlib.Data.Rat.Cast.Order
import Mathlib.Tactic.FieldSimp
import Mathlib.Tactic.Linarith
import Mathlib.Tactic.NormNum
import Mathlib.Tactic.Positivity
import Mathlib.Tactic.Ring
import Nodeless.Number.Binary64

/-!
# The size of the nearest value

What the nearest value to a fraction tells of its size: that it is zero where no other value is as near,
and else, unless it is past the greatest value, about the fraction.
-/

namespace Nodeless.Binary64

/-! ## Integers -/

theorem nearestInteger_eq_zero_iff {den : Nat} (hden : 0 < den) (num : Nat) :
    nearestInteger num den = 0 ↔ 2 * num ≤ den := by
  unfold nearestInteger
  dsimp only
  constructor
  · intro h
    split at h
    · next hdown =>
      have hmod := Nat.mod_eq_of_lt (Nat.div_eq_zero_iff_lt hden |>.mp h)
      omega
    · cases h
  · intro h
    have hlt : num < den := by omega
    rw [Nat.div_eq_of_lt hlt, Nat.mod_eq_of_lt hlt, if_pos (by omega)]

theorem nearestInteger_bounds {num den : Nat} (hden : 0 < den) (h : den ≤ num) :
    num ≤ 2 * (nearestInteger num den * den) ∧ nearestInteger num den * den ≤ 2 * num := by
  have hbelow : num / den * den ≤ num := Nat.div_mul_le_self num den
  have habove : num < num / den * den + den := Nat.lt_div_mul_add hden
  have hone : den ≤ num / den * den := Nat.le_mul_of_pos_left den (Nat.div_pos h hden)
  unfold nearestInteger
  dsimp only
  split
  · omega
  · rw [Nat.add_mul, Nat.one_mul]
    omega

/-! ## Units -/

section

variable {num den : Nat}

theorem inUnits_snd_pos (hden : 0 < den) (num : Nat) (exponent : Int) : 0 < (inUnits num den exponent).2 := by
  simp [inUnits, hden]

theorem inUnits_div (num den : Nat) (exponent : Int) :
    ((inUnits num den exponent).1 : ℚ) / (inUnits num den exponent).2 = num / den * 2 ^ (-exponent) := by
  obtain ⟨n, rfl | rfl⟩ := exponent.eq_nat_or_neg
  · simp only [inUnits, Int.toNat_neg_natCast, Int.toNat_natCast, Nat.pow_eq, pow_zero, mul_one, Nat.cast_mul,
      Nat.cast_pow, Nat.cast_ofNat, zpow_neg, zpow_natCast]
    rw [div_mul_eq_div_div, div_eq_mul_inv _ ((2 : ℚ) ^ n)]
  · simp only [inUnits, neg_neg, Int.toNat_neg_natCast, Int.toNat_natCast, Nat.pow_eq, pow_zero, mul_one, Nat.cast_mul,
      Nat.cast_pow, Nat.cast_ofNat, zpow_natCast]
    rw [mul_div_right_comm]

/-- The exponent that the nearest value to a fraction is looked for with. -/
def roundingExponent (num den : Nat) : Int :=
  let least := max leastExponent ((num.log2 : Int) - den.log2 - 53)
  let units := inUnits num den least
  if units.1 / units.2 < Nat.pow 2 53 then least else least + 1

def rounded (num den : Nat) : Nat :=
  let units := inUnits num den (roundingExponent num den)
  nearestInteger units.1 units.2

/-- The value of a mantissa that may be rounded up to one bit more than there is room for. -/
def ofRounded (negative : Bool) (mantissa : Nat) (exponent : Int) : Binary64 :=
  let (mantissa, exponent) :=
    if mantissa = Nat.pow 2 53 then (Nat.pow 2 52, exponent + 1) else (mantissa, exponent)
  if greatestExponent < exponent then .infinite negative
  else .finite negative mantissa exponent

theorem nearest_eq_ofRounded (hnum : num ≠ 0) (negative : Bool) :
    nearest negative num den = ofRounded negative (rounded num den) (roundingExponent num den) := by
  rw [nearest, if_neg hnum]
  rfl

theorem nearest_ne_nan (negative : Bool) (num den : Nat) : nearest negative num den ≠ .nan := by
  by_cases hnum : num = 0
  · rw [nearest, if_pos hnum, zero]
    simp
  · rw [nearest_eq_ofRounded hnum, ofRounded]
    dsimp only
    generalize (if rounded num den = Nat.pow 2 53 then (Nat.pow 2 52, roundingExponent num den + 1)
      else (rounded num den, roundingExponent num den)) = carried
    split <;> simp

theorem two_zpow_log2_le (hnum : num ≠ 0) (hden : 0 < den) :
    (2 : ℚ) ^ ((num.log2 : Int) - den.log2 - 1) ≤ num / den := by
  have hlow : (2 : ℚ) ^ num.log2 ≤ num := by exact_mod_cast Nat.log2_self_le hnum
  have hhigh : (den : ℚ) ≤ 2 ^ (den.log2 + 1) := by exact_mod_cast Nat.lt_log2_self.le
  calc (2 : ℚ) ^ ((num.log2 : Int) - den.log2 - 1) = 2 ^ num.log2 / 2 ^ (den.log2 + 1) := by
        rw [sub_sub, zpow_sub₀ two_ne_zero, zpow_natCast, ← zpow_natCast 2 (den.log2 + 1)]
        rfl
    _ ≤ num / den := by gcongr

theorem leastExponent_le_roundingExponent (num den : Nat) : leastExponent ≤ roundingExponent num den := by
  unfold roundingExponent
  dsimp only
  split <;> omega

theorem roundingExponent_le (num den : Nat) :
    roundingExponent num den ≤ max leastExponent ((num.log2 : Int) - den.log2 - 53) + 1 := by
  unfold roundingExponent
  dsimp only
  split <;> omega

theorem roundingExponent_eq_or (hnum : num ≠ 0) (hden : 0 < den) :
    roundingExponent num den = leastExponent ∨ (1 : ℚ) ≤ num / den * 2 ^ (-roundingExponent num den) := by
  unfold roundingExponent
  dsimp only
  generalize hleast : max leastExponent ((num.log2 : Int) - den.log2 - 53) = least
  split
  · rcases max_choice leastExponent ((num.log2 : Int) - den.log2 - 53) with hmax | hmax
    · exact .inl (hleast.symm.trans hmax)
    · right
      rw [← hleast, hmax]
      calc (1 : ℚ) ≤ 2 ^ ((num.log2 : Int) - den.log2 - 1) * 2 ^ (-((num.log2 : Int) - den.log2 - 53)) := by
            rw [← zpow_add₀ two_ne_zero]
            exact one_le_zpow₀ one_le_two (by omega)
        _ ≤ _ := by gcongr; exact two_zpow_log2_le hnum hden
  · next hlarge =>
    right
    have hunits : ((Nat.pow 2 53 : Nat) : ℚ) ≤ num / den * 2 ^ (-least) := by
      rw [← inUnits_div]
      exact (Nat.cast_le.mpr (Nat.not_lt.mp hlarge)).trans Nat.cast_div_le
    rw [neg_add, zpow_add₀ two_ne_zero, ← mul_assoc]
    norm_num at hunits ⊢
    linarith

theorem rounded_eq_zero_iff (hden : 0 < den) (num : Nat) :
    rounded num den = 0 ↔ (num / den * 2 ^ (-roundingExponent num den) : ℚ) ≤ 1 / 2 := by
  have hunits := inUnits_snd_pos hden num (roundingExponent num den)
  rw [rounded, nearestInteger_eq_zero_iff hunits, ← inUnits_div, div_le_div_iff₀ (by exact_mod_cast hunits) two_pos,
    one_mul, mul_comm]
  exact_mod_cast Iff.rfl

theorem rounded_near (hden : 0 < den) (hone : (1 : ℚ) ≤ num / den * 2 ^ (-roundingExponent num den)) :
    (num / den / 2 : ℚ) ≤ rounded num den * 2 ^ roundingExponent num den ∧
      (rounded num den : ℚ) * 2 ^ roundingExponent num den ≤ 2 * (num / den) := by
  have hunits := inUnits_snd_pos hden num (roundingExponent num den)
  have hpos : (0 : ℚ) < (inUnits num den (roundingExponent num den)).2 := by exact_mod_cast hunits
  have hdiv := inUnits_div num den (roundingExponent num den)
  rw [← hdiv, one_le_div hpos] at hone
  obtain ⟨hlow, hhigh⟩ := nearestInteger_bounds hunits (by exact_mod_cast hone)
  rw [zpow_neg, ← div_eq_mul_inv, eq_div_iff (by positivity)] at hdiv
  rw [← hdiv, rounded]
  generalize inUnits num den (roundingExponent num den) = units at *
  have hbelow : (units.1 / units.2 : ℚ) ≤ 2 * nearestInteger units.1 units.2 := by
    rw [div_le_iff₀ hpos, mul_assoc]
    exact_mod_cast hlow
  have habove : (nearestInteger units.1 units.2 : ℚ) ≤ 2 * (units.1 / units.2) := by
    rw [← mul_div_assoc, le_div_iff₀ hpos]
    exact_mod_cast hhigh
  have hunit : (0 : ℚ) ≤ 2 ^ roundingExponent num den := by positivity
  have hbelow := mul_le_mul_of_nonneg_right hbelow hunit
  have habove := mul_le_mul_of_nonneg_right habove hunit
  constructor <;> linarith

/-! ## Zero -/

theorem isZero_ofRounded_iff (negative : Bool) (mantissa : Nat) (exponent : Int) :
    (ofRounded negative mantissa exponent).isZero = true ↔ mantissa = 0 ∧ exponent ≤ greatestExponent := by
  unfold ofRounded
  by_cases hcarry : mantissa = Nat.pow 2 53
  · rw [if_pos hcarry, hcarry]
    dsimp only
    split <;> simp [isZero]
  · rw [if_neg hcarry]
    dsimp only
    split <;> simp [isZero] <;> omega

theorem isZero_nearest_iff (hden : 0 < den) (num : Nat) (negative : Bool) :
    (nearest negative num den).isZero = true ↔ (num / den : ℚ) ≤ 2 ^ (-1075 : Int) := by
  by_cases hnum : num = 0
  · subst hnum
    refine iff_of_true rfl ?_
    rw [Nat.cast_zero, zero_div]
    positivity
  rw [nearest_eq_ofRounded hnum, isZero_ofRounded_iff, rounded_eq_zero_iff hden]
  have hhalf : (2 : ℚ) ^ (-1075 : Int) = 1 / 2 * 2 ^ (-1074 : Int) := by
    rw [show (-1075 : Int) = -1 + -1074 from rfl, zpow_add₀ two_ne_zero, zpow_neg_one, one_div]
  rcases roundingExponent_eq_or hnum hden with hleast | hone
  · rw [hleast, hhalf, zpow_neg, ← div_eq_mul_inv, div_le_iff₀ (by positivity)]
    exact and_iff_left (by decide)
  · refine iff_of_false ?_ ?_
    · rintro ⟨hsmall, -⟩
      linarith
    · have hleast := leastExponent_le_roundingExponent num den
      rw [zpow_neg, ← div_eq_mul_inv, one_le_div (by positivity)] at hone
      have : (2 : ℚ) ^ (-1074 : Int) ≤ 2 ^ roundingExponent num den := zpow_le_zpow_right₀ one_le_two hleast
      have : (0 : ℚ) < 2 ^ (-1074 : Int) := by positivity
      rw [not_le, hhalf]
      linarith

/-! ## Size -/

/-- The value is finite, and within a factor of two of a fraction. -/
def Near (b : Binary64) (q : ℚ) : Prop :=
  ∃ negative mantissa exponent, b = .finite negative mantissa exponent ∧
    q / 2 ≤ mantissa * 2 ^ exponent ∧ (mantissa : ℚ) * 2 ^ exponent ≤ 2 * q

theorem near_ofRounded (negative : Bool) {mantissa : Nat} {exponent : Int} {q : ℚ}
    (hexponent : exponent < greatestExponent) (hlow : q / 2 ≤ mantissa * 2 ^ exponent)
    (hhigh : (mantissa : ℚ) * 2 ^ exponent ≤ 2 * q) : Near (ofRounded negative mantissa exponent) q := by
  unfold ofRounded
  by_cases hcarry : mantissa = Nat.pow 2 53
  · have hvalue : ((Nat.pow 2 52 : Nat) : ℚ) * 2 ^ (exponent + 1) = mantissa * 2 ^ exponent := by
      rw [hcarry, zpow_add₀ two_ne_zero]
      norm_num
      ring
    rw [if_pos hcarry]
    dsimp only
    rw [if_neg (by omega)]
    exact ⟨negative, _, _, rfl, by rwa [hvalue], by rwa [hvalue]⟩
  · rw [if_neg hcarry]
    dsimp only
    rw [if_neg (by omega)]
    exact ⟨negative, _, _, rfl, hlow, hhigh⟩

theorem nearest_near (hden : 0 < den) (negative : Bool) (hlow : (2 : ℚ) ^ (-1074 : Int) ≤ num / den)
    (hhigh : (num / den : ℚ) ≤ 2 ^ (1021 : Int)) : Near (nearest negative num den) (num / den) := by
  have hnum : num ≠ 0 := by
    rintro rfl
    rw [Nat.cast_zero, zero_div] at hlow
    exact absurd hlow (not_le.mpr (by positivity))
  have hexponent : roundingExponent num den < greatestExponent := by
    have hlog := (zpow_le_zpow_iff_right₀ one_lt_two).mp ((two_zpow_log2_le hnum hden).trans hhigh)
    have hle := roundingExponent_le num den
    simp only [leastExponent, greatestExponent] at hle ⊢
    omega
  have hone : (1 : ℚ) ≤ num / den * 2 ^ (-roundingExponent num den) := by
    rcases roundingExponent_eq_or hnum hden with hleast | hone
    · rw [hleast, zpow_neg, ← div_eq_mul_inv, one_le_div (by positivity)]
      exact hlow
    · exact hone
  obtain ⟨hbelow, habove⟩ := rounded_near hden hone
  rw [nearest_eq_ofRounded hnum]
  exact near_ofRounded negative hexponent hbelow habove

end

/-! ## Decimals -/

section

variable {digits : Nat}

theorem ofDecimal_ne_nan (negative : Bool) (digits : Nat) (exponent : Int) :
    ofDecimal negative digits exponent ≠ .nan := by
  unfold ofDecimal
  dsimp only
  split
  · simp [zero]
  · split
    · simp
    · exact nearest_ne_nan _ _ _

theorem decimal_div (digits : Nat) (exponent : Int) :
    ((digits * Nat.pow 10 exponent.toNat : Nat) : ℚ) / (Nat.pow 10 (-exponent).toNat : Nat) =
      digits * 10 ^ exponent := by
  obtain ⟨n, rfl | rfl⟩ := exponent.eq_nat_or_neg <;> simp [div_eq_mul_inv]

theorem decimal_lt (digits : Nat) (exponent : Int) :
    (digits * 10 ^ exponent : ℚ) < 10 ^ (exponent + (Nat.toDigits 10 digits).length) := by
  have hdigits : digits < 10 ^ (Nat.toDigits 10 digits).length :=
    (Nat.length_toDigits_le_iff (by decide) Nat.length_toDigits_pos).mp le_rfl
  rw [add_comm, zpow_add₀ (by norm_num), zpow_natCast]
  gcongr
  exact_mod_cast hdigits

theorem le_decimal (hdigits : digits ≠ 0) (exponent : Int) :
    (10 ^ (exponent + (Nat.toDigits 10 digits).length - 1) : ℚ) ≤ digits * 10 ^ exponent := by
  obtain ⟨length, hlength⟩ := Nat.exists_eq_add_of_lt (Nat.length_toDigits_pos (b := 10) (n := digits))
  have hlow : 10 ^ length ≤ digits := by
    cases length with
    | zero => exact Nat.pos_of_ne_zero hdigits
    | succ length =>
      refine Nat.not_lt.mp fun hlt => ?_
      have hle := (Nat.length_toDigits_le_iff (by decide) length.succ_pos).mpr hlt
      omega
  rw [hlength, show exponent + ((0 + length + 1 : Nat) : Int) - 1 = length + exponent by omega,
    zpow_add₀ (by norm_num), zpow_natCast]
  gcongr
  exact_mod_cast hlow

theorem isZero_ofDecimal_iff (negative : Bool) (digits : Nat) (exponent : Int) :
    (ofDecimal negative digits exponent).isZero = true ↔ (digits * 10 ^ exponent : ℚ) ≤ 2 ^ (-1075 : Int) := by
  by_cases hdigits : digits = 0
  · subst hdigits
    refine iff_of_true rfl ?_
    rw [Nat.cast_zero, zero_mul]
    positivity
  unfold ofDecimal
  dsimp only
  split
  · next hsmall =>
    refine iff_of_true rfl ((decimal_lt digits exponent).le.trans ?_)
    have hpowers : (2 : ℚ) ^ 1075 ≤ 10 ^ 331 := by exact_mod_cast (by decide +kernel : 2 ^ 1075 ≤ 10 ^ 331)
    calc (10 : ℚ) ^ (exponent + (Nat.toDigits 10 digits).length) ≤ 10 ^ (-331 : Int) :=
          zpow_le_zpow_right₀ (by norm_num) (by omega)
      _ = (10 ^ 331)⁻¹ := by rw [zpow_neg]; rfl
      _ ≤ (2 ^ 1075)⁻¹ := by gcongr
      _ = 2 ^ (-1075 : Int) := by rw [zpow_neg]; rfl
  · split
    · next hlarge =>
      refine iff_of_false Bool.false_ne_true (not_le.mpr ?_)
      calc (2 : ℚ) ^ (-1075 : Int) < 1 := zpow_lt_one_of_neg₀ one_lt_two (by decide)
        _ ≤ 10 ^ (exponent + (Nat.toDigits 10 digits).length - 1) := one_le_zpow₀ (by norm_num) (by omega)
        _ ≤ digits * 10 ^ exponent := le_decimal hdigits exponent
    · have hden : 0 < Nat.pow 10 (-exponent).toNat := Nat.pow_pos (by decide)
      rw [isZero_nearest_iff hden, decimal_div]

end

end Nodeless.Binary64
