import Nodeless.Proofs.Json.Numerals
import Nodeless.Proofs.Number.Magnitude

/-!
# The size of a number of JSON

JSON finds the value of a number in steps, each of them rounded, and refuses a number that is too large
for one of them. It sees whether a number is zero, as long as the number is written short.
-/

namespace Nodeless

namespace Binary64

theorem fraction_div (mantissa : Nat) (exponent : Int) :
    ((fraction mantissa exponent).1 : ℚ) / (fraction mantissa exponent).2 = mantissa * 2 ^ exponent := by
  obtain ⟨n, rfl | rfl⟩ := exponent.eq_nat_or_neg <;> simp [fraction, div_eq_mul_inv]

theorem Near.exists_finite {b : Binary64} {q : ℚ} (h : Near b q) (hq : 0 < q) :
    ∃ negative mantissa exponent, b = .finite negative mantissa exponent ∧ mantissa ≠ 0 := by
  obtain ⟨negative, mantissa, exponent, rfl, hlow, -⟩ := h
  refine ⟨negative, mantissa, exponent, rfl, ?_⟩
  rintro rfl
  rw [Nat.cast_zero, zero_mul] at hlow
  linarith

theorem digitsValue_eq_zero_iff (digits : List Char) :
    digitsValue digits = 0 ↔ ∀ c ∈ digits, digitValue c = 0 := by
  have hfold (value : Nat) : digits.foldl (fun value c => 10 * value + digitValue c) value = 0 ↔
      value = 0 ∧ ∀ c ∈ digits, digitValue c = 0 := by
    induction digits generalizing value with
    | nil => simp
    | cons c digits ih =>
      rw [List.foldl_cons, ih, List.forall_mem_cons, Nat.add_eq_zero_iff, ← and_assoc]
      simp
  rw [digitsValue, hfold]
  simp

end Binary64

namespace Json

open Binary64

/-! ## The digits that count -/

theorem absorb_lt {value : Nat} (h : value < Nat.pow 2 64) (digits : List Char) :
    (absorb value digits).1 < Nat.pow 2 64 := by
  fun_induction absorb value digits with
  | case1 => exact h
  | case2 _ _ _ _ hnext _ ih => exact ih hnext
  | case3 => exact h

theorem absorb_snd_le (value : Nat) (digits : List Char) : (absorb value digits).2 ≤ digits.length := by
  fun_induction absorb value digits with
  | case1 => exact le_rfl
  | case2 _ _ _ _ _ _ ih => exact Nat.succ_le_succ ih
  | case3 => exact Nat.zero_le _

theorem digitValue_lt (c : Char) : digitValue c < Nat.pow 2 64 := by
  have hc : c.toNat < 2 ^ 32 := c.val.toNat_lt
  simp only [digitValue, Nat.pow_eq]
  omega

theorem absorb_eq_zero_iff (value : Nat) (digits : List Char) :
    (absorb value digits).1 = 0 ↔ value = 0 ∧ ∀ c ∈ digits, digitValue c = 0 := by
  induction digits generalizing value with
  | nil => simp [absorb]
  | cons c digits ih =>
    have hzero : 10 * value + digitValue c = 0 ↔ value = 0 ∧ digitValue c = 0 := by omega
    rw [absorb, List.forall_mem_cons, ← and_assoc, ← hzero]
    dsimp only
    split
    · exact ih _
    · next hfull =>
      have hdigit := digitValue_lt c
      refine iff_of_false ?_ ?_
      · rintro rfl
        omega
      · rintro ⟨hnext, -⟩
        exact hfull (by rw [hnext]; decide)

/-- The number below 2 ^ 64 that counts of the digits of a number. -/
def NumberParts.significand (parts : NumberParts) : Nat :=
  (absorb (absorb 0 parts.whole).1 parts.fraction).1

/-- The power of ten that it is taken times. -/
def NumberParts.place (parts : NumberParts) : Int :=
  parts.exponent + (parts.whole.length - (absorb 0 parts.whole).2 : Nat) -
    (absorb (absorb 0 parts.whole).1 parts.fraction).2

theorem significand_eq_zero_iff (parts : NumberParts) :
    parts.significand = 0 ↔ digitsValue (parts.whole ++ parts.fraction) = 0 := by
  rw [NumberParts.significand, absorb_eq_zero_iff, absorb_eq_zero_iff, digitsValue_eq_zero_iff, List.forall_mem_append]
  simp

theorem significand_lt (parts : NumberParts) : parts.significand < 2 ^ 64 :=
  absorb_lt (absorb_lt (by decide) parts.whole) parts.fraction

/-- How many characters the digits of a number and the size of its exponent come to. -/
def NumberParts.extent (parts : NumberParts) : Nat :=
  parts.whole.length + parts.fraction.length + parts.exponent.natAbs

theorem natAbs_place_le (parts : NumberParts) : parts.place.natAbs ≤ parts.extent := by
  have hfraction := absorb_snd_le (absorb 0 parts.whole).1 parts.fraction
  simp only [NumberParts.place, NumberParts.extent]
  omega

/-! ## Steps -/

theorem near_power {place : Nat} (hplace : place ≤ 307) : Near (power place) (10 ^ place) := by
  have hpowers : (10 : ℚ) ^ 307 ≤ 2 ^ 1021 := by exact_mod_cast (by decide +kernel : 10 ^ 307 ≤ 2 ^ 1021)
  have hlength : (Nat.toDigits 10 1).length = 1 := by decide
  have hlow : ¬(1 = 0 ∨ (place : Int) + 1 < -330) := by omega
  have hhigh : ¬310 < (place : Int) + 1 := by omega
  have hdiv := decimal_div 1 place
  rw [Nat.cast_one, one_mul (10 ^ _), zpow_natCast] at hdiv
  rw [power, ofDecimal, hlength, Nat.cast_one, if_neg hlow, if_neg hhigh, ← hdiv]
  have hden : 0 < Nat.pow 10 (-(place : Int)).toNat := Nat.pow_pos (by decide)
  refine nearest_near hden false ?_ ?_
  · rw [hdiv]
    exact (zpow_le_one_of_nonpos₀ one_le_two (by decide)).trans (one_le_pow₀ (by norm_num))
  · rw [hdiv]
    exact (pow_le_pow_right₀ (by norm_num) hplace).trans hpowers

theorem near_integer {n : Nat} (hpos : 0 < n) (hn : n < 2 ^ 64) : Near (nearest false n 1) n := by
  have hnear : Near (nearest false n 1) ((n : ℚ) / (1 : Nat)) := by
    refine nearest_near one_pos false ?_ ?_ <;> rw [Nat.cast_one, div_one]
    · exact (zpow_le_one_of_nonpos₀ one_le_two (by decide)).trans (by exact_mod_cast hpos)
    · calc (n : ℚ) ≤ 2 ^ 64 := by exact_mod_cast hn.le
        _ ≤ 2 ^ (1021 : Int) := pow_le_pow_right₀ one_le_two (by decide)
  rwa [Nat.cast_one, div_one] at hnear

/-- What two values come to, over one another or times. -/
def outcome (divide : Bool) (p q : ℚ) : ℚ := if divide then p / q else p * q

theorem outcome_bounds {p q v w : ℚ} (hp : 0 < p) (hq : 0 < q) (hv : p / 2 ≤ v ∧ v ≤ 2 * p)
    (hw : q / 2 ≤ w ∧ w ≤ 2 * q) (divide : Bool) :
    outcome divide p q / 4 ≤ outcome divide v w ∧ outcome divide v w ≤ 4 * outcome divide p q := by
  obtain ⟨hvlow, hvhigh⟩ := hv
  obtain ⟨hwlow, hwhigh⟩ := hw
  have hvpos : 0 < v := by linarith
  have hwpos : 0 < w := by linarith
  cases divide with
  | false =>
    constructor
    · calc p * q / 4 = p / 2 * (q / 2) := by ring
        _ ≤ v * w := by gcongr
    · calc v * w ≤ 2 * p * (2 * q) := by gcongr
        _ = 4 * (p * q) := by ring
  | true =>
    constructor
    · calc p / q / 4 = p / 2 / (2 * q) := by field_simp; norm_num
        _ ≤ v / w := by gcongr
    · calc v / w ≤ 2 * p / (q / 2) := by gcongr
        _ = 4 * (p / q) := by field_simp; norm_num

theorem combine_finite (divide negative negative' : Bool) (m n : Nat) (e f : Int) :
    ∃ num den, combine divide (.finite negative m e) (.finite negative' n f) = nearest false num den ∧
      (num / den : ℚ) = outcome divide (m * 2 ^ e) (n * 2 ^ f) := by
  rw [← fraction_div m e, ← fraction_div n f]
  cases divide with
  | false => exact ⟨_, _, rfl, by simp only [outcome, Nat.cast_mul, div_mul_div_comm]; rfl⟩
  | true => exact ⟨_, _, rfl, by simp only [outcome, Nat.cast_mul, div_div_div_eq]; rfl⟩

theorem exists_near_combine {a b : Binary64} {p q : ℚ} (ha : Near a p) (hb : Near b q) (hp : 0 < p) (hq : 0 < q)
    (divide : Bool) (hlow : (2 : ℚ) ^ (-1072 : Int) ≤ outcome divide p q)
    (hhigh : outcome divide p q ≤ 2 ^ (1019 : Int)) : ∃ r, 0 < r ∧ Near (combine divide a b) r := by
  obtain ⟨negative, m, e, rfl, hv⟩ := ha
  obtain ⟨negative', n, f, rfl, hw⟩ := hb
  obtain ⟨hbelow, habove⟩ := outcome_bounds hp hq hv hw divide
  obtain ⟨num, den, hcombine, hdiv⟩ := combine_finite divide negative negative' m n e f
  have hleast : (2 : ℚ) ^ (-1074 : Int) = 2 ^ (-1072 : Int) / 4 := by
    rw [show (-1074 : Int) = -1072 - 2 from rfl, zpow_sub₀ two_ne_zero]
    norm_num
  have hgreatest : (2 : ℚ) ^ (1021 : Int) = 4 * 2 ^ (1019 : Int) := by
    rw [show (1021 : Int) = 2 + 1019 from rfl, zpow_add₀ two_ne_zero]
    norm_num
  have hlow' : (2 : ℚ) ^ (-1074 : Int) ≤ num / den := by
    rw [hdiv]
    linarith
  have hpos : (0 : ℚ) < num / den := lt_of_lt_of_le (by positivity) hlow'
  have hden : 0 < den := by
    refine Nat.pos_of_ne_zero ?_
    rintro rfl
    simp at hpos
  refine ⟨num / den, hpos, ?_⟩
  rw [hcombine]
  refine nearest_near hden false hlow' ?_
  rw [hdiv, hgreatest]
  exact habove.trans (by gcongr)

theorem ten_pow_le : (10 : ℚ) ^ 280 ≤ 2 ^ 931 := by
  exact_mod_cast (by decide +kernel : 10 ^ 280 ≤ 2 ^ 931)

theorem outcome_in_range {n k : Nat} (hpos : 0 < n) (hn : n < 2 ^ 64) (hk : k ≤ 280) (divide : Bool) :
    (2 : ℚ) ^ (-1072 : Int) ≤ outcome divide n (10 ^ k) ∧ outcome divide n (10 ^ k) ≤ 2 ^ (1019 : Int) := by
  have hone : (1 : ℚ) ≤ n := by exact_mod_cast hpos
  have hsmall : (n : ℚ) ≤ 2 ^ 64 := by exact_mod_cast hn.le
  have hten : (1 : ℚ) ≤ 10 ^ k := one_le_pow₀ (by norm_num)
  have hpower : (10 : ℚ) ^ k ≤ 2 ^ 931 := (pow_le_pow_right₀ (by norm_num) hk).trans ten_pow_le
  cases divide with
  | false =>
    constructor
    · exact (zpow_le_one_of_nonpos₀ one_le_two (by decide)).trans (one_le_mul_of_one_le_of_one_le hone hten)
    · calc (n : ℚ) * 10 ^ k ≤ 2 ^ 64 * 2 ^ 931 := by gcongr
        _ = 2 ^ 995 := by rw [← pow_add]
        _ ≤ 2 ^ (1019 : Int) := pow_le_pow_right₀ one_le_two (by decide)
  | true =>
    constructor
    · calc (2 : ℚ) ^ (-1072 : Int) ≤ 2 ^ (-931 : Int) := zpow_le_zpow_right₀ one_le_two (by decide)
        _ = 1 / 2 ^ 931 := by rw [zpow_neg, one_div]; rfl
        _ ≤ n / 10 ^ k := by gcongr
    · calc (n : ℚ) / 10 ^ k ≤ n := div_le_self (by positivity) hten
        _ ≤ 2 ^ 64 := hsmall
        _ ≤ 2 ^ (1019 : Int) := pow_le_pow_right₀ one_le_two (by decide)

theorem exists_combine_power {n k : Nat} (hpos : 0 < n) (hn : n < 2 ^ 64) (hk : k ≤ 280) (divide : Bool) :
    ∃ negative mantissa exponent,
      combine divide (nearest false n 1) (power k) = .finite negative mantissa exponent ∧ mantissa ≠ 0 := by
  have hvpos : (0 : ℚ) < n := by exact_mod_cast hpos
  have hpower : Near (power k) (10 ^ k) := near_power (hk.trans (by decide))
  obtain ⟨hlow, hhigh⟩ := outcome_in_range hpos hn hk divide
  obtain ⟨r, hr, hnear⟩ :=
    exists_near_combine (near_integer hpos hn) hpower hvpos (by positivity) divide hlow hhigh
  exact hnear.exists_finite hr

/-! ## The value -/

theorem exists_scale_finite {n : Nat} (hpos : 0 < n) (hn : n < 2 ^ 64) {place : Int} (hplace : place.natAbs ≤ 280) :
    ∃ negative mantissa exponent,
      scale (nearest false n 1) place = .finite negative mantissa exponent ∧ mantissa ≠ 0 := by
  have hzero : (nearest false n 1).isZero = false := by
    obtain ⟨_, _, _, heq, hmantissa⟩ := (near_integer hpos hn).exists_finite (by exact_mod_cast hpos)
    simpa [heq, isZero] using hmantissa
  rw [scale, if_neg (by simp [hzero]), if_neg (by omega)]
  split
  · exact exists_combine_power hpos hn (by omega) false
  · rw [if_pos (by omega)]
    exact exists_combine_power hpos hn (by omega) true

theorem numberValue?_eq (parts : NumberParts) :
    numberValue? parts =
      match scale (nearest false parts.significand 1) parts.place with
      | .finite _ mantissa exponent => some (.finite parts.negative mantissa exponent)
      | _ => none := rfl

theorem numberValue?_of_zero {parts : NumberParts} (h : digitsValue (parts.whole ++ parts.fraction) = 0) :
    numberValue? parts = some (zero parts.negative) := by
  rw [numberValue?_eq, (significand_eq_zero_iff parts).mpr h, scale]
  rfl

theorem exists_numberValue?_of_extent_le {parts : NumberParts} (h : digitsValue (parts.whole ++ parts.fraction) ≠ 0)
    (hshort : parts.extent ≤ 280) : ∃ n, numberValue? parts = some n ∧ n.isZero = false := by
  have hpos : 0 < parts.significand := Nat.pos_of_ne_zero (mt (significand_eq_zero_iff parts).mp h)
  obtain ⟨negative, mantissa, exponent, hscale, hmantissa⟩ :=
    exists_scale_finite hpos (significand_lt parts) ((natAbs_place_le parts).trans hshort)
  refine ⟨.finite parts.negative mantissa exponent, by rw [numberValue?_eq, hscale], ?_⟩
  simpa [isZero] using hmantissa

theorem numberValue?_ne_nan {parts : NumberParts} {n : Binary64} (h : numberValue? parts = some n) : n ≠ .nan := by
  rw [numberValue?_eq] at h
  split at h
  · cases h
    simp
  · cases h

/-! ## The size -/

/-- The size of a number, without its sign. -/
def NumberParts.size (parts : NumberParts) : ℚ :=
  digitsValue (parts.whole ++ parts.fraction) * 10 ^ (parts.exponent - parts.fraction.length)

theorem NumberParts.lt_size {parts : NumberParts} (h : digitsValue (parts.whole ++ parts.fraction) ≠ 0)
    (hshort : parts.extent ≤ 280) : (2 : ℚ) ^ (-1075 : Int) < parts.size := by
  have hone : (1 : ℚ) ≤ digitsValue (parts.whole ++ parts.fraction) := by
    exact_mod_cast Nat.pos_of_ne_zero h
  have hplace : -280 ≤ parts.exponent - parts.fraction.length := by
    unfold NumberParts.extent at hshort
    omega
  calc (2 : ℚ) ^ (-1075 : Int) < 2 ^ (-931 : Int) := zpow_lt_zpow_right₀ one_lt_two (by decide)
    _ = (2 ^ 931)⁻¹ := by rw [zpow_neg]; rfl
    _ ≤ (10 ^ 280)⁻¹ := by gcongr; exact ten_pow_le
    _ = 10 ^ (-280 : Int) := by rw [zpow_neg]; rfl
    _ ≤ 10 ^ (parts.exponent - parts.fraction.length) := zpow_le_zpow_right₀ (by norm_num) hplace
    _ ≤ parts.size := le_mul_of_one_le_left (by positivity) hone

end Json

end Nodeless
