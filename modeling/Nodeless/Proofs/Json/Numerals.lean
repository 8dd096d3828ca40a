import Nodeless.Proofs.Json.Strings
import Nodeless.Proofs.Number.Decimal

/-!
# Numbers as JSON writes them

JSON has fewer ways to write a number than the command line: no plus sign, no needless zero, and digits on
both sides of a point. What it writes is one token.
-/

namespace Nodeless

open Binary64

namespace Json

/-! ## The grammar -/

/-- A number, and its parts. -/
inductive IsNumber : List Char → NumberParts → Prop
  | parts {sign point exponent : List Char} {parts : NumberParts} (hsign : IsSign sign parts.negative)
      (hplus : sign ≠ ['+']) (hne : parts.whole ≠ []) (hwhole : ∀ c ∈ parts.whole, c.isDigit = true)
      (hzero : parts.whole.head? = some '0' → parts.whole = ['0']) (hfraction : IsFraction point parts.fraction)
      (hpoint : point ≠ ['.']) (hexponent : IsExponent exponent parts.exponent) :
      IsNumber (sign ++ (parts.whole ++ (point ++ exponent))) parts

theorem IsNumber.isDecimal {raw : List Char} {parts : NumberParts} (h : IsNumber raw parts) :
    IsDecimal raw parts.negative (digitsValue (parts.whole ++ parts.fraction))
      (parts.exponent - parts.fraction.length) := by
  obtain ⟨hsign, -, hne, hwhole, -, hfraction, -, hexponent⟩ := h
  exact .parts hsign hwhole hfraction (by simp [hne]) hexponent

/-- The parts of a number behind its sign. -/
def unsignedParts? (negative : Bool) (body : List Char) : Option NumberParts :=
  let (whole, rest) := splitDigits body
  let (fraction, exponent) := splitFraction rest
  if whole.isEmpty || (whole.head? = some '0' && whole.length ≠ 1) || fraction = some [] then none
  else
    (exponent? exponent).map fun value =>
      { negative, whole, fraction := fraction.getD [], exponent := value }

theorem numberParts?_minus (body : List Char) : numberParts? ('-' :: body) = unsignedParts? true body := rfl

theorem numberParts?_of_ne {c : Char} (h : c ≠ '-') (cs : List Char) :
    numberParts? (c :: cs) = unsignedParts? false (c :: cs) := by
  simp [numberParts?, unsignedParts?, h]

theorem unsignedParts?_of_isNumber {point exponent : List Char} {parts : NumberParts} (hne : parts.whole ≠ [])
    (hwhole : ∀ c ∈ parts.whole, c.isDigit = true) (hzero : parts.whole.head? = some '0' → parts.whole = ['0'])
    (hfraction : IsFraction point parts.fraction) (hpoint : point ≠ ['.'])
    (hexponent : IsExponent exponent parts.exponent) :
    unsignedParts? parts.negative (parts.whole ++ (point ++ exponent)) = some parts := by
  have hneedless : ¬(parts.whole.head? = some '0' ∧ parts.whole.length ≠ 1) := by
    rintro ⟨hhead, hlength⟩
    exact hlength (by rw [hzero hhead]; rfl)
  have hfull : ¬(if point = [] then none else some parts.fraction) = some [] := by
    generalize parts.fraction = fraction at hfraction
    cases hfraction with
    | absent => simp
    | present _ => simpa using hpoint
  simp only [unsignedParts?, splitDigits_append hwhole (hfraction.noDigit_append hexponent),
    splitFraction_append hfraction hexponent, hfraction.getD_eq, (exponent?_eq_some_iff _ _).mpr hexponent]
  rw [if_neg, Option.map_some]
  simp only [Bool.or_eq_true, Bool.and_eq_true, decide_eq_true_eq, List.isEmpty_iff]
  exact not_or.mpr ⟨not_or.mpr ⟨hne, hneedless⟩, hfull⟩

theorem exists_of_unsignedParts? {negative : Bool} {body : List Char} {parts : NumberParts}
    (h : unsignedParts? negative body = some parts) :
    parts.negative = negative ∧ ∃ point exponent,
      body = parts.whole ++ (point ++ exponent) ∧ parts.whole ≠ [] ∧
      (∀ c ∈ parts.whole, c.isDigit = true) ∧ (parts.whole.head? = some '0' → parts.whole = ['0']) ∧
      IsFraction point parts.fraction ∧ point ≠ ['.'] ∧ IsExponent exponent parts.exponent := by
  obtain ⟨hbody, hdigits⟩ := splitDigits_eq body
  obtain ⟨point, hfraction, hrest, hpoint⟩ := exists_isFraction (splitDigits body).2
  simp only [unsignedParts?] at h
  split at h
  · cases h
  · next hguard =>
    obtain ⟨value, hvalue, rfl⟩ := Option.map_eq_some_iff.mp h
    simp only [Bool.or_eq_true, Bool.and_eq_true, decide_eq_true_eq, List.isEmpty_iff, not_or, not_and, ne_eq,
      Decidable.not_not] at hguard
    obtain ⟨⟨hne, hzero⟩, hfull⟩ := hguard
    refine ⟨rfl, point, _, ?_, hne, hdigits, fun hhead => ?_, hfraction, mt hpoint.mp hfull,
      (exponent?_eq_some_iff _ _).mp hvalue⟩
    · rw [← hrest]
      exact hbody
    · obtain ⟨tail, htail⟩ := List.head?_eq_some_iff.mp hhead
      have hlength := hzero hhead
      dsimp only at htail ⊢
      rw [htail, List.length_cons, Nat.add_eq_right, List.length_eq_zero_iff] at hlength
      rw [htail, hlength]

theorem numberParts?_eq_some_iff (raw : List Char) (parts : NumberParts) :
    numberParts? raw = some parts ↔ IsNumber raw parts := by
  constructor
  · intro h
    cases raw with
    | nil => cases h
    | cons c cs =>
      by_cases hminus : c = '-'
      · rw [hminus, numberParts?_minus] at h
        obtain ⟨hnegative, point, exponent, rfl, hne, hwhole, hzero, hfraction, hpoint, hexponent⟩ :=
          exists_of_unsignedParts? h
        have hsign : IsSign ['-'] parts.negative := hnegative ▸ .minus
        rw [hminus]
        exact .parts hsign (by decide) hne hwhole hzero hfraction hpoint hexponent
      · rw [numberParts?_of_ne hminus] at h
        obtain ⟨hnegative, point, exponent, htext, hne, hwhole, hzero, hfraction, hpoint, hexponent⟩ :=
          exists_of_unsignedParts? h
        have hsign : IsSign [] parts.negative := hnegative ▸ .absent
        rw [htext]
        exact .parts hsign (by decide) hne hwhole hzero hfraction hpoint hexponent
  · rintro ⟨hsign, hplus, hne, hwhole, hzero, hfraction, hpoint, hexponent⟩
    have hunsigned := unsignedParts?_of_isNumber hne hwhole hzero hfraction hpoint hexponent
    obtain ⟨d, ds, hcons⟩ := List.exists_cons_of_ne_nil hne
    generalize parts.negative = negative at *
    cases hsign with
    | absent =>
      have hd : d.isDigit = true := hwhole d (by simp [hcons])
      rw [hcons] at hunsigned ⊢
      exact (numberParts?_of_ne (isDigit_ne hd rfl) _).trans hunsigned
    | plus => exact absurd rfl hplus
    | minus => exact hunsigned

theorem IsNumber.parts_unique {raw : List Char} {parts others : NumberParts} (h : IsNumber raw parts)
    (hother : IsNumber raw others) : parts = others := by
  rw [← numberParts?_eq_some_iff] at h hother
  exact Option.some.inj (h.symm.trans hother)

instance (raw : List Char) : Decidable (∃ parts, IsNumber raw parts) :=
  decidable_of_iff ((numberParts? raw).isSome = true)
    (Option.isSome_iff_exists.trans (exists_congr (numberParts?_eq_some_iff raw)))

/-! ## The token -/

theorem isNumberChar_of_isDigit {c : Char} (h : c.isDigit = true) : isNumberChar c = true := by
  simp [isNumberChar, h]

theorem IsNumber.isNumberChar {raw : List Char} {parts : NumberParts} (h : IsNumber raw parts) {c : Char}
    (hc : c ∈ raw) : isNumberChar c = true := by
  have hsigns {sign : List Char} {negative : Bool} (hsign : IsSign sign negative) (hc : c ∈ sign) :
      Json.isNumberChar c = true := by
    cases hsign with
    | absent => cases hc
    | plus | minus =>
      rw [List.mem_singleton.mp hc]
      rfl
  obtain ⟨hsign, -, -, hwhole, -, hfraction, -, hexponent⟩ := h
  simp only [List.mem_append] at hc
  rcases hc with hc | hc | hc | hc
  · exact hsigns hsign hc
  · exact isNumberChar_of_isDigit (hwhole c hc)
  · generalize parts.fraction = fraction at hfraction
    cases hfraction with
    | absent => cases hc
    | present hdigits =>
      rcases List.mem_cons.mp hc with rfl | hc
      · rfl
      · exact isNumberChar_of_isDigit (hdigits c hc)
  · generalize parts.exponent = value at hexponent
    cases hexponent with
    | absent => cases hc
    | present hmark hsign hne hdigits =>
      simp only [List.mem_cons, List.mem_append] at hc
      rcases hc with rfl | hc | hc
      · rcases hmark with rfl | rfl <;> rfl
      · exact hsigns hsign hc
      · exact isNumberChar_of_isDigit (hdigits c hc)

theorem IsNumber.exists_cons {raw : List Char} {parts : NumberParts} (h : IsNumber raw parts) :
    ∃ c cs, raw = c :: cs ∧ (c.isDigit || c = '-') = true := by
  obtain ⟨hsign, hplus, hne, hwhole, -, -, -, -⟩ := h
  generalize parts.negative = negative at hsign
  cases hsign with
  | absent =>
    obtain ⟨d, ds, hcons⟩ := List.exists_cons_of_ne_nil hne
    rw [hcons]
    exact ⟨d, _, rfl, by simp [hwhole d (by simp [hcons])]⟩
  | plus => exact absurd rfl hplus
  | minus => exact ⟨'-', _, rfl, rfl⟩

theorem tokens?_number {raw rest : List Char} {parts : NumberParts} (h : IsNumber raw parts)
    (hrest : rest.head?.any isNumberChar = false) : tokens? (raw ++ rest) = (tokens? rest).map (.number raw :: ·) := by
  obtain ⟨c, cs, rfl, hc⟩ := h.exists_cons
  have hparts := (numberParts?_eq_some_iff _ _).mpr h
  have hrun : (cs ++ rest).takeWhile isNumberChar = cs :=
    takeWhile_run (fun d hd => h.isNumberChar (List.mem_cons_of_mem c hd)) hrest
  have hne {d : Char} (hd : (d.isDigit || d = '-') = false) : c ≠ d := by
    rintro rfl
    rw [hc] at hd
    cases hd
  have hblank : isBlank c = false := by
    simp [isBlank, hne (d := ' ') rfl, hne (d := '\t') rfl, hne (d := '\n') rfl, hne (d := '\r') rfl]
  have htoken : tokenAt? c (cs ++ rest) = some (.number (c :: cs), cs.length) := by
    rw [tokenAt?, if_neg (hne rfl), if_neg (hne rfl), if_neg (hne rfl), if_neg (hne rfl), if_neg (hne rfl),
      if_neg (hne rfl), if_neg (hne rfl), if_pos hc]
    simp only [hrun, hparts, Option.map_some]
  exact tokens?_cons hblank htoken List.drop_left

end Json

end Nodeless
