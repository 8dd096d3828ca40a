import Nodeless.Number.Decimal
import Nodeless.Proofs.Number.Magnitude
import Nodeless.Proofs.Text.Runs

/-!
# Decimal text

How a number may be written in decimal, and what the reader of decimal text makes of it. A text that it
takes for a number counts as nothing if that is zero, or not a number.
-/

namespace Nodeless.Binary64

/-! ## The grammar -/

inductive IsSign : List Char → Bool → Prop
  | absent : IsSign [] false
  | plus : IsSign ['+'] false
  | minus : IsSign ['-'] true

/-- A point and the digits behind it, or neither. -/
inductive IsFraction : List Char → List Char → Prop
  | absent : IsFraction [] []
  | present {digits : List Char} (hdigits : ∀ c ∈ digits, c.isDigit = true) : IsFraction ('.' :: digits) digits

inductive IsExponent : List Char → Int → Prop
  | absent : IsExponent [] 0
  | present {mark : Char} {sign digits : List Char} {negative : Bool} (hmark : mark = 'e' ∨ mark = 'E')
      (hsign : IsSign sign negative) (hne : digits ≠ []) (hdigits : ∀ c ∈ digits, c.isDigit = true) :
      IsExponent (mark :: (sign ++ digits)) (if negative then -(digitsValue digits : Int) else digitsValue digits)

/-- A number in decimal, with its sign, its digits and the power of ten that they count for. Of its parts
only one digit has to be there. -/
inductive IsDecimal : List Char → Bool → Nat → Int → Prop
  | parts {sign whole point digits exponent : List Char} {negative : Bool} {value : Int}
      (hsign : IsSign sign negative) (hwhole : ∀ c ∈ whole, c.isDigit = true) (hfraction : IsFraction point digits)
      (hdigit : whole ++ digits ≠ []) (hexponent : IsExponent exponent value) :
      IsDecimal (sign ++ (whole ++ (point ++ exponent))) negative (digitsValue (whole ++ digits))
        (value - digits.length)

/-- The word for what is not a number, in either case. -/
inductive IsNan : List Char → Prop
  | word {sign cs : List Char} {negative : Bool} (hsign : IsSign sign negative)
      (hword : String.ofList (cs.map Char.toLower) = "nan") : IsNan (sign ++ cs)

/-! ## Signs -/

theorem isDigit_ne {c d : Char} (h : c.isDigit = true) (hd : d.isDigit = false) : c ≠ d := by
  rintro rfl
  rw [h] at hd
  cases hd

theorem splitSign_append {sign : List Char} {negative : Bool} (hsign : IsSign sign negative) {c : Char}
    {cs : List Char} (hminus : c ≠ '-') (hplus : c ≠ '+') : splitSign (sign ++ c :: cs) = (negative, c :: cs) := by
  cases hsign with
  | absent => simp [splitSign, hminus, hplus]
  | plus => rfl
  | minus => rfl

theorem exists_isSign (text : List Char) :
    ∃ sign, IsSign sign (splitSign text).1 ∧ text = sign ++ (splitSign text).2 := by
  fun_cases splitSign text
  · exact ⟨['-'], .minus, rfl⟩
  · exact ⟨['+'], .plus, rfl⟩
  · exact ⟨[], .absent, rfl⟩

/-! ## Digits -/

/-- No digit comes next. -/
def NoDigit (cs : List Char) : Prop := cs.head?.any Char.isDigit = false

theorem splitDigits_append {digits rest : List Char} (h : ∀ c ∈ digits, c.isDigit = true) (hrest : NoDigit rest) :
    splitDigits (digits ++ rest) = (digits, rest) := by
  rw [splitDigits, takeWhile_run h hrest, dropWhile_run h hrest]

theorem splitDigits_eq (cs : List Char) :
    cs = (splitDigits cs).1 ++ (splitDigits cs).2 ∧ ∀ c ∈ (splitDigits cs).1, c.isDigit = true :=
  ⟨List.takeWhile_append_dropWhile.symm, List.all_eq_true.mp List.all_takeWhile⟩

theorem IsExponent.noDigit {exponent : List Char} {value : Int} (h : IsExponent exponent value) :
    NoDigit exponent := by
  cases h with
  | absent => rfl
  | present hmark _ _ _ => rcases hmark with rfl | rfl <;> rfl

theorem IsFraction.noDigit_append {point digits exponent : List Char} {value : Int}
    (hfraction : IsFraction point digits) (hexponent : IsExponent exponent value) : NoDigit (point ++ exponent) := by
  cases hfraction with
  | absent => exact hexponent.noDigit
  | present _ => rfl

theorem IsFraction.getD_eq {point digits : List Char} (h : IsFraction point digits) :
    (if point = [] then none else some digits : Option (List Char)).getD [] = digits := by
  cases h with
  | absent => rfl
  | present _ => rfl

/-! ## Parts -/

theorem splitFraction_append {point digits exponent : List Char} {value : Int} (hfraction : IsFraction point digits)
    (hexponent : IsExponent exponent value) :
    splitFraction (point ++ exponent) = (if point = [] then none else some digits, exponent) := by
  cases hfraction with
  | absent =>
    cases hexponent with
    | absent => rfl
    | present hmark _ _ _ => rcases hmark with rfl | rfl <;> rfl
  | present hdigits => simp [splitFraction, splitDigits_append hdigits hexponent.noDigit]

theorem exists_isFraction (rest : List Char) :
    ∃ point, IsFraction point ((splitFraction rest).1.getD []) ∧ rest = point ++ (splitFraction rest).2 ∧
      (point = ['.'] ↔ (splitFraction rest).1 = some []) := by
  fun_cases splitFraction rest with
  | case1 cs =>
    obtain ⟨hcs, hdigits⟩ := splitDigits_eq cs
    exact ⟨'.' :: (splitDigits cs).1, .present hdigits, congrArg ('.' :: ·) hcs, by simp⟩
  | case2 => exact ⟨[], .absent, rfl, by simp⟩

theorem exponent?_eq_some_iff (text : List Char) (value : Int) :
    exponent? text = some value ↔ IsExponent text value := by
  constructor
  · intro h
    cases text with
    | nil =>
      cases h
      exact .absent
    | cons mark cs =>
      simp only [exponent?] at h
      split at h
      · next hguard =>
        simp only [Bool.and_eq_true, Bool.or_eq_true, decide_eq_true_eq, Bool.not_eq_true', List.isEmpty_eq_false_iff,
          List.all_eq_true] at hguard
        obtain ⟨⟨hmark, hne⟩, hdigits⟩ := hguard
        obtain ⟨sign, hsign, hcs⟩ := exists_isSign cs
        rw [← Option.some.inj h]
        have hexponent := IsExponent.present hmark hsign hne hdigits
        rwa [← hcs] at hexponent
      · cases h
  · intro h
    cases h with
    | absent => rfl
    | @present mark sign digits negative hmark hsign hne hdigits =>
      obtain ⟨d, ds, rfl⟩ := List.exists_cons_of_ne_nil hne
      have hd : d.isDigit = true := hdigits d List.mem_cons_self
      have hall : (d :: ds).all Char.isDigit = true := List.all_eq_true.mpr hdigits
      have hsplit : splitSign (sign ++ d :: ds) = (negative, d :: ds) :=
        splitSign_append hsign (isDigit_ne hd rfl) (isDigit_ne hd rfl)
      simp only [exponent?, hsplit, hall]
      simp [hmark]

/-! ## Words -/

theorem toLower_of_isDigit {d : Char} (h : d.isDigit = true) : d.toLower = d := by
  simp only [Char.isDigit, ge_iff_le, Bool.and_eq_true, decide_eq_true_eq, UInt32.le_iff_toNat_le] at h
  have hcapital : ¬ 'A'.val ≤ d.val := by
    rw [UInt32.le_iff_toNat_le]
    exact Nat.not_le.mpr (Nat.lt_of_le_of_lt h.2 (by decide))
  exact dif_neg fun hcapitals => hcapital hcapitals.1

theorem word_ne {d c : Char} {ds cs : List Char} (hd : d.isDigit = true ∨ d = '.') (hc : c.isDigit = false)
    (hpoint : c ≠ '.') : String.ofList ((d :: ds).map Char.toLower) ≠ String.ofList (c :: cs) := by
  intro h
  have hhead : d.toLower = c := by
    have hchars := String.ofList_injective h
    exact (List.cons.inj hchars).1
  rcases hd with hd | rfl
  · rw [toLower_of_isDigit hd] at hhead
    exact isDigit_ne hd hc hhead
  · exact hpoint hhead.symm

/-! ## Numbers -/

theorem ofText?_of_isDecimal {text : List Char} {negative : Bool} {digits : Nat} {exponent : Int}
    (h : IsDecimal text negative digits exponent) : ofText? text = some (ofDecimal negative digits exponent) := by
  cases h with
  | @parts sign whole point digits exponent negative value hsign hwhole hfraction hdigit hexponent =>
    obtain ⟨c, cs, hbody, hc⟩ :
        ∃ c cs, whole ++ (point ++ exponent) = c :: cs ∧ (c.isDigit = true ∨ c = '.') := by
      cases whole with
      | cons d whole => exact ⟨d, _, rfl, .inl (hwhole d List.mem_cons_self)⟩
      | nil =>
        cases hfraction with
        | absent => exact absurd rfl hdigit
        | present _ => exact ⟨'.', _, rfl, .inr rfl⟩
    have hsplit :
        splitSign (sign ++ (whole ++ (point ++ exponent))) = (negative, whole ++ (point ++ exponent)) := by
      rw [hbody]
      rcases hc with hc | rfl
      · exact splitSign_append hsign (isDigit_ne hc rfl) (isDigit_ne hc rfl)
      · exact splitSign_append hsign (by decide) (by decide)
    have hinf : String.ofList ((c :: cs).map Char.toLower) ≠ "inf" := word_ne hc rfl (by decide)
    have hinfinity : String.ofList ((c :: cs).map Char.toLower) ≠ "infinity" := word_ne hc rfl (by decide)
    have hnan : String.ofList ((c :: cs).map Char.toLower) ≠ "nan" := word_ne hc rfl (by decide)
    rw [← hbody] at hinf hinfinity hnan
    simp only [ofText?, hsplit, splitDigits_append hwhole (hfraction.noDigit_append hexponent),
      splitFraction_append hfraction hexponent, hfraction.getD_eq, (exponent?_eq_some_iff _ _).mpr hexponent]
    rw [if_neg (not_or.mpr ⟨hinf, hinfinity⟩), if_neg hnan, if_neg, Option.map_some]
    simpa using hdigit

theorem ofText?_cases {text : List Char} {n : Binary64} (h : ofText? text = some n) :
    (∃ negative, n = .infinite negative) ∨ (n = .nan ∧ IsNan text) ∨
      ∃ negative digits exponent,
        IsDecimal text negative digits exponent ∧ n = ofDecimal negative digits exponent := by
  obtain ⟨sign, hsign, htext⟩ := exists_isSign text
  simp only [ofText?] at h
  split at h
  · exact .inl ⟨_, (Option.some.inj h).symm⟩
  · split at h
    · next hword =>
      refine .inr (.inl ⟨(Option.some.inj h).symm, ?_⟩)
      rw [htext]
      exact .word hsign hword
    · split at h
      · cases h
      · next hdigit =>
        obtain ⟨value, hvalue, rfl⟩ := Option.map_eq_some_iff.mp h
        obtain ⟨hbody, hwhole⟩ := splitDigits_eq (splitSign text).2
        obtain ⟨point, hfraction, hrest, -⟩ := exists_isFraction (splitDigits (splitSign text).2).2
        have hexponent := (exponent?_eq_some_iff _ _).mp hvalue
        have hdecimal := IsDecimal.parts hsign hwhole hfraction (by simpa using hdigit) hexponent
        rw [← hrest, ← hbody, ← htext] at hdecimal
        exact .inr (.inr ⟨_, _, _, hdecimal, rfl⟩)

theorem ofText?_of_isNan {text : List Char} (h : IsNan text) : ofText? text = some .nan := by
  cases h with
  | @word sign cs negative hsign hword =>
    cases cs with
    | nil => exact absurd hword (by decide)
    | cons c cs =>
      have hhead : c.toLower = 'n' := (List.cons.inj (String.ofList_injective hword)).1
      have hminus : c ≠ '-' := by
        rintro rfl
        exact absurd hhead (by decide)
      have hplus : c ≠ '+' := by
        rintro rfl
        exact absurd hhead (by decide)
      simp only [ofText?, splitSign_append hsign hminus hplus, hword]
      rw [if_neg (by decide), if_pos trivial]

/-! ## What counts as nothing -/

/-- The text is taken for zero, as no other value is as near, or for what is not a number. -/
def CountsAsNothing (text : List Char) : Prop :=
  IsNan text ∨ ∃ negative digits exponent,
    IsDecimal text negative digits exponent ∧ (digits * 10 ^ exponent : ℚ) ≤ 2 ^ (-1075 : Int)

theorem countsAsNothing_iff (text : List Char) :
    CountsAsNothing text ↔ ∃ n, ofText? text = some n ∧ (n = .nan ∨ n.isZero = true) := by
  constructor
  · rintro (hnan | ⟨negative, digits, exponent, hdecimal, hsize⟩)
    · exact ⟨_, ofText?_of_isNan hnan, .inl rfl⟩
    · exact ⟨_, ofText?_of_isDecimal hdecimal, .inr ((isZero_ofDecimal_iff _ _ _).mpr hsize)⟩
  · rintro ⟨n, hread, hnothing⟩
    rcases ofText?_cases hread with
      ⟨negative, rfl⟩ | ⟨-, hnan⟩ | ⟨negative, digits, exponent, hdecimal, rfl⟩
    · simp [isZero] at hnothing
    · exact .inl hnan
    · have hzero := hnothing.resolve_left (ofDecimal_ne_nan _ _ _)
      exact .inr ⟨negative, digits, exponent, hdecimal, (isZero_ofDecimal_iff _ _ _).mp hzero⟩

end Nodeless.Binary64
