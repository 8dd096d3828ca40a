import Nodeless.Proofs.Json.Magnitude
import Nodeless.Proofs.Json.Members

/-!
# Options from the command line and from JSON

A value on the command line is meant to be read the way JSON reads it. It is, but for numbers that JSON
does not write and that count as nothing, and for numbers so large or so small that only one of the two
readers takes them, or takes them for zero.
-/

namespace Nodeless

/-! ## Settings that count the same -/

/-- The setting is the name of a mode. -/
def Setting.NamesMode (setting : Setting) : Prop := setting = .text "mock" ∨ setting = .text "mock_absolute"

theorem Setting.not_namesMode_number (n : Binary64) : ¬(number n).NamesMode := by
  rintro (h | h) <;> cases h

namespace Options

section

variable {key : String}

theorem put?_eq_put?_iff (hkey : isKnown key = true) {s t : Setting} (hs : ¬s.NamesMode) (ht : ¬t.NamesMode) :
    ({} : Options).put? key s = ({} : Options).put? key t ↔ s.isTruthy = t.isTruthy := by
  simp only [Setting.NamesMode, not_or] at hs ht
  simp only [isKnown, Bool.or_eq_true, decide_eq_true_eq] at hkey
  rcases hkey with rfl | rfl
  · simp only [put?, ↓reduceIte, FilenameOption.ofSetting, if_neg hs.1, if_neg ht.1]
    cases s.isTruthy <;> cases t.isTruthy <;> decide
  · simp only [put?, show dirnameKey ≠ filenameKey by decide, ↓reduceIte, DirnameOption.ofSetting, if_neg hs.1,
      if_neg ht.1, if_neg hs.2, if_neg ht.2]
    cases s.isTruthy <;> cases t.isTruthy <;> decide

theorem isSome_put? (hkey : isKnown key = true) (options : Options) (setting : Setting) :
    (options.put? key setting).isSome = true := by
  simp only [isKnown, Bool.or_eq_true, decide_eq_true_eq] at hkey
  rcases hkey with rfl | rfl <;> rfl

theorem set_eq_ofJson_iff_put? (hkey : isKnown key = true) (value text : String) :
    set {} key value = ofJson text ↔ ({} : Options).put? key (.ofText value) = ofJson? text := by
  obtain ⟨options, hoptions⟩ := Option.isSome_iff_exists.mp (isSome_put? hkey {} (.ofText value))
  rw [set, ofJson, hoptions]
  cases ofJson? text <;> simp

end

end Options

/-! ## Texts -/

namespace Setting

/-- The command line and JSON take a text for settings that count the same. A number that JSON writes is
not too large for JSON, which takes it for zero exactly where no other value is as near. Any other text,
which is a string for JSON, does not count as nothing on the command line. -/
structure ReadsAlike (text : String) : Prop where
  number : ∀ parts, Json.IsNumber text.toList parts →
    ∃ n, Json.numberValue? parts = some n ∧ (n.isZero = true ↔ parts.size ≤ 2 ^ (-1075 : Int))
  string : ¬Json.IsBare text → ¬Binary64.CountsAsNothing text.toList

/-- Numbers of JSON with up to 280 digits are read alike, the size of the exponent counted in. -/
theorem readsAlike_of_extent_le {text : String} {parts : Json.NumberParts} (h : Json.IsNumber text.toList parts)
    (hshort : parts.extent ≤ 280) : ReadsAlike text := by
  refine ⟨fun other hother => ?_, fun hnot => absurd (.inr ⟨parts, h⟩) hnot⟩
  obtain rfl := h.parts_unique hother
  by_cases hzero : Binary64.digitsValue (parts.whole ++ parts.fraction) = 0
  · refine ⟨_, Json.numberValue?_of_zero hzero, iff_of_true rfl ?_⟩
    rw [Json.NumberParts.size, hzero, Nat.cast_zero, zero_mul]
    positivity
  · obtain ⟨n, hvalue, hn⟩ := Json.exists_numberValue?_of_extent_le hzero hshort
    refine ⟨n, hvalue, iff_of_false (by rw [hn]; exact Bool.false_ne_true) ?_⟩
    exact not_le.mpr (Json.NumberParts.lt_size hzero hshort)

theorem ofText_of_not_word {text : String} (h : text ∉ ["true", "false", "null"]) :
    ofText text = ((Binary64.ofText? text.toList).map .number).getD (.text text) := by
  simp only [List.mem_cons, List.not_mem_nil, or_false, not_or] at h
  rw [ofText, if_neg h.1, if_neg h.2.1, if_neg h.2.2]

theorem isTruthy_number {n : Binary64} (h : n ≠ .nan) : (number n).isTruthy = !n.isZero := by
  simp [isTruthy, h]

end Setting

namespace Options

section

variable {key value : String}

theorem set_eq_ofJson_iff_ofJson? (hkey : isKnown key = true) {text : String} {token : Json.Token}
    (h : Json.IsScalar text.toList token) :
    set {} key value = ofJson (Json.object key text) ↔
      ({} : Options).put? key (.ofText value) = (Setting.ofJson? [token]).bind (({} : Options).put? key) := by
  rw [set_eq_ofJson_iff_put? hkey, ofJson?_object hkey h]

theorem set_eq_ofJson_of_word (hkey : isKnown key = true) (h : value ∈ ["true", "false", "null"]) :
    set {} key value = ofJson (Json.object key value) := by
  simp only [List.mem_cons, List.not_mem_nil, or_false] at h
  rcases h with rfl | rfl | rfl
  · have hscalar : Json.IsScalar "true".toList (.boolean true) := Json.isScalar_word (by simp)
    exact (set_eq_ofJson_iff_ofJson? hkey hscalar).mpr rfl
  · have hscalar : Json.IsScalar "false".toList (.boolean false) := Json.isScalar_word (by simp)
    exact (set_eq_ofJson_iff_ofJson? hkey hscalar).mpr rfl
  · have hscalar : Json.IsScalar "null".toList .null := Json.isScalar_word (by simp)
    exact (set_eq_ofJson_iff_ofJson? hkey hscalar).mpr rfl

theorem not_isNumber_of_word (h : value ∈ ["true", "false", "null"]) (parts : Json.NumberParts) :
    ¬Json.IsNumber value.toList parts := by
  rw [← Json.numberParts?_eq_some_iff]
  have hnone : Json.numberParts? value.toList = none := by
    simp only [List.mem_cons, List.not_mem_nil, or_false] at h
    rcases h with rfl | rfl | rfl <;> decide +kernel
  rw [hnone]
  nofun

theorem set_eq_ofJson_number_iff (hkey : isKnown key = true) {parts : Json.NumberParts}
    (h : Json.IsNumber value.toList parts) :
    set {} key value = ofJson (Json.object key value) ↔
      ∃ n, Json.numberValue? parts = some n ∧ (n.isZero = true ↔ parts.size ≤ 2 ^ (-1075 : Int)) := by
  obtain ⟨nearest, hnearest⟩ : ∃ nearest, nearest = Binary64.ofDecimal parts.negative
    (Binary64.digitsValue (parts.whole ++ parts.fraction)) (parts.exponent - parts.fraction.length) := ⟨_, rfl⟩
  have hnan : nearest ≠ .nan := hnearest ▸ Binary64.ofDecimal_ne_nan _ _ _
  have hzero : nearest.isZero = true ↔ parts.size ≤ 2 ^ (-1075 : Int) :=
    hnearest ▸ Binary64.isZero_ofDecimal_iff _ _ _
  have htext : Setting.ofText value = .number nearest := by
    rw [Setting.ofText_of_not_word fun hword => not_isNumber_of_word hword parts h,
      Binary64.ofText?_of_isDecimal h.isDecimal, hnearest]
    rfl
  have hjson : Setting.ofJson? [.number value.toList] = (Json.numberValue? parts).map .number := by
    rw [Setting.ofJson?, (Json.numberParts?_eq_some_iff _ _).mpr h]
    rfl
  rw [set_eq_ofJson_iff_ofJson? hkey (Json.isScalar_number h), htext, hjson]
  obtain ⟨options, hoptions⟩ := Option.isSome_iff_exists.mp (isSome_put? hkey {} (.number nearest))
  cases hvalue : Json.numberValue? parts with
  | none => simp [hoptions]
  | some n =>
    have hiff := put?_eq_put?_iff hkey (Setting.not_namesMode_number nearest) (Setting.not_namesMode_number n)
    rw [Setting.isTruthy_number hnan, Setting.isTruthy_number (Json.numberValue?_ne_nan hvalue)] at hiff
    rw [Option.map_some, Option.bind_some, hiff, ← hzero, Bool.not_inj_iff, Bool.eq_iff_iff]
    constructor
    · intro halike
      exact ⟨n, rfl, halike.symm⟩
    · rintro ⟨_, ⟨⟩, halike⟩
      exact halike.symm

theorem set_eq_ofJson_quote_iff (hkey : isKnown key = true) (h : ¬Json.IsBare value) :
    set {} key value = ofJson (Json.object key (Text.quote value)) ↔ ¬Binary64.CountsAsNothing value.toList := by
  have hjson : Setting.ofJson? [.text (value.toList.flatMap Text.escape)] = some (.text value) := by
    rw [Setting.ofJson?, Json.decode?_flatMap_escape, Option.map_some, String.ofList_toList]
  rw [set_eq_ofJson_iff_ofJson? hkey (Json.isScalar_quote value), hjson, Option.bind_some,
    Setting.ofText_of_not_word fun hword => h (.inl hword), Binary64.countsAsNothing_iff]
  cases hnumber : Binary64.ofText? value.toList with
  | none => simp
  | some n =>
    -- No number is spelled like a mode, or not at all.
    have hne {word : String} (hword : Binary64.ofText? word.toList = none) : value ≠ word := by
      rintro rfl
      rw [hword] at hnumber
      cases hnumber
    have hmode : ¬(Setting.text value).NamesMode := by
      rintro (hvalue | hvalue)
      · exact hne (by decide +kernel) (Setting.text.inj hvalue)
      · exact hne (by decide +kernel) (Setting.text.inj hvalue)
    have hwritten : value ≠ "" := hne (by decide +kernel)
    have htruthy : (Setting.text value).isTruthy = true := by simpa [Setting.isTruthy] using hwritten
    rw [Option.map_some, Option.getD_some, put?_eq_put?_iff hkey (Setting.not_namesMode_number n) hmode, htruthy]
    simp [Setting.isTruthy]

end

/-- A value of a known key on the command line gives the options that it gives in JSON, as a word or a
number if it is one and else as a text, exactly where the two read it alike. -/
theorem set_eq_ofJson_iff {key : String} (hkey : key = filenameKey ∨ key = dirnameKey) (value : String) :
    set {} key value = ofJson (Json.object key (Json.valueText value)) ↔ Setting.ReadsAlike value := by
  have hknown : isKnown key = true := by simpa [isKnown] using hkey
  by_cases hbare : Json.IsBare value
  · rw [Json.valueText, if_pos hbare]
    rcases hbare with hword | ⟨parts, hnumber⟩
    · refine iff_of_true (set_eq_ofJson_of_word hknown hword) ⟨fun parts hnumber => ?_, fun h => ?_⟩
      · exact absurd hnumber (not_isNumber_of_word hword parts)
      · exact absurd (.inl hword) h
    · rw [set_eq_ofJson_number_iff hknown hnumber]
      constructor
      · intro h
        refine ⟨fun other hother => ?_, fun hnot => absurd (.inr ⟨parts, hnumber⟩) hnot⟩
        exact hnumber.parts_unique hother ▸ h
      · intro h
        exact h.number parts hnumber
  · rw [Json.valueText, if_neg hbare, set_eq_ofJson_quote_iff hknown hbare]
    constructor
    · intro h
      exact ⟨fun parts hnumber => absurd (.inr ⟨parts, hnumber⟩) hbare, fun _ => h⟩
    · intro h
      exact h.string hbare

/-- A zero that JSON writes with a sign, a fraction and an exponent. -/
theorem set_eq_ofJson_negative_zero :
    set {} dirnameKey "-0.00e+5" = ofJson (Json.object dirnameKey (Json.valueText "-0.00e+5")) := by
  have hnumber : Json.IsNumber "-0.00e+5".toList ⟨true, ['0'], ['0', '0'], 5⟩ :=
    (Json.numberParts?_eq_some_iff _ _).mp (by decide +kernel)
  exact (set_eq_ofJson_iff (.inr rfl) "-0.00e+5").mpr (Setting.readsAlike_of_extent_le hnumber (by decide))

/-- The zero with a plus sign is no number of JSON, and a text there. On the command line it switches the
substitution off. -/
theorem set_ne_ofJson_plus_zero :
    Json.valueText "+0" = "\"+0\"" ∧ set {} filenameKey "+0" = .ok {} ∧
      ofJson (Json.object filenameKey (Json.valueText "+0")) = .ok { filename := .relative } := by
  have hvalue : Json.valueText "+0" = "\"+0\"" := by decide +kernel
  have hread : ofJson? (Json.object filenameKey "\"+0\"") = some { filename := .relative } := by decide +kernel
  refine ⟨hvalue, rfl, ?_⟩
  rw [hvalue, ofJson, hread]
  rfl

end Options

end Nodeless
