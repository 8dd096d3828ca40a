import Nodeless.Json.Value
import Nodeless.Text.Quoted

/-!
# Quoted text as JSON

Text between quotes is one JSON string, which stands for the text, whatever characters it is made of.
-/

namespace Nodeless

open Text

theorem Text.isHexDigit_digitChar {n : Nat} (h : n < 16) : isHexDigit (Nat.digitChar n) = true := by
  revert n
  decide

theorem Text.numberInBase_digitChar {n : Nat} (h : n < 0x20) :
    numberInBase 16 ['0', '0', Nat.digitChar (n / 16), Nat.digitChar (n % 16)] = n := by
  revert n
  decide

namespace Json

/-! ## Characters -/

theorem stringBody_plain {c : Char} (hquote : c ≠ '\x22') (hslash : c ≠ '\\') (hcontrol : ¬c.toNat < 0x20)
    (cs : List Char) : stringBody (c :: cs) = (stringBody cs).map ([c] ++ ·) := by
  rw [stringBody.eq_5]
  · rw [if_neg hcontrol]
    rfl
  · exact hquote
  · intro _ _ _ _ _ h
    exact absurd h hslash
  · intro _ _ h
    exact absurd h hslash

theorem stringBody_backslash {c : Char} (hescape : "\"\\/bfnrt".contains c = true) (hunit : c ≠ 'u')
    (cs : List Char) : stringBody ('\\' :: c :: cs) = (stringBody cs).map (['\\', c] ++ ·) := by
  rw [stringBody.eq_4]
  · rw [if_pos hescape]
    rfl
  · intro _ _ _ _ _ h
    exact absurd h hunit

theorem decode?_plain {c : Char} (hslash : c ≠ '\\') (cs : List Char) :
    decode? (c :: cs) = (decode? cs).map (c :: ·) := by
  rw [decode?.eq_5]
  · intro _ _ _ _ _ h
    exact absurd h hslash
  · intro _ _ h
    exact absurd h hslash

theorem decode?_backslash {c : Char} (hunit : c ≠ 'u') (cs : List Char) :
    decode? ('\\' :: c :: cs) = (decode? cs).map (simpleEscape c :: ·) := by
  rw [decode?.eq_4]
  intro _ _ _ _ _ h
  exact absurd h hunit

theorem decode?_unit {a b c d : Char} (hunit : numberInBase 16 [a, b, c, d] < 0xd800) (cs : List Char) :
    decode? ('\\' :: 'u' :: a :: b :: c :: d :: cs) =
      (decode? cs).map (Char.ofNat (numberInBase 16 [a, b, c, d]) :: ·) := by
  have hlow : ¬(0xdc00 ≤ numberInBase 16 [a, b, c, d] ∧ numberInBase 16 [a, b, c, d] ≤ 0xdfff) := by omega
  have hhigh : ¬(0xd800 ≤ numberInBase 16 [a, b, c, d] ∧ numberInBase 16 [a, b, c, d] ≤ 0xdbff) := by omega
  by_cases hpair : ∃ e f g h rest, cs = '\\' :: 'u' :: e :: f :: g :: h :: rest
  · obtain ⟨e, f, g, h, rest, rfl⟩ := hpair
    rw [decode?.eq_2, if_neg hlow, if_neg hhigh]
  · rw [decode?.eq_3, if_neg hlow, if_neg hhigh]
    intro e f g h rest hcs
    exact hpair ⟨e, f, g, h, rest, hcs⟩

/-! ## Escapes -/

theorem stringBody_escape (c : Char) (cs : List Char) :
    stringBody (escape c ++ cs) = (stringBody cs).map (escape c ++ ·) := by
  fun_cases escape c
  case case8 hcontrol =>
    have hdigits : ['0', '0', Nat.digitChar (c.toNat / 16), Nat.digitChar (c.toNat % 16)].all isHexDigit = true := by
      simp only [List.all_cons, List.all_nil, isHexDigit_digitChar (show c.toNat / 16 < 16 by omega),
        isHexDigit_digitChar (show c.toNat % 16 < 16 by omega)]
      rfl
    simp only [List.cons_append, List.nil_append]
    rw [stringBody.eq_3, if_pos hdigits]
  case case9 hquote hslash _ _ _ _ _ hcontrol => exact stringBody_plain hquote hslash hcontrol cs
  -- A short escape is one backslash and one character.
  all_goals exact stringBody_backslash (by simp) (by decide) cs

theorem decode?_escape (c : Char) (cs : List Char) : decode? (escape c ++ cs) = (decode? cs).map (c :: ·) := by
  fun_cases escape c
  case case8 hcontrol =>
    have hunit := numberInBase_digitChar hcontrol
    simp only [List.cons_append, List.nil_append]
    rw [decode?_unit (by omega), hunit, Char.ofNat_toNat]
  case case9 _ hslash _ _ _ _ _ _ => exact decode?_plain hslash cs
  all_goals
    subst c
    exact decode?_backslash (by decide) cs

/-! ## Texts -/

theorem stringBody_flatMap_escape (text rest : List Char) :
    stringBody (text.flatMap escape ++ '\x22' :: rest) = some (text.flatMap escape) := by
  induction text with
  | nil => rfl
  | cons c text ih => rw [List.flatMap_cons, List.append_assoc, stringBody_escape, ih, Option.map_some]

theorem decode?_flatMap_escape (text : List Char) : decode? (text.flatMap escape) = some text := by
  induction text with
  | nil => rfl
  | cons c text ih => rw [List.flatMap_cons, decode?_escape, ih, Option.map_some]

theorem tokens?_cons {c : Char} {cs rest : List Char} {token : Token} {taken : Nat} (hblank : isBlank c = false)
    (htoken : tokenAt? c cs = some (token, taken)) (hrest : cs.drop taken = rest) :
    tokens? (c :: cs) = (tokens? rest).map (token :: ·) := by
  rw [tokens?, if_neg (by simp [hblank]), htoken, ← hrest]

theorem tokens?_quoteChars (text rest : List Char) :
    tokens? (quoteChars text ++ rest) = (tokens? rest).map (.text (text.flatMap escape) :: ·) := by
  have htext : quoteChars text ++ rest = '\x22' :: (text.flatMap escape ++ '\x22' :: rest) := by simp [quoteChars]
  have htoken : tokenAt? '\x22' (text.flatMap escape ++ '\x22' :: rest) =
      some (.text (text.flatMap escape), (text.flatMap escape).length + 1) := by
    simp [tokenAt?, stringBody_flatMap_escape]
  rw [htext]
  exact tokens?_cons rfl htoken (by simp [List.drop_append])

end Json

end Nodeless
