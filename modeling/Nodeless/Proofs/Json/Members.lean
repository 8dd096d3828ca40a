import Nodeless.Options.Read
import Nodeless.Proofs.Json.Numerals

/-!
# Objects with one member

The text of an object with one member, and how a plain value is written in it: a word or a number as it
is, and any other text between quotes.
-/

namespace Nodeless

namespace Json

/-- The text of an object with one member. `value` is the text of its value. -/
def object (key value : String) : String := "\x7b" ++ Text.quote key ++ ":" ++ value ++ "\x7d"

/-- A text that is a value as it stands, and no string. -/
def IsBare (text : String) : Prop := text ∈ ["true", "false", "null"] ∨ ∃ parts, IsNumber text.toList parts

instance (text : String) : Decidable (IsBare text) := inferInstanceAs (Decidable (_ ∨ _))

/-- The text of a value for a plain text: of the string that it is, if it is no value as it stands. -/
def valueText (text : String) : String := if IsBare text then text else Text.quote text

/-- The token is a value by itself. -/
def Token.isScalar : Token → Bool
  | .text _ | .number _ | .boolean _ | .null => true
  | _ => false

/-- The text is a value of one token, in front of the end of an object. -/
structure IsScalar (text : List Char) (token : Token) : Prop where
  tokens : tokens? (text ++ ['\x7d']) = some [token, .closeObject]
  scalar : token.isScalar = true

/-! ## Scalars -/

theorem tokens?_close : tokens? ['\x7d'] = some [.closeObject] := by
  have hclose : tokens? ['\x7d'] = (tokens? []).map (.closeObject :: ·) := tokens?_cons rfl rfl rfl
  rw [hclose, tokens?]
  rfl

theorem isScalar_quote (text : String) :
    IsScalar (Text.quote text).toList (.text (text.toList.flatMap Text.escape)) := by
  refine ⟨?_, rfl⟩
  rw [Text.quote, String.toList_ofList, tokens?_quoteChars, tokens?_close]
  rfl

theorem isScalar_number {text : List Char} {parts : NumberParts} (h : IsNumber text parts) :
    IsScalar text (.number text) := by
  refine ⟨?_, rfl⟩
  rw [tokens?_number h rfl, tokens?_close]
  rfl

theorem tokens?_word {c : Char} {cs : List Char} {token : Token} (hblank : isBlank c = false)
    (htoken : tokenAt? c (cs ++ ['\x7d']) = some (token, cs.length)) :
    tokens? (c :: cs ++ ['\x7d']) = some [token, .closeObject] := by
  rw [List.cons_append, tokens?_cons hblank htoken List.drop_left, tokens?_close]
  rfl

theorem isScalar_word {word : String} {token : Token}
    (h : (word, token) ∈ [("true", Token.boolean true), ("false", .boolean false), ("null", .null)]) :
    IsScalar word.toList token := by
  simp only [List.mem_cons, Prod.mk.injEq, List.not_mem_nil, or_false] at h
  rcases h with ⟨rfl, rfl⟩ | ⟨rfl, rfl⟩ | ⟨rfl, rfl⟩ <;>
    exact ⟨tokens?_word rfl (by decide), rfl⟩

/-! ## The object -/

section

variable {token : Token} {value : String}

theorem members?_scalar (h : token.isScalar = true) (key : List Char) :
    members? [.text key, .colon, token, .closeObject] = some [(key, [token])] := by
  rw [members?]
  cases token with
  | text _ | number _ | boolean _ | null => rfl
  | openObject | closeObject | openArray | closeArray | comma | colon => cases h

theorem IsScalar.tokens?_object (h : IsScalar value.toList token) (key : String) :
    tokens? (object key value).toList =
      some [.openObject, .text (key.toList.flatMap Text.escape), .colon, token, .closeObject] := by
  have htext : (object key value).toList =
      '\x7b' :: (Text.quoteChars key.toList ++ ':' :: (value.toList ++ ['\x7d'])) := by
    simp [object, Text.quote]
  have hopen (rest : List Char) : tokens? ('\x7b' :: rest) = (tokens? rest).map (.openObject :: ·) :=
    tokens?_cons rfl rfl rfl
  have hcolon (rest : List Char) : tokens? (':' :: rest) = (tokens? rest).map (.colon :: ·) :=
    tokens?_cons rfl rfl rfl
  rw [htext, hopen, tokens?_quoteChars, hcolon, h.tokens]
  rfl

end

end Json

namespace Options

theorem jsonMember?_of_isKnown {key : String} (hkey : isKnown key = true) (value : List Json.Token) :
    jsonMember? (key.toList.flatMap Text.escape) value = (Setting.ofJson? value).map fun s => some (key, s) := by
  simp only [jsonMember?, Json.decode?_flatMap_escape, Option.bind_eq_bind, Option.bind_some, String.ofList_toList,
    hkey, ↓reduceIte]
  cases Setting.ofJson? value <;> rfl

theorem ofJson?_object {key value : String} {token : Json.Token} (hkey : isKnown key = true)
    (h : Json.IsScalar value.toList token) :
    ofJson? (Json.object key value) = (Setting.ofJson? [token]).bind (({} : Options).put? key) := by
  have hsettings (setting : Setting) : ofSettings? [(key, setting)] = ({} : Options).put? key setting := rfl
  simp only [ofJson?, h.tokens?_object, Json.members?_scalar h.scalar, Option.bind_eq_bind, Option.bind_some,
    List.mapM_cons, List.mapM_nil, jsonMember?_of_isKnown hkey]
  cases Setting.ofJson? [token] with
  | none => rfl
  | some setting => exact hsettings setting

end Options

end Nodeless
