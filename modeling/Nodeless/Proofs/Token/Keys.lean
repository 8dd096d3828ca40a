import Nodeless.Proofs.Source.Lines
import Nodeless.Proofs.Token.Renaming

/-!
# Names in the place of keys

The colon behind a key settles what a slash behind it means. So a keyword that is a key can give its
place to a name without any other token being read differently.
-/

namespace Nodeless

open Source

namespace Lexer

theorem WordApart.tokens_eq_of_colon {k : Keyword} {kept other : Lexer} (h : WordApart k kept other)
    (hcolon : kept.next.1.kind = .colon) : other.tokens = kept.tokens := by
  obtain ⟨gap, htakes⟩ := kept.exists_takes
  have htext := htakes.spelled ":" (by rw [hcolon]; rfl)
  obtain ⟨read, substitutions, hagree⟩ := exists_agree h.offset h.rest h.substitutions fun hslash => by
    simp [Token.startsWithSlash, htext] at hslash
  have hcontext : other.next.2.context = kept.next.2.context := by
    rw [hagree.context, hagree.context_other, hcolon]
    simp [Context.afterToken, h.heads]
  have hnext : other.next = kept.next :=
    Prod.ext hagree.token (Lexer.ext hagree.offset hagree.rest hcontext)
  have hkept : kept.next.1.kind ≠ .eof := by simp [hcolon]
  rw [tokens_of_ne_eof hkept, tokens_of_ne_eof (by rw [hnext]; exact hkept), hnext]

end Lexer

/-! ## Names as narrow as keywords -/

theorem Keyword.narrow (k : Keyword) :
    byteLength k.spelling.toList = k.spelling.toList.length ∧ '\n' ∉ k.spelling.toList := by
  cases k <;> decide

theorem IsIdentifier.lineFeed_not_mem {name : String} (h : IsIdentifier name) : '\n' ∉ name.toList := by
  obtain ⟨c, cs, hchars, hstart, hcontinue, -⟩ := h
  rw [hchars, List.mem_cons, not_or]
  refine ⟨(Text.ne_of_isIdentifierStart hstart (by decide)).symm, fun hmem => ?_⟩
  have := hcontinue _ hmem
  revert this
  decide

namespace Token

variable {source name : String} {front after : List Token} {key colon : Token} {k : Keyword}

theorem ofSource_renamed_key (htokens : ofSource source = front ++ key :: colon :: after)
    (hkey : key.kind = .keyword k) (hcolon : colon.kind = .colon) (hname : IsIdentifier name)
    (hlength : byteLength name.toList = key.span.length) :
    ofSource (Patch.render source [⟨key.span, name⟩]) = front ++ key.renamed name :: colon :: after := by
  obtain ⟨_, _, kept, other, -, -, -, hapart, hkept, hrenamed⟩ := exists_renamed htokens hkey hname hlength
  obtain ⟨more, hmore⟩ := kept.exists_tokens_eq_cons
  have hnext : kept.next.1.kind = .colon := by
    rw [← (List.cons.inj (hmore.symm.trans hkept)).1] at hcolon
    exact hcolon
  rw [hrenamed, hapart.tokens_eq_of_colon hnext, hkept]

theorem alike_renamed (htokens : ofSource source = front ++ key :: after) (hkey : key.kind = .keyword k)
    (hname : IsIdentifier name) (hlength : byteLength name.toList = key.span.length)
    (hnarrow : name.length = key.span.length) :
    Alike source.toList (Patch.render source [⟨key.span, name⟩]).toList := by
  obtain ⟨before, behind, _, _, hsource, hrendered, hspan, -⟩ := exists_renamed htokens hkey hname hlength
  obtain ⟨hword, hlines⟩ := k.narrow
  rw [String.length_toList.symm] at hnarrow
  have halike : Alike k.spelling.toList name.toList :=
    alike_of_narrow (by omega) hword (by omega) (by simp [hlines, hname.lineFeed_not_mem])
  rw [hsource, hrendered]
  exact List.rel_append (alike_refl before) (List.rel_append halike (alike_refl behind))

end Token

end Nodeless
