import Nodeless.Proofs.Build.Orderly
import Nodeless.Proofs.Environment.Handlers
import Nodeless.Proofs.Token.Hashbang

/-!
# Wrappers below a hashbang line

The line of an interpreter is told twice: a lexer skips it up to a line feed or a carriage return,
and a wrapper is put behind the first line feed of the code. The two agree unless the line ends in a
carriage return alone. Then the wrapper leaves more than the line above it, and tokens with it.
-/

namespace Nodeless

open Source

/-! ## What a wrapper leaves above it -/

namespace Compilation

theorem splitHashbang_append (text : List Char) : (splitHashbang text).1 ++ (splitHashbang text).2 = text := by
  unfold splitHashbang
  split
  · have happend := @List.takeWhile_append_dropWhile _ (fun c => decide (c ≠ '\n')) text
    split
    · exact List.append_nil _
    · rename_i hdrop
      rw [hdrop] at happend
      rwa [List.append_assoc]
  · rfl

theorem splitHashbang_of_mem {front : List Char} (hmark : ['#', '!'] <+: front) (hfront : '\n' ∉ front)
    (rest : List Char) : (splitHashbang (front ++ '\n' :: rest)).1 = front ++ ['\n'] := by
  have hstarts : ['#', '!'].isPrefixOf (front ++ '\n' :: rest) = true :=
    List.isPrefixOf_iff_prefix.mpr (hmark.trans (List.prefix_append _ _))
  have hpass : ∀ c ∈ front, decide (c ≠ '\n') = true := by
    intro c hc
    exact decide_eq_true fun heq => hfront (heq ▸ hc)
  unfold splitHashbang
  rw [if_pos hstarts, List.dropWhile_append_of_pos hpass, List.takeWhile_append_of_pos hpass]
  simp

theorem splitHashbang_of_not_mem {text : List Char} (hmark : ['#', '!'] <+: text) (h : '\n' ∉ text) :
    (splitHashbang text).1 = text := by
  have hdrop : text.dropWhile (fun c => decide (c ≠ '\n')) = [] := by
    rw [List.dropWhile_eq_nil_iff]
    intro c hc
    exact decide_eq_true fun heq => h (heq ▸ hc)
  unfold splitHashbang
  rw [if_pos (List.isPrefixOf_iff_prefix.mpr hmark), hdrop]

theorem splitHashbang_fst_eq_iff {body ending : List Char} (h : Gap.EndedLine body ending) (text : List Char) :
    (splitHashbang text).1 = body ++ ending ↔
      body ++ ending <+: text ∧ ((body ++ ending).getLast? = some '\n' ∨ text = body ++ ending) := by
  have hbody : '\n' ∉ body := fun hmem => absurd (h.within _ hmem) (by decide)
  have hfront : (splitHashbang text).1 <+: text := ⟨_, splitHashbang_append text⟩
  rcases h.ends with rfl | rfl | rfl
  · constructor
    · intro habove
      exact ⟨habove ▸ hfront, .inl (by simp)⟩
    · rintro ⟨⟨rest, rfl⟩, -⟩
      rw [List.append_assoc]
      exact splitHashbang_of_mem h.mark hbody rest
  · constructor
    · intro habove
      exact ⟨habove ▸ hfront, .inl (by simp)⟩
    · rintro ⟨⟨rest, rfl⟩, -⟩
      have hfront : body ++ ['\r', '\n'] ++ rest = body ++ ['\r'] ++ '\n' :: rest := by simp
      rw [hfront, splitHashbang_of_mem (h.mark.trans (List.prefix_append _ _)) (by simp [hbody])]
      simp
  · have hnone : '\n' ∉ body ++ ['\r'] := by simp [hbody]
    constructor
    · intro habove
      refine ⟨habove ▸ hfront, .inr ?_⟩
      by_contra hmore
      -- A line feed further on is where the wrapper would be put.
      have hmark : ['#', '!'] <+: text := (h.mark.trans (List.prefix_append _ _)).trans (habove ▸ hfront)
      by_cases hmem : '\n' ∈ text
      · obtain ⟨front, rest, rfl, hfirst⟩ := List.eq_append_cons_of_mem hmem
        have hlast := splitHashbang_of_mem (Gap.mark_of_append (by decide) hmark) hfirst rest
        rw [habove] at hlast
        exact absurd (List.append_inj_right' hlast rfl) (by decide)
      · exact hmore ((splitHashbang_of_not_mem hmark hmem).symm.trans habove)
    · rintro ⟨-, hlast | rfl⟩
      · simp at hlast
      · exact splitHashbang_of_not_mem (h.mark.trans (List.prefix_append _ _)) hnone

/-- What a wrapper puts in front of the text in it, and behind it. -/
def opening (bindings : Bindings) : List Char := ("(function(" ++ ", ".intercalate bindings.names ++ ") \x7b\n").toList

def closing (bindings : Bindings) : List Char :=
  ("\n\x7d.call(this, " ++ ", ".intercalate bindings.texts ++ "))").toList

theorem toList_wrap {bindings : Bindings} (h : bindings.isEmpty = false) (text : String) :
    (wrap bindings text).toList = (splitHashbang text.toList).1 ++
      (opening bindings ++ ((splitHashbang text.toList).2 ++ closing bindings)) := by
  unfold wrap opening closing
  rw [h]
  simp

/-- The code of a text in a wrapper that stands right below a line: above it is the line, and every
token of the text is in the body of its function, moved by the opening and by nothing else. -/
structure WrapsBelow (line text : List Char) (bindings : Bindings) (code : List Char) : Prop where
  above : (splitHashbang text).1 = line
  around : code = line ++ (opening bindings ++ ((splitHashbang text).2 ++ closing bindings))
  newLine : line.getLast?.any Text.endsLine = true
  inside : ∀ t ∈ (Lexer.ofChars text).tokens,
    byteLength line ≤ t.span.start ∧ t.span.stop ≤ byteLength line + byteLength (splitHashbang text).2 ∧
    Span.slice ⟨byteLength (opening bindings) + t.span.start, byteLength (opening bindings) + t.span.stop⟩ code =
      t.text.toList

theorem wrapsBelow_of_fst_eq {body ending text : List Char} (h : Gap.EndedLine body ending)
    (habove : (splitHashbang text).1 = body ++ ending) (bindings : Bindings) :
    WrapsBelow (body ++ ending) text bindings
      ((splitHashbang text).1 ++ (opening bindings ++ ((splitHashbang text).2 ++ closing bindings))) := by
  have htext : body ++ ending ++ (splitHashbang text).2 = text := by
    rw [← habove, splitHashbang_append]
  refine ⟨habove, by rw [habove], ?_, ?_⟩
  · rcases h.ends with rfl | rfl | rfl <;> simp [Text.endsLine]
  · intro t ht
    have hbelow : byteLength (body ++ ending) ≤ t.span.start := by
      rw [← htext, List.append_assoc] at ht
      exact Lexer.line_le_start h _ t ht
    obtain ⟨reached, hplaced⟩ := (Lexer.laid_ofChars text).exists_placed t ht
    obtain ⟨hstart, hstop, -, hforward, -, -, hslice, -⟩ := hplaced
    refine ⟨hbelow, ?_, ?_⟩
    · rw [← byteLength_append, htext]
      exact boundary_le hstop
    · rw [habove, Span.slice_parted _ _ _ _ hforward (by rwa [htext]) (by rwa [htext]) hbelow, htext, hslice]

end Compilation

/-! ## The line in the rewritten text -/

namespace Patch

theorem prefix_takeBytes (a rest : List Char) {n : Nat} (h : byteLength a ≤ n) : a <+: takeBytes n (a ++ rest) := by
  induction a generalizing n with
  | nil => exact List.nil_prefix
  | cons c a ih =>
    have hc := Char.utf8Size_pos c
    rw [byteLength] at h
    rw [List.cons_append, takeBytes, if_neg (by omega)]
    exact List.cons_prefix_cons.mpr ⟨rfl, ih (by omega)⟩

theorem prefix_renderFrom (length cursor : Nat) (a rest : List Char) {ps : List Patch}
    (h : ∀ p ∈ ps, cursor + byteLength a ≤ p.span.start) : a <+: renderFrom length cursor (a ++ rest) ps := by
  induction ps with
  | nil => exact List.prefix_append _ _
  | cons p ps ih =>
    have hp := h p List.mem_cons_self
    rw [renderFrom]
    split
    · exact ih fun q hq => h q (List.mem_cons_of_mem _ hq)
    · rw [List.append_assoc]
      exact (prefix_takeBytes a rest (by omega)).trans (List.prefix_append _ _)

theorem prefix_render {source : String} {line rest : List Char} (hsource : source.toList = line ++ rest)
    {ps : List Patch} (h : ∀ p ∈ ps, byteLength line ≤ p.span.start) : line <+: (render source ps).toList := by
  rw [render, String.toList_ofList, hsource]
  apply prefix_renderFrom
  intro p hp
  rw [Nat.zero_add]
  exact h p ((sort_perm ps).mem_iff.mp hp)

end Patch

namespace Compiler

variable {c : Compiler} {m built : Module} {source : String}

theorem exists_token_of_dependency (horderly : c.recognizer.Orderly)
    (hbuild : c.buildModule m source = (.ok (), built)) :
    ∀ d ∈ built.dependencies, ∃ t ∈ Token.ofSource source, t.span.start ≤ d.span.start := by
  cases hevents : Event.ofSource source with
  | error e =>
    have hrun : (c.recognizer.parse source).run ⟨c.build, some m.reset⟩ {} = (.error (.source e), {}) := by
      rw [Recognizer.parse, hevents]
      rfl
    rw [buildModule_of_error hrun] at hbuild
    cases hbuild
  | ok events =>
    have hsite : (⟨c.build, some m.reset⟩ : Site).module = some m.reset := rfl
    obtain ⟨after, hrun, hbehind⟩ := Recognizer.exists_run_parseEvents_of_orderly horderly hsite hevents {} rfl
    have hparse : (c.recognizer.parse source).run ⟨c.build, some m.reset⟩ {} = (.ok (), after) := by
      rw [Recognizer.parse, hevents]
      exact hrun
    rw [buildModule_of_ok hparse] at hbuild
    split at hbuild
    · cases hbuild
    · cases hbuild
      intro d hd
      obtain ⟨a, ha, hstart, -⟩ := hbehind d hd
      obtain ⟨t, ht, hroot⟩ := Event.exists_start_of_chain hevents ha
      exact ⟨t, ht, by omega⟩

theorem bindings_of_no_token (hkinds : ∀ t ∈ Token.ofSource source, t.kind = .eof)
    (hbuild : c.buildModule m source = (.ok (), built)) : built.bindings = {} := by
  have hevents : Event.ofSource source = .ok [] := by
    have hvalid : (Token.ofSource source).find? (fun t => t.kind = .invalid) = none := by
      rw [List.find?_eq_none]
      intro t ht
      rw [hkinds t ht]
      decide
    have hnone : (Token.ofSource source).filter (fun t => t.kind ≠ .eof) = [] := by
      rw [List.filter_eq_nil_iff]
      intro t ht
      rw [hkinds t ht]
      decide
    unfold Event.ofSource
    dsimp only
    rw [hvalid, hnone, Walker.events]
    rfl
  have hparse : (c.recognizer.parse source).run ⟨c.build, some m.reset⟩ {} = (.ok (), {}) := by
    rw [Recognizer.parse, hevents]
    rfl
  rw [buildModule_of_ok hparse] at hbuild
  cases hbuild
  rfl

end Compiler

/-! ## Wrappers below the line -/

/-- A wrapper stands right below the hashbang line, with every token in it, exactly when the line is
still there and ends in a line feed, or nothing is left below it. Orderly handlers leave the line
where it is. -/
theorem wraps_below_hashbang_iff (c : Compiler) {m built : Module} {source : String}
    (hmark : ['#', '!'] <+: source.toList) (hbuild : c.buildModule m source = (.ok (), built))
    (hbound : built.bindings.isEmpty = false) :
    let line := Gap.hashbangLine source.toList
    (∀ patches, c.compilation.patches built.dependencies = .ok patches →
      let text := (Patch.render source patches).toList
      ∃ code, c.renderModule built source = .ok code ∧
        (Compilation.WrapsBelow line text built.bindings code.toList ↔
          line <+: text ∧ (line.getLast? = some '\n' ∨ text = line))) ∧
    (c.recognizer.Orderly → c.compilation.templates .const = some Template.const →
      ∃ patches, c.compilation.patches built.dependencies = .ok patches ∧
        line <+: (Patch.render source patches).toList) := by
  intro line
  obtain ⟨body, ending, rest, hsource, hended, hline⟩ : ∃ body ending rest,
      source.toList = body ++ (ending ++ rest) ∧ Gap.EndedLine body ending ∧ line = body ++ ending := by
    rcases Gap.exists_endedLine hmark with hall | hended
    -- A source that ends with its line has no chain, so nothing is bound.
    · have hempty := Compiler.bindings_of_no_token (Lexer.kind_of_unended hmark hall) hbuild
      rw [hempty] at hbound
      cases hbound
    · exact hended
  rw [hline]
  constructor
  · intro patches hpatches text
    refine ⟨Compilation.wrap built.bindings (Patch.render source patches), ?_, ?_⟩
    · rw [Compiler.renderModule, hpatches]
      rfl
    · rw [Compilation.toList_wrap hbound, ← Compilation.splitHashbang_fst_eq_iff hended]
      exact ⟨fun h => h.above, fun habove => Compilation.wrapsBelow_of_fst_eq hended habove built.bindings⟩
  · intro horderly hconst
    refine ⟨_, Module.patches_const _ hconst built.dependencies, ?_⟩
    apply Patch.prefix_render (by rw [hsource, List.append_assoc])
    refine List.forall_mem_map.mpr ?_
    intro d hd
    obtain ⟨t, ht, hle⟩ := Compiler.exists_token_of_dependency horderly hbuild d hd
    rw [Token.ofSource, hsource] at ht
    exact Nat.le_trans (Lexer.line_le_start hended rest t ht) hle

/-- A compiler with the environment only, and a module for it. -/
def scriptCompiler : Compiler := Environment.apply { dirname := .mock } { build := ⟨"/project", "/module.js"⟩ }

def script : Module := Module.ofResource "/project/src/a.js"

theorem wraps_below_hashbang_of_feed :
    let source := "#!node\r\nrequire.main;__dirname;"
    let built := (scriptCompiler.buildModule script source).2
    ['#', '!'] <+: source.toList ∧ scriptCompiler.buildModule script source = (.ok (), built) ∧
    built.bindings.isEmpty = false ∧
    ∃ patches code, scriptCompiler.compilation.patches built.dependencies = .ok patches ∧
      scriptCompiler.renderModule built source = .ok code ∧
      Compilation.WrapsBelow "#!node\r\n".toList (Patch.render source patches).toList built.bindings code.toList := by
  intro source built
  have hmark : ['#', '!'] <+: source.toList := by decide
  have hbuild : scriptCompiler.buildModule script source = (.ok (), built) :=
    Prod.ext (by decide +kernel) rfl
  have hbound : built.bindings.isEmpty = false := by decide +kernel
  have hread : Gap.hashbangLine source.toList = "#!node\r\n".toList := by decide
  obtain ⟨hrender, hkept⟩ := wraps_below_hashbang_iff scriptCompiler hmark hbuild hbound
  obtain ⟨patches, hpatches, hline⟩ := hkept (Environment.orderly_apply _ (by intro entry h; cases h)) rfl
  obtain ⟨code, hcode, hiff⟩ := hrender patches hpatches
  rw [hread] at hline hiff
  exact ⟨hmark, hbuild, hbound, patches, code, hpatches, hcode, hiff.mpr ⟨hline, .inl (by decide)⟩⟩

/-- Behind a carriage return alone the wrapper is put at the end of the code, with no token in it. -/
theorem wrapper_above_lone_return :
    let source := "#!node\r__dirname;"
    let built := (scriptCompiler.buildModule script source).2
    let code := "#!node\r__dirname;(function(__dirname) \x7b\n\n\x7d.call(this, \"/\"))"
    (scriptCompiler.buildModule script source).1 = .ok () ∧ built.bindings.isEmpty = false ∧
    Gap.hashbangLine source.toList = "#!node\r".toList ∧
    scriptCompiler.compilation.patches built.dependencies = .ok [] ∧ Patch.render source [] = source ∧
    scriptCompiler.renderModule built source = .ok code ∧
    ¬Compilation.WrapsBelow "#!node\r".toList source.toList built.bindings code.toList := by
  intro source built code
  refine ⟨by decide +kernel, by decide +kernel, by decide, by decide +kernel, by decide +kernel, by decide +kernel,
    ?_⟩
  intro h
  exact absurd h.above (by decide)

end Nodeless
