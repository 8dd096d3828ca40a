import Nodeless.Proofs.Environment.Handlers
import Nodeless.Proofs.Token.Quoted

/-!
# What the environment binds names to

A path stands in a bound text as one string, whatever characters it is made of. So the text has no
tokens but those that the environment writes, and nothing of the path is read as code.
-/

namespace Nodeless

/-! ## Where bindings come from -/

theorem Bindings.mem_insertEntry {name text : String} {entries : List (String × String)} {entry : String × String}
    (h : entry ∈ insertEntry name text entries) : entry ∈ entries ∨ entry = (name, text) := by
  induction entries with
  | nil => exact .inr (List.mem_singleton.mp h)
  | cons first entries ih =>
    unfold insertEntry at h
    split at h
    · exact (List.mem_cons.mp h).symm
    · split at h
      · exact (List.mem_cons.mp h).elim .inr fun h => .inl (List.mem_cons_of_mem _ h)
      · rcases List.mem_cons.mp h with rfl | h
        · exact .inl List.mem_cons_self
        · exact (ih h).imp_left (List.mem_cons_of_mem _)

/-- What is bound was bound before, or is one of some entries. -/
def Draft.BindsOnly (P : String × String → Prop) (a b : Draft) : Prop :=
  ∀ entry ∈ b.bindings.entries, entry ∈ a.bindings.entries ∨ P entry

theorem Draft.carries_bindsOnly (P : String × String → Prop) : Carries (BindsOnly P) where
  refl _ _ hentry := .inl hentry
  trans h h' entry hentry := (h' entry hentry).elim (h entry) .inr

/-- A handler binds the entry for some chain, over what was bound before. -/
def Recognizer.Binds (r : Recognizer) (site : Site) (entry : String × String) : Prop :=
  ∃ handler ∈ r.handlers, ∃ chain draft, entry ∉ draft.bindings.entries ∧
    entry ∈ ((handler.2 chain).run site draft).2.bindings.entries

theorem Recognizer.leads_binds {r : Recognizer} {site : Site} {handler : String × Handler}
    (h : handler ∈ r.handlers) (chain : Chain) : (handler.2 chain).Leads site (Draft.BindsOnly (r.Binds site)) := by
  intro draft entry hentry
  by_cases hbefore : entry ∈ draft.bindings.entries
  · exact .inl hbefore
  · exact .inr ⟨handler, h, chain, draft, hbefore, hentry⟩

theorem Compiler.mem_bindings_of_leads {c : Compiler} {m : Module} {P : String × String → Prop}
    (h : ∀ entry ∈ c.recognizer.handlers, ∀ chain,
      (entry.2 chain).Leads ⟨c.build, some m.reset⟩ (Draft.BindsOnly P)) (source : String) :
    ∀ entry ∈ (c.buildModule m source).2.bindings.entries, P entry := by
  have hparse := Recognizer.leads_parse (Draft.carries_bindsOnly P) h (fun _ _ _ => .inl) source {}
  rcases hrun : (c.recognizer.parse source).run ⟨c.build, some m.reset⟩ {} with ⟨_ | _, draft⟩
  · rw [buildModule_of_error hrun]
    exact fun entry hentry => absurd hentry List.not_mem_nil
  · rw [hrun] at hparse
    rw [buildModule_of_ok hrun]
    split
    · exact fun entry hentry => absurd hentry List.not_mem_nil
    · exact fun entry hentry => (hparse entry hentry).resolve_left List.not_mem_nil

namespace Environment

/-! ## What the texts are read as -/

/-- The kinds of the tokens of a text that the environment may bind a name to. -/
inductive Shape : String → List Kind → Prop
  | filename (path : String) : Shape "__filename" [.string path, .eof]
  | dirname (path : String) : Shape "__dirname" [.string path, .eof]
  | joined (path : String) : Shape "__dirname"
      [.identifier "require", .leftParen, .string "path", .rightParen, .dot, .identifier "join", .leftParen,
        .identifier "__dirname", .comma, .string path, .rightParen, .eof]
  | shim (request : String) : Shape "module"
      [.identifier "require", .leftParen, .string request, .rightParen, .leftParen, .identifier "module",
        .rightParen, .eof]

/-- The text of the entry is read as one that its name may be bound to. -/
def Shaped (entry : String × String) : Prop := Shape entry.1 ((Token.ofSource entry.2).map (·.kind))

open Lexer Text

/-- The call that requires the quoted text. -/
def required (text : String) : List Char := "require".toList ++ ['('] ++ quoteChars text.toList ++ [')']

theorem readsAs_required (text : String) (behind : List Char) :
    ReadsAs (required text) [.identifier "require", .leftParen, .string (quotedValue text.toList), .rightParen]
      behind := by
  have hclose : ReadsAs [')'] [.rightParen] behind := readsAs_mark (by simp) behind
  have hquoted := readsAs_quoted .nil text.toList ([')'] ++ behind)
  rw [List.nil_append] at hquoted
  exact ((readsAs_opened (by decide) _).append hquoted).append hclose

theorem not_hashbang_required (text : String) (behind : List Char) : ¬['#', '!'] <+: required text ++ behind := by
  intro hfront
  exact absurd (List.cons_prefix_cons.mp hfront).1 (by decide)

theorem kinds_shimCall (build : BuildContext) (m : Module) :
    (Token.ofSource (shimCall build m)).map (·.kind) =
      [.identifier "require", .leftParen, .string (quotedValue (shimRequest build.moduleShim m.context).toList),
        .rightParen, .leftParen, .identifier "module", .rightParen, .eof] := by
  unfold shimCall
  generalize shimRequest build.moduleShim m.context = request
  have htext : ("require(" ++ quote request ++ ")(module)").toList =
      required request ++ (['('] ++ ("module".toList ++ [')'])) := by
    have hfront : "require(".toList = "require".toList ++ ['('] := by decide
    have hback : ")(module)".toList = [')'] ++ (['('] ++ ("module".toList ++ [')'])) := by decide
    calc
      _ = "require(".toList ++ (quote request).toList ++ ")(module)".toList := by
        rw [String.toList_append, String.toList_append]
      _ = "require".toList ++ ['('] ++ quoteChars request.toList ++ ([')'] ++ (['('] ++ ("module".toList ++ [')']))) :=
        congrArg₂ (· ++ ·) (congrArg₂ (· ++ ·) hfront (toList_quote request)) hback
      _ = required request ++ (['('] ++ ("module".toList ++ [')'])) := (List.append_assoc _ _ _).symm
  have hname : IsIdentifier "module" := by decide
  have hmodule := (readsAs_name hname (by rfl)).append (@readsAs_mark ')' .rightParen (by simp) [])
  have hopen := (@readsAs_mark '(' .leftParen (by simp) _).append hmodule
  have hcall := (readsAs_required request _).append hopen
  rw [← htext] at hcall
  exact Token.kinds_of_readsAs hcall (htext ▸ not_hashbang_required request _)

theorem kinds_joinCall (path : String) :
    (Token.ofSource ("require(\"path\").join(__dirname, " ++ quote path ++ ")")).map (·.kind) =
      [.identifier "require", .leftParen, .string "path", .rightParen, .dot, .identifier "join", .leftParen,
        .identifier "__dirname", .comma, .string (quotedValue path.toList), .rightParen, .eof] := by
  have htext : ("require(\"path\").join(__dirname, " ++ quote path ++ ")").toList = required "path" ++
      (['.'] ++ ("join".toList ++ ['('] ++ ("__dirname".toList ++
        ([','] ++ ([' '] ++ quoteChars path.toList ++ [')']))))) := by
    have hfront : "require(\"path\").join(__dirname, ".toList = required "path" ++
        (['.'] ++ ("join".toList ++ ['('] ++ ("__dirname".toList ++ ([','] ++ [' '])))) := by decide
    have hback : ")".toList = [')'] := by decide
    simp only [String.toList_append, toList_quote path, hfront, hback, List.append_assoc]
  have hgap : Skipped [' '] := .blank (by decide) .nil
  have hdirname : IsIdentifier "__dirname" := by decide
  have hquoted := (readsAs_quoted hgap path.toList _).append (@readsAs_mark ')' .rightParen (by simp) [])
  have hcomma := (@readsAs_mark ',' .comma (by simp) _).append hquoted
  have harguments := (readsAs_name hdirname (by rfl)).append hcomma
  have hjoin : IsIdentifier "join" := by decide
  have hdot := (readsAs_dot (by rfl) (by simp)).append ((readsAs_opened hjoin _).append harguments)
  have hcall := (readsAs_required "path" _).append hdot
  rw [← htext, show quotedValue "path".toList = "path" by decide] at hcall
  exact Token.kinds_of_readsAs hcall (htext ▸ not_hashbang_required "path" _)

/-! ## What is bound -/

theorem shaped_quote_filename (path : String) : Shaped ("__filename", quote path) := by
  unfold Shaped
  rw [kinds_quote]
  exact .filename _

theorem shaped_quote_dirname (path : String) : Shaped ("__dirname", quote path) := by
  unfold Shaped
  rw [kinds_quote]
  exact .dirname _

theorem shaped_filenameText {option : FilenameOption} {build : BuildContext} {m : Module} {text : String}
    (h : filenameText option build m = some text) : Shaped ("__filename", text) := by
  cases option with
  | off => cases h
  | mock =>
    obtain rfl := Option.some.inj h
    exact shaped_quote_filename mockFilename
  | relative =>
    obtain rfl := Option.some.inj h
    exact shaped_quote_filename (Path.relative build.root m.path)

theorem shaped_dirnameText {option : DirnameOption} {build : BuildContext} {m : Module} {text : String}
    (h : dirnameText option build m = some text) : Shaped ("__dirname", text) := by
  cases option with
  | off => cases h
  | mock =>
    obtain rfl := Option.some.inj h
    exact shaped_quote_dirname mockDirname
  | mockAbsolute =>
    obtain ⟨context, -, hjoined⟩ := Option.bind_eq_some_iff.mp h
    dsimp only at hjoined
    split at hjoined
    · cases hjoined
    · obtain rfl := Option.some.inj hjoined
      unfold Shaped
      rw [Literal.source, kinds_joinCall]
      exact .joined _
  | relative =>
    obtain ⟨literal, hliteral, rfl⟩ := Option.map_eq_some_iff.mp h
    obtain ⟨context, -, rfl⟩ := Option.map_eq_some_iff.mp hliteral
    exact shaped_quote_dirname (Path.relative build.root context)

theorem Binder.shaped {options : Options} {name value : String} {text : BuildContext → Module → Option String}
    (h : Binder options name text) {build : BuildContext} {m : Module} (hvalue : text build m = some value) :
    Shaped (name, value) := by
  cases h with
  | filename => exact shaped_filenameText hvalue
  | dirname => exact shaped_dirnameText hvalue
  | module =>
    obtain rfl := Option.some.inj hvalue
    unfold Shaped
    rw [kinds_shimCall]
    exact .shim _

/-- Whatever path the build root, the shim, the module and its directory have, each name that a build
binds is bound to a text with the tokens that the environment writes for it, unless a handler binds it
that was registered before the environment. -/
theorem bindings_shaped (options : Options) (c : Compiler) (m : Module) (source : String) :
    ∀ entry ∈ ((apply options c).buildModule m source).2.bindings.entries,
      Shaped entry ∨ c.recognizer.Binds ⟨c.build, some m.reset⟩ entry := by
  have hcarries := Draft.carries_bindsOnly fun entry =>
    Shaped entry ∨ c.recognizer.Binds ⟨c.build, some m.reset⟩ entry
  refine Compiler.mem_bindings_of_leads (fun entry hentry chain => ?_) source
  rw [handlers_apply_eq_append] at hentry
  rcases List.mem_append.mp hentry with hother | hown
  · exact fun draft bound hbound => (Recognizer.leads_binds hother chain draft bound hbound).imp_right .inr
  · obtain ⟨named, hnamed, rfl⟩ := List.mem_map.mp hown
    refine (own_handlers options named hnamed).leads hcarries ?_ ?_ ?_ chain
    · intro name text hbinder build module value hvalue draft bound hbound
      refine (Bindings.mem_insertEntry hbound).imp_right ?_
      rintro rfl
      exact .inl (hbinder.shaped hvalue)
    · exact fun _ _ _ => .inl
    · exact fun _ _ _ => .inl

/-- A quotation mark and a line feed in the name of a directory. -/
theorem bindings_shaped_quotation :
    ("__dirname", "require(\"path\").join(__dirname, \"a\\\"b\\n\")") ∈
      ((apply ⟨.relative, .mockAbsolute⟩ { build := ⟨"/", "/module.js"⟩ }).buildModule
        (Module.ofResource "/a\"b\n/c.js") "__dirname;module").2.bindings.entries ∧
    Shaped ("__dirname", "require(\"path\").join(__dirname, \"a\\\"b\\n\")") := by
  have hbound : ("__dirname", "require(\"path\").join(__dirname, \"a\\\"b\\n\")") ∈
      ((apply ⟨.relative, .mockAbsolute⟩ { build := ⟨"/", "/module.js"⟩ }).buildModule
        (Module.ofResource "/a\"b\n/c.js") "__dirname;module").2.bindings.entries := by decide +kernel
  refine ⟨hbound, (bindings_shaped _ _ _ _ _ hbound).resolve_right ?_⟩
  rintro ⟨handler, hhandler, -⟩
  exact List.not_mem_nil hhandler

end Environment

end Nodeless
