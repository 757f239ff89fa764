import ApiSurface.Grammar.File
import ApiSurface.Proofs.DeclaringProductions
import ApiSurface.Proofs.FoundDocuments
import ApiSurface.Proofs.ReadWholeTypes
/-!
The declaration of a type alias is read as it is written, for every type of the grammar.
-/
namespace ApiSurface

open Parse

/-! ### Parsers that declare something -/

namespace Parse

variable {α β : Type} {k : ParseContext} {ps qs rs : List Piece} {ds : Array Declaration}

/-- In front of the tokens `ps`, with the declarations `ds`, a parser reads up to `qs`; its result
and the declarations that there are then are as said. -/
def Declares (p : Parse α) (k : ParseContext) (ps qs : List Piece) (ds : Array Declaration)
    (P : α → Array Declaration → Prop) : Prop :=
  ∀ (c : Setting) (s : ParseState), s.At k ps → s.declarations = ds →
    P (p c s).1 (p c s).2.declarations ∧ (p c s).2.At k qs

theorem Declares.bind {p : Parse α} {f : α → Parse β} {P : α → Array Declaration → Prop}
    {R : β → Array Declaration → Prop} (hp : p.Declares k ps qs ds P)
    (hf : ∀ a ds', P a ds' → (f a).Declares k qs rs ds' R) : (p >>= f).Declares k ps rs ds R :=
  fun c s hs hds => by
    obtain ⟨hP, hend⟩ := hp c s hs hds
    exact hf _ _ hP c _ hend rfl

theorem Declares.pure {a : α} {P : α → Array Declaration → Prop} (h : P a ds) :
    (pure a : Parse α).Declares k ps ps ds P := fun _ _ hs hds => ⟨hds ▸ h, hs⟩

/-- A parser that declares nothing leaves the declarations as they are. -/
theorem Reads.declares {p : Parse α} {P : α → Prop} [hp : Quiet p] (h : p.Reads k ps qs P) :
    p.Declares k ps qs ds fun a ds' => P a ∧ ds' = ds := fun c s hs hds =>
  ⟨⟨(h c s hs).1, (hp.walks c s).extends.declarations.trans hds⟩, (h c s hs).2⟩

theorem Reads.bindDeclares {p : Parse α} {f : α → Parse β} {P : α → Prop}
    {R : β → Array Declaration → Prop} [Quiet p] (hp : p.Reads k ps qs P)
    (hf : ∀ a, P a → (f a).Declares k qs rs ds R) : (p >>= f).Declares k ps rs ds R :=
  hp.declares.bind fun a _ ⟨ha, hds⟩ => hds ▸ hf a ha

theorem Tells.declares {p : Parse α} {f : α → Parse β} {a : α} {R : β → Array Declaration → Prop}
    [Still p] (hp : p.Tells k ps a) (hf : (f a).Declares k ps rs ds R) :
    (p >>= f).Declares k ps rs ds R := fun c s hs hds => by
  have hrun : (p >>= f) c s = f (p c s).1 c (p c s).2 := rfl
  rw [hrun, hp c s hs, Still.state (p := p)]
  exact hf c s hs hds

theorem Declares.advance {f : Unit → Parse β} {R : β → Array Declaration → Prop}
    (hf : (f ()).Declares k ps.tail rs ds R) : (advance >>= f).Declares k ps rs ds R :=
  fun c s hs hds => hf c (next s) hs.next hds

theorem Declares.still {p : Parse α} {f : α → Parse β} {R : β → Array Declaration → Prop} [Still p]
    (hf : ∀ a, (f a).Declares k ps rs ds R) : (p >>= f).Declares k ps rs ds R :=
  fun c s hs hds => by
    have hrun : (p >>= f) c s = f (p c s).1 c (p c s).2 := rfl
    rw [hrun, Still.state (p := p)]
    exact hf _ c s hs hds

/-- A change of what is noted of the file. -/
theorem Declares.note {note : ParseState → Option ℕ} {f : Unit → Parse β}
    {R : β → Array Declaration → Prop} (hf : (f ()).Declares k ps rs ds R) :
    (modify (fun s => { s with firstStatement := note s }) >>= f).Declares k ps rs ds R :=
  fun c _ hs hds => hf c _ ⟨hs.lexer, hs.context, hs.diagnostics⟩ hds

theorem declares_declare {name : Ident} {span : Span} {modifiers : Modifiers} {doc : Option String}
    {shape : DeclarationShape} : (declare name span modifiers doc shape).Declares k ps ps ds
      fun i ds' => i = ds.size ∧ ds' = ds.push ⟨name, span, modifiers, doc, shape, k.parent⟩ := by
  rintro c s hs rfl
  refine ⟨⟨rfl, ?_⟩, hs.lexer, hs.context, hs.diagnostics⟩
  rw [← hs.context]
  rfl

/-- Where there are no comments, nothing is documented. -/
theorem tells_leadingDocHere : leadingDocHere.Tells k ps none := by
  intro c s hs
  have hnone : leadingDoc s.lexer.comments s.lastEnd s.pos c.text = none := by
    rw [hs.lexer.comments]
    simp [leadingDoc]
  rw [leadingDocHere_run, ParseState.doc, hnone]
  rfl

end Parse

/-! ### Type aliases -/

/-- The tokens of a type alias. -/
def TypeTerm.aliasPieces (name : String) (t : TypeTerm) : List Piece :=
  .word "type" :: .word name :: .sign .equals :: (t.pieces ++ [.sign .semicolon])

/-- A declaration of a type alias that is a term with places in a text. -/
structure TypeTerm.ShowsAlias (name : String) (t : TypeTerm) (d : Declaration) : Prop where
  name : d.name.text = name
  modifiers : d.modifiers = []
  doc : d.doc = none
  parent : d.parent = none
  shape : ∃ type, d.shape = .typeAlias [] type ∧ t.Shows type

/-- The statements and the declarations after those in `ds` are a type alias and nothing else. -/
def TypeTerm.AddsAlias (name : String) (t : TypeTerm) (ds : Array Declaration)
    (statements : List Statement) (ds' : Array Declaration) : Prop :=
  statements = [.declaration ds.size] ∧ ∃ d, ds' = ds.push d ∧ t.ShowsAlias name d

namespace Productions

variable {g : Productions} {n : ℕ} {k : ParseContext} {t : TypeTerm} {ps qs : List Piece}
  {ds : Array Declaration} {name : String}

theorem reads_semicolon : semicolon.Reads k (.sign .semicolon :: ps) ps fun _ => True := by
  rw [semicolon]
  exact .accept (.pure trivial)

theorem noDeclarationModifiers :
    declarationModifiers.Reads k (.word "type" :: ps) (.word "type" :: ps) (· = []) := by
  rw [declarationModifiers]
  refine reads_iterate_none (.current fun t ht => ?_)
  have hword (word : String) : t.isWord word = ("type" == word) := ht.isWord word
  simp only [hword, String.reduceBEq, Bool.false_eq_true, if_false, reads_nextIsWord,
    Bool.false_and]
  exact .pure rfl

namespace ReadsTypes

theorem typeAlias [Quiet g] (hg : g.ReadsTypes n) (ht : t.Within k)
    (hcontext : k.withoutConditionals = false) (hparent : k.parent = none) (start : ℕ)
    (hlength : (t.aliasPieces name).length ≤ n) :
    (g.typeAlias start none []).Declares k (t.aliasPieces name) [] ds fun i ds' =>
      i = ds.size ∧ ∃ d, ds' = ds.push d ∧ t.ShowsAlias name d := by
  have hflag : k.withoutConditionals = true → 1 ≤ t.rank := fun h =>
    absurd (hcontext.symm.trans h) Bool.false_ne_true
  rw [TypeTerm.aliasPieces, List.length_cons, List.length_cons, List.length_cons] at hlength
  have htype : g.type.Reads k (t.pieces ++ [.sign .semicolon]) [.sign .semicolon] t.Shows :=
    hg.type ht hflag (kindAt_end (by decide)) (by omega)
  have hless (ps : List Piece) : kindAt (.sign .equals :: ps) ≠ .less := nofun
  have hparams : g.typeParameters.Reads k (.sign .equals :: (t.pieces ++ [.sign .semicolon]))
      (.sign .equals :: (t.pieces ++ [.sign .semicolon])) (· = []) :=
    .reject (hless _) (.pure rfl)
  rw [Productions.typeAlias, TypeTerm.aliasPieces]
  refine .advance (reads_identifier.bindDeclares fun found hfound =>
    hparams.bindDeclares fun _ hnone => ?_)
  refine reads_expect.bindDeclares fun _ _ => htype.bindDeclares fun type hshows =>
    reads_semicolon.bindDeclares fun _ _ => .still fun span => ?_
  intro c s hs hds
  obtain ⟨⟨hi, hpush⟩, hend⟩ := declares_declare c s hs hds
  refine ⟨⟨hi, _, hpush, hfound, rfl, rfl, hparent, type, ?_, hshows⟩, hend⟩
  rw [hnone]

theorem declaration? [Quiet g] (hg : g.ReadsTypes n) (ht : t.Within k)
    (hcontext : k.withoutConditionals = false) (hparent : k.parent = none) (start : ℕ)
    (hlength : (t.aliasPieces name).length ≤ n) :
    (g.declaration? start none []).Declares k (t.aliasPieces name) [] ds fun found ds' =>
      ∃ statements, found = some statements ∧ t.AddsAlias name ds statements ds' := by
  rw [Productions.declaration?]
  refine tells_isAt.declares (reads_current.bindDeclares fun first hfirst => ?_)
  have hvalue : first.value = "type" := hfirst.value
  simp only [hvalue]
  refine tells_nextIsIdentifierOnLine.declares ?_
  exact (hg.typeAlias ht hcontext hparent start hlength).bind fun i ds' h =>
    .pure ⟨_, rfl, congrArg (fun i => [Statement.declaration i]) h.1, h.2⟩

theorem statement [Quiet g] (hg : g.ReadsTypes n) (ht : t.Within k)
    (hcontext : k.withoutConditionals = false) (hparent : k.parent = none)
    (hlength : (t.aliasPieces name).length ≤ n) :
    g.statement.Declares k (t.aliasPieces name) [] ds (t.AddsAlias name ds) := by
  have hsemicolon : kindAt (t.aliasPieces name) ≠ .semicolon := nofun
  rw [Productions.statement]
  refine tells_leadingDocHere.declares (.still fun start =>
    (reads_reject hsemicolon).bindDeclares fun _ h => ?_)
  obtain rfl := h
  refine tells_isAt.declares (tells_isAtWord.declares (.still fun after => ?_))
  refine tells_isAtWord.declares (noDeclarationModifiers.bindDeclares fun modifiers h => ?_)
  obtain rfl := h
  refine (hg.declaration? ht hcontext hparent start hlength).bind fun found ds' hfound => ?_
  obtain ⟨statements, rfl, hadds⟩ := hfound
  exact .pure hadds

theorem statementStep [Quiet g] (hg : g.ReadsTypes n) (ht : t.Within k)
    (hcontext : k.withoutConditionals = false) (hparent : k.parent = none)
    (hlength : (t.aliasPieces name).length ≤ n) :
    (g.statementStep false).Declares k (t.aliasPieces name) [] ds fun r ds' =>
      t.AddsAlias name ds r.1 ds' := by
  rw [Productions.statementStep]
  refine tells_isAt.declares (tells_isAt.declares (.still fun start => .note ?_))
  refine (hg.statement ht hcontext hparent hlength).bind fun statements ds' hadds =>
    .still fun stop => tells_isAt.declares ?_
  have hend : (kindAt [] == TokenKind.endOfFile) = true := rfl
  rw [hend, Bool.not_true, Bool.and_false, if_neg Bool.false_ne_true]
  exact .pure hadds

theorem lastStep : (g.statementStep false).Declares k [] [] ds fun r ds' =>
    r = ([], false) ∧ ds' = ds := by
  rw [Productions.statementStep]
  exact tells_isAt.declares (.pure ⟨rfl, rfl⟩)

/-- A type alias is all that a file with nothing else in it declares. -/
theorem statementList [Quiet g] (hg : g.ReadsTypes n) (ht : t.Within k)
    (hcontext : k.withoutConditionals = false) (hparent : k.parent = none)
    (hlength : (t.aliasPieces name).length ≤ n) :
    (g.statementList false).Declares k (t.aliasPieces name) [] ds (t.AddsAlias name ds) := by
  intro c s hs hds
  rw [Productions.statementList]
  -- nothing has been read, or all there is
  refine collect_yields (R := fun found s => t.AddsAlias name ds found s.declarations ∧ s.At k [])
    (I := fun found s => (found = [] ∧ s.At k (t.aliasPieces name) ∧ s.declarations = ds) ∨
      t.AddsAlias name ds found s.declarations ∧ s.At k []) ?_ ?_ ?_ (.inl ⟨rfl, hs, hds⟩)
  · rintro found s (⟨rfl, hs, hds⟩ | ⟨hadds, hend⟩)
    · have hstep := hg.statementStep ht hcontext hparent hlength c s hs hds
      exact ⟨hstep, fun _ => .inr hstep⟩
    · obtain ⟨⟨hlast, hds⟩, hend'⟩ := lastStep (g := g) c s hend rfl
      show (_ ∧ _) ∧ _
      rw [hlast, List.append_nil, hds]
      exact ⟨⟨hadds, hend'⟩, nofun⟩
  · exact fun found s ⟨hadds, hend⟩ => ⟨hadds, hend.stall true⟩
  · rintro found s (⟨hfound, hs, hds⟩ | ⟨hadds, hend⟩)
    · exact .inl ⟨hfound, hs.stall true, hds⟩
    · exact .inr ⟨hadds, hend.stall true⟩

end ReadsTypes

end Productions

/-! ### Whole files -/

/-- A text that begins with a blank or a letter is read from its first character on. -/
theorem Lexer.ofText_rest {c : Char} {cs : List Char} (h : c = ' ' ∨ c = '\t' ∨ c = 't') :
    (ofText (c :: cs)).rest = c :: cs := by
  rcases h with rfl | rfl | rfl <;> rfl

theorem ParseState.start_at {ps : List Piece} {text : List Char}
    (h : Spells (.word "type" :: ps) text) :
    (ParseState.start text).At ⟨false, 0, none⟩ (.word "type" :: ps) := by
  have hrest : (Lexer.ofText text).rest = text := by
    cases h with
    | @cons _ _ gap rest hgap _ _ _ =>
      cases gap with
      | nil => exact Lexer.ofText_rest (c := 't') (.inr (.inr rfl))
      | cons c gap =>
        refine Lexer.ofText_rest ?_
        exact (hgap c List.mem_cons_self).imp_right .inl
  have hlexer : (Lexer.ofText text).scan.At (.word "type" :: ps) :=
    Lexer.scan_at (hrest.symm ▸ h) rfl rfl
  exact ⟨hlexer, rfl, rfl⟩

namespace SourceFile

/-- The type parser accepts its grammar with the right precedence. A term that has parentheses where
they are needed can be written down, and a file in which an alias of it is written, however the
tokens are spaced, declares this alias with exactly this type, and nothing is reported. -/
theorem type_alias_read {n : ℕ} {t : TypeTerm} {name : String} (hname : IsName name)
    (hfits : t.Fits n) (hdepth : n < maxDepth) :
    Spells (t.aliasPieces name) (spaced (t.aliasPieces name)) ∧
      ∀ (file : String) (text : List Char), Spells (t.aliasPieces name) text →
        (parse file text).statements = [.declaration 0] ∧ (parse file text).diagnostics = [] ∧
        ∃ d, (parse file text).declarations = #[d] ∧ t.ShowsAlias name d := by
  have htype : IsName "type" := by simp [IsName, startsName, continuesName]
  have hgrouped : Grouped (t.aliasPieces name) :=
    .word htype (.word hname (.sign (by decide) (hfits.grouped.append (.sign (by decide) .nil))))
  refine ⟨spells_spaced hgrouped.writable, fun file text hspells => ?_⟩
  have hread := (Productions.ReadsTypes.ofDepth (text.length + 1)).statementList
    ⟨n, hfits, by rwa [Nat.zero_add]⟩ rfl rfl (Nat.le_succ_of_le hspells.length_le)
    ⟨file, text⟩ (.start text) (ParseState.start_at hspells) rfl
  obtain ⟨⟨hstatements, d, hdeclarations, hshows⟩, hend⟩ := hread
  refine ⟨hstatements, ?_, d, hdeclarations, hshows⟩
  have hproblems : (statementsOf file text).2.lexer.problems = #[] := hend.lexer.problems
  have hdiagnostics : (statementsOf file text).2.diagnostics = #[] := hend.diagnostics
  show (((statementsOf file text).2.lexer.problems.toList.map _) ++
    (statementsOf file text).2.diagnostics.toList).mergeSort _ = []
  rw [hproblems, hdiagnostics]
  simp

/-- A conditional type whose bound is a function type with an inferred parameter. -/
def inferredParameter : TypeTerm :=
  .conditional (.reference "T" [] [])
    (.function [] [⟨"x", false, false, some (.infer "U")⟩] (.keyword "void"))
    (.array (.reference "U" [] [])) (.operator .keyof (.reference "T" [] []))

theorem inferredParameter_fits : inferredParameter.Fits 2 := by
  have hnone {α : Type} {P : α → Prop} : ∀ a ∈ ([] : List α), P a := List.forall_mem_nil P
  have href {name : String} (h : IsTypeName name) (n : ℕ) :
      TypeTerm.Fits n (.reference name [] []) := .flat ⟨h, hnone⟩ hnone rfl
  have hx : IsName "x" := by simp [IsName, startsName]
  have hT : IsTypeName "T" := ⟨by simp [IsName, startsName], by decide, by decide⟩
  have hU : IsTypeName "U" := ⟨by simp [IsName, startsName], by decide, by decide⟩
  have hinfer : TypeTerm.Fits 0 (.infer "U") := .flat hU hnone rfl
  have hkeyword : "void" ∈ Productions.keywordTypes := by decide
  have hvoid : TypeTerm.Fits 0 (.keyword "void") := .flat hkeyword hnone rfl
  have hbound : TypeTerm.Fits 1
      (.function [] [⟨"x", false, false, some (.infer "U")⟩] (.keyword "void")) := by
    refine .nested ⟨hnone, List.forall_mem_singleton.mpr hx⟩ hnone ?_
    exact List.forall_mem_cons.mpr ⟨hinfer, List.forall_mem_singleton.mpr hvoid⟩
  have harray : TypeTerm.Fits 1 (.array (.reference "U" [] [])) :=
    .flat (Nat.le_succ 5) (List.forall_mem_singleton.mpr (href hU 1)) rfl
  have hkeyof : TypeTerm.Fits 1 (.operator .keyof (.reference "T" [] [])) :=
    .flat ⟨by decide, by decide⟩ (List.forall_mem_singleton.mpr (href hT 1)) rfl
  exact .nested ⟨by decide, by decide⟩ (List.forall_mem_singleton.mpr (href hT 2))
    (List.forall_mem_cons.mpr ⟨hbound, List.forall_mem_cons.mpr ⟨harray,
      List.forall_mem_singleton.mpr hkeyof⟩⟩)

theorem inferred_parameter_read :
    let text := " type F = T extends ( x : infer U ) => void ? U [ ] : keyof T ;"
    ∃ d, (parse "a.ts" text.toList).declarations = #[d] ∧
      inferredParameter.ShowsAlias "F" d := by
  have hname : IsName "F" := by simp [IsName, startsName]
  obtain ⟨hspells, hread⟩ := type_alias_read hname inferredParameter_fits (by decide)
  obtain ⟨-, -, hd⟩ := hread "a.ts" _ hspells
  have htext : spaced (inferredParameter.aliasPieces "F") =
      " type F = T extends ( x : infer U ) => void ? U [ ] : keyof T ;".toList := by
    simp [inferredParameter, spaced, TypeTerm.aliasPieces, TypeTerm.pieces, Piece.text, dotted,
      angled, piecesOfTypes, piecesOfTypeParams, piecesOfParams, ParamTerm.pieces, marked, parted,
      led, piecesOfType?, TypeOperator.word, TokenKind.spelling?]
  rwa [htext] at hd

end SourceFile

end ApiSurface
