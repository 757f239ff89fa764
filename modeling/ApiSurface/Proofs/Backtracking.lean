import ApiSurface.Grammar.Parse
import ApiSurface.Proofs.Rescanning
/-!
Going back. A parser that declares nothing changes its state in a few ways. What it changes is in
the checkpoint, or was recorded behind what was there before, or is changed back by the parser
itself, so going back leads to the state before.
-/
namespace ApiSurface.ParseState

/-- What parsers that declare nothing do to a state. -/
inductive Walks : ParseState → ParseState → Prop
  | refl (s : ParseState) : Walks s s
  | trans {s s' s'' : ParseState} : Walks s s' → Walks s' s'' → Walks s s''
  /-- They go to the next token. -/
  | next (s : ParseState) : Walks s (Parse.next s)
  | report (s : ParseState) (d : Diagnostic) :
      Walks s { s with diagnostics := s.diagnostics.push d }
  /-- They go on in another context, and leave it again. -/
  | within {s s' : ParseState} (k : ParseContext) : Walks { s with context := k } s' →
      Walks s { s' with context := s.context }
  /-- They stall; this is never taken back. -/
  | mark (s : ParseState) (stalled : Bool) : (s.stalled = true → stalled = true) →
      Walks s { s with stalled }

/-- From one state to another, what a checkpoint counts was added to, and what it lacks stayed as it
was. -/
structure Extends (s s' : ParseState) : Prop where
  scans : ∃ k, s'.lexer = Lexer.scan^[k] s.lexer
  diagnostics : ∃ new, s'.diagnostics = s.diagnostics ++ new
  declarations : s'.declarations = s.declarations
  isModule : s'.isModule = s.isModule
  firstStatement : s'.firstStatement = s.firstStatement
  context : s'.context = s.context
  strayed : s'.strayed = s.strayed

variable {s s' s'' : ParseState}

theorem Extends.trans (h : s.Extends s') (h' : s'.Extends s'') : s.Extends s'' where
  scans := by
    obtain ⟨k, hk⟩ := h.scans
    obtain ⟨k', hk'⟩ := h'.scans
    exact ⟨k' + k, by rw [hk', hk, Function.iterate_add_apply]⟩
  diagnostics := by
    obtain ⟨new, hnew⟩ := h.diagnostics
    obtain ⟨new', hnew'⟩ := h'.diagnostics
    exact ⟨new ++ new', by rw [hnew', hnew, Array.append_assoc]⟩
  declarations := h'.declarations.trans h.declarations
  isModule := h'.isModule.trans h.isModule
  firstStatement := h'.firstStatement.trans h.firstStatement
  context := h'.context.trans h.context
  strayed := h'.strayed.trans h.strayed

/-- A parser that has stalled stays so. -/
theorem Walks.stalled (h : s.Walks s') : s.stalled = true → s'.stalled = true := by
  induction h with
  | refl s | next s | report s d => exact id
  | trans _ _ ih ih' => exact ih' ∘ ih
  | within k _ ih => exact ih
  | mark s b hb => exact hb

/-- However a parser that declares nothing goes on, going back can undo it. -/
theorem Walks.extends (h : s.Walks s') : s.Extends s' := by
  induction h with
  | refl s => exact ⟨⟨0, rfl⟩, ⟨#[], Array.append_empty.symm⟩, rfl, rfl, rfl, rfl, rfl⟩
  | trans _ _ ih ih' => exact ih.trans ih'
  | next s => exact ⟨⟨1, rfl⟩, ⟨#[], Array.append_empty.symm⟩, rfl, rfl, rfl, rfl, rfl⟩
  | report s d => exact ⟨⟨0, rfl⟩, ⟨#[d], Array.push_eq_append⟩, rfl, rfl, rfl, rfl, rfl⟩
  | within k _ ih =>
    exact ⟨ih.scans, ih.diagnostics, ih.declarations, ih.isModule, ih.firstStatement, rfl,
      ih.strayed⟩
  | mark s b _ => exact ⟨⟨0, rfl⟩, ⟨#[], Array.append_empty.symm⟩, rfl, rfl, rfl, rfl, rfl⟩

theorem Extends.restore (h : s.Extends s') :
    s'.restore s.save = { s with stalled := s'.stalled } := by
  obtain ⟨k, hlexer⟩ := h.scans
  obtain ⟨new, hdiagnostics⟩ := h.diagnostics
  have hback : s'.lexer.restore s.lexer.save = s.lexer :=
    hlexer ▸ Lexer.restore_iterate_scan k s.lexer
  have hreports : s'.diagnostics.take s.diagnostics.size = s.diagnostics := by
    rw [hdiagnostics]
    simp
  have htable : s'.declarations.take s.declarations.size = s.declarations := by
    rw [h.declarations]
    simp
  unfold ParseState.restore save
  rw [ParseState.mk.injEq]
  exact ⟨hback, rfl, hreports, htable, h.isModule, h.firstStatement, h.context, rfl, h.strayed⟩

/-- Going back leads to the state before, but for the mark of a parser that stalled. -/
theorem Walks.back (h : s.Walks s') : s'.back s.save s = { s with stalled := s'.stalled } := by
  have hrestore := h.extends.restore
  have hsame : ¬ s.Differs (s'.restore s.save) := by
    rw [hrestore]
    exact not_not_intro rfl
  unfold ParseState.back
  rw [hrestore] at hsame ⊢
  rw [h.extends.strayed]
  simp only [hsame, or_false]

end ApiSurface.ParseState
