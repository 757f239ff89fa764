import ApiSurface.Proofs.ParsedFiles
import ApiSurface.Proofs.ScannedText
import ApiSurface.Proofs.SteadyProductions
/-!
Parsing a file makes progress from its first token to its last.
-/
namespace ApiSurface

namespace SourceFile

theorem statementsOf_progresses (name : String) (text : List Char) :
    (statementsOf name text).2.stalled = false ∧
      (statementsOf name text).2.current.kind = .endOfFile ∧
      (statementsOf name text).2.rest = [] := by
  have hstart : (ParseState.start text).Within (text.length + 1) false false :=
    ⟨ParseState.next_ordered _, Nat.le_succ_of_le (ParseState.start_ahead_le text), nofun⟩
  have hsteady : Parse.Steady (text.length + 1) false false
      ((Productions.ofDepth (text.length + 1)).statementList false) := inferInstance
  have hstep : Parse.Stepping (text.length + 1) false false
      ((Productions.ofDepth (text.length + 1)).statementStep false) := inferInstance
  have hgoes : (ParseState.start text).GoesOn (statementsOf name text).2 :=
    hsteady.goesOn (c := ⟨name, text⟩) hstart
  obtain ⟨s, hs, hend, hlast⟩ := Parse.Steady.collect_last hstep (c := ⟨name, text⟩) hstart
  have hkind : (statementsOf name text).2.current.kind = .endOfFile :=
    (congrArg (·.current.kind) hlast).trans (Productions.statementStep_end _ hend)
  exact ⟨hgoes.stalled, hkind, hgoes.ordered.ended hkind⟩

/-- Every text is scanned and parsed to its end. A parser is `stalled` once a repetition, also one
in a look ahead, went on after a step that took no token, or was broken off by its bound, and once
productions were nested deeper than there are characters; none of this happens. -/
theorem parse_progresses (name : String) (text : List Char) :
    (lex text).Scans text ∧ (statementsOf name text).2.stalled = false ∧
      (statementsOf name text).2.current.kind = .endOfFile ∧ (statementsOf name text).2.rest = [] :=
  ⟨Lexed.scans_lex text, statementsOf_progresses name text⟩

/-- A parser that may enter no production is stalled by the first it needs. -/
example : ((Productions.ofDepth 0).statementList false ⟨"", "type A = B".toList⟩
    (.start "type A = B".toList)).2.stalled = true := by decide +kernel

end SourceFile

end ApiSurface
