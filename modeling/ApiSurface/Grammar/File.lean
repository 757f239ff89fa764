import ApiSurface.Grammar.Statements
/-!
Whole files. The productions that occur inside themselves are tied together to a depth; since each
takes a token before it enters one again, the number of characters is depth enough.
-/
namespace ApiSurface

namespace Productions

/-- A production for nesting deeper than there are characters. -/
def beyond {α : Type} (p : Parse α) : Parse α := do
  Parse.stall
  p

/-- Productions that find nothing, for nesting deeper than there are characters. -/
def exhausted : Productions where
  type := beyond (return ⟨← Parse.spanFrom (← Parse.position), .unsupported⟩)
  operandType := beyond (return ⟨← Parse.spanFrom (← Parse.position), .unsupported⟩)
  expression := beyond (return ⟨← Parse.spanFrom (← Parse.position), .unknown⟩)
  operand := beyond (return ⟨← Parse.spanFrom (← Parse.position), .unknown⟩)
  statements := beyond (return [])
  module start doc modifiers := beyond (Parse.declare default ⟨start, start⟩ modifiers doc
    (.module .identifier none))

/-- Productions one level around given ones. -/
def around (g : Productions) : Productions where
  type := g.typeProduction
  operandType := g.operatedType
  expression := g.expressionProduction
  operand := g.operandProduction
  statements := g.statementList true
  module := g.moduleProduction

/-- Productions that may occur inside themselves `n` levels deep. -/
def ofDepth (n : Nat) : Productions := Nat.repeat around n exhausted

end Productions

/-- The state at the start of a text. -/
def ParseState.start (text : List Char) : ParseState :=
  Parse.next
    { lexer := .ofText text, lastEnd := 0, diagnostics := #[], declarations := #[]
      isModule := false, firstStatement := none
      context := { withoutConditionals := false, depth := 0, parent := none }
      stalled := false, strayed := False }

/-- The statements of a file, and the parser behind the last of them. -/
def statementsOf (name : String) (text : List Char) : List Statement × ParseState :=
  (Productions.ofDepth (text.length + 1)).statementList false ⟨name, text⟩ (.start text)

/-- Parses the text of a file. Problems of the lexer come before those
of the parser at the same place. -/
def SourceFile.parse (name : String) (text : List Char) : SourceFile :=
  let found := statementsOf name text
  let lexer := found.2.lexer
  let comments := distinctComments lexer.comments.toList
  let lexical := lexer.problems.toList.map fun p => p.problem.report name p.start p.length
  { name, text
    statements := found.1
    declarations := found.2.declarations
    comments := comments.toArray
    doc := fileDoc comments found.2.firstStatement text
    isModule := found.2.isModule
    diagnostics := (lexical ++ found.2.diagnostics.toList).mergeSort (·.start ≤ ·.start) }

end ApiSurface
