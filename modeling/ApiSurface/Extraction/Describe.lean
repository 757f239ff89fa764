import ApiSurface.Extraction.Graph
/-!
Describing what a declaration writes. A description may fail; what it mentioned before stays
mentioned. The names of type parameters are bound while a part of a declaration is described, and
are unbound again whether that succeeds or fails.
-/
namespace ApiSurface

/-- Why something cannot be described. -/
inductive DescribeError where
  /-- A conditional type, at an offset of a file, has no type for one outcome. -/
  | missingBranch (text file : String) (offset : Nat) (branch : String)
  deriving DecidableEq, Repr, Inhabited

/-- The text shown for an error. -/
def DescribeError.message : DescribeError → String
  | missingBranch text file offset branch =>
    s!"conditional type \x60{text}\x60 at {file}:{offset} is missing its {branch} branch"

/-- Where something is written. -/
structure Context where
  program : Program
  scope : Site
  deriving Inhabited

/-- What changes while something is described. -/
structure Describing where
  walk : Walk
  /-- The type parameters in scope, the innermost last. -/
  typeParams : List String
  deriving Inhabited

/-- Steps that describe. -/
abbrev Describe := ReaderT Context (ExceptT DescribeError (StateM Describing))

namespace Describe

variable {α : Type}

/-- A step that changes only what is known of the graph. -/
def walking (f : Program → StateM Walk α) : Describe α := fun ctx =>
  ExceptT.mk do
    let d ← get
    let (a, walk) := (f ctx.program).run d.walk
    set { d with walk }
    return .ok a

/-- What a step comes to, failed or not. -/
def attempt (step : Describe α) : Describe (Except DescribeError α) := fun ctx =>
  ExceptT.mk (.ok <$> (step ctx).run)

/-- What a step came to. -/
def outcome (result : Except DescribeError α) : Describe α := fun _ => ExceptT.mk (pure result)

/-- Takes a step with more type parameters in scope. -/
def withTypeParams (names : List String) (step : Describe α) : Describe α := do
  let before := (← get).typeParams.length
  modify fun d => { d with typeParams := d.typeParams ++ names }
  let result ← attempt step
  modify fun d => { d with typeParams := d.typeParams.take before }
  outcome result

/-- Whether a name is that of a type parameter. -/
def isTypeParam (name : String) : Describe Bool := return (← get).typeParams.contains name

/-- Describes something in the scope of a declaration, with given type parameters only. -/
def inDeclaration (file : FileIndex) (i : DeclIndex) (typeParams : List String)
    (step : Describe α) : Describe α := do
  modify fun d => { d with typeParams }
  withReader (fun ctx => { ctx with scope := (ctx.program.source file).scopeOf file i }) step

/-- The text of a range of the file, without blanks around it. -/
def written (span : Span) : Describe String := do
  let ctx ← read
  let text := ctx.program.source ctx.scope.fileIndex |>.textOf span
  return String.ofList (trim text.toList)

/-- Mentions what a dotted name means. -/
def entity (parts : List String) : Describe SymbolId := do
  let scope := (← read).scope
  walking fun p => Walk.referEntity p scope parts

end Describe

end ApiSurface
