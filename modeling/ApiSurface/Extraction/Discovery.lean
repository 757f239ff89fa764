import ApiSurface.Extraction.Symbols
/-!
The walk over all symbols that can be reached from the entrypoints, breadth first. Each is described
once.
-/
namespace ApiSurface

/-- Why nothing can be extracted. -/
inductive ExtractError where
  | load (e : LoadError)
  | entrypointNotModule (specifier path : String)
  | noDeclarations (name : String)
  | noEntrypoints
  /-- Nothing ever comes of a description that follows imports in a circle. -/
  | endless
  deriving DecidableEq, Repr, Inhabited

/-- The text shown for an error. -/
def ExtractError.message : ExtractError → String
  | load e => e.message
  | entrypointNotModule specifier path => s!"entrypoint '{specifier}' ({path}) is not a module"
  | noDeclarations name => s!"symbol '{name}' has no declarations"
  | noEntrypoints => "no entrypoints configured"
  | endless => "imports lead to each other in a circle"

namespace Walk

/-- Symbols by their names, with what they are in the program. -/
structure Described where
  symbols : Table SymbolId DocSymbol
  handles : Table SymbolId SymbolIndex
  deriving Inhabited

/-- Describes the symbols of the queue from place `i` on, at most `n` of them. -/
def describeFrom (p : Program) (limit : Nat) :
    Nat → Nat → Described → ExceptT ExtractError (StateM Walk) Described
  | 0, _, done => return done
  | n + 1, i, done => do
    let some s := (← get).queue[i]? | return done
    let id := p.symbolId s
    if done.symbols.has id then describeFrom p limit n (i + 1) done
    else if (p.symbol s).declarations.isEmpty then throw (.noDeclarations (p.symbol s).name)
    else
      modify fun w => { w with current := some id }
      let symbol ← Walk.describe p limit s
      if (← get).endless then throw .endless
      modify fun w => { w with current := none }
      describeFrom p limit n (i + 1)
        ⟨done.symbols.insert id symbol, done.handles.insert id s⟩

/-- Adds the module of an entrypoint. One that is there already is not added again. -/
def addRoot (p : Program) (roots : List RootModule) (entry : String × FileIndex) :
    ExceptT ExtractError (StateM Walk) (List RootModule) := do
  let (specifier, file) := entry
  match p.modules.get? file with
  | none => throw (.entrypointNotModule specifier (p.source file).name)
  | some s =>
    let id := p.symbolId s
    if roots.any (·.id == id) then return roots
    modify (·.enqueue s)
    return roots ++ [⟨specifier, id⟩]

end Walk

namespace Program

/-- The graph of the symbols that can be reached from entrypoints. No more symbols are described
than there are. -/
def walk (p : Program) (limit : Nat) (entries : List (String × FileIndex)) :
    ExceptT ExtractError Query Graph := fun memory =>
  let step : ExceptT ExtractError (StateM Walk) Graph := do
    if entries.isEmpty then throw .noEntrypoints
    let roots ← entries.foldlM (Walk.addRoot p) []
    let done ← Walk.describeFrom p limit (p.symbols.size + 1) 0 default
    let w ← get
    return { roots, symbols := done.symbols, handles := done.handles, references := w.references
             externals := w.externals }
  let (r, w) := step.run.run { Walk.start with memory }
  (r, w.memory)

end Program

end ApiSurface
