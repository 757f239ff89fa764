import ApiSurface.Document.Basic
import ApiSurface.Program.Exports
/-!
The graph of the symbols that can be reached from the entrypoints, and how it grows: while a symbol
is described, every symbol that it mentions is noted once to be described in turn, and is known to
be mentioned by it. Symbols of other packages are noted, but not described.
-/
namespace ApiSurface

/-- A symbol that is mentioned, but belongs to no file of the package. -/
structure ExternalSymbol where
  id : SymbolId
  name : String
  /-- The files and offsets at which it is declared; none for what is not found. -/
  sites : List (Path × Nat)
  /-- The module that is not found. -/
  specifier : Option String
  deriving DecidableEq, Repr, Inhabited

/-- The module of an entrypoint. -/
structure RootModule where
  specifier : String
  id : SymbolId
  deriving DecidableEq, Repr, Inhabited

/-- The symbols that are reached, in the order in which they are described. -/
structure Graph where
  roots : List RootModule
  symbols : Table SymbolId DocSymbol
  handles : Table SymbolId SymbolIndex
  /-- The symbols that mention a symbol, in the order of their first mentions. -/
  references : Table SymbolId (List SymbolId)
  externals : Table SymbolId ExternalSymbol
  deriving Inhabited

/-- What is known while the graph grows. -/
structure Walk where
  memory : Program.Memory
  /-- The symbols to describe, those that are described already first. -/
  queue : Array SymbolIndex
  references : Table SymbolId (List SymbolId)
  externals : Table SymbolId ExternalSymbol
  /-- The symbol that is being described. -/
  current : Option SymbolId
  /-- A mention was followed from import to import in a circle: it never comes to an end. -/
  endless : Bool
  deriving Inhabited

namespace Program

/-- A symbol belongs to the package when all its declarations do. -/
def isInternal (p : Program) (s : SymbolIndex) : Bool :=
  let sites := (p.symbol s).declarations
  !sites.isEmpty && sites.all fun site => (p.file site.fileIndex).isInternal

/-- A symbol of another package. -/
def external (p : Program) (s : SymbolIndex) : ExternalSymbol :=
  { id := p.symbolId s, name := (p.symbol s).name
    sites := (p.symbol s).declarations.map fun site =>
      ((p.file site.fileIndex).path, p.offset site)
    specifier := none }

end Program

namespace ExternalSymbol

/-- Something in a module that is not found. -/
def unresolved (specifier name : String) : ExternalSymbol :=
  { id := .unresolved specifier name, name := if name.isEmpty then specifier else name
    sites := [], specifier := some specifier }

/-- Something that the standard library declares. -/
def global (name : String) : ExternalSymbol :=
  { id := .global name, name, sites := [], specifier := none }

end ExternalSymbol

namespace Walk

/-- Nothing known. -/
def start : Walk := ⟨[], #[], [], [], none, false⟩

/-- Notes that the symbol that is being described mentions another one. -/
def mention (w : Walk) (target : SymbolId) : Walk :=
  match w.current with
  | none => w
  | some current =>
    if current == target then w
    else
      let before := (w.references.get? target).getD []
      let after := if before.contains current then before else before ++ [current]
      { w with references := w.references.insert target after }

/-- Notes a symbol to be described. -/
def enqueue (w : Walk) (s : SymbolIndex) : Walk :=
  if w.queue.contains s then w else { w with queue := w.queue.push s }

/-- Mentions a symbol that is not described. -/
def mentionExternal (w : Walk) (e : ExternalSymbol) : Walk :=
  let w := w.mention e.id
  { w with externals := w.externals.insertNew e.id e }

/-- Asks the program. -/
def ask {α : Type} (q : Program.Query α) : StateM Walk α :=
  modifyGet fun w => let (a, memory) := q w.memory; (a, { w with memory })

/-- Mentions something that is not described, and gives its name. -/
def referExternal (e : ExternalSymbol) : StateM Walk SymbolId := do
  modify (·.mentionExternal e)
  return e.id

/-- Mentions a symbol through at most `n` imports, and gives its name. An import that leads nowhere
is taken for something of the standard library. Only an import that leads to itself at once is known
to lead nowhere; when there are more than `n` imports in a row, some of them are met again and
again. -/
def referWithin (p : Program) : Nat → SymbolIndex → StateM Walk SymbolId
  | 0, s => do
    modify fun w => { w with endless := true }
    referExternal (.global (p.symbol s).name)
  | n + 1, s => do
    if (p.symbol s).isAlias then
      match ← ask (p.resolve s) with
      | some (.symbol t) =>
        if t = s then referExternal (.global (p.symbol s).name) else referWithin p n t
      | some (.unresolved specifier name) => referExternal (.unresolved specifier name)
      | none => referExternal (.global (p.symbol s).name)
    else if p.isInternal s then
      let id := p.symbolId s
      modify fun w => (w.mention id).enqueue s
      return id
    else referExternal (p.external s)

/-- Mentions a symbol, and gives its name. -/
def referSymbol (p : Program) (s : SymbolIndex) : StateM Walk SymbolId :=
  referWithin p (p.symbols.size + 1) s

/-- Mentions what a name comes to, and gives its name. -/
def refer (p : Program) : Resolution → StateM Walk SymbolId
  | .symbol s => referSymbol p s
  | .unresolved specifier name => referExternal (.unresolved specifier name)

/-- Mentions what a dotted name in a scope means, and gives its name. What means nothing in the
program is taken for something of the standard library. -/
def referEntity (p : Program) (scope : Site) (parts : List String) : StateM Walk SymbolId := do
  match ← ask (p.entity scope parts) with
  | some r => refer p r
  | none => referExternal (.global (".".intercalate parts))

end Walk

end ApiSurface
