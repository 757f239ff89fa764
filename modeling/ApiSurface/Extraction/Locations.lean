import ApiSurface.Extraction.Discovery
/-!
Where symbols are shown. A symbol that several modules export is shown in one of them: in a file or
a module declared by name rather than in a namespace, then in the one whose path is shorter, then in
the one that is met first in a breadth-first scan of all exports.
-/
namespace ApiSurface

/-- An export of a symbol. -/
structure ExportSite where
  location : ExportLocation
  /-- The module is a file or declared by name. -/
  moduleLevel : Bool
  /-- The number of characters in the path of the module. -/
  pathLength : Nat
  /-- The place in the scan. -/
  order : Nat
  deriving DecidableEq, Repr, Inhabited

/-- Whether an export is a better place for a symbol than another. -/
def ExportSite.beats (a b : ExportSite) : Bool :=
  if a.moduleLevel != b.moduleLevel then a.moduleLevel
  else if a.pathLength ≠ b.pathLength then a.pathLength < b.pathLength
  else a.order < b.order

/-- The state of the scan. -/
structure ExportScan where
  /-- The modules to scan, those that are scanned already first. -/
  queue : Array SymbolId
  best : Table SymbolId ExportSite
  order : Nat
  deriving Inhabited

namespace Graph

/-- The name of a symbol when its imports are followed. -/
def resolvedId? (p : Program) (s : SymbolIndex) : Program.Query (Option SymbolId) := do
  if !(p.symbol s).isAlias then return some (p.symbolId s)
  match ← p.resolve s with
  | some (.symbol t) => return if (p.symbol t).isAlias then none else some (p.symbolId t)
  | _ => return none

/-- What a symbol exports. -/
def exportsOf (g : Graph) (p : Program) (id : SymbolId) (s : SymbolIndex) :
    Program.Query (Table String SymbolId) := do
  match (g.symbols.get? id).map DocSymbol.shape with
  | some (.module exports) => return exports
  | _ =>
    if !(p.symbol s).isModuleLike then return []
    (← p.exportsOf s).filterMapM fun (name, r) =>
      match r with
      | .symbol t => return (← resolvedId? p t).map (name, ·)
      | .unresolved .. => return none

/-- The scan after one more export of a module. -/
def scanExport (g : Graph) (p : Program) (parent : SymbolId) (moduleLevel : Bool)
    (pathLength : Nat) (scan : ExportScan) (export_ : String × SymbolId) : ExportScan :=
  let (exportName, target) := export_
  match g.handles.get? target with
  | none => scan
  | some s =>
    if g.roots.any (·.id == target) then scan
    else
      let site : ExportSite := ⟨⟨exportName, parent⟩, moduleLevel, pathLength, scan.order⟩
      let better := match scan.best.get? target with
        | some current => site.beats current
        | none => true
      { queue := if (p.symbol s).isModuleLike && !scan.queue.contains target then
          scan.queue.push target else scan.queue
        best := if better then scan.best.insert target site else scan.best
        order := scan.order + 1 }

/-- Scans the modules of the queue from place `i` on, at most `n` of them. -/
def scanFrom (g : Graph) (p : Program) : Nat → Nat → ExportScan → Program.Query ExportScan
  | 0, _, scan => return scan
  | n + 1, i, scan => do
    let some parent := scan.queue[i]? | return scan
    let some s := g.handles.get? parent | scanFrom g p n (i + 1) scan
    let symbol := p.symbol s
    let moduleLevel := symbol.isA .sourceFile || symbol.isA .ambientModule
    let path := (symbol.declarations.head?.map p.relativePath).getD ""
    let exports ← g.exportsOf p parent s
    scanFrom g p n (i + 1) (exports.foldl (g.scanExport p parent moduleLevel path.length) scan)

/-- Where each symbol is shown that is exported anywhere below the roots. -/
def locations (g : Graph) (p : Program) : Program.Query (Table SymbolId ExportLocation) := do
  let roots := (g.roots.map (·.id)).toArray
  let scan ← g.scanFrom p (roots.size + g.handles.length) 0 ⟨roots, [], 0⟩
  return Table.sorted (scan.best.map fun (id, site) => (id, site.location))

end Graph

end ApiSurface
