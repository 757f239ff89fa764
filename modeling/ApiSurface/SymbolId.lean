import ApiSurface.Program
/-!
Names of symbols that stay the same from run to run: where they are declared.
-/
namespace ApiSurface

/-- The name of a symbol in a document. -/
abbrev SymbolId := String

namespace SymbolId

/-- The name of a symbol with declarations at given offsets of given files. -/
def ofSites (sites : List (String × Nat)) : SymbolId :=
  "+".intercalate (sites.map fun (path, offset) => s!"{path}:{offset}")

/-- The name of something that the standard library declares. -/
def global (name : String) : SymbolId := s!"global:{name}"

/-- The name of something in a module that is not found. -/
def unresolved (specifier name : String) : SymbolId := s!"unresolved:{specifier}#{name}"

end SymbolId

/-- The order of places: by path, then by offset. -/
def placeLe (a b : String × Nat) : Bool := decide (a.1 < b.1) || (a.1 == b.1 && a.2 ≤ b.2)

/-- One more place among places in order. -/
def insertPlace (a : String × Nat) : List (String × Nat) → List (String × Nat)
  | [] => [a]
  | b :: rest => if placeLe a b then a :: b :: rest else b :: insertPlace a rest

namespace Program

/-- The offset of the name at a site; a whole file has none. -/
def offset (p : Program) (site : Site) : Nat :=
  ((p.declaration? site).map (·.name.span.start)).getD 0

/-- The path of the file at a site, as shown in the package. -/
def relativePath (p : Program) (site : Site) : String := (p.source site.fileIndex).name

/-- Where a symbol is declared, in order. -/
def places (p : Program) (s : SymbolIndex) : List (String × Nat) :=
  (((p.symbol s).declarations.map fun site => (p.relativePath site, p.offset site)).foldr
    insertPlace []).eraseDups

/-- The name of a symbol. -/
def symbolId (p : Program) (s : SymbolIndex) : SymbolId := .ofSites (p.places s)

end Program

end ApiSurface
