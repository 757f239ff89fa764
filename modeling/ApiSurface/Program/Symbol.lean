import ApiSurface.Syntax.SourceFile
import ApiSurface.Table
/-!
Symbols: what the declarations of one name in one scope stand for together.
-/
namespace ApiSurface

/-- The place of a file in a program. -/
abbrev FileIndex := Nat

/-- The number of a symbol. -/
abbrev SymbolIndex := Nat

/-- Where something is declared: by a whole file, or by a declaration in one. Scopes are named the
same way. -/
inductive Site where
  | file (file : FileIndex)
  | declaration (file : FileIndex) (index : DeclIndex)
  deriving DecidableEq, Repr, Inhabited

namespace Site

/-- The file in which the site lies. -/
def fileIndex : Site → FileIndex
  | file f | declaration f _ => f

/-- The declaration of the site, if it is one. -/
def index? : Site → Option DeclIndex
  | file _ => none
  | declaration _ i => some i

end Site

/-- What a symbol can be. A symbol can be several of them at once. -/
inductive SymbolKind where
  | function
  | variable
  | typeAlias
  | interface
  | classType
  | enum
  | enumMember
  | nameSpace
  | ambientModule
  | sourceFile
  | importAlias
  deriving DecidableEq, Repr, Inhabited

/-- A kind with exports. -/
def SymbolKind.isModule : SymbolKind → Bool
  | .nameSpace | .ambientModule | .sourceFile => true
  | _ => false

/-- The kind of symbol that a declaration makes. -/
def DeclarationShape.symbolKind : DeclarationShape → SymbolKind
  | .function .. => .function
  | .variable .. => .variable
  | .typeAlias .. => .typeAlias
  | .interface .. => .interface
  | .class .. => .classType
  | .enum .. => .enum
  | .enumMember .. => .enumMember
  | .module .. => .nameSpace

/-- What an import binds a name to. -/
inductive AliasTarget where
  | export (specifier name : String)
  | nameSpace (specifier : String)
  | require (specifier : String)
  | entity (parts : List String)
  deriving DecidableEq, Repr, Inhabited

/-- An import, made in a scope. -/
structure Alias where
  target : AliasTarget
  scope : Site
  deriving DecidableEq, Repr, Inhabited

/-- A symbol. -/
structure Symbol where
  name : String
  kinds : List SymbolKind
  /-- Where it is declared, in the order of binding. -/
  declarations : List Site
  /-- The module, namespace or enum around its first declaration. -/
  parent : Option SymbolIndex
  /-- What a namespace or ambient module exports by declaration, and the members of an enum. -/
  members : Table String SymbolIndex
  aliasOf : Option Alias
  deriving DecidableEq, Repr, Inhabited

namespace Symbol

/-- Whether the symbol has exports. -/
def isModuleLike (s : Symbol) : Bool := s.kinds.any SymbolKind.isModule

/-- Whether the symbol is an import. -/
def isAlias (s : Symbol) : Bool := s.aliasOf.isSome

/-- Whether the symbol is of a kind. -/
def isA (s : Symbol) (k : SymbolKind) : Bool := s.kinds.contains k

/-- The symbol with one more kind. -/
def addKind (s : Symbol) (k : SymbolKind) : Symbol :=
  if s.isA k then s else { s with kinds := s.kinds ++ [k] }

/-- The symbol with one more place of declaration. -/
def addSite (s : Symbol) (site : Site) : Symbol :=
  if site ∈ s.declarations then s else { s with declarations := s.declarations ++ [site] }

end Symbol

end ApiSurface
