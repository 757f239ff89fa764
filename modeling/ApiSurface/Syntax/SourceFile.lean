import ApiSurface.Comment
import ApiSurface.Diagnostic
import ApiSurface.Syntax.Tree
/-!
Declarations, statements and whole files. The declarations of a file stand in one table, in the
order in which they start; statements, module bodies and enums name them by their index.
-/
namespace ApiSurface

/-- The place of a declaration in the table of its file. -/
abbrev DeclIndex := Nat

/-- An imported name and the name it is bound to. -/
structure ImportSpecifier where
  imported : Ident
  bound : Ident
  typeOnly : Bool
  deriving DecidableEq, Repr, Inhabited

/-- What `import name = …` binds. -/
inductive ImportTarget where
  | external (specifier : String)
  | entity (name : EntityName)
  deriving DecidableEq, Repr, Inhabited

/-- A name of a scope and the name it is exported under. -/
structure ExportSpecifier where
  source : Ident
  exported : Ident
  deriving DecidableEq, Repr, Inhabited

/-- A statement at the top of a file or in the body of a module. -/
inductive Statement where
  | declaration (index : DeclIndex)
  | importFrom (span : Span) (typeOnly : Bool) (default nameSpace : Option Ident)
      (named : List ImportSpecifier) (specifier : String)
  | importEquals (span : Span) (name : Ident) (isExport : Bool) (target : ImportTarget)
  | exportNamed (span : Span) (typeOnly : Bool) (specifiers : List ExportSpecifier)
      (specifier : Option String)
  | exportAll (span : Span) (exportedAs : Option Ident) (specifier : String)
  | exportAssignment (span : Span) (isEquals : Bool) (target : EntityName)
  | unknown (span : Span)
  deriving DecidableEq, Repr, Inhabited

/-- A member of a class. -/
inductive ClassMemberShape where
  | property (name : PropertyName) (optional : Bool) (type : Option TypeExpr)
      (initial : Option Expr)
  | method (name : PropertyName) (optional : Bool) (signature : Signature)
      (body : Option FunctionBody)
  | constructor (signature : Signature) (body : Option FunctionBody)
  | getter (name : PropertyName) (type : Option TypeExpr) (body : Option FunctionBody)
  | setter (name : PropertyName) (param : Option Param)
  | index (params : List Param) (type : Option TypeExpr)
  | unknown

/-- A member of a class at its place. -/
structure ClassMember where
  span : Span
  doc : Option String
  modifiers : Modifiers
  shape : ClassMemberShape

/-- The name of a member that has one. -/
def ClassMember.name? (m : ClassMember) : Option PropertyName :=
  match m.shape with
  | .property n .. | .method n .. | .getter n .. | .setter n .. => some n
  | _ => none

/-- The word that introduces a variable. -/
inductive VariableKind where
  | var
  | let
  | const
  deriving DecidableEq, Repr, Inhabited

/-- The word as written. -/
def VariableKind.word : VariableKind → String
  | .var => "var"
  | .let => "let"
  | .const => "const"

/-- How a module is named. -/
inductive ModuleNaming where
  | identifier
  | string
  | global
  deriving DecidableEq, Repr, Inhabited

/-- The forms of declaration. -/
inductive DeclarationShape where
  | function (signature : Signature) (body : Option FunctionBody)
  | variable (kind : VariableKind) (type : Option TypeExpr) (initial : Option Expr)
  | typeAlias (typeParams : List TypeParam) (type : TypeExpr)
  | interface (typeParams : List TypeParam) (extends_ : List TypeExpr) (members : List TypeMember)
  | class (typeParams : List TypeParam) (extends_ : Option TypeExpr) (implements : List TypeExpr)
      (members : List ClassMember)
  | enum (members : List DeclIndex)
  | enumMember (initial : Option Expr)
  | module (naming : ModuleNaming) (body : Option (List Statement))

/-- What a form of declaration is called. -/
def DeclarationShape.kindName : DeclarationShape → String
  | .function .. => "function"
  | .variable .. => "variable"
  | .typeAlias .. => "type alias"
  | .interface .. => "interface"
  | .class .. => "class"
  | .enum .. => "enum"
  | .enumMember .. => "enum member"
  | .module .. => "module"

/-- A declaration. -/
structure Declaration where
  name : Ident
  span : Span
  modifiers : Modifiers
  doc : Option String
  shape : DeclarationShape
  /-- The enum or module whose body holds it. -/
  parent : Option DeclIndex

namespace Declaration

/-- Whether the declaration is marked for export. -/
def isExported (d : Declaration) : Bool := d.modifiers.contains .exported

/-- Whether the declaration is the default export. -/
def isDefaultExport (d : Declaration) : Bool :=
  d.modifiers.contains .exported && d.modifiers.contains .default

/-- The statements of the module that is declared, if it is one and has a body. -/
def body? (d : Declaration) : Option (List Statement) :=
  match d.shape with
  | .module _ body => body
  | _ => none

/-- How the module that is declared is named, if it is one. -/
def naming? (d : Declaration) : Option ModuleNaming :=
  match d.shape with
  | .module naming _ => some naming
  | _ => none

end Declaration

instance : Inhabited Declaration := ⟨⟨default, default, [], none, .enum [], none⟩⟩

/-- A source file after parsing. -/
structure SourceFile where
  name : String
  text : List Char
  statements : List Statement
  declarations : Array Declaration
  comments : Array Comment
  doc : Option String
  /-- It imports or exports something at the top. -/
  isModule : Bool
  diagnostics : List Diagnostic
  deriving Inhabited

namespace SourceFile

/-- The declaration with an index. -/
def declaration? (f : SourceFile) (i : DeclIndex) : Option Declaration := f.declarations[i]?

/-- The statements of the module with an index, if it is one and has a body. -/
def body? (f : SourceFile) (i : DeclIndex) : Option (List Statement) :=
  (f.declaration? i).bind Declaration.body?

/-- The text of a range. -/
def textOf (f : SourceFile) (s : Span) : String := s.text f.text

/-- The declarations among the statements at the top. -/
def topLevel (f : SourceFile) : List DeclIndex :=
  f.statements.filterMap fun
    | .declaration i => some i
    | _ => none

end SourceFile

end ApiSurface
