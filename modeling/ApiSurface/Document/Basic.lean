import ApiSurface.Inference
import ApiSurface.SymbolId
/-!
The document that describes the public surface of a package: symbols and types as plain trees. A
type that names a symbol holds only its name, so that types that refer to each other are finite.
-/
namespace ApiSurface

/-- How many values an element of a tuple stands for. -/
inductive DocTupleForm where
  | required
  | optional
  | rest
  | variadic
  deriving DecidableEq, Repr, Inhabited

mutual

/-- A type as it is documented. -/
inductive DocType where
  | intrinsic (value : String)
  | reference (id : SymbolId) (name : String) (args : List DocType)
  | typeof (id : SymbolId) (name : String)
  | array (readonly : Bool) (item : DocType)
  | typeParameter (name : String)
  | union (types : List DocType)
  | intersection (types : List DocType)
  | infer (name : String) (bound : Option DocType)
  | paren (inner : DocType)
  | tuple (readonly : Bool) (items : List DocTupleItem)
  | object (members : List DocMember)
  | indexed (object index : DocType)
  | conditional (check bound whenTrue whenFalse : DocType)
  | string (value : String)
  | number (value : Float)
  | bigInt (digits : String)
  | keyof (operand : DocType)
  | mapped (param : String) (keys : DocType) (rename : Option DocType)
      (readonly optional : Option MappedModifier) (value : Option DocType)
  | signature (signature : DocSignature)
  | predicate (asserts : Bool) (param : String) (type : Option DocType)
  /-- A form that is only shown as written. -/
  | raw (text : String)

/-- An element of a documented tuple. -/
inductive DocTupleItem where
  | mk (form : DocTupleForm) (label : Option String) (type : DocType)

/-- A member of a documented object. -/
inductive DocMember where
  | property (name : String) (docs : Option String) (optional readonly : Bool) (type : DocType)
  | index (docs : Option String) (keyName : String) (keyType : DocType) (readonly : Bool)
      (type : DocType)
  | method (name : String) (docs : Option String) (optional : Bool) (signature : DocSignature)
  | call (docs : Option String) (signature : DocSignature)
  | constructor (docs : Option String) (signature : DocSignature)
  | unknown (content : String)

/-- A documented signature. -/
inductive DocSignature where
  | mk (docs : Option String) (typeParams : List DocTypeParam) (params : List DocParam)
      (returns : DocType) (isConstructor : Bool)

/-- A documented type parameter. -/
inductive DocTypeParam where
  | mk (name : String) (bound fallback : Option DocType)

/-- A documented parameter. -/
inductive DocParam where
  | mk (name : String) (type : DocType) (optional rest : Bool)

end

instance : Inhabited DocType := ⟨.intrinsic "any"⟩

instance : Inhabited DocMember := ⟨.unknown ""⟩

/-- The type of what is not known. -/
def DocType.any : DocType := .intrinsic "any"

/-- Whether a type is an intrinsic one of a name. -/
def DocType.isIntrinsic (name : String) : DocType → Bool
  | .intrinsic value => value == name
  | _ => false

/-- A member of a documented class. -/
structure DocClassMember where
  member : DocMember
  isStatic : Bool
  isProtected : Bool
  isAbstract : Bool
  deriving Inhabited

/-- What a documented symbol is, beside its name and its documentation. -/
inductive DocShape where
  | function (signatures : List DocSignature)
  | module (exports : Table String SymbolId)
  | variable (kind : VariableKind) (type : DocType)
  | typeAlias (typeParams : List DocTypeParam) (type : DocType)
  | interface (typeParams : List DocTypeParam) (bases : List DocType) (members : List DocMember)
  | class (typeParams : List DocTypeParam) (base : Option DocType) (interfaces : List DocType)
      (constructors : List DocSignature) (members : List DocClassMember)
      (hasPrivateMembers isAbstract : Bool)
  | enum (isConst : Bool) (members : List SymbolId)
  | enumMember (value : Option EnumValue)
  /-- A symbol that cannot be described, as written, with the reason. -/
  | unknown (content error : String)
  deriving Inhabited

/-- The word for what a symbol is. -/
def DocShape.kindName : DocShape → String
  | .function .. => "function"
  | .module .. => "module"
  | .variable .. => "variable"
  | .typeAlias .. => "type-alias"
  | .interface .. => "interface"
  | .class .. => "class"
  | .enum .. => "enum"
  | .enumMember .. => "enum-member"
  | .unknown .. => "unknown"

/-- A documented symbol. -/
structure DocSymbol where
  name : String
  docs : Option String
  shape : DocShape
  deriving Inhabited

/-- The module that a symbol is shown in, and its name there. -/
structure ExportLocation where
  exportName : String
  parent : SymbolId
  deriving DecidableEq, Repr, Inhabited

/-- Where a symbol of another package is documented. -/
structure ExternalLink where
  package : String
  version : String
  id : SymbolId
  deriving DecidableEq, Repr, Inhabited

/-- All that is known about the public surface of a package. Tables are sorted by their keys. -/
structure Document where
  packageName : String
  currentVersion : String
  versions : Option (List String)
  roots : List SymbolId
  symbols : Table SymbolId DocSymbol
  /-- The symbols that mention a symbol. -/
  references : Table SymbolId (List SymbolId)
  locations : Table SymbolId ExportLocation
  identifiers : Table SymbolId String
  /-- The symbols that are shown as part of a symbol. -/
  inner : Table SymbolId (List SymbolId)
  externals : Table SymbolId ExternalLink
  deriving Inhabited

/-- The symbols with a name. -/
def Document.named (d : Document) (name : String) : Table SymbolId DocSymbol :=
  d.symbols.filter (·.2.name == name)

/-- A table sorted by its keys. -/
def Table.sorted {α : Type} (t : Table String α) : Table String α :=
  t.mergeSort fun a b => decide (a.1 ≤ b.1)

end ApiSurface
