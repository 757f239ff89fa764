import ApiSurface.Document.Basic
import ApiSurface.Json.Number
import ApiSurface.Json.Reader
import ApiSurface.Json.Record
/-!
Documents read from JSON.
-/
namespace ApiSurface

open Json (listOf?)

/-- Reads how a mapped type sets a modifier. -/
def MappedModifier.ofJson? (v : Json) : Option MappedModifier :=
  v.word?.bind fun
    | "present" => some .present
    | "add" => some .plus
    | "remove" => some .minus
    | _ => none

/-- Reads how many values an element of a tuple stands for. -/
def DocTupleForm.ofJson? (v : Json) : Option DocTupleForm :=
  v.word?.bind fun
    | "required" => some .required
    | "optional" => some .optional
    | "rest" => some .rest
    | "variadic" => some .variadic
    | _ => none

/-- Reads the word that introduces a variable. -/
def VariableKind.ofJson? (v : Json) : Option VariableKind :=
  v.word?.bind fun
    | "var" => some .var
    | "let" => some .let
    | "const" => some .const
    | _ => none

/-- Reads the value of an enum member. -/
def EnumValue.ofJson? : Json → Option EnumValue
  | .str s => some (.string s)
  | v => v.float?.map .number

section

variable (type : Json → Option DocType)

/-- Reads an element of a tuple. -/
def DocTupleItem.ofJson? (v : Json) : Option DocTupleItem := do
  let r ← v.record? ["kind", "label", "type"]
  return ⟨← r.required "kind" DocTupleForm.ofJson?, ← r.optional "label" Json.str?,
    ← r.required "type" type⟩

/-- Reads a type parameter. -/
def DocTypeParam.ofJson? (v : Json) : Option DocTypeParam := do
  let r ← v.record? ["name", "constraint", "default"]
  return ⟨← r.required "name" Json.str?, ← r.nullable "constraint" type,
    ← r.nullable "default" type⟩

/-- Reads a parameter. -/
def DocParam.ofJson? (v : Json) : Option DocParam := do
  let r ← v.record? ["name", "type", "optional", "rest"]
  return ⟨← r.required "name" Json.str?, ← r.required "type" type,
    ← r.withDefault "optional" Json.bool? false, ← r.withDefault "rest" Json.bool? false⟩

/-- Reads a signature. -/
def DocSignature.ofJson? (v : Json) : Option DocSignature := do
  let r ← v.record? ["docs", "typeParams", "parameters", "returnType", "isConstructor"]
  return ⟨← r.optional "docs" Json.str?,
    ← r.required "typeParams" (listOf? (DocTypeParam.ofJson? type)),
    ← r.required "parameters" (listOf? (DocParam.ofJson? type)), ← r.required "returnType" type,
    ← r.withDefault "isConstructor" Json.bool? false⟩

/-- The words for the forms of member. -/
def memberKinds : List String := ["prop", "index", "method", "call", "constructor", "unknown"]

/-- Reads a member of an object. -/
def DocMember.ofJson? (v : Json) : Option DocMember := do
  let (kind, rest) ← v.form?
  match ← kind.wordOrPlace? memberKinds with
  | "prop" =>
    let r ← rest.record? ["name", "docs", "optional", "readonly", "type"]
    return .property (← r.required "name" Json.str?) (← r.nullable "docs" Json.str?)
      (← r.required "optional" Json.bool?) (← r.required "readonly" Json.bool?)
      (← r.required "type" type)
  | "index" =>
    let r ← rest.record? ["docs", "keyName", "keyType", "readonly", "type"]
    return .index (← r.nullable "docs" Json.str?) (← r.required "keyName" Json.str?)
      (← r.required "keyType" type) (← r.required "readonly" Json.bool?) (← r.required "type" type)
  | "method" =>
    let r ← rest.record? ["name", "docs", "optional", "signature"]
    return .method (← r.required "name" Json.str?) (← r.nullable "docs" Json.str?)
      (← r.required "optional" Json.bool?) (← r.required "signature" (DocSignature.ofJson? type))
  | "call" =>
    let r ← rest.record? ["docs", "signature"]
    return .call (← r.nullable "docs" Json.str?)
      (← r.required "signature" (DocSignature.ofJson? type))
  | "constructor" =>
    let r ← rest.record? ["docs", "signature"]
    return .constructor (← r.nullable "docs" Json.str?)
      (← r.required "signature" (DocSignature.ofJson? type))
  | "unknown" =>
    let r ← rest.record? ["content"]
    return .unknown (← r.required "content" Json.str?)
  | _ => none

/-- Reads a member of a class. -/
def DocClassMember.ofJson? (v : Json) : Option DocClassMember := do
  let fields ← v.obj?
  let flags := ["static", "protected", "abstract"]
  let r ← v.record? flags
  return {
    member := ← DocMember.ofJson? type (.obj (fields.filter fun f => !flags.contains f.1))
    isStatic := ← r.withDefault "static" Json.bool? false
    isProtected := ← r.withDefault "protected" Json.bool? false
    isAbstract := ← r.withDefault "abstract" Json.bool? false }

end

/-- The words for the forms of type. -/
def typeKinds : List String :=
  ["intrinsic", "reference", "typeof", "array", "type-parameter", "union", "intersection", "infer",
    "paren", "tuple", "object", "indexed-access", "conditional", "string-literal",
    "numeric-literal", "bigint-literal", "keyof", "mapped", "signature", "type-predicate", "raw"]

/-- Reads a type from the record that its form goes with. -/
def DocType.ofRecord? (type : Json → Option DocType) (kind : String) (rest : Json) :
    Option DocType := do
  let types := listOf? type
  match kind with
  | "intrinsic" =>
    let r ← rest.record? ["value"]
    return .intrinsic (← r.required "value" Json.str?)
  | "reference" =>
    let r ← rest.record? ["id", "name", "typeArguments"]
    return .reference (← r.required "id" Json.str?) (← r.required "name" Json.str?)
      (← r.required "typeArguments" types)
  | "typeof" =>
    let r ← rest.record? ["id", "name"]
    return .typeof (← r.required "id" Json.str?) (← r.required "name" Json.str?)
  | "array" =>
    let r ← rest.record? ["readonly", "inner"]
    return .array (← r.required "readonly" Json.bool?) (← r.required "inner" type)
  | "type-parameter" =>
    let r ← rest.record? ["name"]
    return .typeParameter (← r.required "name" Json.str?)
  | "union" =>
    let r ← rest.record? ["types"]
    return .union (← r.required "types" types)
  | "intersection" =>
    let r ← rest.record? ["types"]
    return .intersection (← r.required "types" types)
  | "infer" =>
    let r ← rest.record? ["name", "constraint"]
    return .infer (← r.required "name" Json.str?) (← r.nullable "constraint" type)
  | "paren" =>
    let r ← rest.record? ["value"]
    return .paren (← r.required "value" type)
  | "tuple" =>
    let r ← rest.record? ["readonly", "elements"]
    return .tuple (← r.required "readonly" Json.bool?)
      (← r.required "elements" (listOf? (DocTupleItem.ofJson? type)))
  | "object" =>
    let r ← rest.record? ["members"]
    return .object (← r.required "members" (listOf? (DocMember.ofJson? type)))
  | "indexed-access" =>
    let r ← rest.record? ["object", "index"]
    return .indexed (← r.required "object" type) (← r.required "index" type)
  | "conditional" =>
    let r ← rest.record? ["checkType", "extendsType", "trueType", "falseType"]
    return .conditional (← r.required "checkType" type) (← r.required "extendsType" type)
      (← r.required "trueType" type) (← r.required "falseType" type)
  | "string-literal" =>
    let r ← rest.record? ["value"]
    return .string (← r.required "value" Json.str?)
  | "numeric-literal" =>
    let r ← rest.record? ["value"]
    return .number (← r.required "value" Json.float?)
  | "bigint-literal" =>
    let r ← rest.record? ["value"]
    return .bigInt (← r.required "value" Json.str?)
  | "keyof" =>
    let r ← rest.record? ["value"]
    return .keyof (← r.required "value" type)
  | "mapped" =>
    let r ← rest.record? ["param", "constraint", "nameType", "readonly", "optional", "type"]
    return .mapped (← r.required "param" Json.str?) (← r.required "constraint" type)
      (← r.nullable "nameType" type) (← r.nullable "readonly" MappedModifier.ofJson?)
      (← r.nullable "optional" MappedModifier.ofJson?) (← r.nullable "type" type)
  | "signature" => return .signature (← DocSignature.ofJson? type rest)
  | "type-predicate" =>
    let r ← rest.record? ["asserts", "param", "type"]
    return .predicate (← r.required "asserts" Json.bool?) (← r.required "param" Json.str?)
      (← r.nullable "type" type)
  | "raw" =>
    let r ← rest.record? ["value"]
    return .raw (← r.required "value" Json.str?)
  | _ => none

/-- Reads a type whose parts nest less than `n` deep. -/
def DocType.ofJsonWithin? : Nat → Json → Option DocType
  | 0, _ => none
  | n + 1, v => do
    let (kind, rest) ← v.form?
    DocType.ofRecord? (ofJsonWithin? n) (← kind.wordOrPlace? typeKinds) rest

/-- Reads a type. -/
def DocType.ofJson? (v : Json) : Option DocType := DocType.ofJsonWithin? (v.depth + 1) v

/-- Reads what a symbol is from the record that its form goes with: its name, its documentation
and its shape. -/
def DocSymbol.ofRecord? (kind : String) (rest : Json) : Option DocSymbol := do
  let type := DocType.ofJson?
  let types := listOf? type
  let params := listOf? (DocTypeParam.ofJson? type)
  let signatures := listOf? (DocSignature.ofJson? type)
  let read (fields : List String) (shape : Json.Record → Option DocShape) : Option DocSymbol := do
    let r ← rest.record? ("name" :: "docs" :: fields)
    return ⟨← r.required "name" Json.str?, ← r.nullable "docs" Json.str?, ← shape r⟩
  match kind with
  | "function" => read ["signatures"] fun r =>
    return .function (← r.required "signatures" signatures)
  | "module" => read ["exports"] fun r => return .module (← r.required "exports" (Json.table? Json.str?))
  | "variable" => read ["variableKind", "type"] fun r =>
    return .variable (← r.required "variableKind" VariableKind.ofJson?) (← r.required "type" type)
  | "type-alias" => read ["typeParams", "type"] fun r =>
    return .typeAlias (← r.required "typeParams" params) (← r.required "type" type)
  | "interface" => read ["typeParams", "extends", "members"] fun r =>
    return .interface (← r.required "typeParams" params) (← r.required "extends" types)
      (← r.required "members" (listOf? (DocMember.ofJson? type)))
  | "class" =>
    read ["typeParams", "extends", "implements", "constructors", "members", "hasPrivateMembers",
      "abstract"] fun r =>
      return .class (← r.required "typeParams" params) (← r.nullable "extends" type)
        (← r.required "implements" types) (← r.required "constructors" signatures)
        (← r.required "members" (listOf? (DocClassMember.ofJson? type)))
        (← r.required "hasPrivateMembers" Json.bool?) (← r.required "abstract" Json.bool?)
  | "enum" => read ["const", "members"] fun r =>
    return .enum (← r.required "const" Json.bool?) (← r.required "members" (listOf? Json.str?))
  | "enum-member" => read ["value"] fun r =>
    return .enumMember (← r.nullable "value" EnumValue.ofJson?)
  | "unknown" => read ["content", "error"] fun r =>
    return .unknown (← r.required "content" Json.str?) (← r.required "error" Json.str?)
  | _ => none

/-- Reads a symbol. Also what is passed over in it must be whole. -/
def DocSymbol.ofJson? (v : Json) : Option DocSymbol := do
  unless v.isWhole fun text => (Json.numberValue? text).isSome do none
  let (kind, rest) ← v.form?
  DocSymbol.ofRecord? (← kind.str?) rest

/-- Reads a table, which is then sorted by its keys. -/
def tableOf? {α : Type} (read : Json → Option α) (v : Json) : Option (Table String α) :=
  (v.table? read).map Table.sorted

/-- Reads the place of an export. -/
def ExportLocation.ofJson? (v : Json) : Option ExportLocation := do
  let r ← v.record? ["exportName", "parent"]
  return ⟨← r.required "exportName" Json.str?, ← r.required "parent" Json.str?⟩

/-- Reads a link to another package. -/
def ExternalLink.ofJson? (v : Json) : Option ExternalLink := do
  let r ← v.record? ["pkg", "version", "id"]
  return ⟨← r.required "pkg" Json.str?, ← r.required "version" Json.str?,
    ← r.required "id" Json.str?⟩

/-- Reads a document, its symbols by `symbol`. -/
def Document.ofJsonBy? (symbol : Json → Option DocSymbol) (v : Json) : Option Document := do
  let texts := listOf? Json.str?
  let r ← v.record? ["packageName", "currentVersion", "versions", "rootSymbols",
    "accessibleSymbols", "symbolReferences", "canonicalExportLocations", "goodIdentifiers",
    "symbolsForInnerBit", "externalSymbols"]
  return {
    packageName := ← r.required "packageName" Json.str?
    currentVersion := ← r.required "currentVersion" Json.str?
    versions := ← r.optional "versions" texts
    roots := ← r.required "rootSymbols" texts
    symbols := ← r.required "accessibleSymbols" (tableOf? symbol)
    references := ← r.required "symbolReferences" (tableOf? texts)
    locations := ← r.required "canonicalExportLocations" (tableOf? ExportLocation.ofJson?)
    identifiers := ← r.required "goodIdentifiers" (tableOf? Json.str?)
    inner := ← r.required "symbolsForInnerBit" (tableOf? texts)
    externals := ← r.required "externalSymbols" (tableOf? ExternalLink.ofJson?) }

/-- Reads a document. -/
def Document.ofJson? (v : Json) : Option Document := Document.ofJsonBy? DocSymbol.ofJson? v

/-- How deep the text of a symbol may nest: two less than a whole document. -/
def symbolNesting : Nat := 125

/-- Reads the text of a document. -/
def Document.ofText? (text : String) : Option Document := do
  (← Json.read? text) |> Document.ofJsonBy? fun v =>
    if v.depth ≤ symbolNesting then DocSymbol.ofJson? v else none

end ApiSurface
