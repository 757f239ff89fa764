import ApiSurface.Document.Basic
import ApiSurface.Json.Number
import ApiSurface.Json.Printer
import ApiSurface.Number.Shortest
/-!
Documents as JSON. Forms of types, members and symbols are told apart by the field `kind`.
-/
namespace ApiSurface

namespace Json

/-- An object of some form. -/
def tagged (kind : String) (fields : List (String × Json)) : Json := obj (("kind", str kind) :: fields)

/-- A field that is left out when it is false. -/
def flag (name : String) (b : Bool) : List (String × Json) := if b then [(name, bool true)] else []

/-- A field that is left out when it is absent. -/
def present {α : Type} (name : String) (f : α → Json) : Option α → List (String × Json)
  | none => []
  | some a => [(name, f a)]

/-- Text that may be absent. -/
def text? : Option String → Json := option str

/-- A table as an object. -/
def ofTable {α : Type} (f : α → Json) (t : Table String α) : Json :=
  obj (t.map fun (key, value) => (key, f value))

end Json

open Json (obj arr str bool tagged flag present text?)

/-- The word for how a mapped type sets a modifier. -/
def MappedModifier.word : MappedModifier → String
  | present => "present"
  | plus => "add"
  | minus => "remove"

/-- The word for how many values an element of a tuple stands for. -/
def DocTupleForm.word : DocTupleForm → String
  | required => "required"
  | optional => "optional"
  | rest => "rest"
  | variadic => "variadic"

/-- A number of a document. -/
def numberJson (x : Float) : Json := Json.ofFloat numberText x

mutual

/-- A type as JSON. -/
def DocType.toJson : DocType → Json
  | .intrinsic value => tagged "intrinsic" [("value", str value)]
  | .reference id name args => tagged "reference"
      [("id", str id), ("name", str name), ("typeArguments", arr (typesJson args))]
  | .typeof id name => tagged "typeof" [("id", str id), ("name", str name)]
  | .array readonly item => tagged "array" [("readonly", bool readonly), ("inner", item.toJson)]
  | .typeParameter name => tagged "type-parameter" [("name", str name)]
  | .union types => tagged "union" [("types", arr (typesJson types))]
  | .intersection types => tagged "intersection" [("types", arr (typesJson types))]
  | .infer name bound => tagged "infer" [("name", str name), ("constraint", typeJson? bound)]
  | .paren inner => tagged "paren" [("value", inner.toJson)]
  | .tuple readonly items => tagged "tuple"
      [("readonly", bool readonly), ("elements", arr (tupleItemsJson items))]
  | .object members => tagged "object" [("members", arr (membersJson members))]
  | .indexed object index => tagged "indexed-access"
      [("object", object.toJson), ("index", index.toJson)]
  | .conditional check bound whenTrue whenFalse => tagged "conditional"
      [("checkType", check.toJson), ("extendsType", bound.toJson), ("trueType", whenTrue.toJson),
        ("falseType", whenFalse.toJson)]
  | .string value => tagged "string-literal" [("value", str value)]
  | .number value => tagged "numeric-literal" [("value", numberJson value)]
  | .bigInt digits => tagged "bigint-literal" [("value", str digits)]
  | .keyof operand => tagged "keyof" [("value", operand.toJson)]
  | .mapped param keys rename readonly optional value => tagged "mapped"
      [("param", str param), ("constraint", keys.toJson), ("nameType", typeJson? rename),
        ("readonly", Json.option (str ·.word) readonly),
        ("optional", Json.option (str ·.word) optional), ("type", typeJson? value)]
  | .signature signature => tagged "signature" signature.fields
  | .predicate asserts param type => tagged "type-predicate"
      [("asserts", bool asserts), ("param", str param), ("type", typeJson? type)]
  | .raw text => tagged "raw" [("value", str text)]

/-- A type that may be absent. -/
def typeJson? : Option DocType → Json
  | none => .null
  | some type => type.toJson

/-- Types as JSON. -/
def typesJson : List DocType → List Json
  | [] => []
  | type :: types => type.toJson :: typesJson types

/-- Elements of a tuple as JSON. -/
def tupleItemsJson : List DocTupleItem → List Json
  | [] => []
  | ⟨form, label, type⟩ :: items =>
    obj ([("kind", str form.word)] ++ present "label" str label ++ [("type", type.toJson)]) ::
      tupleItemsJson items

/-- A member of an object: the word for its form, and its fields. -/
def DocMember.fields : DocMember → List (String × Json)
  | .property name docs optional readonly type =>
    [("kind", str "prop"), ("name", str name), ("docs", text? docs), ("optional", bool optional),
      ("readonly", bool readonly), ("type", type.toJson)]
  | .index docs keyName keyType readonly type =>
    [("kind", str "index"), ("docs", text? docs), ("keyName", str keyName),
      ("keyType", keyType.toJson), ("readonly", bool readonly), ("type", type.toJson)]
  | .method name docs optional signature =>
    [("kind", str "method"), ("name", str name), ("docs", text? docs), ("optional", bool optional),
      ("signature", obj signature.fields)]
  | .call docs signature =>
    [("kind", str "call"), ("docs", text? docs), ("signature", obj signature.fields)]
  | .constructor docs signature =>
    [("kind", str "constructor"), ("docs", text? docs), ("signature", obj signature.fields)]
  | .unknown content => [("kind", str "unknown"), ("content", str content)]

/-- Members as JSON. -/
def membersJson : List DocMember → List Json
  | [] => []
  | member :: members => obj member.fields :: membersJson members

/-- The fields of a signature. -/
def DocSignature.fields : DocSignature → List (String × Json)
  | ⟨docs, typeParams, params, returns, isConstructor⟩ =>
    present "docs" str docs ++ [("typeParams", arr (typeParamsJson typeParams)),
      ("parameters", arr (paramsJson params)), ("returnType", returns.toJson)] ++
      flag "isConstructor" isConstructor

/-- Type parameters as JSON. -/
def typeParamsJson : List DocTypeParam → List Json
  | [] => []
  | ⟨name, bound, fallback⟩ :: params =>
    obj [("name", str name), ("constraint", typeJson? bound), ("default", typeJson? fallback)] ::
      typeParamsJson params

/-- Parameters as JSON. -/
def paramsJson : List DocParam → List Json
  | [] => []
  | ⟨name, type, optional, rest⟩ :: params =>
    obj ([("name", str name), ("type", type.toJson)] ++ flag "optional" optional ++
      flag "rest" rest) :: paramsJson params

end

/-- A signature as JSON. -/
def DocSignature.toJson (s : DocSignature) : Json := obj s.fields

/-- A member of a class as JSON: that of an object, with what only classes know. -/
def DocClassMember.toJson (m : DocClassMember) : Json :=
  obj (m.member.fields ++ flag "static" m.isStatic ++ flag "protected" m.isProtected ++
    flag "abstract" m.isAbstract)

/-- The value of an enum member as JSON. -/
def EnumValue.toJson : EnumValue → Json
  | .string value => str value
  | .number value => numberJson value

/-- The fields of a symbol after its name and documentation. -/
def DocShape.fields : DocShape → List (String × Json)
  | .function signatures => [("signatures", .list DocSignature.toJson signatures)]
  | .module exports => [("exports", .ofTable str exports)]
  | .variable kind type => [("variableKind", str kind.word), ("type", type.toJson)]
  | .typeAlias typeParams type =>
    [("typeParams", arr (typeParamsJson typeParams)), ("type", type.toJson)]
  | .interface typeParams bases members =>
    [("typeParams", arr (typeParamsJson typeParams)), ("extends", arr (typesJson bases)),
      ("members", arr (membersJson members))]
  | .class typeParams base interfaces constructors members hasPrivateMembers isAbstract =>
    [("typeParams", arr (typeParamsJson typeParams)), ("extends", typeJson? base),
      ("implements", arr (typesJson interfaces)),
      ("constructors", .list DocSignature.toJson constructors),
      ("members", .list DocClassMember.toJson members),
      ("hasPrivateMembers", bool hasPrivateMembers), ("abstract", bool isAbstract)]
  | .enum isConst members => [("const", bool isConst), ("members", .list str members)]
  | .enumMember value => [("value", Json.option EnumValue.toJson value)]
  | .unknown content error => [("content", str content), ("error", str error)]

/-- A symbol as JSON. -/
def DocSymbol.toJson (s : DocSymbol) : Json :=
  tagged s.shape.kindName ([("name", str s.name), ("docs", text? s.docs)] ++ s.shape.fields)

/-- The place of an export as JSON. -/
def ExportLocation.toJson (l : ExportLocation) : Json :=
  obj [("exportName", str l.exportName), ("parent", str l.parent)]

/-- A link to another package as JSON. -/
def ExternalLink.toJson (l : ExternalLink) : Json :=
  obj [("pkg", str l.package), ("version", str l.version), ("id", str l.id)]

/-- A document as JSON. -/
def Document.toJson (d : Document) : Json :=
  obj ([("packageName", str d.packageName), ("currentVersion", str d.currentVersion)] ++
    present "versions" (.list str) d.versions ++
    [("rootSymbols", .list str d.roots), ("accessibleSymbols", .ofTable DocSymbol.toJson d.symbols),
      ("symbolReferences", .ofTable (.list str) d.references),
      ("canonicalExportLocations", .ofTable ExportLocation.toJson d.locations),
      ("goodIdentifiers", .ofTable str d.identifiers),
      ("symbolsForInnerBit", .ofTable (.list str) d.inner),
      ("externalSymbols", .ofTable ExternalLink.toJson d.externals)])

/-- A document as indented text. -/
def Document.text (d : Document) : String := d.toJson.pretty 0

end ApiSurface
