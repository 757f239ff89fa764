import ApiSurface.Extraction.Describe
/-!
Describing types, written ones and those that initializers show. The rules for one level are given
over any way of describing the level inside; below the last level a written type is kept as text and
any other is `any`.
-/
namespace ApiSurface

/-- A type without the alternative `undefined`, as for a property that may be absent anyway. -/
def DocType.withoutUndefined : DocType → DocType
  | .union types =>
    if types.length < 2 || !types.any (·.isIntrinsic "undefined") then .union types
    else
      match types.filter fun t => !t.isIntrinsic "undefined" with
      | [t] => t
      | kept => .union kept
  | t => t

/-- The type of a property. -/
def DocType.ofProperty (optional : Bool) (t : DocType) : DocType :=
  if optional then t.withoutUndefined else t

/-- The names that a type binds by `infer`. -/
def TypeExpr.inferredNames (t : TypeExpr) : List String :=
  t.written.filterMap fun t =>
    match t.shape with
    | .infer name _ => some name.text
    | _ => none

namespace TypeMember

/-- Whether a member reads a property of a name. -/
def isGetterOf (name : String) (m : TypeMember) : Bool :=
  match m.shape with
  | .getter n _ => n.text == name
  | _ => false

/-- Whether a member writes a property of a name. -/
def isSetterOf (name : String) (m : TypeMember) : Bool :=
  match m.shape with
  | .setter n _ => n.text == name
  | _ => false

end TypeMember

namespace Describe

section

variable (type : TypeExpr → Describe DocType) (inferred : InferredType → Describe DocType)

/-- A type that may be missing; then it is `any`. -/
def typeOrAny : Option TypeExpr → Describe DocType
  | some t => type t
  | none => return .any

/-- A part that may be missing. -/
def optional {α β : Type} (f : α → Describe β) : Option α → Describe (Option β)
  | some a => some <$> f a
  | none => return none

/-- Type parameters. -/
def typeParams (ps : List TypeParam) : Describe (List DocTypeParam) :=
  ps.mapM fun p => return ⟨p.name.text, ← optional type p.bound, ← optional type p.fallback⟩

/-- A parameter. -/
def param (p : Param) : Describe DocParam := do
  let t ← match p.type with
    | some t => type t
    | none => inferred p.infer
  return ⟨p.name.text, t, p.optional || p.initial.isSome, p.rest⟩

/-- A signature, which returns `returned` if nothing else is written. -/
def signature (s : Signature) (docs : Option String) (isConstructor : Bool)
    (returned : Option InferredType) : Describe DocSignature :=
  withTypeParams (s.typeParams.map (·.name.text)) do
    let typeParams ← typeParams type s.typeParams
    let params ← s.params.mapM (param type inferred)
    let returns ← match s.returns, returned with
      | some t, _ => type t
      | none, some t => inferred t
      | none, none => pure .any
    return ⟨docs, typeParams, params, returns, isConstructor⟩

/-- The key of an index signature: its name and its type. -/
def indexKey (params : List Param) : Describe (String × DocType) :=
  match params with
  | [] => return ("", .any)
  | p :: _ => return (p.name.text, ← typeOrAny type p.type)

/-- A member among others. What is read and written is one property, shown where it is read. -/
def member (all : List TypeMember) (m : TypeMember) : Describe (Option DocMember) := do
  let docs := m.doc
  match m.shape with
  | .property name optional readonly t =>
    let t ← typeOrAny type t
    return some (.property name.text docs optional readonly (t.ofProperty optional))
  | .method name optional s =>
    return some (.method name.text docs optional (← signature type inferred s none false none))
  | .call s => return some (.call docs (← signature type inferred s none false none))
  | .construct s => return some (.constructor docs (← signature type inferred s none true none))
  | .index params t readonly =>
    let (keyName, keyType) ← indexKey type params
    return some (.index docs keyName keyType readonly (← typeOrAny type t))
  | .getter name t =>
    let readonly := !all.any (·.isSetterOf name.text)
    return some (.property name.text docs false readonly (← typeOrAny type t))
  | .setter name p =>
    if all.any (·.isGetterOf name.text) then return none
    return some (.property name.text docs false false (← typeOrAny type (p.bind (·.type))))

/-- The members of an interface or of an object type. -/
def members (ms : List TypeMember) : Describe (List DocMember) :=
  return (← ms.mapM (member type inferred ms)).reduceOption

/-- An element of a tuple. The rest of a tuple is known by the type of its items. -/
def tupleItem (i : TupleItem) : Describe DocTupleItem := do
  let label := i.label.map (·.text)
  let t ← type i.type
  if i.rest then
    match t with
    | .array _ item => return ⟨.rest, label, item⟩
    | t => return ⟨.variadic, label, t⟩
  return ⟨if i.optional then .optional else .required, label, t⟩

/-- Whether a name means the arrays of the standard library, and if so, whether read-only ones. -/
def arrayKind? (name : EntityName) : Describe (Option Bool) := do
  let ctx ← read
  let p := ctx.program
  let text := name.head.text
  let readonly? := if !name.isSimple then none
    else if text == "Array" then some false
    else if text == "ReadonlyArray" then some true
    else none
  -- a name that the package declares itself means what is declared
  match p.lookupName ctx.scope text with
  | none => return readonly?
  | some s => return readonly?.filter fun _ => p.globals.get? text == some s && !p.isInternal s

/-- A type by its name. -/
def reference (name : EntityName) (args : List TypeExpr) : Describe DocType := do
  if name.isSimple && (← isTypeParam name.head.text) then return .typeParameter name.head.text
  if let [item] := args then
    if let some readonly ← arrayKind? name then return .array readonly (← type item)
  let id ← entity name.texts
  return .reference id name.text (← args.mapM type)

/-- What a path of names means in a module that is given by its specifier. -/
def inModule? (specifier : String) (names : List String) : Describe (Option Resolution) := do
  let file := (← read).scope.fileIndex
  walking fun p => Walk.ask do
    let start := ((p.resolveModule file specifier).map .symbol).getD (.unresolved specifier "")
    p.membersBy p.exportsOf start names

/-- A type of another module, or that of a value there. -/
def moduleType (specifier : String) (qualifier : Option EntityName) (args : List TypeExpr)
    (isTypeof : Bool) : Describe DocType := do
  let shown := s!"import(\"{specifier}\")" ++ (qualifier.elim "" fun q => "." ++ q.text)
  let names := qualifier.elim [] EntityName.texts
  let id ← match ← inModule? specifier names with
    | some r => walking fun p => Walk.refer p r
    | none => walking fun _ => Walk.referExternal (.global shown)
  if isTypeof then return .typeof id shown
  return .reference id shown (← args.mapM type)

/-- A type behind an operator. -/
def operated (whole : Span) (op : TypeOperator) (operand : TypeExpr) : Describe DocType :=
  match op, operand.shape with
  | .readonly, .array item => return .array true (← type item)
  | .readonly, .tuple items => return .tuple true (← items.mapM (tupleItem type))
  | .keyof, _ => return .keyof (← type operand)
  | _, _ => return .raw (← written whole)

/-- A branch of a conditional type. -/
def branch (whole : Span) (name : String) : Option TypeExpr → Describe TypeExpr
  | some t => return t
  | none => do
    let ctx ← read
    let text ← written whole
    outcome (.error (.missingBranch text (ctx.program.relativePath ctx.scope) whole.start name))

/-- A conditional type. The names that it infers are known while the bound and the first outcome are
described. -/
def conditional (whole : Span) (check bound : TypeExpr) (whenTrue whenFalse : Option TypeExpr) :
    Describe DocType := do
  let whenTrue ← branch whole "true" whenTrue
  let whenFalse ← branch whole "false" whenFalse
  let check ← type check
  -- both are described before either failure counts, so that both are mentioned
  let (bound, whenTrue) ← withTypeParams bound.inferredNames do
    return (← attempt (type bound), ← attempt (type whenTrue))
  let bound ← outcome bound
  let whenTrue ← outcome whenTrue
  return .conditional check bound whenTrue (← type whenFalse)

/-- A mapped type. Its parameter is known in its names and values. -/
def mapped (readonly : Option MappedModifier) (param : Ident) (keys : TypeExpr)
    (rename : Option TypeExpr) (isOptional : Option MappedModifier) (value : Option TypeExpr) :
    Describe DocType := do
  let keys ← type keys
  let (rename, value) ← withTypeParams [param.text] do
    return (← attempt (optional type rename), ← attempt (optional type value))
  let rename ← outcome rename
  return .mapped param.text keys rename readonly isOptional (← outcome value)

/-- One level of a written type. -/
def writtenType (t : TypeExpr) : Describe DocType :=
  match t.shape with
  | .keyword word => return .intrinsic word
  | .reference name args => reference type name args
  | .query name _ => return .typeof (← entity name.texts) name.text
  | .array item => return .array false (← type item)
  | .operator op operand => operated type t.span op operand
  | .union parts => return .union (← parts.mapM type)
  | .intersection parts => return .intersection (← parts.mapM type)
  | .infer name bound => return .infer name.text (← optional type bound)
  | .parenthesized inner => return .paren (← type inner)
  | .tuple items => return .tuple false (← items.mapM (tupleItem type))
  | .object ms => return .object (← members type inferred ms)
  | .indexed object index => return .indexed (← type object) (← type index)
  | .conditional check bound whenTrue whenFalse =>
    conditional type t.span check bound whenTrue whenFalse
  | .literal (.string value) => return .string value
  | .literal (.number value) => return .number value
  | .literal (.bigInt digits) => return .bigInt digits
  | .mapped readonly param keys rename isOptional value =>
    mapped type readonly param keys rename isOptional value
  | .function s => return .signature (← signature type inferred s none false none)
  | .constructor s _ => return .signature (← signature type inferred s none true none)
  | .predicate asserts param t => return .predicate asserts param.text (← optional type t)
  | .moduleType specifier qualifier args isTypeof =>
    moduleType type specifier qualifier args isTypeof
  | .template | .unsupported => return .raw (← written t.span)

/-- A signature that an initializer shows. -/
def inferredSignature : InferredSignature → Describe DocSignature
  | .mk s returned => signature type inferred s none false returned

/-- One level of a type that an initializer shows. -/
def shownType : InferredType → Describe DocType
  | .intrinsic name => return .intrinsic name
  | .string value => return .string value
  | .number value => return .number value
  | .bigInt digits => return .bigInt digits
  | .boolean value => return .intrinsic (if value then "true" else "false")
  | .array item => return .array false (← inferred item)
  | .tuple readonly items =>
    return .tuple readonly (← items.mapM fun t => return ⟨.required, none, ← inferred t⟩)
  | .union parts => return .union (← parts.mapM inferred)
  | .object readonly ms => return .object (← ms.mapM fun
    | .property name t => return .property name none false readonly (← inferred t)
    | .method name s => return .method name none false (← inferredSignature type inferred s))
  | .query path => return .typeof (← entity path) (".".intercalate path)
  | .instance path => return .reference (← entity path) (".".intercalate path) []
  | .written t => type t
  | .global name args => do
    let args ← args.mapM inferred
    return .reference (← entity [name]) name args
  | .function s => return .signature (← inferredSignature type inferred s)

end

mutual

/-- A written type, at most `n` levels of it. -/
def typeWithin : Nat → TypeExpr → Describe DocType
  | 0, t => return .raw (← written t.span)
  | n + 1, t => writtenType (typeWithin n) (inferredWithin n) t

/-- A type that an initializer shows, at most `n` levels of it. -/
def inferredWithin : Nat → InferredType → Describe DocType
  | 0, _ => return .any
  | n + 1, t => shownType (typeWithin n) (inferredWithin n) t

end

end Describe

end ApiSurface
