import ApiSurface.Grammar.Signatures
/-!
Types. From the loosest to the tightest form: function and conditional types, unions,
intersections, operators, array and index suffixes, and the types that stand alone.
-/
namespace ApiSurface.Productions

open Parse

/-! ### Members of interfaces and object types -/

/-- Whether the word here is a modifier of the member that follows it. -/
def isAtMemberModifier (word : String) : Parse Bool := do
  return (← isAtWord word) && goesOnMember (← peek).kind

/-- A getter or a setter of an object type, from its word on. -/
def accessorMember (g : Productions) : Parse TypeMemberShape := do
  let isGetter ← isAtWord "get"
  advance
  let name ← propertyName
  let signature ← g.signature
  return if isGetter then .getter name signature.returns else .setter name signature.params.head?

/-- What a member of an object type declares. -/
def typeMemberShape (g : Productions) : Parse TypeMemberShape := do
  if ← isAtAny [.openParen, .less] then return .call (← g.signature)
  if (← isAtWord "new") && [.openParen, .less].contains (← peek).kind then
    advance
    return .construct (← g.signature)
  let readonly ← isAtMemberModifier "readonly"
  if readonly then advance
  if (← isAt .openBracket) && (← isAtIndexSignature) then
    let (params, type) ← g.indexSignature
    return .index params type readonly
  if (← isAtMemberModifier "get") || (← isAtMemberModifier "set") then return (← g.accessorMember)
  let name ← propertyName
  let optional ← accept .question
  if ← isAtAny [.openParen, .less] then return .method name optional (← g.signature)
  return .property name optional readonly (← g.typeAfter .colon)

/-- A member of an object type. -/
def typeMember (g : Productions) : Parse TypeMember := do
  let doc ← leadingDocHere
  let start ← position
  let shape ← g.typeMemberShape
  return ⟨← spanFrom start, doc, shape⟩

/-- The members of an object type in braces. A token that starts no member is passed. -/
def typeMembers (g : Productions) : Parse (List TypeMember) := do
  if ← expect .openBrace then
    let members ← collect do
      if ← isAtAny [.closeBrace, .endOfFile] then return ([], false)
      let member ← orAdvance do
        let member ← g.typeMember
        if !(← accept .semicolon) then
          let _ ← accept .comma
        return member
      return ([member], true)
    let _ ← expect .closeBrace
    return members
  else return []

/-! ### Types that stand alone -/

/-- Words that are types by themselves. -/
def keywordTypes : List String :=
  ["any", "bigint", "boolean", "false", "intrinsic", "never", "null", "number", "object", "string",
    "symbol", "this", "true", "undefined", "unknown", "void"]

/-- A type that is a literal of one token. -/
def literalType (start : Nat) (value : LiteralType) : Parse TypeExpr := do
  advance
  return ⟨← spanFrom start, .literal value⟩

/-- The type of a member of another module, from the word `import` on. -/
def moduleType (g : Productions) (start : Nat) (isTypeof : Bool) : Parse TypeExpr := do
  advance
  let _ ← expect .openParen
  let specifier ← specifier
  if ← accept .comma then
    if ← isAt .openBrace then skipBalanced
  let _ ← expect .closeParen
  let qualifier ← whenever (accept .dot) entityName
  let args ← g.typeArgumentsOnLine
  return ⟨← spanFrom start, .moduleType specifier qualifier args isTypeof⟩

/-- A type that starts with a word. -/
def wordType (g : Productions) : Parse TypeExpr := do
  let start ← position
  if ← isAtWord "typeof" then
    advance
    if ← isAtWord "import" then return (← g.moduleType start true)
    let name ← entityName
    let args ← g.typeArgumentsOnLine
    return ⟨← spanFrom start, .query name args⟩
  if (← isAtWord "import") && (← nextIs .openParen) then return (← g.moduleType start false)
  if (← isAtWord "unique") && (← nextIsWord "symbol") then
    advance
    advance
    return ⟨← spanFrom start, .keyword "unique symbol"⟩
  if (← isAtWords keywordTypes) && !(← nextIs .dot) then
    let word ← takeIdent
    return ⟨← spanFrom start, .keyword word.text⟩
  let name ← entityName
  let args ← g.typeArgumentsOnLine
  return ⟨← spanFrom start, .reference name args⟩

/-- An element of a tuple. -/
def tupleItem (g : Productions) : Parse TupleItem := do
  let start ← position
  let leadingRest ← accept .ellipsis
  let labeled := (← isAtIdentifier) && (← lookAhead do
    advance
    let _ ← accept .question
    isAt .colon)
  if labeled then
    let label ← identifier
    let optional ← accept .question
    let _ ← expect .colon
    let rest ← if leadingRest then pure true else accept .ellipsis
    let type ← g.freeType
    return ⟨← spanFrom start, some label, optional, rest, type⟩
  else
    let type ← g.freeType
    let optional ← accept .question
    return ⟨← spanFrom start, none, optional, leadingRest, type⟩

/-- A tuple type. -/
def tupleType (g : Productions) : Parse TypeExpr := do
  let start ← position
  advance
  let items ← listUntil .closeBracket g.tupleItem
  let _ ← expect .closeBracket
  return ⟨← spanFrom start, .tuple items⟩

/-- Whether a mapped type starts at the current brace. -/
def isAtMappedType : Parse Bool :=
  lookAhead do
    advance
    if ← isAtAny [.plus, .minus] then
      advance
      if !(← isAtWord "readonly") then return false
    let _ ← acceptWord "readonly"
    if !(← accept .openBracket) then return false
    if !(← isAtIdentifier) then return false
    advance
    isAtWord "in"

/-- A modifier of a mapped type: a sign and then what it sets, or what it sets alone. -/
def mappedModifier (present : Parse Bool) (expected : Parse Bool) :
    Parse (Option MappedModifier) := do
  let modifier ← do
    if ← accept .plus then pure (some MappedModifier.plus)
    else if ← accept .minus then pure (some .minus)
    else pure (if ← present then some .present else none)
  if modifier.isSome then
    let _ ← expected
  return modifier

/-- A mapped type. -/
def mappedType (g : Productions) : Parse TypeExpr := do
  let start ← position
  advance
  let readonly ← mappedModifier (isAtWord "readonly") (expectWord "readonly")
  let _ ← expect .openBracket
  let param ← identifier
  let _ ← expectWord "in"
  let keys ← g.freeType
  let rename ← whenever (acceptWord "as") g.freeType
  let _ ← expect .closeBracket
  let optional ← mappedModifier (isAt .question) (expect .question)
  let value ← g.typeAfter .colon
  let _ ← accept .semicolon
  let _ ← accept .comma
  let _ ← expect .closeBrace
  return ⟨← spanFrom start, .mapped readonly param keys rename optional value⟩

/-- A type that stands alone. -/
def standingType (g : Productions) : Parse TypeExpr := do
  let t ← current
  let start := t.span.start
  match t.kind with
  | .openParen =>
    advance
    let inner ← g.freeType
    let _ ← expect .closeParen
    return ⟨← spanFrom start, .parenthesized inner⟩
  | .openBracket => g.tupleType
  | .openBrace =>
    if ← isAtMappedType then g.mappedType
    else
      let members ← g.typeMembers
      return ⟨← spanFrom start, .object members⟩
  | .string => literalType start (.string t.value)
  | .number => literalType start (.number (numericValue t.value))
  | .bigInt => literalType start (.bigInt t.value)
  | .template =>
    advance
    return ⟨← spanFrom start, .template⟩
  | .identifier => g.wordType
  | kind =>
    let after ← peek
    if kind == .minus && after.kind == .number then
      advance
      literalType start (.number (-numericValue after.value))
    else if kind == .minus && after.kind == .bigInt then
      advance
      literalType start (.bigInt ("-" ++ after.value))
    else
      report .typeExpected
      if !(← isAtTypeEnd) then advance
      return ⟨← spanFrom start, .unsupported⟩

/-! ### Suffixes, operators, intersections and unions -/

/-- A type with its array and index suffixes. -/
def suffixedType (g : Productions) : Parse TypeExpr := do
  let start ← position
  let type ← g.standingType
  iterate (fun (type : TypeExpr) => do
    if ← isAfterBreak then return (type, false)
    if ← accept .openBracket then
      if ← accept .closeBracket then return (⟨← spanFrom start, .array type⟩, true)
      let index ← g.freeType
      let _ ← expect .closeBracket
      return (⟨← spanFrom start, .indexed type index⟩, true)
    return (type, ← accept .exclamation)) type

/-- Whether the token after an operator word starts a type. -/
def operandFollows : Parse Bool :=
  lookAhead do
    advance
    return !(← isAtTypeEnd) && !(← isAtAny [.bar, .ampersand, .question, .colon, .dot])

/-- The operator at the current word. -/
def typeOperator? : Parse (Option TypeOperator) := do
  if ← isAtWord "keyof" then return some .keyof
  if ← isAtWord "readonly" then return some .readonly
  if (← isAtWord "unique") && !(← nextIsWord "symbol") then return some .unique
  return none

/-- The bound of an inferred name. Where a conditional type may stand, a question mark after it
shows that `extends` belongs to that. -/
def inferBound (g : Productions) : Parse (Option TypeExpr) :=
  attempt do
    if !(← acceptWord "extends") then return none
    let inBound := (← get).context.withoutConditionals
    let bound ← withoutConditionals g.type
    if !inBound && (← isAt .question) then return none
    return some bound

/-- A type behind its operators. -/
def operatedType (g : Productions) : Parse TypeExpr := do
  let start ← position
  let operator? ← do
    match ← typeOperator? with
    | some op => pure (if ← operandFollows then some op else none)
    | none => pure none
  match operator? with
  | some op =>
    advance
    let operand ← g.operandType
    return ⟨← spanFrom start, .operator op operand⟩
  | none =>
    if (← isAtWord "infer") && (← nextIsIdentifierOnLine) then
      advance
      let name ← identifier
      let bound ← g.inferBound
      return ⟨← spanFrom start, .infer name bound⟩
    else g.suffixedType

/-- Types parted by a sign, which may also lead. A single type stays as it is, but its range
includes the leading sign. -/
def signedList (sign : TokenKind) (part : Parse TypeExpr) (make : List TypeExpr → TypeShape) :
    Parse TypeExpr := do
  let start ← position
  let leading ← accept sign
  let first ← part
  if ← isAt sign then
    let others ← collect do
      if ← accept sign then return ([← part], true) else return ([], false)
    return ⟨← spanFrom start, make (first :: others)⟩
  else if leading then return ⟨← spanFrom start, first.shape⟩
  else return first

/-- An intersection of types. -/
def intersectionType (g : Productions) : Parse TypeExpr :=
  signedList .ampersand g.operatedType .intersection

/-- A union of types. -/
def unionType (g : Productions) : Parse TypeExpr := signedList .bar g.intersectionType .union

/-! ### Function and conditional types -/

/-- Whether a function type starts here: type parameters, or a group with an arrow after it. -/
def isAtFunctionType : Parse Bool := do
  if ← isAt .less then return true
  if !(← isAt .openParen) then return false
  lookAhead do
    skipBalanced
    isAt .arrow

/-- The branches of a conditional type. -/
def branches (g : Productions) : Parse (Option TypeExpr × Option TypeExpr) := do
  if ← expect .question then
    let whenTrue ← g.freeType
    let whenFalse ← whenever (expect .colon) g.freeType
    return (some whenTrue, whenFalse)
  else return (none, none)

/-- A whole type. -/
def typeForm (g : Productions) : Parse TypeExpr := do
  let start ← position
  if ← isAtFunctionType then
    let signature ← g.arrowSignature
    return ⟨← spanFrom start, .function signature⟩
  if (← isAtWord "new") || ((← isAtWord "abstract") && (← nextIsWord "new")) then
    let isAbstract ← acceptWord "abstract"
    advance
    let signature ← g.arrowSignature
    return ⟨← spanFrom start, .constructor signature isAbstract⟩
  let check ← g.unionType
  if (← get).context.withoutConditionals || (← isAfterBreak) || !(← isAtWord "extends") then
    return check
  advance
  let bound ← withoutConditionals g.type
  let (whenTrue, whenFalse) ← g.branches
  return ⟨← spanFrom start, .conditional check bound whenTrue whenFalse⟩

/-- A whole type, or an unsupported one if types and expressions are nested too deeply. -/
def typeProduction (g : Productions) : Parse TypeExpr := do
  let start ← position
  nested (do
    skipType
    return ⟨← spanFrom start, .unsupported⟩) g.typeForm

end ApiSurface.Productions
