import ApiSurface.Grammar.Productions
import ApiSurface.Grammar.Skipping
/-!
Type arguments, type parameters, parameters, signatures and the names of properties.
-/
namespace ApiSurface.Productions

open Parse

/-- Type arguments in angle brackets, if there are any. -/
def typeArguments (g : Productions) : Parse (List TypeExpr) := do
  if ← accept .less then
    let args ← listUntil .greater g.freeType
    let _ ← expect .greater
    return args
  else return []

/-- Type arguments on the same line. -/
def typeArgumentsOnLine (g : Productions) : Parse (List TypeExpr) := do
  if (← isAt .less) && !(← isAfterBreak) then g.typeArguments else return []

/-- A type parameter, without the words for its variance. -/
def typeParameter (g : Productions) : Parse TypeParam := do
  repeatWhile do
    if (← isAtWords ["const", "in", "out"]) && (← nextIsIdentifierOnLine) then
      advance
      return true
    else return false
  let name ← identifier
  let bound ← whenever (acceptWord "extends") g.freeType
  let fallback ← g.typeAfter .equals
  return ⟨name, bound, fallback⟩

/-- Type parameters in angle brackets, if there are any. -/
def typeParameters (g : Productions) : Parse (List TypeParam) := do
  if ← accept .less then
    let params ← listUntil .greater g.typeParameter
    let _ ← expect .greater
    return params
  else return []

/-- Passes decorators. -/
def decorators (g : Productions) : Parse Unit :=
  repeatWhile do
    if ← accept .at_ then
      if ← isAt .openParen then skipBalanced
      else
        let _ ← entityName
        if ← isAt .less then
          let _ ← g.typeArguments
        if ← isAt .openParen then skipBalanced
      return true
    else return false

/-- The words before a parameter of a constructor. -/
def parameterWords : List (String × Modifier) :=
  [("public", .publicAccess), ("private", .privateAccess), ("protected", .protectedAccess),
    ("readonly", .readonly), ("override", .overriding)]

/-- Takes modifiers from a table, as long as the token after the word satisfies a test. -/
def modifiersOf (words : List (String × Modifier)) (mayFollow : TokenKind → Bool) :
    Parse Modifiers :=
  iterate (fun (found : Modifiers) => do
    let t ← current
    match words.find? (fun (word, _) => t.isWord word) with
    | some (_, m) =>
      if mayFollow (← peek).kind then
        advance
        return (found.add m, true)
      else return (found, false)
    | none => return (found, false)) []

/-- Tokens that a parameter may go on with after a modifier. -/
def goesOnParameter : TokenKind → Bool
  | .identifier | .openBrace | .openBracket | .ellipsis => true
  | _ => false

/-- Tokens that a member may go on with after a modifier. -/
def goesOnMember : TokenKind → Bool
  | .identifier | .privateName | .string | .number | .openBracket | .asterisk => true
  | _ => false

/-- A parameter. A pattern in braces or brackets is kept as written. -/
def parameter (g : Productions) : Parse Param := do
  g.decorators
  let start ← position
  let modifiers ← modifiersOf parameterWords goesOnParameter
  let rest ← accept .ellipsis
  let name ← do
    if ← isAtAny [.openBrace, .openBracket] then
      let from_ ← position
      skipBalanced
      let span ← spanFrom from_
      pure ⟨span.text (← read).text, span⟩
    else identifier
  let optional ← accept .question
  let type ← g.typeAfter .colon
  let initial ← g.initializer
  return ⟨name, ← spanFrom start, modifiers, rest, optional, type, initial⟩

/-- Parameters in parentheses. -/
def parameters (g : Productions) : Parse (List Param) := do
  if ← expect .openParen then
    let params ← listUntil .closeParen g.parameter
    let _ ← expect .closeParen
    return params
  else return []

/-- The result of a signature: a type or a statement about a parameter. -/
def resultType (g : Productions) : Parse TypeExpr := do
  let start ← position
  let asserts := (← isAtWord "asserts") && (← nextIsIdentifierOnLine)
  if asserts then advance
  let after ← peek
  let predicates := (← isAtIdentifier) && after.isWord "is" && !after.afterBreak
  if asserts || predicates then
    let param ← identifier
    let type ← whenever (acceptWord "is") g.freeType
    return ⟨← spanFrom start, .predicate asserts param type⟩
  else g.freeType

/-- A signature whose result, if there is one, follows a colon. -/
def signature (g : Productions) : Parse Signature := do
  let typeParams ← g.typeParameters
  let params ← g.parameters
  let returns ← whenever (accept .colon) g.resultType
  return ⟨typeParams, params, returns⟩

/-- The signature of a function type: its result follows an arrow. -/
def arrowSignature (g : Productions) : Parse Signature := do
  let typeParams ← g.typeParameters
  let params ← g.parameters
  let _ ← expect .arrow
  let returns ← g.resultType
  return ⟨typeParams, params, some returns⟩

/-- Whether an index signature starts at the current bracket, and no computed name. -/
def isAtIndexSignature : Parse Bool :=
  lookAhead do
    advance
    if ← isAtAny [.ellipsis, .closeBracket] then return true
    if !(← isAtIdentifier) then return false
    advance
    isAtAny [.colon, .comma]

/-- The parameters in brackets and the type of an index signature. -/
def indexSignature (g : Productions) : Parse (List Param × Option TypeExpr) := do
  advance
  let params ← listUntil .closeBracket g.parameter
  let _ ← expect .closeBracket
  let type ← g.typeAfter .colon
  return (params, type)

/-- The name of a property. -/
def propertyName : Parse PropertyName := do
  let t ← current
  match t.kind with
  | .identifier => return .ident (← takeIdent)
  | .privateName => return .hidden (← takeIdent)
  | .string =>
    advance
    return .string t.value t.span
  | .number =>
    advance
    return .number t.value t.span
  | .openBracket =>
    skipBalanced
    let span ← spanFrom t.span.start
    return .computed (span.text (← read).text) span
  | _ =>
    report .propertyExpected
    return .ident ⟨"", ⟨t.span.start, t.span.start⟩⟩

end ApiSurface.Productions
