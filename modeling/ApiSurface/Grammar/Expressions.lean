import ApiSurface.Grammar.Types
/-!
Initializers. Operators between operands, calls and conditions say nothing about a type that is
not written down, so an expression with one of them is passed over and kept as unknown.
-/
namespace ApiSurface.Productions

open Parse

/-- An expression from `start` up to here. -/
def exprFrom (start : Nat) (shape : ExprShape) : Parse Expr := return ⟨← spanFrom start, shape⟩

/-! ### Arrow functions -/

/-- Whether parameters in parentheses are followed by an arrow or a result type. -/
def isAtArrowParameters : Parse Bool :=
  lookAhead do
    if ← isAt .less then skipAngles
    if !(← isAt .openParen) then return false
    skipBalanced
    isAtAny [.arrow, .colon]

/-- The parameters and the result of an arrow function, up to its arrow. -/
def arrowHead (g : Productions) : Parse (Option Signature) := do
  if ← isAtIdentifier then
    let name ← identifier
    if ← isAt .arrow then
      return some ⟨[], [⟨name, name.span, [], false, false, none, none⟩], none⟩
    else return none
  else if ← isAtAny [.openParen, .less] then
    if !(← isAtArrowParameters) then return none
    let signature ← g.signature
    return if ← isAt .arrow then some signature else none
  else return none

/-- An arrow function, given up where its arrow is missing. -/
def arrowForm (g : Productions) : Parse (Option Expr) := do
  let start ← position
  let isAsync := (← isAtWord "async") && !(← nextIs .arrow)
  if isAsync then
    advance
    if ← isAfterBreak then return none
  match ← g.arrowHead with
  | none => return none
  | some signature =>
    advance
    if ← isAt .openBrace then
      let body ← functionBody
      return some (← exprFrom start (.function signature (some body) none isAsync))
    else
      let result ← g.expression
      return some (← exprFrom start (.function signature none (some result) isAsync))

/-- An arrow function, if one starts here. -/
def arrowFunction (g : Productions) : Parse (Option Expr) := attempt g.arrowForm

/-! ### Literals of arrays and objects -/

/-- An array literal. Holes are left out, spread elements are unknown. -/
def arrayLiteral (g : Productions) : Parse Expr := do
  let start ← position
  advance
  let items ← collect do
    if ← isAtAny [.closeBracket, .endOfFile] then return ([], false)
    if ← accept .comma then return ([], true)
    let from_ ← position
    let item ← do
      if ← accept .ellipsis then
        let _ ← g.expression
        exprFrom from_ .unknown
      else g.expression
    return ([item], ← accept .comma)
  let _ ← expect .closeBracket
  exprFrom start (.array items)

/-- A signature and a body that is passed. -/
def method (g : Productions) : Parse Signature := do
  let signature ← g.signature
  if ← isAt .openBrace then
    let _ ← functionBody
  return signature

/-- An entry of an object literal. Accessors and asynchronous methods are left out. -/
def objectItem (g : Productions) : Parse (List ObjectItem) := do
  let start ← position
  if ← accept .ellipsis then
    let _ ← g.expression
    return [.spread (← spanFrom start)]
  if (← isAtWords ["get", "set", "async"]) && goesOnMember (← peek).kind then
    advance
    let _ ← propertyName
    let _ ← g.method
    return []
  let _ ← accept .asterisk
  if (← isAtIdentifier) && [.comma, .closeBrace, .equals].contains (← peek).kind then
    let name ← identifier
    let _ ← g.initializer
    return [.shorthand name]
  let name ← propertyName
  let _ ← accept .question
  if ← isAtAny [.openParen, .less] then return [.method name (← g.method)]
  let _ ← expect .colon
  return [.property name (← g.expression)]

/-- An object literal. -/
def objectLiteral (g : Productions) : Parse Expr := do
  let start ← position
  advance
  let items ← listUntil .closeBrace g.objectItem
  let _ ← expect .closeBrace
  exprFrom start (.object items.flatten)

/-! ### Operands -/

/-- The expression that a keyword starts or a name is. -/
def wordExpression (g : Productions) : Parse Expr := do
  let start ← position
  let word := (← current).value
  match word with
  | "true" =>
    advance
    exprFrom start .true
  | "false" =>
    advance
    exprFrom start .false
  | "null" =>
    advance
    exprFrom start .null
  | "function" =>
    advance
    let _ ← accept .asterisk
    let _ ← accept .identifier
    let signature ← g.signature
    let body ← whenever (isAt .openBrace) functionBody
    exprFrom start (.function signature body none false)
  | "class" =>
    repeatWhile do
      if (← isAt .openBrace) || (← isAtExpressionEnd) then return false
      if ← isAt .openParen then skipBalanced else advance
      return true
    if ← isAt .openBrace then skipBalanced
    exprFrom start .unknown
  | "new" =>
    advance
    let callee ← whenever isAtIdentifier entityName
    if ← isAt .less then
      let _ ← g.typeArguments
    if ← isAt .openParen then skipBalanced
    exprFrom start (.new callee)
  | _ =>
    let name ← identifier
    exprFrom start (.entity (.ofIdent name))

/-- An expression that stands alone. -/
def primary (g : Productions) : Parse Expr := do
  let t ← current
  let start := t.span.start
  match t.kind with
  | .string =>
    advance
    exprFrom start (.string t.value)
  | .number =>
    advance
    exprFrom start (.number (numericValue t.value))
  | .bigInt =>
    advance
    exprFrom start (.bigInt t.value)
  | .template =>
    advance
    exprFrom start (.template t.substitutes)
  | .openBracket => g.arrayLiteral
  | .openBrace => g.objectLiteral
  | .openParen =>
    advance
    let inner ← g.expression
    if ← isAt .comma then
      skipExpression
      let _ ← expect .closeParen
      exprFrom start .unknown
    else
      let _ ← expect .closeParen
      return inner
  | .identifier => g.wordExpression
  | _ =>
    if !(← isAtExpressionEnd) then advance
    exprFrom start .unknown

/-- Whether type arguments without a fault and then a call follow. -/
def isAtGenericCall (g : Productions) : Parse Bool :=
  lookAhead do
    let before := (← get).diagnostics.size
    let _ ← g.typeArguments
    return (← get).diagnostics.size == before && (← isAt .openParen)

/-- A member of an expression, after its dot. Only a name with plain dots stays a name. -/
def memberAccess (start : Nat) (e : Expr) (optional : Bool) : Parse Expr := do
  if ← isAtAny [.identifier, .privateName] then
    let name ← takeIdent
    match e.shape, optional with
    | .entity entity, false =>
      let span ← spanFrom start
      exprFrom start (.entity { entity with tail := entity.tail ++ [name], span })
    | _, _ => exprFrom start .unknown
  else
    if ← isAtAny [.openBracket, .openParen] then skipBalanced
    exprFrom start .unknown

/-- A member, a call or another suffix of an expression. -/
def suffixStep (g : Productions) (start : Nat) (e : Expr) : Parse (Expr × Bool) := do
  let t ← current
  match t.kind with
  | .dot | .questionDot =>
    advance
    return (← memberAccess start e (t.kind == .questionDot), true)
  | .openBracket | .openParen =>
    if t.afterBreak then return (e, false)
    skipBalanced
    return (← exprFrom start .unknown, true)
  | .less =>
    if ← g.isAtGenericCall then
      let _ ← g.typeArguments
      return (e, true)
    else return (e, false)
  | .template | .step =>
    if t.afterBreak then return (e, false)
    advance
    return (← exprFrom start .unknown, true)
  | _ => return (e, false)

/-- An expression with its members, calls and other suffixes. -/
def suffixed (g : Productions) : Parse Expr := do
  let start ← position
  let e ← g.primary
  iterate (g.suffixStep start) e

/-- The operator before an operand. -/
def unaryOperator? (t : Token) : Option String :=
  match t.kind with
  | .minus => some "-"
  | .plus => some "+"
  | .exclamation => some "!"
  | .identifier => if ["typeof", "void", "await"].contains t.value then some t.value else none
  | _ => none

/-- An expression behind its operators. -/
def operandProduction (g : Productions) : Parse Expr := do
  let start ← position
  match unaryOperator? (← current) with
  | some op =>
    advance
    let operand ← g.operand
    exprFrom start (.unary op operand)
  | none =>
    if ← accept .less then
      let type ← g.type
      let _ ← expect .greater
      let operand ← g.operand
      exprFrom start (.asserted operand type)
    else g.suffixed

/-! ### Whole expressions -/

/-- Tokens that go on with the expression of the line before. -/
def goesOnExpression : TokenKind → Bool
  | .dot | .questionDot | .step | .operator | .bar | .ampersand | .plus | .minus | .asterisk
  | .slash | .question | .colon | .less | .greater | .equals => true
  | _ => false

/-- Type assertions after an expression, on the same line. -/
def assertions (g : Productions) (start : Nat) (e : Expr) : Parse Expr :=
  iterate (fun (e : Expr) => do
    if ← isAfterBreak then return (e, false)
    if ← acceptWord "as" then
      if ← acceptWord "const" then return (← exprFrom start (.asConst e), true)
      let type ← g.type
      return (← exprFrom start (.asserted e type), true)
    if ← acceptWord "satisfies" then
      let _ ← g.type
      return (e, true)
    return (e, ← accept .exclamation)) e

/-- A whole expression; unknown if it does not end where it should. -/
def expressionForm (g : Productions) : Parse Expr := do
  let start ← position
  match ← g.arrowFunction with
  | some arrow => return arrow
  | none =>
    let e ← operandProduction g
    let e ← g.assertions start e
    let t ← current
    if (← isAtExpressionEnd) || (t.afterBreak && !goesOnExpression t.kind) then return e
    skipExpression
    exprFrom start .unknown

/-- A whole expression, or an unknown one if types and expressions are nested too deeply. -/
def expressionProduction (g : Productions) : Parse Expr := do
  let start ← position
  nested (do
    skipExpression
    exprFrom start .unknown) g.expressionForm

end ApiSurface.Productions
