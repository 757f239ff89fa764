import ApiSurface.Grammar.Parse
/-!
Passing over what is not kept: bracketed groups, function bodies, and the rest of statements and
expressions.
-/
namespace ApiSurface.Parse

/-- Passes one token where some brackets are open. -/
def balancedStep (depth : Nat) : Parse (Nat × Bool) := do
  let kind := (← current).kind
  if kind == .endOfFile then
    report (.tokenExpected "\x7d")
    return (depth, false)
  advance
  let depth := if kind.opens then depth + 1 else if kind.closes then depth - 1 else depth
  return (depth, depth != 0)

/-- Passes the bracketed group that starts at the current token; without a bracket, one token. -/
def skipBalanced : Parse Unit := do
  let _ ← iterate balancedStep 0

/-- Passes one token, or the group that it opens. -/
def skipGroup : Parse Unit := do
  if (← current).kind.opens then skipBalanced else advance

/-- What is known inside a function body. -/
structure BodyScan where
  /-- Braces open. -/
  depth : Nat
  /-- The depths at which the bodies of inner functions opened, innermost first. -/
  inner : List Nat
  /-- The next brace opens the body of an inner function. -/
  pending : Bool
  returnsValue : Bool
  deriving Repr

/-- Passes one token of a function body. A `return` counts if a value follows on its line and no
inner function is open. -/
def bodyStep (b : BodyScan) : Parse (BodyScan × Bool) := do
  let t ← current
  match t.kind with
  | .endOfFile =>
    report (.tokenExpected "\x7d")
    return (b, false)
  | .openBrace =>
    advance
    let depth := b.depth + 1
    let inner := if b.pending then depth :: b.inner else b.inner
    return ({ b with depth, inner, pending := false }, true)
  | .closeBrace =>
    advance
    -- the innermost function ends with the brace that opened its body
    let inner := if b.inner.head? = some b.depth then b.inner.tail else b.inner
    let depth := b.depth - 1
    return ({ b with depth, inner }, depth != 0)
  | .arrow =>
    advance
    -- an arrow before any other token has an expression for its body
    return ({ b with pending := ← isAt .openBrace }, true)
  | .semicolon =>
    advance
    return ({ b with pending := false }, true)
  | _ =>
    advance
    if t.isWord "function" then return ({ b with pending := true }, true)
    else if t.isWord "return" then
      let value := !(← isAfterBreak) && !(← isAtAny [.semicolon, .closeBrace, .endOfFile])
      return ({ b with returnsValue := b.returnsValue || (value && b.inner.isEmpty) }, true)
    else return (b, true)

/-- Passes a function body in braces. -/
def functionBody : Parse FunctionBody := do
  let start ← position
  let b ← iterate bodyStep ⟨0, [], false, false⟩
  return ⟨← spanFrom start, b.returnsValue⟩

/-- A function body, or the end of a declaration without one. -/
def optionalBody : Parse (Option FunctionBody) := do
  if ← isAt .openBrace then return some (← functionBody)
  else
    semicolon
    return none

/-- Words at the start of a line that end a statement which is passed over. -/
def statementWords : List String :=
  ["abstract", "class", "const", "declare", "enum", "export", "function", "import", "interface",
    "let", "module", "namespace", "type", "var"]

/-- Passes the rest of a statement. A block at its start ends it. -/
def skipStatement : Parse Unit := do
  let start ← position
  repeatWhile do
    let t ← current
    match t.kind with
    | .endOfFile | .closeBrace => return false
    | .semicolon =>
      advance
      return false
    | .openBrace =>
      skipBalanced
      -- a statement that is a block ends with it; a block inside one may be followed by more
      return t.span.start != start
    | .openParen | .openBracket =>
      skipBalanced
      return true
    | _ =>
      if t.span.start != start && t.afterBreak && (← isAtWords statementWords) then return false
      advance
      return true

/-- Tokens that end an expression. -/
def isAtExpressionEnd : Parse Bool :=
  isAtAny [.comma, .semicolon, .closeParen, .closeBracket, .closeBrace, .endOfFile]

/-- Words at the start of a line that end an expression which is passed over. -/
def expressionStopWords : List String :=
  ["export", "import", "declare", "function", "class", "interface", "type", "const", "let", "var"]

/-- Passes the rest of an expression. -/
def skipExpression : Parse Unit :=
  repeatWhile do
    if ← isAtExpressionEnd then return false
    if (← isAfterBreak) && (← isAtWords expressionStopWords) then return false
    skipGroup
    return true

/-- Tokens that end a type. -/
def isAtTypeEnd : Parse Bool :=
  isAtAny [.closeParen, .closeBracket, .closeBrace, .comma, .semicolon, .greater, .equals, .arrow,
    .endOfFile]

/-- Passes the rest of a type. -/
def skipType : Parse Unit :=
  repeatWhile do
    if ← isAtTypeEnd then return false
    skipGroup
    return true

/-- Passes a list of type parameters by its angle brackets alone. -/
def skipAngles : Parse Unit := do
  let _ ← iterate (fun (depth : Nat) => do
    match (← current).kind with
    | .endOfFile => return (depth, false)
    | .less =>
      advance
      return (depth + 1, true)
    | .greater =>
      advance
      return (depth - 1, depth - 1 != 0)
    | _ =>
      advance
      return (depth, true)) 0

end ApiSurface.Parse
