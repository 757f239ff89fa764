import ApiSurface.Grammar.Declarations
/-!
Statements: imports, exports and declarations. A statement of any other kind is passed over.
-/
namespace ApiSurface.Productions

open Parse

/-- An import or export at the top of a file makes the file a module. -/
def markModule : Parse Unit := do
  if (← get).context.parent.isNone then modify ({ · with isModule := true })

/-- Passes the attributes of an import. -/
def skipAttributes : Parse Unit := do
  if (← isAtWords ["with", "assert"]) && !(← isAfterBreak) then
    advance
    if ← isAt .openBrace then skipBalanced

/-! ### Imports -/

/-- Whether `type` here is the keyword and not the first imported name. -/
def isAtTypeOnlyImport : Parse Bool := do
  if !(← isAtWord "type") then return false
  lookAhead do
    advance
    return (← isAtAny [.openBrace, .asterisk]) || ((← isAtIdentifier) && !(← isAtWord "from")) ||
      ((← isAtWord "from") && (← nextIsWord "from"))

/-- Whether `type` here marks the imported name after it. In `type as` and `type as as` it is the
imported name itself. -/
def isAtTypeOnlySpecifier : Parse Bool := do
  if !(← isAtWord "type") then return false
  let followed ← lookAhead do
    advance
    isAtAny [.identifier, .string]
  let isName ← lookAhead do
    advance
    if !(← isAtWord "as") then return false
    advance
    return !(← isAtIdentifier) || (← nextIs .closeBrace)
  return followed && !isName

/-- One name of an import. -/
def importSpecifier : Parse ImportSpecifier := do
  let typeOnly ← isAtTypeOnlySpecifier
  if typeOnly then advance
  let imported ← exportName
  let bound ← whenever (acceptWord "as") identifier
  return ⟨imported, bound.getD imported, typeOnly⟩

/-- The end of an import: where it imports from. -/
def importEnd (start : Nat) (typeOnly : Bool) (default nameSpace : Option Ident)
    (named : List ImportSpecifier) : Parse Statement := do
  let _ ← expectWord "from"
  let specifier ← specifier
  skipAttributes
  semicolon
  return .importFrom (← spanFrom start) typeOnly default nameSpace named specifier

/-- The target of `import name = …`. -/
def importEquals (start : Nat) (name : Ident) (isExport : Bool) : Parse Statement := do
  let target ← do
    if (← isAtWord "require") && (← nextIs .openParen) then
      advance
      advance
      let specifier ← specifier
      let _ ← expect .closeParen
      pure (ImportTarget.external specifier)
    else pure (.entity (← entityName))
  semicolon
  return .importEquals (← spanFrom start) name isExport target

/-- The names of an import after its default name. -/
def importNames (start : Nat) (typeOnly : Bool) (default : Option Ident) : Parse Statement := do
  if ← accept .asterisk then
    let _ ← expectWord "as"
    let nameSpace ← identifier
    importEnd start typeOnly default (some nameSpace) []
  else if ← accept .openBrace then
    let named ← listUntil .closeBrace importSpecifier
    let _ ← expect .closeBrace
    importEnd start typeOnly default none named
  else
    report (.tokenExpected "\x7b")
    importEnd start typeOnly default none []

/-- An import. -/
def importStatement (start : Nat) (isExport : Bool) : Parse Statement := do
  advance
  markModule
  if ← isAt .string then
    let specifier ← specifier
    skipAttributes
    semicolon
    return .importFrom (← spanFrom start) false none none [] specifier
  let typeOnly ← isAtTypeOnlyImport
  if typeOnly then advance
  if (← isAtIdentifier) && !((← isAtWord "from") && (← nextIs .string)) then
    let name ← identifier
    if ← accept .equals then importEquals start name isExport
    else if ← accept .comma then importNames start typeOnly (some name)
    else importEnd start typeOnly (some name) none []
  else importNames start typeOnly none

/-! ### Exports -/

/-- One name of an export list. The word `type` before it changes nothing. -/
def exportSpecifier : Parse ExportSpecifier := do
  let after ← peek
  if (← isAtWord "type") && after.kind == .identifier && !after.isWord "as" then advance
  let source ← exportName
  let exported ← whenever (acceptWord "as") exportName
  return ⟨source, exported.getD source⟩

/-- A list of exported names in braces. -/
def exportList (start : Nat) (typeOnly : Bool) : Parse Statement := do
  advance
  let specifiers ← listUntil .closeBrace exportSpecifier
  let _ ← expect .closeBrace
  let specifier ← do
    if ← acceptWord "from" then stringLiteral else pure none
  skipAttributes
  semicolon
  return .exportNamed (← spanFrom start) typeOnly specifiers specifier

/-- An export of all that another module exports. -/
def exportAll (start : Nat) : Parse Statement := do
  let exportedAs ← whenever (acceptWord "as") exportName
  let _ ← expectWord "from"
  let specifier ← specifier
  skipAttributes
  semicolon
  return .exportAll (← spanFrom start) exportedAs specifier

/-- Whether a dotted name makes up the rest of the statement. -/
def isAtWholeName : Parse Bool := do
  if !(← isAtIdentifier) then return false
  lookAhead do
    let _ ← entityName
    canEndStatement

/-- A dotted name that a module exports as a whole or by default. -/
def exportAssignment (start : Nat) (isEquals : Bool) : Parse Statement := do
  let target ← entityName
  semicolon
  return .exportAssignment (← spanFrom start) isEquals target

/-- A statement that is passed over. -/
def unknownStatement (start : Nat) : Parse Statement := do
  skipStatement
  return .unknown (← spanFrom start)

/-- `export default` and an expression: a name is exported as it is, any other expression
initializes a constant called `default`. -/
def exportDefault (g : Productions) (start : Nat) (doc : Option String) (keyword : Span) :
    Parse Statement := do
  if ← isAtWholeName then exportAssignment start false
  else
    let initial ← g.expression
    semicolon
    let index ← declare ⟨"default", keyword⟩ (← spanFrom start) [.exported, .default] doc
      (.variable .const none (some initial))
    return .declaration index

/-- Two sets of modifiers together. -/
def withModifiers (first others : Modifiers) : Modifiers := others.foldl Modifiers.add first

/-- An export after its keyword. -/
def exportStatement (g : Productions) (start : Nat) (doc : Option String) (keyword : Span) :
    Parse (List Statement) := do
  if ← accept .asterisk then return [← exportAll start]
  if ← accept .equals then
    if ← isAtWholeName then return [← exportAssignment start true]
    report .entityOnlyExport
    return [← unknownStatement start]
  if (← isAtWord "as") && (← nextIsWord "namespace") then return [← unknownStatement start]
  if ← isAtWord "import" then return [← importStatement start true]
  let typeOnly := (← isAtWord "type") && (← nextIs .openBrace)
  if typeOnly then advance
  if ← isAt .openBrace then return [← exportList start typeOnly]
  if ← isAtWord "default" then
    let default := (← current).span
    advance
    let modifiers := withModifiers [.exported, .default] (← declarationModifiers)
    let declared ← do
      if ← isAtWords ["function", "class", "interface"] then g.declaration? start doc modifiers
      else pure none
    match declared with
    | some statements => return statements
    | none => return [← g.exportDefault start doc default]
  let modifiers := withModifiers [.exported] (← declarationModifiers)
  match ← g.declaration? start doc modifiers with
  | some statements => return statements
  | none =>
    reportAt keyword.start keyword.length .declarationExpected
    return [← unknownStatement start]

/-! ### Statements -/

/-- A statement. A single semicolon is none. -/
def statement (g : Productions) : Parse (List Statement) := do
  let doc ← leadingDocHere
  let start ← position
  if ← accept .semicolon then return []
  if ← isAt .at_ then g.decorators
  if (← isAtWord "import") && !([.openParen, .dot].contains (← peek).kind) then
    return [← importStatement start false]
  if ← isAtWord "export" then
    let keyword := (← current).span
    advance
    markModule
    g.exportStatement start doc keyword
  else
    let modifiers ← declarationModifiers
    match ← g.declaration? start doc modifiers with
    | some statements => return statements
    | none => return [← unknownStatement start]

/-- One step of a statement list. A token that starts no statement is reported and passed. -/
def statementStep (g : Productions) (inBody : Bool) : Parse (List Statement × Bool) := do
  if ← isAt .endOfFile then
    if inBody then
      let _ ← expect .closeBrace
    return ([], false)
  if inBody && (← isAt .closeBrace) then return ([], false)
  let start ← position
  if !inBody then
    modify fun s => { s with firstStatement := s.firstStatement.or (some start) }
  let statements ← g.statement
  if (← position) == start && !(← isAt .endOfFile) then
    report .statementExpected
    advance
  return (statements, true)

/-- Statements up to the end of the file, or up to a closing brace in a body. -/
def statementList (g : Productions) (inBody : Bool) : Parse (List Statement) :=
  collect (g.statementStep inBody)

end ApiSurface.Productions
