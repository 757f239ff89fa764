import ApiSurface.Grammar.ClassBody
import ApiSurface.Grammar.Expressions
/-!
Declarations: functions, variables, type aliases, interfaces, classes, enums and modules. A
function or class without a name is called `default`, at its keyword.
-/
namespace ApiSurface.Productions

open Parse

/-- A function declaration. -/
def functionDeclaration (g : Productions) (start : Nat) (doc : Option String)
    (modifiers : Modifiers) : Parse DeclIndex := do
  let keyword := (← current).span
  advance
  let _ ← accept .asterisk
  let name ← do
    if ← isAtIdentifier then identifier
    else
      if !modifiers.contains .default then
        let _ ← identifier
      pure ⟨"default", keyword⟩
  let signature ← g.signature
  let body ← optionalBody
  declare name (← spanFrom start) modifiers doc (.function signature body)

/-- One declarator of a variable statement. A destructuring one introduces no documented name. -/
def declarator (g : Productions) (kind : VariableKind) (doc : Option String)
    (modifiers : Modifiers) : Parse (List DeclIndex) := do
  if ← isAtAny [.openBrace, .openBracket] then
    skipBalanced
    let _ ← whenever (accept .colon) g.type
    let _ ← g.initializer
    return []
  else
    let name ← identifier
    let _ ← accept .exclamation
    let type ← whenever (accept .colon) g.type
    let initial ← g.initializer
    let index ← declare name (← spanFrom name.span.start) modifiers doc (.variable kind type initial)
    return [index]

/-- A variable statement: one declaration for each name, ranging from that name on. -/
def variableStatement (g : Productions) (doc : Option String) (modifiers : Modifiers) :
    Parse (List DeclIndex) := do
  let kind := match (← current).value with
    | "var" => VariableKind.var
    | "let" => .let
    | _ => .const
  advance
  let indices ← collect do
    let new ← g.declarator kind doc modifiers
    return (new, ← accept .comma)
  semicolon
  return indices

/-- A type alias. -/
def typeAlias (g : Productions) (start : Nat) (doc : Option String) (modifiers : Modifiers) :
    Parse DeclIndex := do
  advance
  let name ← identifier
  let typeParams ← g.typeParameters
  let _ ← expect .equals
  let type ← g.type
  semicolon
  declare name (← spanFrom start) modifiers doc (.typeAlias typeParams type)

/-- Passes the rest of what a class extends. -/
def skipHeritage : Parse Unit :=
  repeatWhile do
    if (← isAtAny [.openBrace, .comma, .endOfFile]) || (← isAtWord "implements") then return false
    if ← isAtAny [.openParen, .openBracket] then skipBalanced else advance
    return true

/-- A dotted name with type arguments after `extends` or `implements`; anything beyond that is
unsupported. -/
def heritageType (g : Productions) : Parse TypeExpr := do
  let start ← position
  if ← isAtIdentifier then
    let name ← entityName
    let args ← g.typeArguments
    if ← isAt .openParen then
      skipHeritage
      return ⟨← spanFrom start, .unsupported⟩
    else return ⟨← spanFrom start, .reference name args⟩
  else
    skipHeritage
    return ⟨← spanFrom start, .unsupported⟩

/-- Types parted by commas after `extends` or `implements`. -/
def heritageList (g : Productions) : Parse (List TypeExpr) :=
  collect do
    let type ← g.heritageType
    return ([type], ← accept .comma)

/-- An interface. -/
def interfaceDeclaration (g : Productions) (start : Nat) (doc : Option String)
    (modifiers : Modifiers) : Parse DeclIndex := do
  advance
  let name ← identifier
  let typeParams ← g.typeParameters
  let extends_ ← whenever (acceptWord "extends") g.heritageList
  let members ← g.typeMembers
  declare name (← spanFrom start) modifiers doc
    (.interface typeParams (extends_.getD []) members)

/-- A class. -/
def classDeclaration (g : Productions) (start : Nat) (doc : Option String)
    (modifiers : Modifiers) : Parse DeclIndex := do
  let keyword := (← current).span
  advance
  let name ← do
    if (← isAtIdentifier) && !(← isAtWords ["extends", "implements"]) then identifier
    else
      if !modifiers.contains .default then
        let _ ← identifier
      pure ⟨"default", keyword⟩
  let typeParams ← g.typeParameters
  let (extends_, implements) ←
    iterate (fun ((extends_, implements) : Option TypeExpr × List TypeExpr) => do
      if ← acceptWord "extends" then return ((some (← g.heritageType), implements), true)
      if ← acceptWord "implements" then
        return ((extends_, implements ++ (← g.heritageList)), true)
      return ((extends_, implements), false)) (none, [])
  let members ← g.classMembers
  declare name (← spanFrom start) modifiers doc (.class typeParams extends_ implements members)

/-- A member of an enum; a token that starts none is reported and passed. -/
def enumMember (g : Productions) : Parse (List DeclIndex × Bool) := do
  if ← isAtAny [.closeBrace, .endOfFile] then return ([], false)
  let doc ← leadingDocHere
  let start ← position
  if ← isAtAny [.identifier, .string, .number] then
    let name ← takeIdent
    let initial ← g.initializer
    let index ← declare name (← spanFrom start) [] doc (.enumMember initial)
    return ([index], ← accept .comma)
  else
    report .enumMemberExpected
    advance
    return ([], true)

/-- An enum and its members. -/
def enumDeclaration (g : Productions) (start : Nat) (doc : Option String)
    (modifiers : Modifiers) : Parse DeclIndex := do
  advance
  let name ← identifier
  let index ← declare name ⟨start, start⟩ modifiers doc (.enum [])
  let members ← inBodyOf index do
    if ← expect .openBrace then
      let members ← collect g.enumMember
      let _ ← expect .closeBrace
      return members
    else return []
  complete index (← spanFrom start) (.enum members)
  return index

/-- A module after its name: statements in braces, or nothing. -/
def moduleBody (g : Productions) (start : Nat) (doc : Option String) (modifiers : Modifiers)
    (name : Ident) (naming : ModuleNaming) : Parse DeclIndex := do
  let index ← declare name ⟨start, start⟩ modifiers doc (.module naming none)
  let body ← do
    if ← accept .openBrace then
      let statements ← inBodyOf index g.statements
      let _ ← expect .closeBrace
      pure (some statements)
    else
      semicolon
      pure none
  complete index (← spanFrom start) (.module naming body)
  return index

/-- A module from its name on. `A.B` is a module `A` that exports a module `B`. -/
def moduleProduction (g : Productions) (start : Nat) (doc : Option String)
    (modifiers : Modifiers) : Parse DeclIndex := do
  if ← isAt .string then
    let name ← takeIdent
    g.moduleBody start doc modifiers name .string
  else
    let name ← identifier
    if ← isAt .dot then
      let index ← declare name ⟨start, start⟩ modifiers doc (.module .identifier none)
      advance
      let innerModifiers : Modifiers :=
        if modifiers.contains .declared then [.exported, .declared] else [.exported]
      let inner ← inBodyOf index (g.module (← position) none innerModifiers)
      complete index (← spanFrom start) (.module .identifier (some [.declaration inner]))
      return index
    else g.moduleBody start doc modifiers name .identifier

/-- Whether the name of a module follows on the same line. -/
def isBeforeModuleName : Parse Bool := do
  let t ← peek
  return !t.afterBreak && (t.kind == .identifier || t.kind == .string)

/-- A declaration that starts at the current word; nothing if none does. -/
def declaration? (g : Productions) (start : Nat) (doc : Option String) (modifiers : Modifiers) :
    Parse (Option (List Statement)) := do
  let one (p : Parse DeclIndex) : Parse (Option (List Statement)) :=
    return some [.declaration (← p)]
  let declared : Parse (Option (List Statement)) := do
    let indices ← g.variableStatement doc modifiers
    return some (indices.map .declaration)
  if !(← isAtIdentifier) then return none
  match (← current).value with
  | "function" => one (g.functionDeclaration start doc modifiers)
  | "var" => declared
  | "const" => declared
  | "let" =>
    if [.identifier, .openBrace, .openBracket].contains (← peek).kind then declared
    else return none
  | "type" =>
    if ← nextIsIdentifierOnLine then one (g.typeAlias start doc modifiers) else return none
  | "interface" =>
    if ← nextIsIdentifierOnLine then one (g.interfaceDeclaration start doc modifiers)
    else return none
  | "class" => one (g.classDeclaration start doc modifiers)
  | "enum" =>
    if ← nextIsIdentifierOnLine then one (g.enumDeclaration start doc modifiers) else return none
  | "namespace" | "module" =>
    if ← isBeforeModuleName then
      advance
      one (moduleProduction g start doc modifiers)
    else return none
  | "global" =>
    if ← nextIs .openBrace then
      let name ← takeIdent
      one (g.moduleBody start doc modifiers name .global)
    else return none
  | _ => return none

/-- The words before a declaration. A word that no other word follows on its line is none. -/
def declarationModifiers : Parse Modifiers :=
  iterate (fun (found : Modifiers) => do
    let t ← current
    let modifier? : Option Modifier :=
      if t.isWord "declare" then some .declared
      else if t.isWord "abstract" then some .abstracted
      else if t.isWord "async" then some .async
      else if t.isWord "default" then some .default
      else none
    match modifier? with
    | some m =>
      if ← nextIsIdentifierOnLine then
        advance
        return (found.add m, true)
      else return (found, false)
    | none =>
      if t.isWord "const" && (← nextIsWord "enum") then
        advance
        return (found.add .const, true)
      else return (found, false)) []

end ApiSurface.Productions
