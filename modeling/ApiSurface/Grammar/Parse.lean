import ApiSurface.Syntax.SourceFile
import ApiSurface.Token.Lexer
/-!
Parsing as a function of a setting and a state. The setting is the file that is parsed. The state
holds the lexer, what has been found, and where in the grammar the parser is. Parsing never fails: a
problem is reported and parsing goes on. Looking ahead runs a parser and goes back to a checkpoint.
-/
namespace ApiSurface

/-- The file that is parsed. -/
structure Setting where
  file : String
  text : List Char

/-- Where in the grammar a parser is. -/
structure ParseContext where
  /-- `A extends B` ends before the condition: only the type `B` is wanted. -/
  withoutConditionals : Bool
  /-- How many types and expressions are open. -/
  depth : Nat
  /-- The enum or module whose body is parsed. -/
  parent : Option DeclIndex

/-- A parser between two tokens. -/
structure ParseState where
  /-- The lexer behind the current token. -/
  lexer : Lexer
  /-- Where the token before the current one ended. -/
  lastEnd : Nat
  diagnostics : Array Diagnostic
  declarations : Array Declaration
  isModule : Bool
  firstStatement : Option Nat
  context : ParseContext
  /-- Parsing went on without taking a token: a repetition did, or productions that occur inside
  themselves did so more often than there are characters. -/
  stalled : Bool
  /-- A parser that looked ahead, or found nothing, did not come back to the state it started from.
  Nothing reads this. -/
  strayed : Prop

namespace ParseState

/-- What a parser remembers to go back to a state. -/
structure Checkpoint where
  lexer : Lexer.Checkpoint
  lastEnd : Nat
  diagnosticCount : Nat
  declarationCount : Nat

/-- The token at which the parser stands. -/
def current (s : ParseState) : Token := s.lexer.token

/-- The characters after the current token. -/
def rest (s : ParseState) : List Char := s.lexer.rest

/-- Where the current token starts. -/
def pos (s : ParseState) : Nat := s.current.span.start

/-- Remembers the state. -/
def save (s : ParseState) : Checkpoint :=
  ⟨s.lexer.save, s.lastEnd, s.diagnostics.size, s.declarations.size⟩

/-- Goes back to a state and forgets what was found after it. What is not in the checkpoint stays as
it is. -/
def restore (s : ParseState) (k : Checkpoint) : ParseState :=
  { s with
    lexer := s.lexer.restore k.lexer
    lastEnd := k.lastEnd
    diagnostics := s.diagnostics.take k.diagnosticCount
    declarations := s.declarations.take k.declarationCount }

/-- Whether two states differ in more than the marks. -/
def Differs (s s' : ParseState) : Prop :=
  { s' with stalled := s.stalled, strayed := s.strayed } ≠ s

/-- Goes back to a checkpoint of the state `s`. -/
@[inline] def back (s' : ParseState) (k : Checkpoint) (s : ParseState) : ParseState :=
  { s'.restore k with strayed := s'.strayed ∨ s.Differs (s'.restore k) }

end ParseState

/-- A parser for `α`. -/
abbrev Parse (α : Type) := ReaderT Setting (StateM ParseState) α

namespace Parse

/-- The token at which the parser stands. -/
def current : Parse Token := return (← get).current

/-- The state one token further on. After the end of the text comes the end again, now without a
line break before it. -/
def next (s : ParseState) : ParseState :=
  { s with lastEnd := s.lexer.pos, lexer := s.lexer.scan }

/-- Goes to the next token. -/
def advance : Parse Unit := modify next

/-- Notes that parsing goes on without a token being taken. -/
def stall : Parse Unit := modify ({ · with stalled := true })

/-- Runs a parser and goes back, keeping its answer only. -/
def lookAhead {α : Type} (p : Parse α) : Parse α := fun setting s =>
  let k := s.save
  let (a, s') := p setting s
  (a, s'.back k s)

/-- Runs a parser and goes back if it finds nothing. -/
def attempt {α : Type} (p : Parse (Option α)) : Parse (Option α) := fun setting s =>
  let k := s.save
  match p setting s with
  | (some a, s') => (some a, s')
  | (none, s') => (none, s'.back k s)

/-- The token after the current one. -/
def peek : Parse Token := lookAhead do
  advance
  current

/-- A step of a repetition. It has to take a token to ask for more. -/
def stepOn {σ : Type} (step : σ → Parse (σ × Bool)) (x : σ) : Parse (σ × Bool) := do
  let before := (← get).pos
  let (x, more) ← step x
  let after := (← get).pos
  if more && after ≤ before then stall
  return (x, more)

/-- Repeats a step on a value while it asks for more, at most once for every character of a list and
once again. -/
def iterateFrom {σ : Type} (step : σ → Parse (σ × Bool)) : List Char → σ → Parse σ
  | [], x => do
    let (x, more) ← stepOn step x
    if more then stall
    return x
  | _ :: left, x => do
    let (x, more) ← stepOn step x
    if more then iterateFrom step left x else return x

/-- Repeats a step on a value while it asks for more. A step that does so takes at least one
token, so the characters that are left, and one for the current token, bound the number of steps. -/
def iterate {σ : Type} (step : σ → Parse (σ × Bool)) (x : σ) : Parse σ := do
  let s ← get
  iterateFrom step (' ' :: s.rest) x

/-- Repeats a step while it asks for more. -/
def repeatWhile (step : Parse Bool) : Parse Unit := iterate (fun _ => return ((), ← step)) ()

/-- A step whose results come behind those found before. -/
def gather {α : Type} (step : Parse (List α × Bool)) (found : Array α) :
    Parse (Array α × Bool) := do
  let (new, more) ← step
  return (found ++ new.toArray, more)

/-- The results of a step that is repeated while it asks for more. -/
def collect {α : Type} (step : Parse (List α × Bool)) : Parse (List α) := do
  let found ← iterate (gather step) #[]
  return found.toList

/-! ### The current token -/

/-- Whether the current token is of a kind. -/
def isAt (kind : TokenKind) : Parse Bool := return (← current).kind == kind

/-- Whether the current token is of one of some kinds. -/
def isAtAny (kinds : List TokenKind) : Parse Bool := return kinds.contains (← current).kind

/-- Whether the current token is a certain word. -/
def isAtWord (word : String) : Parse Bool := return (← current).isWord word

/-- Whether the current token is one of some words. -/
def isAtWords (words : List String) : Parse Bool := do
  let t ← current
  return t.kind == .identifier && words.contains t.value

/-- Whether the current token is a word. -/
def isAtIdentifier : Parse Bool := isAt .identifier

/-- Whether a line break stands before the current token. -/
def isAfterBreak : Parse Bool := return (← current).afterBreak

/-- Whether the next token is of a kind. -/
def nextIs (kind : TokenKind) : Parse Bool := return (← peek).kind == kind

/-- Whether the next token is a certain word. -/
def nextIsWord (word : String) : Parse Bool := return (← peek).isWord word

/-- Whether the next token is a word on the same line. -/
def nextIsIdentifierOnLine : Parse Bool := do
  let t ← peek
  return t.kind == .identifier && !t.afterBreak

/-- Where the current token starts. -/
def position : Parse Nat := return (← get).pos

/-- The range from `start` to the end of the token taken last. -/
def spanFrom (start : Nat) : Parse Span := return ⟨start, max (← get).lastEnd start⟩

/-! ### Reports -/

/-- Reports a problem, unless the last report is about the same place. -/
def reportAt (start length : Nat) (p : Problem) : Parse Unit := do
  let file := (← read).file
  modify fun s =>
    if s.diagnostics.back?.any (·.start == start) then s
    else { s with diagnostics := s.diagnostics.push (p.report file start length) }

/-- Reports a problem at the current token. -/
def report (p : Problem) : Parse Unit := do
  let t ← current
  reportAt t.span.start t.span.length p

/-! ### Taking tokens -/

/-- Takes a token of a kind if it comes next. -/
def accept (kind : TokenKind) : Parse Bool := do
  if ← isAt kind then
    advance
    return true
  else return false

/-- Takes a word if it comes next. -/
def acceptWord (word : String) : Parse Bool := do
  if ← isAtWord word then
    advance
    return true
  else return false

/-- Takes a token of a kind or reports that it is missing. -/
def expect (kind : TokenKind) : Parse Bool := do
  if ← accept kind then return true
  else
    report (.tokenExpected (kind.spelling?.getD "token"))
    return false

/-- Takes a word or reports that it is missing. -/
def expectWord (word : String) : Parse Bool := do
  if ← acceptWord word then return true
  else
    report (.tokenExpected word)
    return false

/-- Takes the current token as a name. -/
def takeIdent : Parse Ident := do
  let t ← current
  advance
  return ⟨t.value, t.span⟩

/-- A word as a name; the empty name if there is none. -/
def identifier : Parse Ident := do
  if ← isAtIdentifier then takeIdent
  else
    report .identifierExpected
    let start ← position
    return ⟨"", ⟨start, start⟩⟩

/-- The text of a string literal. -/
def stringLiteral : Parse (Option String) := do
  if ← isAt .string then return some (← takeIdent).text
  else
    let _ ← expect .string
    return none

/-- The text of a string literal; empty if there is none. -/
def specifier : Parse String := return (← stringLiteral).getD ""

/-- Whether a statement may end here without a semicolon. -/
def canEndStatement : Parse Bool := do
  return (← isAtAny [.semicolon, .closeBrace, .endOfFile]) || (← isAfterBreak)

/-- The end of a statement. -/
def semicolon : Parse Unit := do
  if ← accept .semicolon then return
  if ← canEndStatement then return
  let _ ← expect .semicolon

/-- A dotted name. -/
def entityName : Parse EntityName := do
  let start ← position
  let head ← identifier
  let tail ← collect do
    if ← accept .dot then return ([← identifier], true) else return ([], false)
  return ⟨head, tail, ← spanFrom start⟩

/-- A word or a string that names something exported. -/
def exportName : Parse Ident := do
  if ← isAt .string then takeIdent else identifier

/-- What follows, if a condition that may take tokens holds. -/
def whenever {α : Type} (condition : Parse Bool) (p : Parse α) : Parse (Option α) := do
  if ← condition then return some (← p) else return none

/-- Items parted by commas up to a closing token or the end of the text. -/
def listUntil {α : Type} (close : TokenKind) (item : Parse α) : Parse (List α) :=
  collect do
    if ← isAtAny [close, .endOfFile] then return ([], false)
    let x ← item
    return ([x], ← accept .comma)

/-- Runs a parser, and passes a token if it took none. -/
def orAdvance {α : Type} (p : Parse α) : Parse α := do
  let before ← position
  let x ← p
  if (← position) == before then advance
  return x

/-! ### Contexts -/

/-- How many types and expressions may be open inside each other. -/
def maxDepth : Nat := 256

/-- Runs a parser in a context that is changed for it and changed back after it. -/
def within {α : Type} (enter leave : ParseContext → ParseContext) (p : Parse α) : Parse α := do
  modify fun s => { s with context := enter s.context }
  let x ← p
  modify fun s => { s with context := leave s.context }
  return x

/-- Runs a parser one level deeper, or `tooDeep` after a report if that is too deep. -/
def nested {α : Type} (tooDeep p : Parse α) : Parse α := do
  if maxDepth ≤ (← get).context.depth then
    report .tooDeep
    tooDeep
  else
    within (fun k => { k with depth := k.depth + 1 }) (fun k => { k with depth := k.depth - 1 }) p

/-- Runs a parser where types end before `extends`, or where conditional types are allowed. -/
def settingConditionals {α : Type} (without : Bool) (p : Parse α) : Parse α := do
  let outer := (← get).context.withoutConditionals
  within ({ · with withoutConditionals := without }) ({ · with withoutConditionals := outer }) p

/-- Runs a parser where a type ends before `extends`. -/
def withoutConditionals {α : Type} (p : Parse α) : Parse α := settingConditionals true p

/-- Runs a parser where conditional types are allowed again. -/
def withConditionals {α : Type} (p : Parse α) : Parse α := settingConditionals false p

/-- Runs a parser in the body of a declaration. -/
def inBodyOf {α : Type} (parent : DeclIndex) (p : Parse α) : Parse α := do
  let outer := (← get).context.parent
  within ({ · with parent := some parent }) ({ · with parent := outer }) p

/-! ### Declarations and documentation -/

/-- Enters a declaration into the table. -/
def declare (name : Ident) (span : Span) (modifiers : Modifiers) (doc : Option String)
    (shape : DeclarationShape) : Parse DeclIndex := do
  let parent := (← get).context.parent
  modifyGet fun s =>
    (s.declarations.size,
      { s with declarations := s.declarations.push ⟨name, span, modifiers, doc, shape, parent⟩ })

/-- Completes a declaration whose body has been read. -/
def complete (index : DeclIndex) (span : Span) (shape : DeclarationShape) : Parse Unit :=
  modify fun s =>
    { s with declarations := s.declarations.modify index ({ · with span, shape }) }

/-- The documentation right before the current token. The comment that documents the file is not
taken for the first declaration. -/
def leadingDocHere : Parse (Option String) := do
  let text := (← read).text
  let s ← get
  let comments := s.lexer.comments
  match leadingDoc comments s.lastEnd s.pos text with
  | none => return none
  | some c =>
    let isFirst := comments[0]?.any (·.span.start == c.span.start) &&
      !s.firstStatement.any (· < s.pos)
    if isFirst && (fileDoc [c] (some s.pos) text).isSome then return none
    else return some (c.content text)

end Parse

end ApiSurface
