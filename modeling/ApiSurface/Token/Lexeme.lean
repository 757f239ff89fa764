import ApiSurface.Diagnostic
import ApiSurface.Number.Literal
import ApiSurface.Text.Bytes
import ApiSurface.Token
/-!
Single lexemes: how far a string, a template, a number, an operator or a word reaches, and what it
denotes. Every function walks its text once, character by character; an escape sequence is decided
where it starts, and its characters are then passed one by one.
-/
namespace ApiSurface

/-- A problem inside a source text, at the bytes `[start, start + length)`. -/
structure LexicalProblem where
  start : Nat
  length : Nat
  problem : Problem
  deriving DecidableEq, Repr, Inhabited

/-- Characters that a name starts with. Outside ASCII every character counts. -/
def startsName (c : Char) : Bool := c.isAlpha || c == '_' || c == '$' || 0x80 ≤ c.toNat

/-- Characters inside a name. -/
def continuesName (c : Char) : Bool := startsName c || c.isDigit

/-- The character with a code point, if there is one. -/
def scalar? (n : Nat) : Option Char := if n.isValidChar then some (Char.ofNat n) else none

/-- What the characters after a backslash denote, and how many of them belong to the escape. -/
structure Escape where
  value : List Char
  length : Nat
  deriving DecidableEq, Repr

/-- Reads the escape after a backslash. A code that is no number or no character denotes nothing. -/
def Escape.read : List Char → Escape
  | [] => ⟨[], 0⟩
  | 'n' :: _ => ⟨['\n'], 1⟩
  | 'r' :: _ => ⟨['\r'], 1⟩
  | 't' :: _ => ⟨['\t'], 1⟩
  | 'b' :: _ => ⟨['\x08'], 1⟩
  | 'f' :: _ => ⟨['\x0c'], 1⟩
  | 'v' :: _ => ⟨['\x0b'], 1⟩
  | '0' :: _ => ⟨['\x00'], 1⟩
  -- a backslash at the end of a line joins it to the next
  | '\r' :: '\n' :: _ => ⟨[], 2⟩
  | '\r' :: _ => ⟨[], 1⟩
  | '\n' :: _ => ⟨[], 1⟩
  | '\x00' :: _ => ⟨[], 1⟩
  | 'x' :: cs =>
    match cs with
    | a :: b :: _ =>
      match (unsignedValue? 16 (Nat.pow 2 32) [a, b]).bind scalar? with
      | some c => ⟨[c], 3⟩
      | none => ⟨[], 1⟩
    | _ => ⟨[], 1⟩
  | 'u' :: cs =>
    match cs with
    | '{' :: body =>
      let inner := body.takeWhile (· != '}')
      if inner.length < body.length then
        ⟨((unsignedValue? 16 (Nat.pow 2 32) inner).bind scalar?).toList, inner.length + 3⟩
      else ⟨[], 1⟩
    | a :: b :: c :: d :: _ =>
      match unsignedValue? 16 (Nat.pow 2 32) [a, b, c, d] with
      | some n => ⟨(scalar? n).toList, 5⟩
      | none => ⟨[], 1⟩
    | _ => ⟨[], 1⟩
  | c :: _ => ⟨[c], 1⟩

/-- The part of a string literal after its opening quote. -/
structure StringBody where
  value : List Char
  /-- Bytes up to and including the closing quote. A backslash that ends the whole text counts two:
  one for the character that is not there. -/
  width : Nat
  rest : List Char
  closed : Bool
  deriving DecidableEq, Repr

/-- Reads a string up to its quote, the end of the line or the end of the text, after passing
`skip` characters of an escape. -/
def stringBody (quote : Char) (skip : Nat) : List Char → StringBody
  | [] => ⟨[], 0, [], false⟩
  | c :: cs =>
    match skip with
    | skip + 1 =>
      let body := stringBody quote skip cs
      { body with width := body.width + c.utf8Size }
    | 0 =>
      if c = quote then ⟨[], c.utf8Size, cs, true⟩
      else if c = '\n' ∨ c = '\r' then ⟨[], 0, c :: cs, false⟩
      else if c = '\\' then
        if cs.isEmpty then ⟨[], 2, [], false⟩
        else
          let escape := Escape.read cs
          let body := stringBody quote escape.length cs
          { body with value := escape.value ++ body.value, width := body.width + 1 }
      else
        let body := stringBody quote 0 cs
        { body with value := c :: body.value, width := body.width + c.utf8Size }

/-- What is open around a character of a template. -/
inductive Nesting where
  | template
  /-- A substitution, with the number of braces open in it. -/
  | substitution (depth : Nat)
  /-- A string in a substitution, with its quote and where it started. -/
  | string (quote : Char) (start : Nat)
  deriving DecidableEq, Repr

/-- The part of a template literal after its opening backtick. -/
structure TemplateBody where
  /-- The raw text up to the closing backtick. -/
  value : List Char
  width : Nat
  rest : List Char
  closed : Bool
  substitutes : Bool
  problems : List LexicalProblem
  deriving DecidableEq, Repr

/-- One more character of raw text at the front. -/
def TemplateBody.cons (c : Char) (body : TemplateBody) : TemplateBody :=
  { body with value := c :: body.value, width := body.width + c.utf8Size }

/-- Another problem at the front. -/
def TemplateBody.report (start stop : Nat) (body : TemplateBody) : TemplateBody :=
  { body with problems := ⟨start, stop - start, .unterminatedString⟩ :: body.problems }

/-- Reads a template from the offset `pos` inside the given nesting, the innermost first, after
passing `skip` characters. Substitutions may hold braces, strings and templates of their own. -/
def templateBody (pos skip : Nat) (nesting : List Nesting) : List Char → TemplateBody
  | [] =>
    let body : TemplateBody := ⟨[], 0, [], false, false, []⟩
    match nesting with
    | .string _ start :: _ => body.report start pos
    | _ => body
  | c :: cs =>
    let next := pos + c.utf8Size
    match skip with
    | skip + 1 => (templateBody next skip nesting cs).cons c
    | 0 =>
      match nesting with
      | [] => ⟨[], 0, c :: cs, true, false, []⟩
      | .template :: outer =>
        if c = '`' then
          if outer.isEmpty then ⟨[], c.utf8Size, cs, true, false, []⟩
          else (templateBody next 0 outer cs).cons c
        else if c = '\\' then (templateBody next 1 nesting cs).cons c
        else if c = '$' ∧ cs.head? = some '{' then
          let body := templateBody next 1 (.substitution 1 :: nesting) cs
          { body.cons c with substitutes := true }
        else (templateBody next 0 nesting cs).cons c
      | .substitution depth :: outer =>
        -- the closing brace of a substitution is the one that leaves no brace open in it
        let nesting :=
          if c = '{' then .substitution (depth + 1) :: outer
          else if c = '}' then
            if depth ≤ 1 then outer else .substitution (depth - 1) :: outer
          else if c = '\'' ∨ c = '"' then .string c pos :: nesting
          else if c = '`' then .template :: nesting
          else nesting
        (templateBody next 0 nesting cs).cons c
      | .string quote start :: outer =>
        if c = quote then (templateBody next 0 outer cs).cons c
        -- a string does not go on after its line, but the template does
        else if c = '\n' ∨ c = '\r' then
          ((templateBody next 0 outer cs).cons c).report start pos
        else if c = '\\' then
          if cs.isEmpty then ((templateBody next 0 outer cs).cons c).report start (pos + 2)
          else (templateBody next (Escape.read cs).length nesting cs).cons c
        else (templateBody next 0 nesting cs).cons c

/-- Digits of any base up to sixteen. -/
def isHexDigit (c : Char) : Bool := (digitValue? 16 c).isSome

/-- The exponent at the front of a text: the letter, perhaps a sign, and at least one digit. -/
def exponentPart (cs : List Char) : List Char :=
  match cs with
  | e :: rest =>
    if e = 'e' ∨ e = 'E' then
      let sign := match rest with
        | s :: _ => if s = '+' ∨ s = '-' then [s] else []
        | [] => []
      let digits := (rest.drop sign.length).takeWhile Char.isDigit
      if digits.isEmpty then [] else e :: sign ++ digits
    else []
  | [] => []

/-- The number at the front of a text, with its separators and without the mark of a big
integer. -/
def numberPart (cs : List Char) : List Char :=
  let decimal (cs : List Char) := cs.takeWhile fun c => c.isDigit || c == '_'
  let radix? := match cs with
    | '0' :: r :: digits =>
      if "xXoObB".toList.contains r then
        some ('0' :: r :: digits.takeWhile fun c => isHexDigit c || c == '_')
      else none
    | _ => none
  match radix? with
  | some part => part
  | none =>
    let whole := decimal cs
    let fraction := match cs.drop whole.length with
      | '.' :: rest => '.' :: decimal rest
      | _ => []
    let part := whole ++ fraction
    part ++ exponentPart (cs.drop part.length)

/-- Characters that may go on an operator. -/
def continuesOperator (c : Char) : Bool := "=&|?*+-".toList.contains c

/-- A lexeme at the front of a text. -/
structure Lexeme where
  kind : TokenKind
  value : List Char
  /-- Its bytes. -/
  width : Nat
  rest : List Char
  substitutes : Bool
  problems : List LexicalProblem
  deriving DecidableEq, Repr

namespace Lexeme

/-- A lexeme without a value that takes the first `n` characters, all of one byte. -/
def punctuation (kind : TokenKind) (n : Nat) (cs : List Char) : Lexeme :=
  ⟨kind, [], n, cs.drop n, false, []⟩

/-- An operator of at most four characters. Two plus signs or two minus signs are a step. -/
def operator (cs : List Char) : Lexeme :=
  let text := cs.take 1 ++ ((cs.drop 1).takeWhile continuesOperator).take 3
  let kind := if text = ['+', '+'] ∨ text = ['-', '-'] then .step else .operator
  punctuation kind text.length cs

/-- A name at the front of a text, after `lead` that belongs to it. -/
def name (kind : TokenKind) (lead cs : List Char) : Lexeme :=
  let text := cs.takeWhile continuesName
  ⟨kind, lead ++ text, byteLength (lead ++ text), cs.drop text.length, false, []⟩

/-- A number; an `n` after it makes it a big integer. -/
def number (cs : List Char) : Lexeme :=
  let part := numberPart cs
  let value := part.filter (· != '_')
  match cs.drop part.length with
  | 'n' :: rest => ⟨.bigInt, value, byteLength part + 1, rest, false, []⟩
  | rest => ⟨.number, value, byteLength part, rest, false, []⟩

/-- A string literal whose quote stands at `pos`. -/
def string (pos : Nat) (quote : Char) (cs : List Char) : Lexeme :=
  let body := stringBody quote 0 cs
  let width := body.width + 1
  ⟨.string, body.value, width, body.rest, false,
    if body.closed then [] else [⟨pos, width, .unterminatedString⟩]⟩

/-- A template literal whose backtick stands at `pos`. -/
def template (pos : Nat) (cs : List Char) : Lexeme :=
  let body := templateBody (pos + 1) 0 [.template] cs
  let width := body.width + 1
  ⟨.template, body.value, width, body.rest, body.substitutes,
    if body.closed then body.problems
    else body.problems ++ [⟨pos, width, .unterminatedTemplate⟩]⟩

/-- The lexeme that starts with `c` at the offset `pos`, where `cs` follows. -/
def read (pos : Nat) (c : Char) (cs : List Char) : Lexeme :=
  let all := c :: cs
  let next := cs.headD '\x00'
  let single (kind : TokenKind) := punctuation kind 1 all
  /- the operator, if one of these characters comes next -/
  let operatorOr (nexts : List Char) (kind : TokenKind) :=
    if nexts.contains next then operator all else single kind
  match c with
  | '{' => single .openBrace
  | '}' => single .closeBrace
  | '(' => single .openParen
  | ')' => single .closeParen
  | '[' => single .openBracket
  | ']' => single .closeBracket
  | ';' => single .semicolon
  | ',' => single .comma
  | ':' => single .colon
  | '@' => single .at_
  | '<' => single .less
  | '>' => single .greater
  | '\'' => string pos c cs
  | '"' => string pos c cs
  | '`' => template pos cs
  | '.' =>
    if next.isDigit then number all
    else if cs.take 2 = ['.', '.'] then punctuation .ellipsis 3 all
    else single .dot
  | '=' => if next = '>' then punctuation .arrow 2 all else operatorOr ['='] .equals
  | '!' => operatorOr ['='] .exclamation
  | '?' =>
    if next = '.' ∧ !((cs.drop 1).headD '\x00').isDigit then punctuation .questionDot 2 all
    else operatorOr ['?'] .question
  | '|' => operatorOr ['|', '='] .bar
  | '&' => operatorOr ['&', '='] .ampersand
  | '*' => operatorOr ['*', '='] .asterisk
  | '+' => operatorOr ['+', '='] .plus
  | '-' => operatorOr ['-', '='] .minus
  | '/' => operatorOr ['='] .slash
  | '%' => operator all
  | '^' => operator all
  | '~' => operator all
  | _ =>
    if c.isDigit then number all
    else if c = '#' ∧ startsName next then name .privateName [c] cs
    else if startsName c then name .identifier [] all
    else ⟨.unknown, [], c.utf8Size, cs, false, [⟨pos, c.utf8Size, .invalidCharacter⟩]⟩

end Lexeme

end ApiSurface
