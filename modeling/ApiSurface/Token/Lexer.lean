import ApiSurface.Comment
import ApiSurface.Token.Lexeme
/-!
The lexer: a text is read one token at a time, and the comments and problems passed on the way are
kept. A checkpoint remembers a state; going back to it forgets what was recorded since.
-/
namespace ApiSurface

/-- Blanks and comments before a token. -/
structure Trivia where
  rest : List Char
  /-- Where they end. -/
  pos : Nat
  afterBreak : Bool
  comments : List Comment
  problems : List LexicalProblem
  deriving DecidableEq, Repr

/-- Line ends. -/
def isLineEnd (c : Char) : Bool := c == '\n' || c == '\r'

/-- The text of a block comment after its opening, and whether it is closed. -/
def blockBody : List Char → List Char × Bool
  | [] => ([], false)
  | c :: cs =>
    if c = '*' ∧ cs.head? = some '/' then (['*', '/'], true)
    else
      let (body, closed) := blockBody cs
      (c :: body, closed)

/-- Reads the trivia from the offset `pos`, after passing `skip` characters of a comment. -/
def trivia (pos skip : Nat) : List Char → Trivia
  | [] => ⟨[], pos, false, [], []⟩
  | c :: cs =>
    let next := pos + c.utf8Size
    match skip with
    | skip + 1 => trivia next skip cs
    | 0 =>
      if isLineEnd c then { trivia next 0 cs with afterBreak := true }
      else if c = ' ' ∨ c = '\t' ∨ c = '\x0b' ∨ c = '\x0c' then trivia next 0 cs
      else if c = '/' ∧ cs.head? = some '/' then
        let line := (cs.drop 1).takeWhile (!isLineEnd ·)
        let comment : Comment :=
          ⟨⟨pos, pos + 2 + byteLength line⟩, false, line.length < (cs.drop 1).length⟩
        let after := trivia next (line.length + 1) cs
        { after with comments := comment :: after.comments }
      else if c = '/' ∧ cs.head? = some '*' then
        let (body, closed) := blockBody (cs.drop 1)
        let follows := ((cs.drop 1).drop body.length).head?
        let comment : Comment :=
          ⟨⟨pos, pos + 2 + byteLength body⟩, true, follows.any isLineEnd⟩
        let after := trivia next (body.length + 1) cs
        { after with
          afterBreak := body.contains '\n' || after.afterBreak
          comments := comment :: after.comments
          problems := if closed then after.problems
            else ⟨pos, 2, .unterminatedComment⟩ :: after.problems }
      else ⟨c :: cs, pos, false, [], []⟩

/-- A lexer between two tokens. The next token starts at or after the end of the last one. -/
structure Lexer where
  rest : List Char
  /-- The token read last. -/
  token : Token
  comments : Array Comment
  problems : Array LexicalProblem
  deriving Repr, Inhabited

/-- What a lexer remembers to go back to a state. -/
structure Lexer.Checkpoint where
  rest : List Char
  token : Token
  commentCount : Nat
  problemCount : Nat
  deriving DecidableEq, Repr, Inhabited

namespace Lexer

/-- A lexer at the start of a text, after a byte order mark and a first line that names an
interpreter. -/
def ofText (source : List Char) : Lexer :=
  let (pos, rest) := match source with
    | '\uFEFF' :: rest => (3, rest)
    | _ => (0, source)
  let line := match rest with
    | '#' :: '!' :: _ => rest.takeWhile (· != '\n')
    | _ => []
  let start := pos + byteLength line
  { rest := rest.drop line.length
    token := ⟨.unknown, ⟨0, start⟩, "", false, false⟩
    comments := #[], problems := #[] }

/-- Where the token read last ends. -/
def pos (l : Lexer) : Nat := l.token.span.stop

/-- Reads the next token. At the end of the text it reads the end again. -/
def scan (l : Lexer) : Lexer :=
  let t := trivia l.pos 0 l.rest
  let comments := t.comments.foldl Array.push l.comments
  let problems := t.problems.foldl Array.push l.problems
  match t.rest with
  | [] =>
    { rest := [], token := ⟨.endOfFile, ⟨t.pos, t.pos⟩, "", t.afterBreak, false⟩
      comments, problems }
  | c :: cs =>
    let x := Lexeme.read t.pos c cs
    { rest := x.rest
      token := ⟨x.kind, ⟨t.pos, t.pos + x.width⟩, String.ofList x.value, t.afterBreak, x.substitutes⟩
      comments, problems := x.problems.foldl Array.push problems }

/-- Remembers the state. -/
def save (l : Lexer) : Checkpoint := ⟨l.rest, l.token, l.comments.size, l.problems.size⟩

/-- Goes back to a state and forgets what was recorded after it. -/
def restore (l : Lexer) (c : Checkpoint) : Lexer :=
  { rest := c.rest, token := c.token
    comments := l.comments.take c.commentCount, problems := l.problems.take c.problemCount }

/-- The tokens up to the end of the text, the end included, and the lexer there; at most `fuel`
tokens. -/
def scanAll : Nat → Lexer → List Token × Lexer
  | 0, l => ([], l)
  | fuel + 1, l =>
    let l := l.scan
    if l.token.kind = .endOfFile then ([l.token], l)
    else
      let (tokens, l') := scanAll fuel l
      (l.token :: tokens, l')

end Lexer

/-- All that reading a text yields. -/
structure Lexed where
  /-- Where reading started. -/
  start : Nat
  /-- The tokens, the end of the text last. -/
  tokens : List Token
  comments : Array Comment
  problems : Array LexicalProblem
  deriving Repr, Inhabited

/-- Reads a whole text. Every token but the last takes at least one character. -/
def lex (source : List Char) : Lexed :=
  let l := Lexer.ofText source
  let (tokens, l') := l.scanAll (source.length + 1)
  { start := l.pos, tokens, comments := l'.comments, problems := l'.problems }

end ApiSurface
