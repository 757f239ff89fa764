import ApiSurface.Span
/-!
Tokens. Words are always identifiers here: nearly every keyword is one only by its place, so the
parser looks at the text of a word. A `>` is always a token of its own, which lets nested lists of
type arguments close one after the other.
-/
namespace ApiSurface

/-- The kinds of token. -/
inductive TokenKind where
  | endOfFile
  | unknown
  | identifier
  | privateName
  | string
  | number
  | bigInt
  | template
  | openBrace
  | closeBrace
  | openParen
  | closeParen
  | openBracket
  | closeBracket
  | dot
  | ellipsis
  | semicolon
  | comma
  | less
  | greater
  | equals
  | arrow
  | question
  | questionDot
  | colon
  | bar
  | ampersand
  | asterisk
  | plus
  | minus
  | exclamation
  | at_
  | slash
  /-- An increment or a decrement: two plus or two minus signs. -/
  | step
  /-- Any other operator; these are only ever skipped. -/
  | operator
  deriving DecidableEq, Repr, Inhabited

namespace TokenKind

/-- Literals carry a value of their own. -/
def isLiteral : TokenKind → Bool
  | string | number | bigInt | template => true
  | _ => false

/-- The one spelling of a punctuation token. -/
def spelling? : TokenKind → Option String
  | openBrace => some "\x7b"
  | closeBrace => some "\x7d"
  | openParen => some "("
  | closeParen => some ")"
  | openBracket => some "["
  | closeBracket => some "]"
  | dot => some "."
  | ellipsis => some "..."
  | semicolon => some ";"
  | comma => some ","
  | less => some "<"
  | greater => some ">"
  | equals => some "="
  | arrow => some "=>"
  | question => some "?"
  | questionDot => some "?."
  | colon => some ":"
  | bar => some "|"
  | ampersand => some "&"
  | asterisk => some "*"
  | plus => some "+"
  | minus => some "-"
  | exclamation => some "!"
  | at_ => some "@"
  | slash => some "/"
  | _ => none

/-- An opening brace, parenthesis or bracket. -/
def opens : TokenKind → Bool
  | openBrace | openParen | openBracket => true
  | _ => false

/-- A closing brace, parenthesis or bracket. -/
def closes : TokenKind → Bool
  | closeBrace | closeParen | closeBracket => true
  | _ => false

end TokenKind

/-- A token of a source text. -/
structure Token where
  kind : TokenKind
  span : Span
  /-- The name of a word, the text a string denotes, the digits of a number, the raw text of a
  template; empty for all other tokens. -/
  value : String
  /-- A line break stands between the token before and this one. -/
  afterBreak : Bool
  /-- A template with substitutions. -/
  substitutes : Bool
  deriving DecidableEq, Repr, Inhabited

/-- Whether a token is a certain word. -/
def Token.isWord (t : Token) (word : String) : Bool := t.kind == .identifier && t.value == word

end ApiSurface
