import ApiSurface.Json
import ApiSurface.Number.Literal
/-!
Reading JSON text: one value, with blanks around it and nothing else.
-/
namespace ApiSurface.Json

/-- Blanks of JSON. -/
def isSpace (c : Char) : Bool := c == ' ' || c == '\n' || c == '\t' || c == '\r'

/-- The text after its blanks. -/
def skipSpace (cs : List Char) : List Char := cs.dropWhile isSpace

/-- The number that four digits in base sixteen write. -/
def codeUnit? (a b c d : Char) : Option Nat := do
  let a ← digitValue? 16 a
  let b ← digitValue? 16 b
  let c ← digitValue? 16 c
  let d ← digitValue? 16 d
  return ((a * 16 + b) * 16 + c) * 16 + d

/-- The character of a simple escape. -/
def simpleEscape? : Char → Option Char
  | '"' => some '"'
  | '\\' => some '\\'
  | '/' => some '/'
  | 'b' => some '\x08'
  | 'f' => some '\x0c'
  | 'n' => some '\n'
  | 'r' => some '\r'
  | 't' => some '\t'
  | _ => none

/-- What stands for characters inside a written string: a character, or half of a surrogate
pair. -/
inductive Piece where
  | char (c : Char)
  | half (unit : Nat)
  deriving DecidableEq, Repr

/-- What a code unit stands for. -/
def Piece.ofUnit (n : Nat) : Piece :=
  if n < 0xD800 ∨ 0xDFFF < n then .char (Char.ofNat n) else .half n

/-- Halves joined in pairs, after the characters `before` in reverse; nothing if one has no
partner. -/
def Piece.join (before : List Char) : List Piece → Option (List Char)
  | [] => some before.reverse
  | .char c :: ps => Piece.join (c :: before) ps
  | .half m :: .half n :: ps =>
    if m < 0xDC00 ∧ 0xDC00 ≤ n then
      Piece.join (Char.ofNat (0x10000 + (m - 0xD800) * 0x400 + (n - 0xDC00)) :: before) ps
    else none
  | .half _ :: _ => none

/-- The pieces of a string after its opening quote, those read `before` in reverse, and the text
after the closing quote. -/
def stringPieces (before : List Piece) : List Char → Option (List Piece × List Char)
  | [] => none
  | '"' :: rest => some (before.reverse, rest)
  | '\\' :: 'u' :: a :: b :: c :: d :: rest =>
    match codeUnit? a b c d with
    | some n => stringPieces (.ofUnit n :: before) rest
    | none => none
  | '\\' :: e :: rest =>
    match simpleEscape? e with
    | some c => stringPieces (.char c :: before) rest
    | none => none
  | c :: rest =>
    if c = '\\' ∨ c.toNat < 0x20 then none else stringPieces (.char c :: before) rest

/-- A string after its opening quote: its characters, none of them if it names half of a surrogate
pair, and the text after it. -/
def stringRest (cs : List Char) : Option (Option (List Char) × List Char) :=
  (stringPieces [] cs).map fun (ps, rest) => (Piece.join [] ps, rest)

/-- The number at the front of a text: a sign, digits without a leading zero, and at most one
fraction and one exponent. -/
def numberRest? (cs : List Char) : Option (List Char × List Char) := do
  let sign := if cs.head? = some '-' then ['-'] else []
  let rest := cs.drop sign.length
  let whole := rest.takeWhile Char.isDigit
  if whole.isEmpty ∨ (whole.head? = some '0' ∧ whole.length ≠ 1) then none
  let rest := rest.drop whole.length
  let (fraction, rest) ← match rest with
    | '.' :: r =>
      let digits := r.takeWhile Char.isDigit
      if digits.isEmpty then none else some ('.' :: digits, r.drop digits.length)
    | _ => some ([], rest)
  let (exponent, rest) ← match rest with
    | e :: r =>
      if e = 'e' ∨ e = 'E' then
        let s := match r with
          | c :: _ => if c = '+' ∨ c = '-' then [c] else []
          | [] => []
        let digits := (r.drop s.length).takeWhile Char.isDigit
        if digits.isEmpty then none
        else some (e :: s ++ digits, (r.drop s.length).drop digits.length)
      else some ([], rest)
    | [] => some ([], rest)
  return (sign ++ whole ++ fraction ++ exponent, rest)

mutual

/-- A value at the front of a text and the text after it; `fuel` bounds the depth and the number
of members together. -/
def value? : Nat → List Char → Option (Json × List Char)
  | 0, _ => none
  | fuel + 1, cs =>
    match skipSpace cs with
    | 'n' :: 'u' :: 'l' :: 'l' :: rest => some (.null, rest)
    | 't' :: 'r' :: 'u' :: 'e' :: rest => some (.bool true, rest)
    | 'f' :: 'a' :: 'l' :: 's' :: 'e' :: rest => some (.bool false, rest)
    | '"' :: rest => do
      let (s, rest) ← stringRest rest
      return (match s with
        | some s => .str (String.ofList s)
        | none => .unpaired, rest)
    | '[' :: rest =>
      match skipSpace rest with
      | ']' :: rest => some (.arr [], rest)
      | rest => do
        let (items, rest) ← items? fuel rest
        return (.arr items, rest)
    | '{' :: rest =>
      match skipSpace rest with
      | '}' :: rest => some (.obj [], rest)
      | rest => do
        let (fields, rest) ← fields? fuel rest
        return (match fields with
          | some fields => .obj fields
          | none => .unpaired, rest)
    | rest => do
      let (text, rest) ← numberRest? rest
      return (.num (String.ofList text), rest)

/-- Values parted by commas up to the closing bracket. -/
def items? : Nat → List Char → Option (List Json × List Char)
  | 0, _ => none
  | fuel + 1, cs => do
    let (v, rest) ← value? fuel cs
    match skipSpace rest with
    | ',' :: rest =>
      let (vs, rest) ← items? fuel rest
      return (v :: vs, rest)
    | ']' :: rest => return ([v], rest)
    | _ => none

/-- Keys with values parted by commas up to the closing brace; no fields if a key names half of a
surrogate pair. -/
def fields? : Nat → List Char → Option (Option (List (String × Json)) × List Char)
  | 0, _ => none
  | fuel + 1, cs =>
    match skipSpace cs with
    | '"' :: rest => do
      let (key, rest) ← stringRest rest
      match skipSpace rest with
      | ':' :: rest =>
        let (v, rest) ← value? fuel rest
        let here := key.map fun key => (String.ofList key, v)
        match skipSpace rest with
        | ',' :: rest =>
          let (fields, rest) ← fields? fuel rest
          return (here.bind fun here => fields.map (here :: ·), rest)
        | '}' :: rest => return (here.map ([·]), rest)
        | _ => none
      | _ => none
    | _ => none

end

/-- The value that a text writes, if it is JSON. -/
def read? (text : String) : Option Json :=
  let cs := text.toList
  match value? (cs.length + 1) cs with
  | some (v, rest) => if (skipSpace rest).isEmpty then some v else none
  | none => none

end ApiSurface.Json
