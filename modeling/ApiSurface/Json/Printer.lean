import ApiSurface.Json
/-!
Writing JSON: on one line without blanks, or indented by two blanks a level. Empty arrays and
objects stay on one line, and text outside ASCII is not escaped.
-/
namespace ApiSurface.Json

/-- A digit in base sixteen. -/
def hexDigit (n : Nat) : Char := "0123456789abcdef".toList.getD n '0'

/-- A character inside a written string. -/
def escaped (c : Char) : String :=
  match c with
  | '"' => "\\\""
  | '\\' => "\\\\"
  | '\x08' => "\\b"
  | '\x0c' => "\\f"
  | '\n' => "\\n"
  | '\r' => "\\r"
  | '\t' => "\\t"
  | c =>
    if c.toNat < 0x20 then
      "\\u00" ++ String.ofList [hexDigit (c.toNat / 16), hexDigit (c.toNat % 16)]
    else c.toString

/-- A string in quotes. -/
def quoted (s : String) : String :=
  s.toList.foldl (fun acc c => acc ++ escaped c) "\"" ++ "\""

/-- The half of a surrogate pair as it is written. -/
def unpairedText : String := "\"\\ud800\""

mutual

/-- The text before it and then the value on one line. -/
def compactOnto (before : String) : Json → String
  | .null => before ++ "null"
  | .bool b => before ++ (if b then "true" else "false")
  | .num text => before ++ text
  | .str s => before ++ quoted s
  | .arr items => compactItems (before ++ "[") "" items
  | .obj fields => compactFields (before ++ "\x7b") "" fields
  | .unpaired => before ++ unpairedText

/-- The rest of an array. -/
def compactItems (before comma : String) : List Json → String
  | [] => before ++ "]"
  | v :: vs => compactItems (compactOnto (before ++ comma) v) "," vs

/-- The rest of an object. -/
def compactFields (before comma : String) : List (String × Json) → String
  | [] => before ++ "\x7d"
  | (key, v) :: fields =>
    compactFields (compactOnto (before ++ comma ++ quoted key ++ ":") v) "," fields

end

/-- The value on one line. -/
def compact (v : Json) : String := compactOnto "" v

/-- A line break and the margin of a level. -/
def newLine (level : Nat) : String := "\n" ++ String.ofList (List.replicate (2 * level) ' ')

mutual

/-- The value with its members on lines of their own, at a level. -/
def pretty (level : Nat) : Json → String
  | .null => "null"
  | .bool b => if b then "true" else "false"
  | .num text => text
  | .str s => quoted s
  | .arr items =>
    if items.isEmpty then "[]" else "[" ++ prettyItems (level + 1) "" items ++ newLine level ++ "]"
  | .obj fields =>
    if fields.isEmpty then "\x7b\x7d"
    else "\x7b" ++ prettyFields (level + 1) "" fields ++ newLine level ++ "\x7d"
  | .unpaired => unpairedText

/-- The items of an array, each on a line of its own. -/
def prettyItems (level : Nat) (comma : String) : List Json → String
  | [] => ""
  | v :: vs => comma ++ newLine level ++ pretty level v ++ prettyItems level "," vs

/-- The fields of an object, each on a line of its own. -/
def prettyFields (level : Nat) (comma : String) : List (String × Json) → String
  | [] => ""
  | (key, v) :: fields =>
    comma ++ newLine level ++ quoted key ++ ": " ++ pretty level v ++ prettyFields level "," fields

end

end ApiSurface.Json
