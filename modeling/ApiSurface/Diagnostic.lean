/-!
Problems reported about a source text. They never stop a run: reading goes on after each.
-/
namespace ApiSurface

/-- How serious a report is. -/
inductive Severity where
  | warning
  | error
  | message
  deriving DecidableEq, Repr, Inhabited

/-- The word for a severity inside a printed report. -/
def Severity.word : Severity → String
  | .warning => "warning"
  | .error => "error"
  | .message => "message"

/-- The name of a severity in structured output. -/
def Severity.name : Severity → String
  | .warning => "Warning"
  | .error => "Error"
  | .message => "Message"

/-- A report about the bytes `[start, start + length)` of a file. -/
structure Diagnostic where
  severity : Severity
  code : Nat
  file : String
  start : Nat
  length : Nat
  message : String
  deriving DecidableEq, Repr, Inhabited

namespace Diagnostic

/-- One line with the place, the severity, the code and the message. -/
def display (d : Diagnostic) : String :=
  s!"{d.file}({d.start}): {d.severity.word} TS{d.code}: {d.message}"

/-- Fills the numbered slots of a template one after the other, so that a slot written inside an
earlier argument is filled too. -/
def fill (template : String) (args : List String) : String :=
  (args.zipIdx).foldl (fun text (arg, i) => text.replace s!"\x7b{i}\x7d" arg) template

end Diagnostic

/-- The kinds of problem that reading a source text reports. -/
inductive Problem where
  | unterminatedString
  | unterminatedTemplate
  | unterminatedComment
  | invalidCharacter
  | identifierExpected
  | enumMemberExpected
  | propertyExpected
  | tokenExpected (what : String)
  | typeExpected
  | statementExpected
  | declarationExpected
  | entityOnlyExport
  | tooDeep
  deriving DecidableEq, Repr, Inhabited

namespace Problem

/-- The number under which a problem is known. -/
def code : Problem → Nat
  | unterminatedString | unterminatedTemplate => 1002
  | identifierExpected | enumMemberExpected | propertyExpected => 1003
  | tokenExpected _ => 1005
  | unterminatedComment => 1010
  | typeExpected => 1110
  | invalidCharacter => 1127
  | statementExpected | declarationExpected => 1128
  | entityOnlyExport | tooDeep => 1200

/-- The text shown for a problem. -/
def message : Problem → String
  | unterminatedString => "Unterminated string literal."
  | unterminatedTemplate => "Unterminated template literal."
  | unterminatedComment => "'*/' expected."
  | invalidCharacter => "Invalid character."
  | identifierExpected => "Identifier expected."
  | enumMemberExpected => "Enum member expected."
  | propertyExpected => "Property or signature expected."
  | tokenExpected what => s!"'{what}' expected."
  | typeExpected => "Type expected."
  | statementExpected => "Declaration or statement expected."
  | declarationExpected => "Declaration expected."
  | entityOnlyExport => "Only entity names are supported in export assignments."
  | tooDeep => "Expression or type nested too deeply."

/-- A problem as a report about a place in a file. -/
def report (p : Problem) (file : String) (start length : Nat) : Diagnostic :=
  { severity := .error, code := p.code, file, start, length, message := p.message }

end Problem

end ApiSurface
