/-!
JSON values. Objects keep their keys in order, numbers keep their text.
-/
namespace ApiSurface

/-- A JSON value. -/
inductive Json where
  | null
  | bool (b : Bool)
  /-- A number as written. -/
  | num (text : String)
  | str (s : String)
  | arr (items : List Json)
  | obj (fields : List (String × Json))
  /-- A string, or an object with a key, that is no Unicode text: it names half of a surrogate
  pair. Such a value can be skipped but not used. -/
  | unpaired
  deriving Inhabited, Repr

namespace Json

/-- A natural number. -/
def nat (n : Nat) : Json := num (toString n)

/-- A value that may be absent. -/
def option {α : Type} (f : α → Json) : Option α → Json
  | none => null
  | some a => f a

/-- A list of values. -/
def list {α : Type} (f : α → Json) (xs : List α) : Json := arr (xs.map f)

/-- The first value of a key. -/
def field? (key : String) : Json → Option Json
  | obj fields => (fields.find? (·.1 == key)).map (·.2)
  | _ => none

/-- The text of a string. -/
def str? : Json → Option String
  | str s => some s
  | _ => none

/-- The items of an array. -/
def arr? : Json → Option (List Json)
  | arr xs => some xs
  | _ => none

/-- The fields of an object. -/
def obj? : Json → Option (List (String × Json))
  | obj fields => some fields
  | _ => none

/-- A truth value. -/
def bool? : Json → Option Bool
  | bool b => some b
  | _ => none

/-- A natural number written without sign, fraction and exponent. -/
def nat? : Json → Option Nat
  | num text => text.toNat?
  | _ => none

end Json

end ApiSurface
