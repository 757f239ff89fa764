import ApiSurface.Span
/-!
Names in a source text and the modifiers of a declaration.
-/
namespace ApiSurface

/-- A name at its place in the text. A name that is missing is empty. -/
structure Ident where
  text : String
  span : Span
  deriving DecidableEq, Repr, Inhabited

/-- A dotted name; it has at least one part. -/
structure EntityName where
  head : Ident
  tail : List Ident
  span : Span
  deriving DecidableEq, Repr, Inhabited

namespace EntityName

/-- The name of one part. -/
def ofIdent (i : Ident) : EntityName := ⟨i, [], i.span⟩

/-- The parts in order. -/
def parts (n : EntityName) : List Ident := n.head :: n.tail

/-- The texts of the parts. -/
def texts (n : EntityName) : List String := n.parts.map (·.text)

/-- The name as written, without blanks. -/
def text (n : EntityName) : String := ".".intercalate n.texts

/-- The last part. -/
def last (n : EntityName) : Ident := n.tail.getLastD n.head

/-- A name of one part. -/
def isSimple (n : EntityName) : Bool := n.tail.isEmpty

end EntityName

/-- The name of a property. The text of a computed one is what is written, brackets included. -/
inductive PropertyName where
  | ident (name : Ident)
  | string (text : String) (span : Span)
  | number (text : String) (span : Span)
  | hidden (name : Ident)
  | computed (text : String) (span : Span)
  deriving DecidableEq, Repr, Inhabited

namespace PropertyName

/-- The text under which the property is known. -/
def text : PropertyName → String
  | ident n | hidden n => n.text
  | string t _ | number t _ | computed t _ => t

/-- Where the name stands. -/
def span : PropertyName → Span
  | ident n | hidden n => n.span
  | string _ s | number _ s | computed _ s => s

/-- A name that starts with a number sign is seen only inside its class. -/
def isHidden : PropertyName → Bool
  | hidden _ => true
  | _ => false

end PropertyName

/-- Words before a declaration, a member or a parameter. -/
inductive Modifier where
  | exported
  | default
  | declared
  | abstracted
  | publicAccess
  | privateAccess
  | protectedAccess
  | static
  | readonly
  | async
  | const
  | overriding
  | accessor
  deriving DecidableEq, Repr, Inhabited

/-- The modifiers of one declaration. -/
abbrev Modifiers := List Modifier

namespace Modifiers

/-- One more modifier; saying it twice changes nothing. -/
def add (ms : Modifiers) (m : Modifier) : Modifiers := if m ∈ ms then ms else ms ++ [m]

/-- Modifiers that make a parameter of a constructor a property of the class. -/
def parameterProperty : Modifiers :=
  [.publicAccess, .privateAccess, .protectedAccess, .readonly, .overriding]

/-- Whether two sets of modifiers meet. -/
def meets (ms ns : Modifiers) : Bool := ms.any (· ∈ ns)

end Modifiers

end ApiSurface
