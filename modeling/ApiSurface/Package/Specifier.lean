import ApiSurface.Path
/-!
Module specifiers: the texts by which one module names another.
-/
namespace ApiSurface.Specifier

/-- A specifier that starts from the importing file. -/
def isRelative (specifier : List Char) : Bool :=
  specifier == ['.'] || specifier == ['.', '.'] || "./".toList.isPrefixOf specifier ||
    "../".toList.isPrefixOf specifier

/-- A specifier that names a place from the root. -/
def isAbsolute (specifier : List Char) : Bool := specifier.head? == some '/'

/-- A specifier that names a package. -/
def isBare (specifier : List Char) : Bool := !isRelative specifier && !isAbsolute specifier

/-- A package and a place inside it. -/
structure InPackage where
  package : List Char
  subpath : Option (List Char)
  deriving DecidableEq, Repr, Inhabited

/-- The rest of a specifier after its package. -/
def subpathOf (pieces : List (List Char)) : Option (List Char) :=
  match ['/'].intercalate pieces with
  | [] => none
  | rest => some rest

/-- The package that a specifier names: its first piece, or its first two when the package belongs
to a scope. -/
def inPackage? (specifier : List Char) : Option InPackage :=
  match piecesAt '/' specifier with
  | [] | [] :: _ => none
  | ('@' :: scope) :: rest =>
    match rest with
    | [] | [] :: _ => none
    | name :: rest => some ⟨'@' :: scope ++ '/' :: name, subpathOf rest⟩
  | name :: rest => some ⟨name, subpathOf rest⟩

/-- The package that only declares the types of another. -/
def typesPackage (package : List Char) : List Char :=
  "@types/".toList ++ match package with
    | '@' :: name => ['_', '_'].intercalate (piecesAt '/' name)
    | name => name

/-- A specifier as it is looked up. -/
def clean (specifier : String) : List Char :=
  (trim specifier.toList).map fun c => if c = '\\' then '/' else c

/-- A path without the steps to where it starts already. -/
def dropDotSlashes : List Char → List Char
  | '.' :: '/' :: rest => dropDotSlashes rest
  | cs => cs

end ApiSurface.Specifier
