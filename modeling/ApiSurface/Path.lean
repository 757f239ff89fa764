import ApiSurface.Text.Blank
/-!
Paths of files and directories. A path keeps the text it was written as, since that text is shown
and extended; its components say which file it names.
-/
namespace ApiSurface

/-- A path as written, with `/` between its components. -/
structure Path where
  chars : List Char
  deriving DecidableEq, Repr, Inhabited

namespace Path

/-- The path that a text writes. -/
def ofText (text : String) : Path := ⟨text.toList⟩

/-- The path as written. -/
def text (p : Path) : String := String.ofList p.chars

/-- A step on the way along a path. -/
inductive Component where
  | root
  | here
  | up
  | name (chars : List Char)
  deriving DecidableEq, Repr, Inhabited

namespace Component

/-- The step that a piece between slashes stands for; none for an empty piece and for a dot. -/
def ofPiece? : List Char → Option Component
  | [] => none
  | ['.'] => none
  | ['.', '.'] => some up
  | cs => some (name cs)

/-- The step as written. -/
def chars : Component → List Char
  | root => ['/']
  | here => ['.']
  | up => ['.', '.']
  | name cs => cs

end Component

/-- The steps of a path. A dot counts only at the front of a relative path. -/
def components (p : Path) : List Component :=
  match p.chars with
  | '/' :: rest => .root :: (piecesAt '/' rest).filterMap Component.ofPiece?
  | cs =>
    match piecesAt '/' cs with
    | ['.'] :: ps => .here :: ps.filterMap Component.ofPiece?
    | ps => ps.filterMap Component.ofPiece?

/-- Paths with the same steps. -/
def same (p q : Path) : Bool := p.components == q.components

/-- A path that starts at the root. -/
def isAbsolute (p : Path) : Bool := p.chars.head? == some '/'

/-- A second path as seen from the first. -/
def join (p q : Path) : Path :=
  if q.isAbsolute then q
  else if p.chars.isEmpty ∨ p.chars.getLast? = some '/' then ⟨p.chars ++ q.chars⟩
  else ⟨p.chars ++ '/' :: q.chars⟩

/-- An entry of a directory. -/
def child (p : Path) (name : String) : Path := p.join (.ofText name)

/-- Pieces without those at the end that stand for no step. -/
def dropIdle (pieces : List (List Char)) : List (List Char) :=
  (pieces.reverse.dropWhile fun piece => (Component.ofPiece? piece).isNone).reverse

/-- The path without its last step; none for the root and for the empty path. The text before the
last step stays as written. -/
def parent? (p : Path) : Option Path :=
  let (front, rest) := match p.chars with
    | '/' :: rest => (['/'], rest)
    | ['.'] => (['.'], [])
    | '.' :: '/' :: rest => (['.'], '/' :: rest)
    | cs => ([], cs)
  match dropIdle (piecesAt '/' rest) with
  | [] => if front = ['.'] then some ⟨[]⟩ else none
  | pieces => some ⟨front ++ ['/'].intercalate (dropIdle pieces.dropLast)⟩

/-- A place in a tree of directories: the names on the way from the root, or from wherever a
relative path starts, the innermost first. -/
structure Place where
  absolute : Bool
  names : List (List Char)
  deriving DecidableEq, Repr, Inhabited

namespace Place

/-- Where no step leads. -/
def start : Place := ⟨false, []⟩

/-- The place after one step. There is no way up from the start. -/
def step (w : Place) : Component → Place
  | .root => ⟨true, []⟩
  | .here => w
  | .up => ⟨w.absolute, w.names.tail⟩
  | .name n => ⟨w.absolute, n :: w.names⟩

/-- The path that names a place without detours. -/
def path (w : Place) : Path :=
  ⟨(if w.absolute then ['/'] else []) ++ ['/'].intercalate w.names.reverse⟩

end Place

/-- Where a path leads. -/
def place (p : Path) : Place := p.components.foldl Place.step .start

/-- The path without dots, empty pieces and steps up. -/
def normalize (p : Path) : Path := p.place.path

/-- The steps of a path below a directory, when its first steps are those of the directory. -/
def below? (p dir : Path) : Option (List Component) :=
  let (p, dir) := (p.components, dir.components)
  if dir.isPrefixOf p then some (p.drop dir.length) else none

/-- Steps as text. -/
def textOf (steps : List Component) : String :=
  String.ofList (['/'].intercalate (steps.map Component.chars))

/-- How a path is shown inside a directory: the steps below it, or the whole path with `/` for each
`\` when it lies elsewhere. -/
def display (p dir : Path) : String :=
  match p.below? dir with
  | some steps => textOf steps
  | none => String.ofList (p.chars.map fun c => if c = '\\' then '/' else c)

/-- The name of the directory that holds installed packages. -/
def nodeModules : List Char := "node_modules".toList

/-- A path inside a package and not inside a package installed there. -/
def isWithin (p dir : Path) : Bool :=
  (p.below? dir).any fun steps => !steps.contains (.name nodeModules)

/-- Whether the path ends with a text. -/
def endsWith (p : Path) (ending : String) : Bool := ending.toList.isSuffixOf p.chars

/-- A file that only declares. -/
def isDeclarationFile (p : Path) : Bool :=
  p.endsWith ".d.ts" || p.endsWith ".d.mts" || p.endsWith ".d.cts"

/-- The path without its last `n` characters and with another ending. -/
def withEnding (p : Path) (n : Nat) (ending : String) : Path :=
  ⟨p.chars.take (p.chars.length - n) ++ ending.toList⟩

/-- The directory of a file. -/
def directory (p : Path) : Path := (p.parent?).getD p

end Path

end ApiSurface
