import ApiSurface.FileSystem
/-!
A file system whose directories are there by themselves. A path is walked step by step, and every
step starts in a directory that exists, so `a/../b` leads nowhere when there is no directory `a`.
-/
namespace ApiSurface

namespace Path

/-- The places on the way along a path, up to the one it names. -/
def way (p : Path) : List Place := (p.components.scanl Place.step .start).tail

/-- Whether the path is written as one of a directory, with a slash or a dot after the last name. -/
def leadsInto (p : Path) : Bool :=
  (piecesAt '/' p.chars).getLast?.all fun piece => (Component.ofPiece? piece).isNone

end Path

/-- Directories and the files in them, by their places. -/
structure DirectoryTree where
  directories : List Path.Place
  files : List (Path.Place × String)
  deriving Inhabited

namespace DirectoryTree

/-- The root directory alone. -/
def empty : DirectoryTree := ⟨[⟨true, []⟩], []⟩

/-- Adds directories at places where there are none yet. -/
def addPlaces (t : DirectoryTree) (places : List Path.Place) : DirectoryTree :=
  { t with directories := (t.directories ++ places).eraseDups }

/-- Adds a directory and all directories on the way to it. -/
def addDirectory (t : DirectoryTree) (p : Path) : DirectoryTree := t.addPlaces p.way

/-- Adds a file and all directories on the way to it. It takes the place of an earlier file. -/
def addFile (t : DirectoryTree) (p : Path) (text : String) : DirectoryTree :=
  let t := t.addPlaces p.way.dropLast
  { t with files := t.files.filter (·.1 != p.place) ++ [(p.place, text)] }

/-- Takes one step. A step down or up starts in a directory. -/
def step? (t : DirectoryTree) (w : Path.Place) (c : Path.Component) : Option Path.Place :=
  if c = .root ∨ w ∈ t.directories then some (w.step c) else none

/-- Walks along a path. -/
def walk? (t : DirectoryTree) (p : Path) : Option Path.Place := p.components.foldlM t.step? .start

/-- Whether a path leads to a directory. -/
def isDirectory (t : DirectoryTree) (p : Path) : Bool := (t.walk? p).any (· ∈ t.directories)

/-- The text of a file. -/
def read? (t : DirectoryTree) (p : Path) : Option String :=
  if p.leadsInto then none else (t.walk? p).bind (t.files.lookup ·)

/-- The tree as a file system. Nothing in it has two names, so a walk ends where the path alone
says. -/
def fileSystem (t : DirectoryTree) : FileSystem where
  read? := t.read?
  isFile p := (t.read? p).isSome
  isDirectory := t.isDirectory
  canonical := Path.normalize
  fileCount := t.files.length
  directoryCount := t.directories.length

end DirectoryTree

end ApiSurface
