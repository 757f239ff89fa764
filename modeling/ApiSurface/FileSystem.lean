import ApiSurface.Path
/-!
Where files are found. Everything that reads files asks a `FileSystem`; a `FileTree` is one that
holds its files itself.
-/
namespace ApiSurface

/-- Answers to questions about files. -/
structure FileSystem where
  /-- The text of a file. -/
  read? : Path → Option String
  isFile : Path → Bool
  isDirectory : Path → Bool
  /-- The one path that all paths to a file or directory have in common. -/
  canonical : Path → Path
  /-- There are no more files than this. -/
  fileCount : Nat
  /-- There are no more directories than this. -/
  directoryCount : Nat

namespace Path.Place

/-- The steps that lead straight to a place. -/
def components (w : Place) : List Component :=
  (if w.absolute then [.root] else []) ++ w.names.reverse.map .name

/-- A place inside a directory, at any depth. -/
def isBelow (w dir : Place) : Bool := dir.components.isPrefixOf w.components && w != dir

end Path.Place

/-- Files by their places. A directory is what some file lies below. -/
structure FileTree where
  files : List (Path.Place × String)
  deriving Inhabited

namespace FileTree

/-- No files. -/
def empty : FileTree := ⟨[]⟩

/-- One more file. It takes the place of an earlier one there. -/
def add (t : FileTree) (p : Path) (text : String) : FileTree :=
  ⟨t.files.filter (·.1 != p.place) ++ [(p.place, text)]⟩

/-- The files of a list of paths and texts. -/
def ofList (files : List (String × String)) : FileTree :=
  files.foldl (fun t f => t.add (.ofText f.1) f.2) empty

/-- The text of a file. -/
def read? (t : FileTree) (p : Path) : Option String := t.files.lookup p.place

/-- Whether a file lies below a path. -/
def isDirectory (t : FileTree) (p : Path) : Bool := t.files.any (·.1.isBelow p.place)

/-- The tree as a file system whose paths are looked up by their text alone. -/
def fileSystem (t : FileTree) : FileSystem where
  read? := t.read?
  isFile p := (t.read? p).isSome
  isDirectory := t.isDirectory
  canonical := Path.normalize
  fileCount := t.files.length
  directoryCount := t.files.foldl (fun n f => n + f.1.components.length) 0

end FileTree

end ApiSurface
