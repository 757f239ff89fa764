import ApiSurface.Grammar.File
import ApiSurface.Package.Resolution
import ApiSurface.Program.Symbol
import ApiSurface.Syntax.WrittenTypes
/-!
The files of a program: those of its entrypoints and all that they name, each read once, in
breadth-first order.
-/
namespace ApiSurface

namespace SourceFile

/-- Statements with those in the bodies of modules among them, at most `n` bodies deep. -/
def withBodies (f : SourceFile) : Nat → List Statement → List Statement
  | 0, statements => statements
  | n + 1, statements => statements.flatMap fun s =>
    s :: match s with
      | .declaration i => ((f.body? i).map (f.withBodies n)).getD []
      | _ => []

/-- The modules that the statements of a file name. -/
def importedInStatements (f : SourceFile) : List String :=
  (f.withBodies f.declarations.size f.statements).filterMap fun
    | .importFrom _ _ _ _ _ specifier | .exportAll _ _ specifier => some specifier
    | .importEquals _ _ _ (.external specifier) => some specifier
    | .exportNamed _ _ _ specifier => specifier
    | _ => none

/-- The modules that the written types of a file name. -/
def importedInTypes (f : SourceFile) : List String :=
  f.declarations.toList.flatMap fun d => d.written.filterMap fun t =>
    match t.shape with
    | .moduleType specifier _ _ _ => some specifier
    | _ => none

/-- The modules that a file names, each once. -/
def imported (f : SourceFile) : List String :=
  (f.importedInStatements ++ f.importedInTypes).eraseDups

end SourceFile

/-- A file of a program. -/
structure LoadedFile where
  path : Path
  source : SourceFile
  /-- It holds declarations only. -/
  declares : Bool
  /-- It belongs to the package, and not to one installed in it. -/
  isInternal : Bool
  deriving Inhabited

/-- Why a program cannot be loaded. -/
inductive LoadError where
  | rootNotFound (root : Path)
  | entrypointNotFound (entry : String) (root : Path)
  | unreadable (file : Path)
  /-- Nothing ever comes of a search that manifests send round in a circle. -/
  | endless
  deriving DecidableEq, Repr, Inhabited

/-- The text shown for an error. -/
def LoadError.message : LoadError → String
  | rootNotFound root => s!"package root {root.text} does not exist"
  | entrypointNotFound entry root => s!"cannot resolve entrypoint '{entry}' under {root.text}"
  | unreadable file => s!"cannot read {file.text}"
  | endless => "manifests lead to each other in a circle"

/-- The files of a program and how they name one another. -/
structure Loaded where
  root : Path
  files : Array LoadedFile
  entrypoints : List FileIndex
  /-- The file that a specifier names in a file. -/
  resolved : Table (FileIndex × String) FileIndex
  problems : List Diagnostic
  deriving Inhabited

namespace Loaded

/-- The file at a path. -/
def fileAt? (l : Loaded) (p : Path) : Option FileIndex := l.files.findIdx? (·.path.same p)

/-- Adds the file at a path, unless it is there, and gives its index. -/
def add? (fs : FileSystem) (l : Loaded) (p : Path) : Option (FileIndex × Loaded) :=
  match l.fileAt? p with
  | some i => some (i, l)
  | none => (fs.read? p).map fun text =>
    let file : LoadedFile :=
      { path := p, source := .parse (p.display l.root) text.toList
        declares := p.isDeclarationFile, isInternal := p.isWithin l.root }
    (l.files.size, { l with files := l.files.push file })

/-- The report that a file names a module that is not found. -/
def moduleNotFound (file specifier : String) : Diagnostic :=
  { severity := .warning, code := 2307, file, start := 0, length := 0
    message := Diagnostic.fill "Cannot find module '\x7b0\x7d'." [specifier] }

/-- Follows a specifier in a file. -/
def follow (fs : FileSystem) (i : FileIndex) (file : LoadedFile) (l : Loaded)
    (specifier : String) : Loaded :=
  match fs.resolve? file.path specifier with
  | some p =>
    match l.add? fs p with
    | some (target, l) => { l with resolved := l.resolved.insert (i, specifier) target }
    | none => l
  | none =>
    if Specifier.isRelative specifier.toList && file.isInternal then
      { l with problems := l.problems ++ [moduleNotFound file.source.name specifier] }
    else l

/-- Follows the specifiers of the files from index `i` on, of at most `n` files. -/
def followFrom (fs : FileSystem) : Nat → FileIndex → Loaded → Loaded
  | 0, _, l => l
  | n + 1, i, l =>
    match l.files[i]? with
    | some file => followFrom fs n (i + 1) (file.source.imported.foldl (follow fs i file) l)
    | none => l

/-- Adds the file of an entry. -/
def addEntry (fs : FileSystem) (l : Loaded) (entry : String) : Except LoadError Loaded :=
  if fs.searchEntry l.root entry = .endless then .error .endless
  else match fs.entry? l.root entry with
  | none => .error (.entrypointNotFound entry l.root)
  | some p =>
    match l.add? fs p with
    | none => .error (.unreadable p)
    | some (i, l) => .ok { l with entrypoints := l.entrypoints ++ [i] }

/-- The search for a module that some file names goes round in a circle. -/
def isEndless (fs : FileSystem) (l : Loaded) : Bool :=
  l.files.any fun file => file.source.imported.any fun specifier =>
    fs.searchModule file.path.directory (Specifier.clean specifier) == .endless

/-- Loads the files of a package, given by the paths of its entrypoints. -/
def load (fs : FileSystem) (root : Path) (entries : List String) : Except LoadError Loaded := do
  unless fs.isDirectory root do throw (.rootNotFound root)
  let l ← entries.foldlM (addEntry fs) ⟨fs.canonical root, #[], [], [], []⟩
  let l := l.followFrom fs fs.fileCount 0
  if l.isEndless fs then throw .endless
  return l

/-- What was reported while reading and then while following. -/
def diagnostics (l : Loaded) : List Diagnostic :=
  l.files.toList.flatMap (·.source.diagnostics) ++ l.problems

end Loaded

end ApiSurface
