import ApiSurface.Package.Manifest
import ApiSurface.Package.Specifier
/-!
Which file a module specifier names. Files are found under the endings of source files, by the
endings of their compiled forms, by the manifest of a directory, and as the index of one; packages
are looked for in every directory around the importing file.
-/
namespace ApiSurface

/-- What a search for a file comes to. -/
inductive Probe where
  | found (file : Path)
  | missing
  /-- Manifests send the search round in a circle. -/
  | endless
  deriving DecidableEq, Repr, Inhabited

namespace Probe

/-- The file that was found. -/
def file? : Probe → Option Path
  | found p => some p
  | _ => none

/-- A file that may be there. -/
def ofOption : Option Path → Probe
  | some p => found p
  | none => missing

/-- The outcome at the first place where the search does not come up empty. -/
def first (search : Path → Probe) : List Path → Probe
  | [] => missing
  | p :: ps =>
    match search p with
    | missing => first search ps
    | outcome => outcome

end Probe

/-- An ending of file names that means code. -/
structure FileEnding where
  text : String
  /-- Files with the ending can be read. -/
  isSource : Bool
  /-- The endings of the sources that a file with this ending is made from. -/
  sources : List String
  deriving DecidableEq, Repr, Inhabited

/-- The known endings, longer ones before those they end with. -/
def fileEndings : List FileEnding :=
  [⟨".d.mts", true, []⟩, ⟨".d.cts", true, []⟩, ⟨".d.ts", true, []⟩, ⟨".mts", true, []⟩,
    ⟨".cts", true, []⟩, ⟨".tsx", true, []⟩, ⟨".ts", true, []⟩,
    ⟨".mjs", false, [".mts", ".d.mts"]⟩, ⟨".cjs", false, [".cts", ".d.cts"]⟩,
    ⟨".jsx", false, [".tsx", ".d.ts"]⟩, ⟨".js", false, [".ts", ".tsx", ".d.ts"]⟩]

/-- The endings that may be left away, in the order in which they are tried. -/
def sourceEndings : List String := [".ts", ".tsx", ".d.ts", ".mts", ".cts", ".d.mts", ".d.cts"]

/-- The paths that may be meant by one, the best first. -/
def Path.spellings (p : Path) : List Path :=
  (match fileEndings.find? (p.endsWith ·.text) with
    | some e => (if e.isSource then [p] else []) ++ e.sources.map (p.withEnding e.text.length)
    | none => []) ++
  sourceEndings.map (p.withEnding 0)

namespace FileSystem

/-- The source file that a path means. -/
def source? (fs : FileSystem) (p : Path) : Option Path := p.spellings.find? fs.isFile

/-- The places to which the manifest of a directory sends on. -/
def entriesOf (fs : FileSystem) (dir : Path) : List Path :=
  let entries := ((fs.manifest? dir.manifest).map Manifest.entries).getD []
  (entries.map fun e => (dir.join ⟨Specifier.dropDotSlashes e.toList⟩).normalize).filter
    fun p => !p.same dir

/-- Searches for the file or the directory that a path means, through at most `n` directories. -/
def probe (fs : FileSystem) : Nat → Path → Probe
  | 0, _ => .endless
  | n + 1, p =>
    match fs.source? p with
    | some file => .found file
    | none =>
      if fs.isDirectory p then
        match Probe.first (fs.probe n) (fs.entriesOf p) with
        | .missing => .ofOption (fs.source? (p.child "index"))
        | outcome => outcome
      else .missing

/-- Searches for the file or the directory that a path means. A search through more places than
there are directories has been at one of them before. -/
def search (fs : FileSystem) (p : Path) : Probe := fs.probe (fs.directoryCount + 2) p

/-- Where a package may be installed, as seen from a directory. -/
def installations (fs : FileSystem) (dir : Path) (s : Specifier.InPackage) : List Path :=
  (dir.ancestors.map (·.join ⟨Path.nodeModules⟩)).filter fs.isDirectory |>.flatMap fun holder =>
    [s.package, Specifier.typesPackage s.package].map fun name =>
      let package := holder.join ⟨name⟩
      s.subpath.elim package fun subpath => package.join ⟨subpath⟩

/-- Searches for the module that a specifier names in a file of a directory. -/
def searchModule (fs : FileSystem) (dir : Path) (specifier : List Char) : Probe :=
  if specifier.isEmpty then .missing
  else if Specifier.isAbsolute specifier then fs.search (Path.normalize ⟨specifier⟩)
  else if Specifier.isRelative specifier then fs.search (dir.join ⟨specifier⟩).normalize
  else
    match Specifier.inPackage? specifier with
    | some s => Probe.first fs.search (fs.installations dir s)
    | none => .missing

/-- The file that a specifier names in a file. -/
def resolve? (fs : FileSystem) (file : Path) (specifier : String) : Option Path :=
  (fs.searchModule file.directory (Specifier.clean specifier)).file?.map fs.canonical

/-- Searches for an entry of the package at a directory. -/
def searchEntry (fs : FileSystem) (root : Path) (entry : String) : Probe :=
  fs.search (root.join ⟨Specifier.dropDotSlashes (trim entry.toList)⟩).normalize

/-- The file of an entry of the package at a directory. -/
def entry? (fs : FileSystem) (root : Path) (entry : String) : Option Path :=
  (fs.searchEntry root entry).file?.map fs.canonical

end FileSystem

end ApiSurface
