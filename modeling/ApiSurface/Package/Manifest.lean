import ApiSurface.FileSystem
import ApiSurface.Json.Reader
import ApiSurface.Json.Record
/-!
The manifest of a package: who it is and where its declarations start.
-/
namespace ApiSurface

/-- What a manifest says. -/
structure Manifest where
  name : Option String
  version : Option String
  types : Option String
  typings : Option String
  main : Option String
  deriving DecidableEq, Repr, Inhabited

namespace Manifest

/-- Reads a manifest. -/
def ofJson? (v : Json) : Option Manifest := do
  let r ← v.record? ["name", "version", "types", "typings", "main"]
  return {
    name := ← r.optional "name" Json.str?
    version := ← r.optional "version" Json.str?
    types := ← r.optional "types" Json.str?
    typings := ← r.optional "typings" Json.str?
    main := ← r.optional "main" Json.str? }

/-- Reads the text of a manifest. -/
def ofText? (text : String) : Option Manifest := (Json.read? text).bind ofJson?

/-- Where the declarations may start, the best place first. -/
def entries (m : Manifest) : List String := [m.types, m.typings, m.main].reduceOption.eraseDups

end Manifest

namespace Path

/-- A path and the directories around it, the nearest first. Each is shorter than the one before. -/
def ancestors (p : Path) : List Path := go (p.chars.length + 1) p
where
  /-- The first `n` of them. -/
  go : Nat → Path → List Path
    | 0, _ => []
    | n + 1, p => p :: (p.parent?).elim [] (go n)

/-- The manifest of a directory. -/
def manifest (dir : Path) : Path := dir.child "package.json"

end Path

namespace FileSystem

/-- Reads a manifest; one that is no manifest counts as missing. -/
def manifest? (fs : FileSystem) (p : Path) : Option Manifest := (fs.read? p).bind Manifest.ofText?

/-- The nearest directory from a path upwards that has a manifest, and that manifest. -/
def packageRoot? (fs : FileSystem) (p : Path) : Option (Path × Manifest) :=
  p.ancestors.findSome? fun dir =>
    if fs.isFile dir.manifest then (fs.manifest? dir.manifest).map (dir, ·) else none

end FileSystem

end ApiSurface
