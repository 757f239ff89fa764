import ApiSurface.Document.Basic
import ApiSurface.Package.Manifest
/-!
Links to the packages that declare what a package mentions.
-/
namespace ApiSurface

namespace FileSystem

/-- How a file is shown in a package: by the steps below its directory. A file elsewhere is shown by
all its steps. -/
def shownIn (root file : Path) : String :=
  Path.textOf ((file.below? root).getD file.components)

/-- Where a symbol with given places is documented: in the package around its first place, under the
name that it has there. -/
def link? (fs : FileSystem) (sites : List (Path × Nat)) : Option ExternalLink := do
  let (first, _) ← sites.head?
  let (root, manifest) ← fs.packageRoot? (← first.parent?)
  return {
    package := ← manifest.name
    version := ← manifest.version
    id := .ofSites (sites.map fun (file, offset) => (shownIn root file, offset)) }

end FileSystem

end ApiSurface
