import ApiSurface.Config
import ApiSurface.FileSystem
/-!
Settings in a file. A root that is written relative starts at the directory of the file.
-/
namespace ApiSurface

/-- Why there are no settings in a file. -/
inductive ConfigError where
  | missing (file : Path)
  | malformed (file : Path)
  deriving DecidableEq, Repr, Inhabited

/-- The text shown for an error. -/
def ConfigError.message : ConfigError → String
  | missing file => s!"failed to read config: {file.text}"
  | malformed file => s!"failed to parse config: {file.text}"

namespace Config

/-- The settings with their root as seen from a directory. -/
def startingAt (c : Config) (dir : Path) : Config := { c with root := dir.join c.root }

/-- Reads the settings in a file. -/
def ofFile (fs : FileSystem) (file : Path) : Except ConfigError Config := do
  let some text := fs.read? file | throw (.missing file)
  let some c := ofText? text | throw (.malformed file)
  return c.startingAt ((file.parent?).getD (.ofText "."))

end Config

/-- The file of settings that a path means: in a directory, the file of a given name there. -/
def FileSystem.configFile (fs : FileSystem) (name : String) (p : Path) : Path :=
  if fs.isDirectory p then p.child name else p

end ApiSurface
