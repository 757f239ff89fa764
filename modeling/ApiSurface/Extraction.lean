import ApiSurface.Config.File
import ApiSurface.Extraction.Externals
import ApiSurface.Extraction.Identifiers
import ApiSurface.Extraction.Locations
/-!
Extraction of the document that describes the public surface of a package.
-/
namespace ApiSurface

/-- The graph of a program, where its symbols are shown, and what they are called. -/
structure Surface where
  graph : Graph
  locations : Table SymbolId ExportLocation
  names : Identifiers
  deriving Inhabited

namespace Config

/-- Loads the program of a package. -/
def load (c : Config) (fs : FileSystem) : Except ExtractError Program :=
  (Program.load fs c.root (c.entrypoints.map (·.2))).mapError .load

/-- The public surface of a program. -/
def surface (c : Config) (p : Program) : Except ExtractError Surface :=
  let step : ExceptT ExtractError Program.Query Surface := do
    let graph ← p.walk c.maxTypeDepth (c.entrypoints.keys.zip p.entrypoints)
    let locations ← graph.locations p
    return ⟨graph, locations, graph.identifiers locations⟩
  (step.run.run []).1

/-- The document that describes a surface. What the settings do not say is read from the manifest
of the package. -/
def document (c : Config) (fs : FileSystem) (p : Program) (s : Surface) : Document :=
  let manifest := fs.manifest? p.root.manifest
  { packageName := (c.packageName <|> manifest.bind (·.name)).getD ""
    currentVersion := (c.version <|> manifest.bind (·.version)).getD ""
    versions := c.versions
    roots := s.graph.roots.map (·.id)
    symbols := s.graph.symbols.sorted
    references := s.graph.references.sorted
    locations := s.locations
    identifiers := s.names.identifiers
    inner := s.names.inner
    externals := if c.linkExternals then
        Table.sorted (s.graph.externals.filterMap fun (id, e) => (fs.link? e.sites).map (id, ·))
      else [] }

/-- Extracts the document of a package. -/
def extract (c : Config) (fs : FileSystem) : Except ExtractError Document := do
  if c.entrypoints.isEmpty then throw .noEntrypoints
  let p ← c.load fs
  return c.document fs p (← c.surface p)

end Config

/-- Why no document is extracted for a file of settings. -/
inductive PackageError where
  | config (e : ConfigError)
  | extraction (root : Path) (cause : ExtractError)
  deriving Inhabited

/-- The text shown above the cause of a failed extraction. -/
def extractionFailed (root : Path) : String := s!"failed to extract package at {root.text}"

/-- Extracts the document of a package, given its file of settings or the directory that has one
under a given name. -/
def FileSystem.extract (fs : FileSystem) (name : String) (p : Path) :
    Except PackageError Document := do
  let c ← (Config.ofFile fs (fs.configFile name p)).mapError .config
  (c.extract fs).mapError (.extraction c.root)

end ApiSurface
