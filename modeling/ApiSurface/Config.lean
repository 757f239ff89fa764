import ApiSurface.Json.Reader
import ApiSurface.Json.Record
import ApiSurface.Path
/-!
What to extract: a package and its entrypoints.
-/
namespace ApiSurface

/-- How deep types are described if nothing else is said. -/
def usualTypeDepth : Nat := 128

/-- The settings of an extraction. -/
structure Config where
  root : Path
  /-- The files of the entrypoints by the specifiers under which they are imported. -/
  entrypoints : Table String String
  packageName : Option String
  version : Option String
  versions : Option (List String)
  /-- Whether symbols of other packages are linked to them. -/
  linkExternals : Bool
  maxTypeDepth : Nat
  deriving Inhabited

namespace Config

/-- Reads a depth: a whole number of 32 bits. -/
def depth? (v : Json) : Option Nat := v.nat?.filter (· < Nat.pow 2 32)

/-- Reads settings. -/
def ofJson? (v : Json) : Option Config := do
  let r ← v.record? ["root", "entrypoints", "packageName", "version", "versions", "linkExternals",
    "maxTypeDepth"]
  return {
    root := .ofText (← r.required "root" Json.str?)
    entrypoints := ← r.required "entrypoints" (Json.table? Json.str?)
    packageName := ← r.optional "packageName" Json.str?
    version := ← r.optional "version" Json.str?
    versions := ← r.optional "versions" (Json.listOf? Json.str?)
    linkExternals := ← r.withDefault "linkExternals" Json.bool? false
    maxTypeDepth := ← r.withDefault "maxTypeDepth" depth? usualTypeDepth }

/-- The text shown for settings that cannot be read. -/
def unreadable : String := "failed to parse extraction config JSON"

/-- Reads the text of settings. -/
def ofText? (text : String) : Option Config := (Json.read? text).bind ofJson?

end Config

end ApiSurface
