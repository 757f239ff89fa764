import ApiSurface.Program.Binding
/-!
A program: its files, and what their declarations and imports are bound to.
-/
namespace ApiSurface

/-- A loaded and bound program. -/
structure Program extends Loaded, Bindings
  deriving Inhabited

namespace Program

/-- Loads a package, given by the paths of its entrypoints, and binds it. -/
def load (fs : FileSystem) (root : Path) (entries : List String) : Except LoadError Program :=
  (Loaded.load fs root entries).map fun l => { l with toBindings := l.bind }

/-- A file by its index. -/
def file (p : Program) (i : FileIndex) : LoadedFile := p.files.getD i default

/-- The source of a file. -/
def source (p : Program) (i : FileIndex) : SourceFile := (p.file i).source

/-- The declaration of a site, if it is one. -/
def declaration? (p : Program) (site : Site) : Option Declaration :=
  site.index?.bind (p.source site.fileIndex).declaration?

end Program

namespace SourceFile

/-- A declaration and those around it, the innermost first. The table lists a declaration after
those around it. -/
def enclosing (f : SourceFile) (i : DeclIndex) : List DeclIndex :=
  i :: match (f.declaration? i).bind (·.parent) with
    | none => []
    | some parent => if parent < i then enclosing f parent else []
termination_by i

/-- The scope of the names in a declaration: the nearest module around it, or else the file. -/
def scopeOf (f : SourceFile) (file : FileIndex) (i : DeclIndex) : Site :=
  match (f.enclosing i).tail.find? fun j => ((f.declaration? j).bind (·.naming?)).isSome with
  | some j => .declaration file j
  | none => .file file

end SourceFile

namespace Program

/-- What a name is bound to in the body of a module: what the body itself binds, or else what other
bodies of the module export. Blocks for the whole program bind nothing of their own. -/
def lookupIn (p : Program) (file : FileIndex) (name : String) (i : DeclIndex) :
    Option SymbolIndex :=
  match (p.source file).declaration? i |>.bind (·.naming?) with
  | none | some .global => none
  | some _ =>
    ((p.locals.get? (.declaration file i)).bind (·.get? name)) <|>
      ((p.symbolOf.get? (file, i)).bind fun s => (p.symbol s).members.get? name)

/-- What a name is bound to in a scope: by the bodies around it from the inside out, by the file, or
for the whole program. -/
def lookupName (p : Program) (scope : Site) (name : String) : Option SymbolIndex :=
  let file := scope.fileIndex
  let bodies := (scope.index?.map (p.source file).enclosing).getD []
  bodies.findSome? (p.lookupIn file name) <|>
    ((p.locals.get? (.file file)).bind (·.get? name)) <|> p.globals.get? name

/-- The module that a specifier names in a file. Modules that are declared by name come first,
except for specifiers that are paths. -/
def resolveModule (p : Program) (file : FileIndex) (specifier : String) : Option SymbolIndex :=
  (if Specifier.isBare specifier.toList then p.ambient.get? specifier else none) <|>
    ((p.resolved.get? (file, specifier)).bind p.modules.get?)

end Program

end ApiSurface
