import ApiSurface.Inference
import ApiSurface.Program.Loaded
/-!
Binding: which symbols the declarations and imports of a program make. Declarations of one name in
one scope make one symbol, as do exported declarations of one name in the bodies of one namespace;
a declaration hides an import of its name.
-/
namespace ApiSurface

/-- The symbols of a program and the scopes in which they are found. -/
structure Bindings where
  symbols : Array Symbol
  /-- What script files and global blocks declare. -/
  globals : Table String SymbolIndex
  /-- What is declared and imported in each module and in each body of a namespace. -/
  locals : Table Site (Table String SymbolIndex)
  /-- Bodies whose declarations are all exported. -/
  exportingAll : List Site
  /-- Modules declared by name. -/
  ambient : Table String SymbolIndex
  symbolOf : Table (FileIndex × DeclIndex) SymbolIndex
  /-- The symbols of the files that are modules. -/
  modules : Table FileIndex SymbolIndex
  deriving Inhabited

/-- Where the statements of a block are bound. -/
structure Container where
  scope : Site
  /-- The module that exported declarations become members of. -/
  owner : Option SymbolIndex
  /-- Names are bound for the whole program. -/
  isGlobal : Bool
  /-- All declarations are exported. -/
  exportsAll : Bool
  /-- The block only declares. -/
  isAmbient : Bool
  deriving Inhabited

namespace Bindings

/-- Nothing bound. -/
def empty : Bindings := ⟨#[], [], [], [], [], [], []⟩

/-- A symbol by its number. -/
def symbol (b : Bindings) (s : SymbolIndex) : Symbol := b.symbols.getD s default

theorem symbol_of_size_le {b : Bindings} {s : SymbolIndex} (h : b.symbols.size ≤ s) :
    b.symbol s = default := by
  rw [symbol, Array.getD_eq_getD_getElem?, Array.getElem?_eq_none h, Option.getD_none]

/-- Changes a symbol. -/
def update (b : Bindings) (s : SymbolIndex) (f : Symbol → Symbol) : Bindings :=
  { b with symbols := b.symbols.modify s f }

/-- The names bound in the scope of a container. -/
def names (b : Bindings) (c : Container) : Table String SymbolIndex :=
  if c.isGlobal then b.globals else (b.locals.get? c.scope).getD []

/-- Binds a name in the scope of a container. -/
def bindName (b : Bindings) (c : Container) (name : String) (s : SymbolIndex) : Bindings :=
  if c.isGlobal then { b with globals := b.globals.insert name s }
  else { b with locals := b.locals.insert c.scope ((b.names c).insert name s) }

/-- Makes a symbol a member of another. -/
def addMember (b : Bindings) (owner : SymbolIndex) (name : String) (s : SymbolIndex) : Bindings :=
  b.update owner fun o => { o with members := o.members.insert name s }

/-- Adds a declaration to a symbol. -/
def addDeclaration (b : Bindings) (s : SymbolIndex) (file : FileIndex) (i : DeclIndex) : Bindings :=
  let b := b.update s (·.addSite (.declaration file i))
  { b with symbolOf := b.symbolOf.insert (file, i) s }

end Bindings

/-- Steps that bind. -/
abbrev Bind := StateM Bindings

namespace Bind

/-- A new symbol. -/
def allocate (s : Symbol) : Bind SymbolIndex :=
  modifyGet fun b => (b.symbols.size, { b with symbols := b.symbols.push s })

/-- A symbol of one kind that nothing declares yet. -/
def fresh (name : String) (kind : SymbolKind) (parent : Option SymbolIndex) : Symbol :=
  { name, kinds := [kind], declarations := [], parent, members := [], aliasOf := none }

/-- The symbol of a declaration in a container: one that its name has there already, or a new
one. A nameless default export is bound to no name. -/
def declareSymbol (c : Container) (file : FileIndex) (i : DeclIndex) (d : Declaration)
    (kind : SymbolKind) (exported : Bool) : Bind SymbolIndex := do
  let b ← get
  let name := d.name.text
  let isLocal := !(d.isDefaultExport && name == "default")
  let owner := if exported && !c.isGlobal && !d.isDefaultExport then c.owner else none
  let earlier := (owner.bind fun o => (b.symbol o).members.get? name) <|>
    (if isLocal then (b.names c).get? name else none)
  let s ← match earlier.filter fun s => !(b.symbol s).isAlias with
    | some s => do
      modify (·.update s (·.addKind kind))
      pure s
    | none => allocate (fresh name kind c.owner)
  modify (·.addDeclaration s file i)
  if isLocal then modify (·.bindName c name s)
  if let some o := owner then modify (·.addMember o name s)
  return s

/-- The symbol of an import in a container. It replaces an earlier import of its name, but yields
to a declaration. -/
def declareAlias (c : Container) (name : String) (target : AliasTarget) : Bind SymbolIndex := do
  let b ← get
  match ((b.names c).get? name).filter fun s => !(b.symbol s).isAlias with
  | some s => return s
  | none =>
    let s ← allocate
      { fresh name .importAlias c.owner with aliasOf := some { target, scope := c.scope } }
    modify (·.bindName c name s)
    return s

/-- The symbol of the module that is declared by a name in quotes. -/
def ambientModule (name : String) : Bind SymbolIndex := do
  match (← get).ambient.get? name with
  | some s => return s
  | none =>
    let s ← allocate (fresh name .ambientModule none)
    modify fun b => { b with ambient := b.ambient.insert name s }
    return s

/-- Binds a member of an enum. -/
def enumMember (file : FileIndex) (owner : SymbolIndex) (i : DeclIndex) (name : String) :
    Bind Unit := do
  let s ← match ((← get).symbol owner).members.get? name with
    | some s => pure s
    | none => do
      let s ← allocate (fresh name .enumMember (some owner))
      modify (·.addMember owner name s)
      pure s
  modify (·.addDeclaration s file i)

/-- Whether a block says itself what it exports. -/
def listsExports (statements : List Statement) : Bool :=
  statements.any fun
    | .exportNamed .. | .exportAssignment .. => true
    | _ => false

/-- The container for the body of a module, after the module itself is bound. -/
def moduleContainer (c : Container) (file : FileIndex) (i : DeclIndex) (d : Declaration)
    (naming : ModuleNaming) (body : Option (List Statement)) : Bind Container := do
  let scope := Site.declaration file i
  let silent := body.any fun statements => !listsExports statements
  match naming with
  | .global =>
    return { scope, owner := none, isGlobal := true, exportsAll := false, isAmbient := true }
  | .string =>
    let s ← ambientModule d.name.text
    modify (·.addDeclaration s file i)
    return { scope, owner := some s, isGlobal := false, exportsAll := silent, isAmbient := true }
  | .identifier =>
    let s ← declareSymbol c file i d .nameSpace (d.isExported || c.exportsAll)
    let isAmbient := c.isAmbient || d.modifiers.contains .declared
    return { scope, owner := some s, isGlobal := false, exportsAll := isAmbient && silent, isAmbient }

/-- Binds a declaration, the bodies of modules by `block`. -/
def declaration (block : Container → List Statement → Bind Unit) (f : SourceFile)
    (file : FileIndex) (c : Container) (i : DeclIndex) : Bind Unit := do
  let some d := f.declaration? i | return
  let exported := d.isExported || c.exportsAll
  match d.shape with
  | .module naming body =>
    let inner ← moduleContainer c file i d naming body
    body.forM (block inner)
  | .enum members =>
    let s ← declareSymbol c file i d .enum exported
    members.forM fun m => enumMember file s m (f.enumMember m).1
  | .enumMember _ => return
  | shape => discard <| declareSymbol c file i d shape.symbolKind exported

/-- What `import name = …` binds its name to. -/
def equalsTarget : ImportTarget → AliasTarget
  | .external specifier => .require specifier
  | .entity name => .entity name.texts

/-- Binds a statement, the bodies of modules by `block`. -/
def statement (block : Container → List Statement → Bind Unit) (f : SourceFile)
    (file : FileIndex) (c : Container) : Statement → Bind Unit
  | .declaration i => declaration block f file c i
  | .importFrom _ _ default nameSpace named specifier => do
    default.forM fun n => discard <| declareAlias c n.text (.export specifier "default")
    nameSpace.forM fun n => discard <| declareAlias c n.text (.nameSpace specifier)
    named.forM fun n => discard <| declareAlias c n.bound.text (.export specifier n.imported.text)
  | .importEquals _ name isExport target => do
    let s ← declareAlias c name.text (equalsTarget target)
    if isExport then c.owner.forM fun o => modify (·.addMember o name.text s)
  | .exportNamed .. | .exportAll .. | .exportAssignment .. | .unknown _ => return

/-- Binds the statements of a block, bodies in it at most `n` deep. -/
def block (f : SourceFile) (file : FileIndex) : Nat → Container → List Statement → Bind Unit
  | 0, _, _ => return
  | n + 1, c, statements => do
    if c.exportsAll then modify fun b => { b with exportingAll := b.exportingAll ++ [c.scope] }
    statements.forM (statement (block f file n) f file c)

/-- The name of a module file: its path without the ending of source files. -/
def moduleName (name : String) : String :=
  match fileEndings.find? fun e => e.isSource && e.text.toList.isSuffixOf name.toList with
  | some e => String.ofList (name.toList.take (name.toList.length - e.text.length))
  | none => name

/-- Binds a file. -/
def file (f : LoadedFile) (file : FileIndex) : Bind Unit := do
  let statements := f.source.statements
  let scope := Site.file file
  let bodies := f.source.declarations.size + 1
  if f.source.isModule then
    let s ← allocate
      { fresh (moduleName f.source.name) .sourceFile none with declarations := [scope] }
    block f.source file bodies
      { scope, owner := some s, isGlobal := false
        exportsAll := f.declares && !listsExports statements, isAmbient := f.declares } statements
    modify fun b => { b with modules := b.modules.insert file s }
  else
    block f.source file bodies
      { scope, owner := none, isGlobal := true, exportsAll := false, isAmbient := f.declares }
      statements

end Bind

/-- What the files of a program bind, file by file. -/
def Loaded.bind (l : Loaded) : Bindings :=
  ((l.files.toList.zipIdx.forM fun (f, i) => Bind.file f i : Bind Unit) .empty).2

end ApiSurface
