import ApiSurface.Program
/-!
What modules export, what imports come to, and what dotted names mean. The rules are given over any
way of asking for the exports of another module; a program answers such questions from a memory of
tables computed before, and a module that is asked while its own table is being computed says that
it exports nothing.
-/
namespace ApiSurface

/-- What a name comes to. -/
inductive Resolution where
  | symbol (s : SymbolIndex)
  /-- A dotted name below a module that is not found; an empty one is the module. -/
  | unresolved (specifier name : String)
  deriving DecidableEq, Repr, Inhabited

/-- A name of a module that is not found, and a member of what it names. -/
def qualify (path member : String) : String :=
  if path.isEmpty then member else path ++ "." ++ member

/-- Exported names with what they come to, in order. -/
abbrev ExportTable := Table String Resolution

/-- The name under which a module exports what stands for it as a whole. -/
def exportEquals : String := "export="

/-- Looks up an export. What stands for the module is its default export if it has no other. -/
def ExportTable.find? (t : ExportTable) (name : String) : Option Resolution :=
  Table.get? t name <|> (if name == "default" then Table.get? t exportEquals else none)

/-- How many imports are followed one after the other. -/
def aliasLimit : Nat := 128

namespace Program

variable {m : Type → Type} [Monad m]

/-- What a module stands for as a value. -/
def moduleValueBy (ask : SymbolIndex → m ExportTable) (s : SymbolIndex) : m Resolution := do
  return (Table.get? (← ask s) exportEquals).getD (.symbol s)

/-- A member of a module or of an enum. -/
def memberBy (p : Program) (ask : SymbolIndex → m ExportTable) (s : SymbolIndex) (name : String) :
    m (Option Resolution) := do
  let exported ← if (p.symbol s).isModuleLike then
      ExportTable.find? <$> ask s <*> pure name
    else pure none
  return exported <|>
    (if (p.symbol s).isA .enum then ((p.symbol s).members.get? name).map .symbol else none)

/-- The member that a path of names leads to. -/
def membersBy (p : Program) (ask : SymbolIndex → m ExportTable) :
    Resolution → List String → m (Option Resolution)
  | r, [] => pure (some r)
  | .unresolved specifier path, name :: names =>
    membersBy p ask (.unresolved specifier (qualify path name)) names
  | .symbol s, name :: names => do
    match ← p.memberBy ask s name with
    | some r => membersBy p ask r names
    | none => return none

/-- What a dotted name in a scope means, when imports come to what `resolve` says. -/
def entityBy (p : Program) (ask : SymbolIndex → m ExportTable)
    (resolve : SymbolIndex → m (Option Resolution)) (scope : Site) :
    List String → m (Option Resolution)
  | [] => return none
  | name :: names => do
    let some s := p.lookupName scope name | return none
    let some r ← resolve s | return none
    p.membersBy ask r names

/-- What an import says about its name before it is followed further. -/
def importedBy (p : Program) (ask : SymbolIndex → m ExportTable) (file : FileIndex)
    (specifier : String) (name : Option String) : m (Option Resolution) :=
  match p.resolveModule file specifier, name with
  | none, name => return some (.unresolved specifier (name.getD ""))
  | some s, some name => return (← ask s).find? name
  | some s, none => return some (← moduleValueBy ask s)

/-- What a symbol comes to through at most `n` imports. -/
def aliasBy (p : Program) (ask : SymbolIndex → m ExportTable) :
    Nat → SymbolIndex → m (Option Resolution)
  | 0, _ => return none
  | n + 1, s =>
    match (p.symbol s).aliasOf with
    | none => return some (.symbol s)
    | some ⟨target, scope⟩ =>
      let file := scope.fileIndex
      let follow (r : Option Resolution) : m (Option Resolution) :=
        match r with
        | some (.symbol t) => aliasBy p ask n t
        | r => return r
      match target with
      | .export specifier name => do follow (← p.importedBy ask file specifier (some name))
      | .nameSpace specifier | .require specifier => do
        follow (← p.importedBy ask file specifier none)
      | .entity parts => p.entityBy ask (aliasBy p ask n) scope parts

/-- What a symbol comes to when its imports are followed. -/
def resolveBy (p : Program) (ask : SymbolIndex → m ExportTable) (s : SymbolIndex) :
    m (Option Resolution) := p.aliasBy ask aliasLimit s

/-- The bodies of a module: the scope of each with its statements. -/
def bodies (p : Program) (s : SymbolIndex) : List (Site × List Statement) :=
  (p.symbol s).declarations.filterMap fun site =>
    match site with
    | .file f => some (site, (p.source f).statements)
    | .declaration f i => ((p.source f).body? i).map (site, ·)

/-- The exports that the bodies of a module say themselves. -/
structure Explicit where
  table : ExportTable
  /-- Modules of which everything is exported, with the files that name them. -/
  stars : List (FileIndex × String)
  /-- What stands for the module. -/
  whole : Option Resolution
  deriving Inhabited

namespace Explicit

/-- Exports a name, or gives it another meaning. -/
def set (e : Explicit) (name : String) (r : Resolution) : Explicit :=
  { e with table := e.table.insert name r }

/-- Exports a name if there is something that it means. -/
def set? (e : Explicit) (name : String) (r : Option Resolution) : Explicit := r.elim e (e.set name)

end Explicit

/-- The name that a declaration of a body is exported under, if it is exported. -/
def exportedName? (p : Program) (scope : Site) (d : Declaration) : Option String :=
  match d.naming? with
  | some .string | some .global => none
  | _ =>
    if d.isExported || p.exportingAll.contains scope then
      some (if d.isDefaultExport then "default" else d.name.text)
    else none

/-- What a name in a scope comes to. -/
def localBy (p : Program) (ask : SymbolIndex → m ExportTable) (scope : Site) (name : String) :
    m (Option Resolution) :=
  match p.lookupName scope name with
  | some s => p.resolveBy ask s
  | none => return none

/-- The exports after a statement of a body. -/
def exportBy (p : Program) (ask : SymbolIndex → m ExportTable) (scope : Site) (e : Explicit) :
    Statement → m Explicit
  | .declaration i => do
    let file := scope.fileIndex
    let some d := (p.source file).declaration? i | return e
    match p.exportedName? scope d, p.symbolOf.get? (file, i) with
    | some name, some s => return { e with table := e.table.insertNew name (.symbol s) }
    | _, _ => return e
  | .importEquals _ name true _ => return e.set? name.text (← p.localBy ask scope name.text)
  | .exportNamed _ _ specifiers none =>
    specifiers.foldlM (fun e x => e.set? x.exported.text <$> p.localBy ask scope x.source.text) e
  | .exportNamed _ _ specifiers (some specifier) =>
    match p.resolveModule scope.fileIndex specifier with
    | some s => do
      let exports ← ask s
      return specifiers.foldl (fun e x => e.set? x.exported.text (exports.find? x.source.text)) e
    | none => return specifiers.foldl (fun e x =>
        e.set x.exported.text (.unresolved specifier x.source.text)) e
  | .exportAll _ (some name) specifier => return e.set name.text <|
      ((p.resolveModule scope.fileIndex specifier).map .symbol).getD (.unresolved specifier "")
  | .exportAll _ none specifier =>
    return { e with stars := e.stars ++ [(scope.fileIndex, specifier)] }
  | .exportAssignment _ isEquals target => do
    let some r ← p.entityBy ask (p.resolveBy ask) scope target.texts | return e
    if isEquals then return { e.set exportEquals r with whole := some r }
    return e.set "default" r
  | .importEquals .. | .importFrom .. | .unknown _ => return e

/-- The exports that the bodies of a module say themselves, body after body. -/
def explicitBy (p : Program) (ask : SymbolIndex → m ExportTable) (s : SymbolIndex) : m Explicit :=
  (p.bodies s).foldlM (fun e (scope, statements) => statements.foldlM (p.exportBy ask scope) e)
    ⟨[], [], none⟩

/-- A table with the entries of another that are not in it and whose names may be passed on. -/
def addMissing (t : ExportTable) (passes : String → Bool) (more : ExportTable) : ExportTable :=
  more.foldl (fun t (name, r) => if passes name then t.insertNew name r else t) t

/-- The exports of a module: those it says itself; then what the modules export that it passes on
whole, except for their default exports; then the members of what stands for it. -/
def exportsBy (p : Program) (ask : SymbolIndex → m ExportTable) (s : SymbolIndex) :
    m ExportTable := do
  let e ← p.explicitBy ask s
  let t ← e.stars.foldlM (fun t (file, specifier) => do
    match p.resolveModule file specifier with
    | some source =>
      return addMissing t (fun name => name != "default" && name != exportEquals) (← ask source)
    | none => return t) e.table
  match e.whole with
  | some (.symbol target) =>
    if target != s && (p.symbol target).isModuleLike then
      return addMissing t (· != exportEquals) (← ask target)
    return t
  | _ => return t

/-- Tables that were computed before. -/
abbrev Memory := Table SymbolIndex ExportTable

/-- Questions to a program that remembers the tables it computed. -/
abbrev Query := StateM Memory

/-- The exports of a module while the tables of the modules in `busy` are being computed, at most
`n` more of them. -/
def askWithin (p : Program) : Nat → List SymbolIndex → SymbolIndex → Query ExportTable
  | 0, _, _ => return []
  | n + 1, busy, s => do
    if let some t := (← get).get? s then return t
    -- this answer is not kept: the table of `s` is still to come
    if busy.contains s then return []
    let t ← p.exportsBy (p.askWithin n (s :: busy)) s
    modify (·.insert s t)
    return t

/-- The exports of a module. No more modules can be busy at once than there are symbols. -/
def exportsOf (p : Program) (s : SymbolIndex) : Query ExportTable :=
  p.askWithin (p.symbols.size + 1) [] s

/-- What a symbol comes to when its imports are followed. -/
def resolve (p : Program) (s : SymbolIndex) : Query (Option Resolution) :=
  p.resolveBy p.exportsOf s

/-- What a dotted name in a scope means. -/
def entity (p : Program) (scope : Site) (parts : List String) : Query (Option Resolution) :=
  p.entityBy p.exportsOf (p.resolveBy p.exportsOf) scope parts

/-- A member of a module or of an enum. -/
def member (p : Program) (s : SymbolIndex) (name : String) : Query (Option Resolution) :=
  p.memberBy p.exportsOf s name

/-- What a module stands for as a value. -/
def moduleValue (p : Program) (s : SymbolIndex) : Query Resolution := moduleValueBy p.exportsOf s

end Program

end ApiSurface
