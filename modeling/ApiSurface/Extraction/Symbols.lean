import ApiSurface.Extraction.ClassBody
/-!
Describing symbols. A symbol that is several things at once is described as the first of them in a
fixed order; one that cannot be described is shown as it is written, with the reason.
-/
namespace ApiSurface

/-- The kinds as which a symbol can be described, the ones that take precedence first. -/
def describedKinds : List SymbolKind :=
  [.classType, .enum, .function, .interface, .typeAlias, .variable, .nameSpace, .enumMember]

/-- The kind as which a symbol is described. All that has exports counts as a namespace. -/
def Symbol.describedKind? (s : Symbol) : Option SymbolKind :=
  describedKinds.find? fun k => if k = .nameSpace then s.isModuleLike else s.isA k

/-- A declaration in a file. -/
structure Located where
  file : FileIndex
  index : DeclIndex
  declaration : Declaration
  deriving Inhabited

namespace Located

/-- The first documentation of some declarations. -/
def firstDoc (ds : List Located) : Option String := ds.findSome? (·.declaration.doc)

end Located

/-- Declared overloads without the body behind them: of several, those without a body, unless all
have one. -/
def overloads {α : Type} (hasBody : α → Bool) (items : List α) : List α :=
  if items.length < 2 || items.all hasBody then items else items.filter fun x => !hasBody x

/-- The only module that a block exports from, when it does nothing else. -/
def onlySource? (statements : List Statement) : Option String :=
  let sources := statements.map fun
    | .exportNamed _ _ _ specifier => specifier
    | .exportAll _ none specifier => some specifier
    | _ => none
  match sources with
  | [] => none
  | first :: others => if others.all (· == first) then first else none

/-- How many modules are asked for documentation after the first. -/
def docHops : Nat := 16

namespace Program

/-- The declarations of a symbol; a whole file is none. -/
def located (p : Program) (s : SymbolIndex) : List Located :=
  (p.symbol s).declarations.filterMap fun site =>
    match site with
    | .declaration file i => ((p.source file).declaration? i).map (⟨file, i, ·⟩)
    | .file _ => none

/-- The documentation of a file, or that of the only module it exports from, through at most `n`
files. -/
def fileDocs (p : Program) : Nat → FileIndex → Option String
  | 0, _ => none
  | n + 1, file =>
    match (p.source file).doc with
    | some doc => some doc
    | none => do
      let specifier ← onlySource? (p.source file).statements
      let target ← p.resolveModule file specifier
      let site ← (p.symbol target).declarations.head?
      p.fileDocs n site.fileIndex

/-- The documentation of the file that a module is. -/
def moduleDocs (p : Program) (s : SymbolIndex) : Option String := do
  let file ← (p.symbol s).declarations.findSome? fun site =>
    match site with
    | .file f => some f
    | .declaration .. => none
  p.fileDocs (docHops + 1) file

/-- The value of an enum member, by its place in its enum. -/
def enumValue? (p : Program) (d : Located) : Option EnumValue := do
  let source := p.source d.file
  let parent ← source.declaration? (← d.declaration.parent)
  match parent.shape with
  | .enum members => ((source.enumValues members)[← members.idxOf? d.index]?).join
  | _ => none

end Program

/-- A symbol that cannot be described. -/
def Program.undescribed (p : Program) (name : String) (ds : List Located) (reason : String) :
    DocSymbol :=
  let content := ds.head?.elim "" fun d =>
    String.ofList (trim ((p.source d.file).textOf d.declaration.span).toList)
  ⟨name, ds.head?.bind (·.declaration.doc), .unknown content reason⟩

namespace Describe

/-- What all types in a declaration are described by. -/
structure Depth where
  type : TypeExpr → Describe DocType
  inferred : InferredType → Describe DocType

/-- Types described down to a depth. -/
def Depth.ofLimit (limit : Nat) : Depth := ⟨typeWithin (limit + 1), inferredWithin (limit + 1)⟩

variable (by_ : Depth)

/-- Functions: the signatures that can be called. -/
def functions (ds : List Located) : Describe DocShape := do
  let declared := ds.filterMap fun d =>
    match d.declaration.shape with
    | .function s body => some (d, s, body)
    | _ => none
  let kept := overloads (fun (_, _, body) => body.isSome) declared
  let signatures ← kept.mapM fun (d, s, body) =>
    inDeclaration d.file d.index [] do
      let returned := s.inferReturn body (d.declaration.modifiers.contains .async)
      signature by_.type by_.inferred s d.declaration.doc false returned
  return .function signatures

/-- An interface, of all its declarations together. -/
def interfaces (ds : List Located) : Describe DocShape := do
  let (params, bases, members) ← ds.foldlM (fun (params, bases, members) d =>
    match d.declaration.shape with
    | .interface typeParameters extends_ ms =>
      inDeclaration d.file d.index (typeParameters.map (·.name.text)) do
        let params ← if params.isEmpty then typeParams by_.type typeParameters else pure params
        let bases := bases ++ (← extends_.mapM by_.type)
        return (params, bases, members ++ (← Describe.members by_.type by_.inferred ms))
    | _ => return (params, bases, members)) ([], [], [])
  return .interface params bases members

/-- What is shown of a symbol that is of a kind but is nowhere declared as such. -/
def undeclared (kind : SymbolKind) : DocShape :=
  let word := match kind with
    | .classType => "class"
    | .typeAlias => "type alias"
    | _ => "variable"
  .unknown "" s!"{word} without declaration"

/-- What one declaration declares, other than functions, interfaces, enums and modules. -/
def single (d : Located) : Describe DocShape :=
  match d.declaration.shape with
  | .variable kind t initial => inDeclaration d.file d.index [] do
    return .variable kind (← by_.inferred (inferVariable kind t initial))
  | .typeAlias typeParameters t =>
    inDeclaration d.file d.index (typeParameters.map (·.name.text)) do
      let params ← typeParams by_.type typeParameters
      return .typeAlias params (← by_.type t)
  | .class typeParameters extends_ implements members =>
    inDeclaration d.file d.index (typeParameters.map (·.name.text)) do
      let params ← typeParams by_.type typeParameters
      let base ← optional by_.type extends_
      let implemented ← implements.mapM by_.type
      let parts ← classParts by_.type by_.inferred members
      return .class params base implemented parts.constructors parts.allMembers parts.hasPrivate
        (d.declaration.modifiers.contains .abstracted)
  | _ => return undeclared d.declaration.shape.symbolKind

/-- An enum, of all its declarations together. -/
def enums (ds : List Located) : Describe DocShape := do
  let members := ds.flatMap fun d =>
    match d.declaration.shape with
    | .enum members => members.map (d.file, ·)
    | _ => []
  let isConst := ds.any (·.declaration.modifiers.contains .const)
  let ids ← members.filterMapM fun site => walking fun p =>
    (p.symbolOf.get? site).mapM (Walk.referSymbol p)
  return .enum isConst ids.eraseDups

/-- A module: what it exports. -/
def exported (s : SymbolIndex) : Describe DocShape := do
  let table ← walking fun p => Walk.ask (p.exportsOf s)
  let exports ← table.mapM fun (name, r) => return (name, ← walking fun p => Walk.refer p r)
  return .module exports

/-- Mentions what a namespace exports that is described as something else. -/
def merged (s : SymbolIndex) : Describe Unit := do
  let _ ← exported s

end Describe

namespace Walk

/-- Takes a step that describes. -/
def describing {α : Type} (p : Program) (step : Describe α) :
    StateM Walk (Except DescribeError α) :=
  modifyGet fun w =>
    let (r, d) := ((step ⟨p, default⟩).run).run ⟨w, []⟩
    (r, d.walk)

/-- The documentation and the shape of a symbol of some kind. -/
def shape (p : Program) (limit : Nat) (s : SymbolIndex) (kind : SymbolKind) (ds : List Located) :
    StateM Walk (Except DescribeError (Option String × DocShape)) := do
  let depth := Describe.Depth.ofLimit limit
  let docs := match kind with
    | .variable | .typeAlias | .classType => ds.head?.bind (·.declaration.doc)
    | .nameSpace => p.moduleDocs s <|> Located.firstDoc ds
    | _ => Located.firstDoc ds
  let step : Describe DocShape := match kind with
    | .function => Describe.functions depth ds
    | .interface => Describe.interfaces depth ds
    | .enum => Describe.enums ds
    | .nameSpace => Describe.exported s
    | .enumMember => return .enumMember (ds.head?.bind p.enumValue?)
    | _ => ds.head?.elim (return Describe.undeclared kind) (Describe.single depth)
  return (← describing p step).map (docs, ·)

/-- Describes a symbol. -/
def describe (p : Program) (limit : Nat) (s : SymbolIndex) : StateM Walk DocSymbol := do
  let symbol := p.symbol s
  let all := p.located s
  match symbol.describedKind? with
  | none => return p.undescribed symbol.name all "unsupported declaration kind"
  | some kind =>
    let r ← shape p limit s kind (all.filter (·.declaration.shape.symbolKind = kind))
    if kind ≠ .nameSpace && symbol.isA .nameSpace then
      discard <| describing p (Describe.merged s)
    match r with
    | .ok (docs, shape) => return ⟨symbol.name, docs, shape⟩
    | .error e => return p.undescribed symbol.name all e.message

end Walk

end ApiSurface
