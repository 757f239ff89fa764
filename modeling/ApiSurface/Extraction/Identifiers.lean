import ApiSurface.Extraction.Graph
/-!
Readable names for the symbols of a graph. A root is called by its specifier, an exported symbol
`parent.name`, a member of an enum `enum.name`, and any other symbol `owner~name` after the first
symbol that mentions it and has a name. Names are given in rounds until nothing more can be named;
what is left keeps its bare name. No two symbols get the same name: those that would are numbered.
-/
namespace ApiSurface

/-- The names of symbols, and the symbols that are shown as part of others. -/
structure Identifiers where
  identifiers : Table SymbolId String
  inner : Table SymbolId (List SymbolId)
  deriving DecidableEq, Repr, Inhabited

/-- The most rounds in which names are given. -/
def placementRounds : Nat := 10000

/-- A name that a symbol could have. -/
structure Candidate where
  id : SymbolId
  name : String
  /-- The symbol that it is shown as part of. -/
  owner : Option SymbolId
  deriving DecidableEq, Repr, Inhabited

/-- The order in which names are given: by name, then by symbol. -/
def Candidate.le (a b : Candidate) : Bool :=
  decide (a.name < b.name) || (a.name == b.name && decide (a.id ≤ b.id))

/-- A name with a number behind it. -/
def numbered (name : String) (n : Nat) : String := s!"{name}-{n}"

/-- The first free numbered name from number `i` on, among `n` of them. -/
def firstFree (taken : List String) (name : String) (i : Nat) : Nat → String
  | 0 => numbered name i
  | n + 1 =>
    if taken.contains (numbered name i) then firstFree taken name (i + 1) n else numbered name i

/-- A free name. One of as many numbers as there are names taken is free, or the next. -/
def freeName (taken : List String) (name : String) : String := firstFree taken name 1 taken.length

/-- Names while they are given out. -/
structure Naming where
  taken : List String
  /-- The candidates that have a name. -/
  named : List Candidate
  /-- The candidates whose name was taken before they came. -/
  waiting : List Candidate
  deriving Inhabited

namespace Naming

/-- Gives a candidate its name, unless that is taken. -/
def keep (s : Naming) (c : Candidate) : Naming :=
  if s.taken.contains c.name then { s with waiting := s.waiting ++ [c] }
  else { s with taken := c.name :: s.taken, named := s.named ++ [c] }

/-- Gives a candidate its name with the first free number behind it. -/
def number (s : Naming) (c : Candidate) : Naming :=
  let name := freeName s.taken c.name
  { s with taken := name :: s.taken, named := s.named ++ [{ c with name }] }

end Naming

/-- Candidates with names that nobody else has, given those that are taken: the first one of each
name keeps it, and then the others are numbered. -/
def distinctNames (taken : List String) (candidates : List Candidate) : List Candidate :=
  let s := (candidates.mergeSort Candidate.le).foldl Naming.keep ⟨taken, [], []⟩
  (s.waiting.foldl Naming.number s).named

/-- The names given so far. -/
structure Placement where
  placed : Table SymbolId String
  taken : List String
  inner : Table SymbolId (List SymbolId)
  deriving Inhabited

namespace Placement

/-- Gives a candidate its name. -/
def place (s : Placement) (c : Candidate) : Placement :=
  { placed := s.placed.insert c.id c.name
    taken := c.name :: s.taken
    inner := c.owner.elim s.inner fun owner =>
      s.inner.insert owner ((s.inner.get? owner).getD [] ++ [c.id]) }

/-- Gives candidates names that nobody else has. -/
def placeAll (s : Placement) (candidates : List Candidate) : Placement :=
  (distinctNames s.taken candidates).foldl place s

end Placement

namespace Graph

/-- The enum that lists a symbol as its member, the last one of several. -/
def enumOf? (g : Graph) (id : SymbolId) : Option SymbolId :=
  (g.symbols.reverse.find? fun (_, s) =>
    match s.shape with
    | .enum _ members => members.contains id
    | _ => false).map (·.1)

/-- The name under which a symbol is declared. -/
def nameOf (g : Graph) (id : SymbolId) : String := ((g.symbols.get? id).map (·.name)).getD ""

/-- The name that a symbol could have now, given where symbols are shown. -/
def candidate? (g : Graph) (locations : Table SymbolId ExportLocation)
    (placed : Table SymbolId String) (id : SymbolId) : Option Candidate :=
  match locations.get? id with
  | some l => (placed.get? l.parent).map fun parent => ⟨id, s!"{parent}.{l.exportName}", none⟩
  | none =>
    match g.enumOf? id with
    | some owner => (placed.get? owner).map fun parent => ⟨id, s!"{parent}.{g.nameOf id}", none⟩
    | none => do
      let owner ← ((g.references.get? id).getD []).find? placed.has
      return ⟨id, s!"{← placed.get? owner}~{g.nameOf id}", some owner⟩

/-- The symbols that have no name. -/
def unnamed (g : Graph) (s : Placement) : List SymbolId :=
  g.symbols.keys.filter fun id => !s.placed.has id

/-- Names given in at most `n` rounds. -/
def placeRounds (g : Graph) (locations : Table SymbolId ExportLocation) :
    Nat → Placement → Placement
  | 0, s => s
  | n + 1, s =>
    match (g.unnamed s).filterMap (g.candidate? locations s.placed) with
    | [] => s
    | candidates => placeRounds g locations n (s.placeAll candidates)

/-- The placement of the roots. -/
def rootPlacement (g : Graph) : Placement :=
  g.roots.foldl (fun s root => s.place ⟨root.id, root.specifier, none⟩) ⟨[], [], []⟩

/-- Gives every symbol a name. -/
def identifiers (g : Graph) (locations : Table SymbolId ExportLocation) : Identifiers :=
  let s := g.placeRounds locations placementRounds g.rootPlacement
  let s := s.placeAll ((g.unnamed s).map fun id => ⟨id, g.nameOf id, none⟩)
  ⟨s.placed.sorted, s.inner.sorted⟩

end Graph

end ApiSurface
