import ApiSurface.Extraction.Locations
import ApiSurface.Proofs.Descriptions
/-!
All exports of the modules of a graph, and the scan of them without a program that is asked: what a
program answers during the scan is what it would answer at its end, so the scan runs over the
exports that are known then.
-/
namespace ApiSurface

namespace MonadRel

variable {n : Type → Type} [Monad n] (R : MonadRel Id n)

theorem bindId {α β : Type} {x : α} {f : α → β} {q : n α} {k : α → n β}
    (h : R.rel (x : Id α) q) (hf : ∀ a, R.rel (f a : Id β) (k a)) :
    R.rel (f x : Id β) (q >>= k) :=
  R.bind h hf

/-- Asking for each entry of a list and keeping what comes of it. -/
theorem filterMap [LawfulMonad n] {α β : Type} {f : α → Option β} {q : α → n (Option β)}
    (h : ∀ a, R.rel (f a : Id (Option β)) (q a)) (l : List α) :
    R.rel (l.filterMap f : Id (List β)) (l.filterMapM q) := by
  induction l with
  | nil =>
    rw [List.filterMapM_nil]
    exact R.pure []
  | cons a l ih =>
    have hcons : (a :: l).filterMap f = (f a).toList ++ l.filterMap f := by
      rw [List.filterMap_cons]
      cases f a <;> rfl
    rw [List.filterMapM_cons, hcons]
    refine R.bindId (f := fun r : Option β => r.toList ++ l.filterMap f) (h a) fun r => ?_
    cases r with
    | none => exact ih
    | some b => exact R.bindId (f := fun bs => b :: bs) ih fun bs => R.pure (b :: bs)

end MonadRel

/-- An export of a module. -/
structure ModuleExport where
  parent : SymbolId
  name : String
  target : SymbolId
  deriving DecidableEq, Repr

namespace Graph

/-- The name of what an import comes to, if that is no import. -/
def followedId? (p : Program) : Option Resolution → Option SymbolId
  | some (.symbol t) => if (p.symbol t).isAlias then none else some (p.symbolId t)
  | _ => none

/-- The name of a symbol when its imports are followed, in a program with a memory. -/
def idAt? (p : Program) (memory : Program.Memory) (t : SymbolIndex) : Option SymbolId :=
  if (p.symbol t).isAlias then followedId? p (p.meaningAt memory t) else some (p.symbolId t)

/-- An entry of a table of exports, with the name of what it comes to. -/
def entryAt? (p : Program) (memory : Program.Memory) :
    String × Resolution → Option (String × SymbolId)
  | (name, .symbol t) => (idAt? p memory t).map (name, ·)
  | (_, .unresolved ..) => none

/-- What a symbol of the graph exports: nothing unless it is a module; what it is described to
export if it is described as one; and otherwise what its table of exports comes to, in a program
with a memory. -/
def exportsAt (g : Graph) (p : Program) (memory : Program.Memory) (id : SymbolId) :
    Table String SymbolId :=
  match g.handles.get? id with
  | none => []
  | some s =>
    if (p.symbol s).isModuleLike then
      match (g.symbols.get? id).map DocSymbol.shape with
      | some (.module exports) => exports
      | _ => (p.tableAt memory s).filterMap (entryAt? p memory)
    else []

/-- Whether a symbol of the graph is a module. -/
def isModule (g : Graph) (p : Program) (id : SymbolId) : Bool :=
  (g.handles.get? id).elim false fun s => (p.symbol s).isModuleLike

/-- Whether a symbol of the graph is to be shown below the entrypoints. -/
def isShown (g : Graph) (id : SymbolId) : Bool :=
  (g.handles.get? id).isSome && !g.roots.any (·.id == id)

/-- Whether a module is a file or declared by name. -/
def isModuleLevel (g : Graph) (p : Program) (id : SymbolId) : Bool :=
  (g.handles.get? id).elim false fun s =>
    (p.symbol s).isA .sourceFile || (p.symbol s).isA .ambientModule

/-- The path of the file that declares a module first. -/
def declaringPath (g : Graph) (p : Program) (id : SymbolId) : String :=
  (g.handles.get? id).elim "" fun s =>
    ((p.symbol s).declarations.head?.map p.relativePath).getD ""

/-- The exports of some modules, one module after the other. -/
def exportsOfAll (exports : SymbolId → Table String SymbolId) (modules : List SymbolId) :
    List ModuleExport :=
  modules.flatMap fun parent => (exports parent).map fun (name, target) => ⟨parent, name, target⟩

/-- The place at which an export shows a symbol, when so many exports come before it. -/
def siteOf (g : Graph) (p : Program) (e : ModuleExport) (order : ℕ) : ExportSite :=
  ⟨⟨e.name, e.parent⟩, g.isModuleLevel p e.parent, (g.declaringPath p e.parent).length, order⟩

/-- The symbols that some exports show, each with the place at which it is shown. -/
def sites (g : Graph) (p : Program) (exports : List ModuleExport) : List (SymbolId × ExportSite) :=
  (exports.filter fun e => g.isShown e.target).zipIdx.map fun (e, order) =>
    (e.target, g.siteOf p e order)

/-- Scans the modules of a queue from place `i` on, at most `n` of them, when it is known what they
export. -/
def scanKnown (g : Graph) (p : Program) (exports : SymbolId → Table String SymbolId) :
    ℕ → ℕ → ExportScan → ExportScan
  | 0, _, scan => scan
  | n+1, i, scan =>
    match scan.queue[i]? with
    | none => scan
    | some parent => g.scanKnown p exports n (i+1) ((exports parent).foldl
        (g.scanExport p parent (g.isModuleLevel p parent) (g.declaringPath p parent).length) scan)

variable {g : Graph} {p : Program} {last : Program.Memory}

theorem isShown_iff {id : SymbolId} :
    g.isShown id = true ↔ id ∈ g.handles.keys ∧ id ∉ g.roots.map (·.id) := by
  rw [isShown, Bool.and_eq_true, Option.isSome_iff_exists, ← Table.mem_keys_iff, Bool.not_eq_true',
    ← Bool.not_eq_true, List.any_eq_true]
  simp only [List.mem_map, beq_iff_eq]

theorem mem_exportsOfAll {exports : SymbolId → Table String SymbolId} {modules : List SymbolId}
    {e : ModuleExport} :
    e ∈ exportsOfAll exports modules ↔
      e.parent ∈ modules ∧ (e.name, e.target) ∈ exports e.parent := by
  rw [exportsOfAll, List.mem_flatMap]
  constructor
  · rintro ⟨parent, hparent, he⟩
    obtain ⟨entry, hentry, rfl⟩ := List.mem_map.mp he
    exact ⟨hparent, hentry⟩
  · rintro ⟨hparent, hentry⟩
    exact ⟨e.parent, hparent, List.mem_map.mpr ⟨_, hentry, rfl⟩⟩

theorem exists_export_of_mem_sites {passed : List ModuleExport} {id : SymbolId} {site : ExportSite}
    (h : (id, site) ∈ g.sites p passed) :
    ∃ e ∈ passed, g.isShown id = true ∧ e.target = id ∧ site.location = ⟨e.name, e.parent⟩ := by
  obtain ⟨⟨e, order⟩, he, heq⟩ := List.mem_map.mp h
  obtain ⟨rfl, rfl⟩ := (Prod.mk.injEq ..).mp heq
  obtain ⟨hmem, hshown⟩ := List.mem_filter.mp (List.fst_mem_of_mem_zipIdx he)
  exact ⟨e, hmem, hshown, rfl, rfl⟩

theorem exists_site_of_mem {passed : List ModuleExport} {e : ModuleExport} (he : e ∈ passed)
    (hshown : g.isShown e.target = true) : ∃ site, (e.target, site) ∈ g.sites p passed := by
  have hmem : e ∈ passed.filter fun e => g.isShown e.target := List.mem_filter.mpr ⟨he, hshown⟩
  obtain ⟨order, horder, heq⟩ := List.getElem_of_mem hmem
  refine ⟨g.siteOf p e order, List.mem_map.mpr ⟨(e, order), ?_, rfl⟩⟩
  rw [List.mem_zipIdx_iff_getElem?]
  exact heq ▸ List.getElem?_eq_getElem horder

theorem resolvedId?_answering (t : SymbolIndex) :
    (Program.answering last).rel (idAt? p last t : Id _) (resolvedId? p t) := by
  unfold resolvedId? idAt?
  by_cases ht : (p.symbol t).isAlias = true
  · simp only [ht, Bool.not_true, Bool.false_eq_true, ↓reduceIte]
    refine (Program.answering last).bindId (Program.resolve_answering last t) fun r => ?_
    rcases r with _ | ⟨u | _⟩ <;> exact (Program.answering last).pure _
  · simp only [ht, Bool.not_false, ↓reduceIte]
    exact (Program.answering last).pure _

/-- What a symbol exports whose description does not say so. -/
theorem table_answering (p : Program) (last : Program.Memory) (s : SymbolIndex) :
    (Program.answering last).rel (if (p.symbol s).isModuleLike then
      (p.tableAt last s).filterMap (entryAt? p last) else [] : Id (Table String SymbolId))
      (do
        if !(p.symbol s).isModuleLike then return []
        (← p.exportsOf s).filterMapM fun (name, r) =>
          match r with
          | .symbol t => return (← resolvedId? p t).map (name, ·)
          | .unresolved .. => return none) := by
  by_cases hlike : (p.symbol s).isModuleLike = true
  case neg =>
    simp only [hlike, Bool.not_false, Bool.false_eq_true, ↓reduceIte]
    exact (Program.answering last).pure []
  simp only [hlike, Bool.not_true, Bool.false_eq_true, ↓reduceIte]
  refine (Program.answering last).bindId (f := fun table => table.filterMap (entryAt? p last))
    (Program.exportsOf_answering last s) fun table => ?_
  refine (Program.answering last).filterMap (fun entry => ?_) table
  obtain ⟨name, t | _⟩ := entry
  · exact (Program.answering last).bindId (f := fun id => id.map (name, ·))
      (resolvedId?_answering t) fun id => (Program.answering last).pure _
  · exact (Program.answering last).pure _

theorem exportsOf_answering {id : SymbolId} {s : SymbolIndex} (hs : g.handles.get? id = some s)
    (hmodule : ∀ d, g.symbols.get? id = some d → d.shape.isModule = true →
      (p.symbol s).isModuleLike = true) :
    (Program.answering last).rel (g.exportsAt p last id : Id _) (g.exportsOf p id s) := by
  have htable := table_answering p last s
  unfold exportsOf exportsAt
  rw [hs]
  dsimp only
  cases hd : (g.symbols.get? id).map DocSymbol.shape with
  | none => exact htable
  | some shape =>
    cases shape with
    | module exports =>
      obtain ⟨d, hget, hshape⟩ := Option.map_eq_some_iff.mp hd
      have hlike := hmodule d hget (by rw [hshape]; rfl)
      simp only [hlike, ↓reduceIte]
      exact (Program.answering last).pure exports
    | _ => exact htable

/-- The scan of a program is the scan of what it would answer in the end. -/
theorem scanFrom_answering (hmodule : ∀ id d s, g.symbols.get? id = some d →
      g.handles.get? id = some s → d.shape.isModule = true → (p.symbol s).isModuleLike = true)
    (n i : ℕ) (scan : ExportScan) :
    (Program.answering last).rel (g.scanKnown p (g.exportsAt p last) n i scan : Id _)
      (g.scanFrom p n i scan) := by
  induction n generalizing i scan with
  | zero => exact (Program.answering last).pure scan
  | succ n ih =>
    unfold scanFrom scanKnown
    cases scan.queue[i]? with
    | none => exact (Program.answering last).pure scan
    | some parent =>
      dsimp only
      cases hs : g.handles.get? parent with
      | none =>
        have hnone : g.exportsAt p last parent = [] := by rw [exportsAt, hs]
        rw [hnone]
        exact ih (i+1) scan
      | some s =>
        have hexports : (Program.answering last).rel (g.exportsAt p last parent : Id _)
            (g.exportsOf p parent s) :=
          exportsOf_answering hs fun d hd => hmodule parent d s hd hs
        have hlevel : g.isModuleLevel p parent =
            ((p.symbol s).isA .sourceFile || (p.symbol s).isA .ambientModule) := by
          rw [isModuleLevel, hs]
          rfl
        have hpath : g.declaringPath p parent =
            ((p.symbol s).declarations.head?.map p.relativePath).getD "" := by
          rw [declaringPath, hs]
          rfl
        let next (exports : Table String SymbolId) : ExportScan := exports.foldl (g.scanExport p
          parent (g.isModuleLevel p parent) (g.declaringPath p parent).length) scan
        have hscan := (Program.answering last).bindId
          (f := fun exports => g.scanKnown p (g.exportsAt p last) n (i+1) (next exports))
          hexports fun exports => ih (i+1) (next exports)
        simp only [next, hlevel, hpath] at hscan
        rw [hlevel, hpath]
        exact hscan

end Graph

end ApiSurface
