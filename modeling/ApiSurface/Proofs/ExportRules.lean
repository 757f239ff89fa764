import ApiSurface.Proofs.ExportTables
/-!
What the table of a module means. The bodies of a module say one thing after the other about its
exports, and so do the tables of the modules that it passes on. A name stands where it is first
mentioned; it means what was stated of it last, or else what was offered for it first. The tables
of all modules that settle are the only ones in which each follows from the others in this way, and
they are what a program answers.
-/
namespace ApiSurface

namespace Table

variable {κ α : Type} [BEq κ] [LawfulBEq κ]

theorem get?_insertNew (t : Table κ α) (key : κ) (value : α) (other : κ) :
    (t.insertNew key value).get? other =
      (t.get? other <|> if other == key then some value else none) := by
  unfold insertNew
  split
  · next h =>
    obtain ⟨value', hvalue⟩ := Option.isSome_iff_exists.mp h
    by_cases hkey : other = key
    · rw [hkey, hvalue]
      rfl
    · simp [hkey]
  · next h =>
    have hnone : t.get? key = none := by simpa [has] using h
    rw [get?_insert]
    by_cases hkey : other = key
    · rw [hkey, hnone]
      simp
    · simp [hkey]

theorem eraseDups_append_singleton (keys : List κ) (key : κ) [Decidable (key ∈ keys)] :
    (keys ++ [key]).eraseDups = if key ∈ keys then keys.eraseDups else keys.eraseDups ++ [key] := by
  rw [List.eraseDups_append]
  split
  · next h => simp [List.removeAll, h]
  · next h => simp [List.removeAll, h, List.eraseDups_cons]

/-- An insertion of either kind puts a key that is not there behind the others. -/
theorem keys_insert (t : Table κ α) (key : κ) (value : α) :
    (t.insert key value).keys = if key ∈ t.keys then t.keys else t.keys ++ [key] := by
  split
  · next h => exact keys_insert_of_mem h
  · next h => rw [insert_of_not_mem h, keys, List.map_append]; rfl

theorem keys_insertNew (t : Table κ α) (key : κ) (value : α) :
    (t.insertNew key value).keys = if key ∈ t.keys then t.keys else t.keys ++ [key] := by
  unfold insertNew
  split
  · next h => rw [if_pos (has_iff.mp h)]
  · exact keys_insert t key value

/-- A table is what it gives for its keys in order. -/
theorem eq_filterMap {t : Table κ α} (hd : t.keys.Nodup) :
    t = t.keys.filterMap fun key => (t.get? key).map (key, ·) := by
  have hentry : ∀ entry ∈ t, (t.get? entry.1).map (entry.1, ·) = some entry := fun entry hmem => by
    rw [(get?_eq_some_iff hd).mpr hmem, Option.map_some]
  rw [keys, List.filterMap_map]
  calc t = t.filterMap some := List.filterMap_some.symm
    _ = t.filterMap ((fun key => (t.get? key).map (key, ·)) ∘ (·.1)) :=
        List.filterMap_congr fun entry hmem => (hentry entry hmem).symm

end Table

/-- Something said about the exports of a module. -/
inductive ExportSaying where
  /-- A meaning for a name that has none yet. -/
  | offers (name : String) (r : Resolution)
  /-- A meaning for a name, whatever was said about it before. -/
  | states (name : String) (r : Resolution)

namespace ExportSaying

/-- The name that something is said about. -/
def name : ExportSaying → String
  | offers name _ | states name _ => name

/-- What is offered for a name. -/
def offered? (name : String) : ExportSaying → Option Resolution
  | offers other r => if name == other then some r else none
  | states .. => none

/-- What is stated of a name. -/
def stated? (name : String) : ExportSaying → Option Resolution
  | offers .. => none
  | states other r => if name == other then some r else none

/-- What a name means after all that was said: what was stated of it last, or else what was offered
for it first. -/
def meaning (said : List ExportSaying) (name : String) : Option Resolution :=
  said.reverse.findSome? (stated? name) <|> said.findSome? (offered? name)

/-- The names in the order in which they are first mentioned, with what they mean. -/
def table (said : List ExportSaying) : ExportTable :=
  (said.map name).eraseDups.filterMap fun name => (meaning said name).map (name, ·)

/-- A table after something more is said. -/
def apply (t : ExportTable) : ExportSaying → ExportTable
  | offers name r => t.insertNew name r
  | states name r => t.insert name r

theorem keys_apply (t : ExportTable) (x : ExportSaying) :
    (apply t x).keys = if x.name ∈ t.keys then t.keys else t.keys ++ [x.name] := by
  cases x with
  | offers name r => exact Table.keys_insertNew t name r
  | states name r => exact Table.keys_insert t name r

theorem get?_apply (t : ExportTable) (x : ExportSaying) (name : String) :
    (apply t x).get? name = (stated? name x <|> t.get? name <|> offered? name x) := by
  cases x with
  | offers other r => exact Table.get?_insertNew t other r name
  | states other r =>
    rw [apply, Table.get?_insert, stated?, offered?]
    split <;> simp

theorem keys_foldl_apply (said : List ExportSaying) :
    (said.foldl apply []).keys = (said.map name).eraseDups := by
  induction said using List.reverseRecOn with
  | nil => rfl
  | append_singleton said x ih =>
    rw [List.foldl_append, List.foldl_cons, List.foldl_nil, keys_apply, ih, List.map_append,
      List.map_singleton, Table.eraseDups_append_singleton]
    simp only [List.mem_eraseDups]

theorem get?_foldl_apply (said : List ExportSaying) (name : String) :
    (said.foldl apply []).get? name = meaning said name := by
  induction said using List.reverseRecOn with
  | nil => rfl
  | append_singleton said x ih =>
    rw [List.foldl_append, List.foldl_cons, List.foldl_nil, get?_apply, ih, meaning, meaning,
      List.reverse_append, List.findSome?_append, List.findSome?_append]
    simp [Option.or_assoc]

/-- Saying one thing after the other makes the table of what was said. -/
theorem foldl_apply (said : List ExportSaying) : said.foldl apply [] = table said := by
  have hnodup : (said.foldl apply []).keys.Nodup := by
    induction said using List.reverseRecOn with
    | nil => exact List.nodup_nil
    | append_singleton said x ih =>
      rw [List.foldl_append, List.foldl_cons, List.foldl_nil]
      cases x with
      | offers name r =>
        rw [apply, Table.insertNew]
        split
        · exact ih
        · exact Table.keys_insert_nodup ih name r
      | states name r => exact Table.keys_insert_nodup ih name r
  rw [Table.eq_filterMap hnodup, keys_foldl_apply, table]
  exact List.filterMap_congr fun name _ => by rw [get?_foldl_apply]

theorem get?_table (said : List ExportSaying) (name : String) :
    (table said).get? name = meaning said name := by
  rw [← foldl_apply, get?_foldl_apply]

end ExportSaying

namespace Program

variable (p : Program) (tables : SymbolIndex → ExportTable)

/-! ### What bodies say -/

/-- What a name in a scope comes to, by the tables of the modules. -/
def nameIn (scope : Site) (name : String) : Option Resolution :=
  (p.lookupName scope name).bind fun s => Id.run (p.resolveBy tables s)

/-- What a dotted name in a scope comes to, by the tables of the modules. -/
def pathIn (scope : Site) (parts : List String) : Option Resolution :=
  Id.run (p.entityBy tables (p.resolveBy (m := Id) tables) scope parts)

/-- What a name of a module comes to, by the tables of the modules. -/
def memberIn (file : FileIndex) (specifier name : String) : Option Resolution :=
  match p.resolveModule file specifier with
  | some s => (tables s).find? name
  | none => some (.unresolved specifier name)

/-- What a statement says about the exports of the module in whose body it stands: a declaration
offers its name, an export states names. -/
def sayings (scope : Site) : Statement → List ExportSaying
  | .declaration i =>
    match (p.source scope.fileIndex).declaration? i with
    | none => []
    | some d =>
      match p.exportedName? scope d, p.symbolOf.get? (scope.fileIndex, i) with
      | some name, some s => [.offers name (.symbol s)]
      | _, _ => []
  | .importEquals _ name true _ =>
    ((p.nameIn tables scope name.text).map (.states name.text)).toList
  | .exportNamed _ _ specifiers none => specifiers.filterMap fun x =>
    (p.nameIn tables scope x.source.text).map (.states x.exported.text)
  | .exportNamed _ _ specifiers (some specifier) => specifiers.filterMap fun x =>
    (p.memberIn tables scope.fileIndex specifier x.source.text).map (.states x.exported.text)
  | .exportAll _ (some name) specifier =>
    [.states name.text (((p.resolveModule scope.fileIndex specifier).map .symbol).getD
      (.unresolved specifier ""))]
  | .exportAssignment _ isEquals target =>
    ((p.pathIn tables scope target.texts).map
      (.states (if isEquals then exportEquals else "default"))).toList
  | .exportAll _ none _ | .importEquals _ _ false _ | .importFrom .. | .unknown _ => []

/-- The module that a statement passes on whole, with the file that names it. -/
def star? (scope : Site) : Statement → Option (FileIndex × String)
  | .exportAll _ none specifier => some (scope.fileIndex, specifier)
  | _ => none

/-- What a statement says that its module stands for. -/
def standsFor? (scope : Site) : Statement → Option Resolution
  | .exportAssignment _ true target => p.pathIn tables scope target.texts
  | _ => none

/-- The statements of a module, each with the scope it stands in. -/
def statementsOf (s : SymbolIndex) : List (Site × Statement) :=
  (p.bodies s).flatMap fun (scope, statements) => statements.map (scope, ·)

/-- What the bodies of a module say themselves. -/
def explicitSayings (s : SymbolIndex) : List ExportSaying :=
  (p.statementsOf s).flatMap fun (scope, statement) => p.sayings tables scope statement

/-- The modules that a module passes on whole, in the order in which it names them. -/
def starSources (s : SymbolIndex) : List SymbolIndex :=
  ((p.statementsOf s).filterMap fun (scope, statement) => star? scope statement).filterMap
    fun (file, specifier) => p.resolveModule file specifier

/-- What a table offers to a module that passes some of its names on. -/
def offering (passes : String → Bool) (t : ExportTable) : List ExportSaying :=
  (t.filter fun entry => passes entry.1).map fun entry => .offers entry.1 entry.2

/-- What the modules offer that a module passes on whole: all but their default exports. -/
def starSayings (s : SymbolIndex) : List ExportSaying :=
  (p.starSources s).flatMap fun source =>
    offering (fun name => name != "default" && name != exportEquals) (tables source)

/-- What a module stands for, as its bodies say last. -/
def standsFor (s : SymbolIndex) : Option Resolution :=
  ((p.statementsOf s).filterMap fun (scope, statement) =>
    p.standsFor? tables scope statement).getLast?

/-- The module that a module stands for, if it is another one. -/
def wholeSource? (s : SymbolIndex) : Option SymbolIndex :=
  match p.standsFor tables s with
  | some (.symbol target) =>
    if target != s && (p.symbol target).isModuleLike then some target else none
  | _ => none

/-- What the module offers that a module stands for. -/
def wholeSayings (s : SymbolIndex) : List ExportSaying :=
  (p.wholeSource? tables s).elim [] fun target => offering (· != exportEquals) (tables target)

/-- The table of a module by the tables of the others: what its bodies say comes first, then what
is offered by the modules that it passes on, then by the one it stands for. -/
def ruledTable (s : SymbolIndex) : ExportTable :=
  ExportSaying.table
    (p.explicitSayings tables s ++ p.starSayings tables s ++ p.wholeSayings tables s)

/-! ### Computing a table -/

variable {p tables}

theorem localBy_run (scope : Site) (name : String) :
    Id.run (p.localBy tables scope name) = p.nameIn tables scope name := by
  unfold localBy nameIn
  cases p.lookupName scope name <;> rfl

theorem set?_eq (e : Explicit) (name : String) (r : Option Resolution) :
    e.set? name r =
      { e with table := (r.map (ExportSaying.states name)).toList.foldl ExportSaying.apply e.table } := by
  cases r <;> rfl

/-- Several names with what each comes to, if it comes to something. -/
theorem foldl_set? {α : Type} (name : α → String) (meaning : α → Option Resolution) (xs : List α)
    (e : Explicit) : xs.foldl (fun e x => e.set? (name x) (meaning x)) e =
      { e with table := (xs.filterMap fun x =>
          (meaning x).map (ExportSaying.states (name x))).foldl ExportSaying.apply e.table } := by
  induction xs generalizing e with
  | nil => rfl
  | cons x xs ih =>
    rw [List.foldl_cons, ih, set?_eq, List.filterMap_cons]
    cases meaning x <;> rfl

/-- A statement adds to what was found before what it says. -/
theorem exportBy_run (scope : Site) (e : Explicit) (statement : Statement) :
    Id.run (p.exportBy tables scope e statement) =
      { table := (p.sayings tables scope statement).foldl ExportSaying.apply e.table
        stars := e.stars ++ (star? scope statement).toList
        whole := p.standsFor? tables scope statement <|> e.whole } := by
  have hkeep : e = { table := e.table, stars := e.stars ++ [], whole := e.whole } := by
    rw [List.append_nil]
  cases statement with
  | declaration i =>
    unfold exportBy sayings
    dsimp only
    cases (p.source scope.fileIndex).declaration? i with
    | none => exact hkeep
    | some d =>
      dsimp only
      cases p.exportedName? scope d with
      | none => exact hkeep
      | some name =>
        cases p.symbolOf.get? (scope.fileIndex, i) with
        | none => exact hkeep
        | some s => exact congrArg (Explicit.mk _ · _) (List.append_nil _).symm
  | importEquals span name isExport target =>
    cases isExport with
    | false => exact hkeep
    | true =>
      show e.set? name.text (Id.run (p.localBy tables scope name.text)) = _
      rw [localBy_run, set?_eq]
      exact congrArg (Explicit.mk _ · _) (List.append_nil _).symm
  | exportNamed span typeOnly specifiers specifier? =>
    cases specifier? with
    | none =>
      have hfold := foldl_set? (fun x : ExportSpecifier => x.exported.text)
        (fun x => p.nameIn tables scope x.source.text) specifiers e
      refine .trans ?_ (hfold.trans (congrArg (Explicit.mk _ · _) (List.append_nil _).symm))
      show Id.run (specifiers.foldlM (fun e x =>
        e.set? x.exported.text <$> p.localBy (m := Id) tables scope x.source.text) e) = _
      rw [List.idRun_foldlM]
      simp only [Id.run_map, localBy_run]
    | some specifier =>
      have hfold := foldl_set? (fun x : ExportSpecifier => x.exported.text)
        (fun x => p.memberIn tables scope.fileIndex specifier x.source.text) specifiers e
      refine .trans ?_ (hfold.trans (congrArg (Explicit.mk _ · _) (List.append_nil _).symm))
      unfold exportBy memberIn
      dsimp only
      cases p.resolveModule scope.fileIndex specifier <;> rfl
  | exportAll span exportedAs specifier =>
    cases exportedAs with
    | none => rfl
    | some name => exact congrArg (Explicit.mk _ · _) (List.append_nil _).symm
  | exportAssignment span isEquals target =>
    have hrun : Id.run (p.exportBy tables scope e (.exportAssignment span isEquals target)) =
        match p.pathIn tables scope target.texts with
        | none => e
        | some r =>
          if isEquals then { e.set exportEquals r with whole := some r } else e.set "default" r := by
      unfold exportBy pathIn
      dsimp only [Id.run_bind]
      cases Id.run (p.entityBy tables (p.resolveBy (m := Id) tables) scope target.texts) with
      | none => rfl
      | some r => cases isEquals <;> rfl
    rw [hrun]
    cases hr : p.pathIn tables scope target.texts with
    | none => cases isEquals <;> simp [sayings, standsFor?, star?, hr]
    | some r =>
      cases isEquals <;>
        simp [sayings, standsFor?, star?, hr, Explicit.set, ExportSaying.apply]
  | importFrom span typeOnly default nameSpace named specifier => exact hkeep
  | unknown span => exact hkeep

/-- The bodies of a module, statement after statement. -/
theorem explicitBy_run (s : SymbolIndex) :
    Id.run (p.explicitBy tables s) =
      { table := ExportSaying.table (p.explicitSayings tables s)
        stars := (p.statementsOf s).filterMap fun (scope, statement) => star? scope statement
        whole := p.standsFor tables s } := by
  have hall (statements : List (Site × Statement)) (e : Explicit) :
      statements.foldl (fun e x => Id.run (p.exportBy tables x.1 e x.2)) e =
        { table := (statements.flatMap fun x => p.sayings tables x.1 x.2).foldl
            ExportSaying.apply e.table
          stars := e.stars ++ statements.filterMap fun x => star? x.1 x.2
          whole := (statements.filterMap fun x => p.standsFor? tables x.1 x.2).getLast? <|>
            e.whole } := by
    induction statements generalizing e with
    | nil => simp
    | cons x statements ih =>
      rw [List.foldl_cons, ih, exportBy_run, List.flatMap_cons, List.foldl_append,
        List.filterMap_cons, List.filterMap_cons]
      cases star? x.1 x.2 <;> cases p.standsFor? tables x.1 x.2 <;>
        simp [List.getLast?_cons]
  have hbodies : Id.run (p.explicitBy tables s) = (p.statementsOf s).foldl
      (fun e x => Id.run (p.exportBy tables x.1 e x.2)) ⟨[], [], none⟩ := by
    rw [statementsOf, List.foldl_flatMap]
    simp only [List.foldl_map, explicitBy, List.idRun_foldlM]
  rw [hbodies, hall, ExportSaying.foldl_apply, List.nil_append, explicitSayings, standsFor]
  simp

theorem addMissing_eq (t : ExportTable) (passes : String → Bool) (more : ExportTable) :
    addMissing t passes more = (offering passes more).foldl ExportSaying.apply t := by
  rw [offering, List.foldl_map, List.foldl_filter]
  rfl

/-- A table with what the modules offer that a module passes on whole. -/
theorem foldl_stars (s : SymbolIndex) (t : ExportTable) :
    ((p.statementsOf s).filterMap fun (scope, statement) => star? scope statement).foldl
      (fun t star => Id.run (match p.resolveModule star.1 star.2 with
        | some source => do
          return addMissing t (fun name => name != "default" && name != exportEquals)
            (← tables source)
        | none => pure t)) t =
      (p.starSayings tables s).foldl ExportSaying.apply t := by
  rw [starSayings, List.foldl_flatMap, starSources]
  generalize (p.statementsOf s).filterMap (fun (scope, statement) => star? scope statement) = stars
  rw [List.foldl_filterMap]
  congr 1
  funext t star
  obtain ⟨file, specifier⟩ := star
  dsimp only
  cases p.resolveModule file specifier with
  | none => rfl
  | some source =>
    exact addMissing_eq t (fun name => name != "default" && name != exportEquals) (tables source)

/-- Computing a table from those of the other modules gives the one that the rules give. -/
theorem exportsBy_run (s : SymbolIndex) :
    Id.run (p.exportsBy tables s) = p.ruledTable tables s := by
  rw [ruledTable, ← ExportSaying.foldl_apply, List.foldl_append, List.foldl_append,
    ExportSaying.foldl_apply, ← foldl_stars]
  unfold exportsBy wholeSayings wholeSource?
  rw [Id.run_bind, explicitBy_run]
  dsimp only
  rw [Id.run_bind, List.idRun_foldlM]
  generalize List.foldl _ _ _ = t
  cases p.standsFor tables s with
  | none => rfl
  | some r =>
    cases r with
    | unresolved specifier name => rfl
    | symbol target =>
      dsimp only
      split
      · exact addMissing_eq t (· != exportEquals) (tables target)
      · rfl

/-! ### Which meaning wins -/

theorem findSome?_offering (passes : String → Bool) (t : ExportTable) (name : String) :
    (offering passes t).findSome? (ExportSaying.offered? name) =
      if passes name then t.get? name else none := by
  induction t with
  | nil => simp [offering, Table.get?]
  | cons entry t ih =>
    obtain ⟨key, r⟩ := entry
    have hcons : offering passes ((key, r) :: t) =
        if passes key then .offers key r :: offering passes t else offering passes t := by
      rw [offering, List.filter_cons]
      dsimp only
      split <;> rfl
    have hget : Table.get? ((key, r) :: t) name =
        if name == key then some r else Table.get? t name := by
      rw [Table.get?, List.lookup_cons]
      cases name == key <;> rfl
    rw [hcons, hget]
    by_cases hkey : name = key
    · subst hkey
      cases hpasses : passes name with
      | true => simp [ExportSaying.offered?]
      | false =>
        rw [hpasses] at ih
        exact ih
    · have hother : (name == key) = false := by simpa using hkey
      rw [hother, if_neg Bool.false_ne_true, ← ih]
      split
      · rw [List.findSome?_cons, ExportSaying.offered?, hother]
        rfl
      · rfl

/-- What is only offered yields to all that was said before. -/
theorem meaning_append_offers {said more : List ExportSaying} {name : String}
    (hmore : ∀ x ∈ more, ExportSaying.stated? name x = none) :
    ExportSaying.meaning (said ++ more) name =
      (ExportSaying.meaning said name <|> more.findSome? (ExportSaying.offered? name)) := by
  have hnone : more.reverse.findSome? (ExportSaying.stated? name) = none :=
    List.findSome?_eq_none_iff.mpr fun x hx => hmore x (List.mem_reverse.mp hx)
  rw [ExportSaying.meaning, ExportSaying.meaning, List.reverse_append, List.findSome?_append, hnone,
    List.findSome?_append]
  simp [Option.or_assoc]

theorem stated?_offering (passes : String → Bool) {t : ExportTable} {name : String}
    {x : ExportSaying} (hx : x ∈ offering passes t) : ExportSaying.stated? name x = none := by
  obtain ⟨entry, -, rfl⟩ := List.mem_map.mp hx
  rfl

/-- What a name means in the table of a module: what its bodies say of it themselves, or else what
the first of the modules offers that it passes on whole and that have it, or else what the module
offers that it stands for. -/
theorem get?_ruledTable (s : SymbolIndex) (name : String) :
    (p.ruledTable tables s).get? name =
      (ExportSaying.meaning (p.explicitSayings tables s) name <|>
        ((p.starSources s).findSome? fun source =>
          if name != "default" && name != exportEquals then (tables source).get? name else none) <|>
        ((p.wholeSource? tables s).bind fun target =>
          if name != exportEquals then (tables target).get? name else none)) := by
  have hstars : ∀ x ∈ p.starSayings tables s, ExportSaying.stated? name x = none := fun x hx => by
    obtain ⟨source, -, hx⟩ := List.mem_flatMap.mp hx
    exact stated?_offering _ hx
  have hwhole : ∀ x ∈ p.wholeSayings tables s, ExportSaying.stated? name x = none := fun x hx => by
    unfold wholeSayings at hx
    cases htarget : p.wholeSource? tables s with
    | none =>
      rw [htarget] at hx
      cases hx
    | some target =>
      rw [htarget] at hx
      exact stated?_offering (· != exportEquals) hx
  have hstarred : (p.starSayings tables s).findSome? (ExportSaying.offered? name) =
      (p.starSources s).findSome? fun source =>
        if name != "default" && name != exportEquals then (tables source).get? name else none := by
    unfold starSayings
    induction p.starSources s with
    | nil => rfl
    | cons source sources ih =>
      rw [List.flatMap_cons, List.findSome?_append, ih, List.findSome?_cons,
        findSome?_offering]
      cases (if name != "default" && name != exportEquals then (tables source).get? name
        else none) <;> rfl
  have hwholly : (p.wholeSayings tables s).findSome? (ExportSaying.offered? name) =
      (p.wholeSource? tables s).bind fun target =>
        if name != exportEquals then (tables target).get? name else none := by
    unfold wholeSayings
    cases p.wholeSource? tables s with
    | none => rfl
    | some target => exact findSome?_offering (· != exportEquals) (tables target) name
  rw [ruledTable, ExportSaying.get?_table, meaning_append_offers hwhole,
    meaning_append_offers hstars, hstarred, hwholly]
  simp only [Option.orElse_eq_orElse, Option.orElse_eq_or, Option.or_assoc]

/-! ### The tables of a program -/

/-- An answer that is there is the one that is computed without asking whether it is there. -/
def settling : MonadRel Option Id where
  rel x y := ∀ a, x = some a → y = a
  pure _ := fun _ hb => Option.some.inj hb
  bind := by
    intro α β x y f g hxy hfg b hb
    obtain ⟨a, ha, hb⟩ := Option.bind_eq_some_iff.mp hb
    have hy : y = a := hxy a ha
    exact hy ▸ hfg a b hb

/-- What settles in a number of steps follows by the rules from what settles in one step less. -/
theorem ruledTable_of_plain {n : ℕ} {s : SymbolIndex} {t : ExportTable}
    (htables : ∀ b u, p.plainExports n b = some u → tables b = u)
    (ht : p.plainExports (n + 1) s = some t) : p.ruledTable tables s = t := by
  rw [← exportsBy_run]
  exact exportsBy_rel settling p (fun b u hu => htables b u hu) s t ht

/-- Tables that follow from each other by the rules are those of the modules that settle. -/
theorem eq_of_ruled (htables : ∀ s, p.Settles s → tables s = p.ruledTable tables s) {n : ℕ}
    {s : SymbolIndex} {t : ExportTable} (ht : p.plainExports n s = some t) : tables s = t := by
  induction n generalizing s t with
  | zero => cases ht
  | succ n ih =>
    rw [htables s ⟨n + 1, t, ht⟩]
    exact ruledTable_of_plain (fun b u hu => ih hu) ht

open Classical in
/-- The table of a module that settles. -/
noncomputable def settledTable (p : Program) (s : SymbolIndex) : ExportTable :=
  if h : p.Settles s then h.choose_spec.choose else []

theorem settledTable_eq {n : ℕ} {s : SymbolIndex} {t : ExportTable}
    (ht : p.plainExports n s = some t) : p.settledTable s = t := by
  have hsettles : p.Settles s := ⟨n, t, ht⟩
  rw [settledTable, dif_pos hsettles]
  exact plainExports_unique hsettles.choose_spec.choose_spec ht

theorem settledTable_ruled {s : SymbolIndex} (hs : p.Settles s) :
    p.settledTable s = p.ruledTable p.settledTable s := by
  obtain ⟨n, t, ht⟩ := hs
  rw [settledTable_eq ht]
  exact (ruledTable_of_plain (fun b u hu => settledTable_eq hu) (plainExports_succ ht)).symm

/-- The tables of the modules that settle are the only ones in which each follows from the others
by the rules, and they are what a program answers, whatever it was asked before. -/
theorem exports_follow_rules (p : Program) :
    ∃ tables : SymbolIndex → ExportTable,
      (∀ s, p.Settles s → tables s = p.ruledTable tables s) ∧
      (∀ others : SymbolIndex → ExportTable,
        (∀ s, p.Settles s → others s = p.ruledTable others s) →
          ∀ s, p.Settles s → others s = tables s) ∧
      ∀ s, p.Settles s →
        (∀ requests, s ∈ requests → ∀ t, (s, t) ∈ p.answers requests [] ↔ t = tables s) ∧
        ∀ name, (tables s).get? name =
          (ExportSaying.meaning (p.explicitSayings tables s) name <|>
            ((p.starSources s).findSome? fun source =>
              if name != "default" && name != exportEquals then (tables source).get? name
              else none) <|>
            ((p.wholeSource? tables s).bind fun target =>
              if name != exportEquals then (tables target).get? name else none)) := by
  have hruled : ∀ s, p.Settles s → p.settledTable s = p.ruledTable p.settledTable s :=
    fun s => settledTable_ruled
  refine ⟨p.settledTable, hruled, fun others hothers s hs => ?_, fun s hs => ⟨?_, fun name => ?_⟩⟩
  · obtain ⟨n, t, ht⟩ := hs
    rw [settledTable_eq ht, eq_of_ruled hothers ht]
  · intro requests hmem t
    obtain ⟨n, u, hu⟩ := hs
    have hplain : Memory.Plain p [] := by
      intro x v hv
      cases hv
    have hanswer {t : ExportTable} (h : (s, t) ∈ p.answers requests []) : t = u :=
      answers_plain hplain h hu
    rw [settledTable_eq hu]
    refine ⟨hanswer, ?_⟩
    rintro rfl
    obtain ⟨t, ht⟩ := mem_keys_answers.mpr hmem
    exact hanswer ht ▸ ht
  · rw [hruled s hs]
    exact get?_ruledTable s name

/-- A package whose first file passes two others on, says a name of its own that one of them has as
well, and takes a name of the other one under a new name. -/
def twoStarsFiles : FileSystem := (FileTree.ofList
  [("/p/index.ts", "export * from \"./a\";\nexport * from \"./b\";\n" ++
      "export \x7b late as early \x7d from \"./b\";\nexport const own = 1;"),
    ("/p/a.ts", "export const own = 2;\nexport const both = 3;"),
    ("/p/b.ts", "export const both = 4;\nexport const late = 5;\nexport default 6;")]).fileSystem

/-- The program of that package: the symbols of its files are 0, 2 and 5. -/
def twoStars : Program :=
  (Program.load twoStarsFiles (.ofText "/p") ["index.ts"]).toOption.getD default

/-- The file's own name wins, and of the name that both others have the first one's, also when the
second one was asked before. -/
theorem twoStars_exports :
    twoStars.Settles 0 ∧ 0 ∈ [5, 0] ∧ ∃ tables : SymbolIndex → ExportTable,
      (∀ t, (0, t) ∈ twoStars.answers [5, 0] [] ↔ t = tables 0) ∧
        (tables 0).keys = ["early", "own", "both", "late"] ∧
        (tables 0).get? "own" = some (.symbol 1) ∧ (tables 0).get? "both" = some (.symbol 4) := by
  have hsettles : twoStars.Settles 0 :=
    ⟨2, [("early", .symbol 7), ("own", .symbol 1), ("both", .symbol 4), ("late", .symbol 7)],
      by decide +kernel⟩
  obtain ⟨tables, -, -, htables⟩ := exports_follow_rules twoStars
  obtain ⟨hanswers, -⟩ := htables 0 hsettles
  have hfirst : tables 0 =
      [("early", .symbol 7), ("own", .symbol 1), ("both", .symbol 4), ("late", .symbol 7)] :=
    ((hanswers [5, 0] (by decide) _).mp (by decide +kernel)).symm
  exact ⟨hsettles, by decide, tables, hanswers [5, 0] (by decide), by rw [hfirst]; rfl,
    by rw [hfirst]; rfl, by rw [hfirst]; rfl⟩

end Program

end ApiSurface
