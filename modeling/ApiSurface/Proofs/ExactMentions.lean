import ApiSurface.Proofs.ClosedGraph
import ApiSurface.Proofs.ToldSymbols
/-!
Who mentions a symbol. In the graph of a walk, a symbol that could be described mentions what is
shown of it names, and what it exports if it is a namespace as well; nothing else comes to be known
through it. A symbol whose description failed mentions what was described before the failure, though
nothing of that is shown.
-/
namespace ApiSurface

/-- A symbol that is shown as it is written, as its description failed. -/
def DocSymbol.Failed (d : DocSymbol) : Prop :=
  ∃ (content : String) (e : DescribeError), d.shape = .unknown content e.message

namespace Program

/-- The name of what is mentioned for a resolution, in a program with a memory: imports are followed
while they lead to something else, and one that leads nowhere is taken for something of the standard
library. -/
inductive RefersTo (p : Program) (memory : Memory) : Resolution → SymbolId → Prop where
  | unresolved (specifier name : String) :
    RefersTo p memory (.unresolved specifier name) (.unresolved specifier name)
  | symbol {s : SymbolIndex} (hs : (p.symbol s).isAlias = false) :
    RefersTo p memory (.symbol s) (p.symbolId s)
  | followed {s : SymbolIndex} {r : Resolution} {id : SymbolId}
    (hs : (p.symbol s).isAlias = true) (hr : p.meaningAt memory s = some r) (hne : r ≠ .symbol s)
    (hid : RefersTo p memory r id) : RefersTo p memory (.symbol s) id
  | lost {s : SymbolIndex} (hs : (p.symbol s).isAlias = true)
    (hr : ∀ r, p.meaningAt memory s = some r → r = .symbol s) :
    RefersTo p memory (.symbol s) (.global (p.symbol s).name)

/-- A symbol is a namespace that is described as something else, and exports something of a name. -/
structure MergedExport (p : Program) (memory : Memory) (s : SymbolIndex) (id : SymbolId) :
    Prop where
  isA : (p.symbol s).isA .nameSpace = true
  kind : (p.symbol s).describedKind? ≠ some .nameSpace
  exported : ∃ entry ∈ p.tableAt memory s, p.RefersTo memory entry.2 id

end Program

namespace Walk

variable {p : Program} {last : Program.Memory}

/-- The name that is given for a symbol is that of what it refers to by the final memory, unless
imports are followed without end. -/
theorem referWithin_refersTo (n : ℕ) (s : SymbolIndex) (w : Walk)
    (hcalm : ((referWithin p n s).run w).2.endless = false)
    (hlast : ((referWithin p n s).run w).2.memory.Within last) :
    p.RefersTo last (.symbol s) ((referWithin p n s).run w).1 := by
  induction n generalizing s w with
  | zero =>
    have hstep : Telling ∅ (referExternal (.global (p.symbol s).name))
        (told ∅ fun id => [id]) := referExternal_telling _
    have hbefore : { w with endless := true }.endless = false := (hstep _ _ (.refl _ _)).calm hcalm
    cases hbefore
  | succ n ih =>
    by_cases hs : (p.symbol s).isAlias = true
    · rw [referWithin_of_isAlias n hs w] at hcalm hlast ⊢
      -- what the import comes to now is what it comes to in the end
      have hmeaning {step : StateM Walk SymbolId} (hstep : Telling ∅ step (told ∅ fun id => [id]))
          (hlast : (step.run { w with memory := (p.resolve s w.memory).2 }).2.memory.Within last) :
          p.meaningAt last s = (p.resolve s w.memory).1 :=
        ((Program.resolve_answering last s w.memory).2 ((hstep.memory_within _).trans hlast)).symm
      generalize hr : (p.resolve s w.memory).1 = r at hcalm hlast hmeaning ⊢
      rcases r with _ | t | ⟨specifier, name⟩
      · refine .lost hs fun r h => ?_
        rw [hmeaning (referExternal_telling _) hlast] at h
        cases h
      · dsimp only at hcalm hlast ⊢
        split at hcalm
        · next heq =>
          subst heq
          rw [if_pos rfl] at hlast ⊢
          refine .lost hs fun r h => ?_
          rw [hmeaning (referExternal_telling _) hlast] at h
          exact (Option.some.inj h).symm
        · next hne =>
          rw [if_neg hne] at hlast ⊢
          have hsome := hmeaning (referWithin_telling n t) hlast
          exact .followed hs hsome (by simpa using hne) (ih t _ hcalm hlast)
      · exact .followed hs (hmeaning (referExternal_telling _) hlast) (by simp)
          (.unresolved specifier name)
    · rw [referWithin, if_neg hs]
      split <;> exact .symbol (Bool.eq_false_of_not_eq_true hs)

theorem refer_refersTo (r : Resolution) (w : Walk)
    (hcalm : ((refer p r).run w).2.endless = false)
    (hlast : ((refer p r).run w).2.memory.Within last) :
    p.RefersTo last r ((refer p r).run w).1 := by
  cases r with
  | symbol s => exact referWithin_refersTo _ s w hcalm hlast
  | unresolved specifier name => exact .unresolved specifier name

end Walk

namespace Describe

variable {α β : Type} {p : Program} {last : Program.Memory}

/-- A step that does not fail, and what it comes to if the program then has a final memory and no
imports are followed without end. -/
def Settles (p : Program) (last : Program.Memory) (step : Describe α) (post : α → Prop) : Prop :=
  ∀ (ctx : Context) (d : Describing), ctx.program = p →
    (step.runAt ctx d).2.walk.endless = false → (step.runAt ctx d).2.walk.memory.Within last →
      ∃ a, (step.runAt ctx d).1 = .ok a ∧ post a

theorem Settles.pure {post : α → Prop} {a : α} (h : post a) :
    Settles p last (Pure.pure a) post :=
  fun _ _ _ _ _ => ⟨a, rfl, h⟩

/-- The first step settles at what is known after the second one. -/
theorem Settles.bind {post : α → Prop} {post' : β → Prop}
    {x : Describe α} {f : α → Describe β} (hx : Settles p last x post)
    (hf : ∀ a, post a → Settles p last (f a) post')
    (htell : ∀ a, Telling p ∅ (f a) fun _ => Set.univ) :
    Settles p last (x >>= f) post' := by
  intro ctx d hctx hcalm hlast
  have hfirst := hx ctx d hctx
  rw [runAt_bind] at hcalm hlast ⊢
  rcases hr : x.runAt ctx d with ⟨r, d'⟩
  rw [hr] at hcalm hlast hfirst
  cases r with
  | error e =>
    obtain ⟨a, ha, -⟩ := hfirst hcalm hlast
    cases ha
  | ok a =>
    have hrest := htell a d'.walk ctx d' hctx (.refl _ _)
    obtain ⟨a', ha', hpost⟩ := hfirst (hrest.calm hcalm) (hrest.memory.trans hlast)
    obtain rfl : a = a' := Except.ok.inj ha'
    exact hf a hpost ctx d' hctx hcalm hlast

theorem Settles.mapM {ids : β → List SymbolId} {post : α → β → Prop} {f : α → Describe β}
    (hf : ∀ a, Settles p last (f a) (post a)) (htell : TellAll p f ids) (l : List α) :
    Settles p last (l.mapM f) fun bs => ∀ b ∈ bs, ∃ a ∈ l, post a b := by
  induction l with
  | nil => exact .pure fun b hb => absurd hb List.not_mem_nil
  | cons a l ih =>
    rw [List.mapM_cons]
    refine (hf a).bind (fun b hb => ih.bind (fun bs hbs => .pure ?_) fun bs => .pure ?_)
      fun b => (Telling.mapM htell).bind fun bs => .pure (Set.subset_univ _)
    case refine_2 => exact Set.subset_univ _
    intro c hc
    rcases List.mem_cons.mp hc with rfl | hc
    · exact ⟨a, List.mem_cons_self, hb⟩
    · obtain ⟨a', ha', hpost⟩ := hbs c hc
      exact ⟨a', List.mem_cons_of_mem _ ha', hpost⟩

/-- The exports of a module are named after what they refer to. -/
theorem exported_settles (s : SymbolIndex) :
    Settles p last (exported s) fun shape =>
      ∀ id ∈ shape.ids, ∃ entry ∈ p.tableAt last s, p.RefersTo last entry.2 id := by
  have hentry (entry : String × Resolution) : Settles p last
      (do return (entry.1, ← walking fun p => Walk.refer p entry.2) : Describe (String × SymbolId))
      fun e => p.RefersTo last entry.2 e.2 := by
    have hrefer : Settles p last (walking fun p => Walk.refer p entry.2)
        (p.RefersTo last entry.2) := by
      rintro ctx d rfl hcalm hlast
      exact ⟨_, rfl, Walk.refer_refersTo entry.2 d.walk hcalm hlast⟩
    exact hrefer.bind (fun id hid => .pure hid) fun id => .pure (Set.subset_univ _)
  have htell (owed : Set SymbolId) (entry : String × Resolution) : Telling p owed
      (do return (entry.1, ← walking fun p => Walk.refer p entry.2) : Describe (String × SymbolId))
      (told owed fun entry => [entry.2]) :=
    (Telling.walking (Walk.refer_telling entry.2)).wrap fun _ => rfl
  have htable : Settles p last (walking fun p => Walk.ask (p.exportsOf s))
      (· = p.tableAt last s) := by
    rintro ctx d rfl - hlast
    exact ⟨_, rfl, (Program.exportsOf_answering last s d.walk.memory).2 hlast⟩
  refine htable.bind ?_ fun table =>
    (Telling.mapM htell).bind fun exports => .pure (Set.subset_univ _)
  rintro table rfl
  refine (Settles.mapM hentry htell _).bind (fun exports hexports => .pure ?_) fun exports =>
    .pure (Set.subset_univ _)
  intro id hid
  obtain ⟨e, he, rfl⟩ := List.mem_map.mp hid
  exact hexports e he

end Describe

namespace Walk

variable {p : Program} {limit : ℕ} {last : Program.Memory}

/-- What is mentioned because a symbol is a namespace as well. -/
theorem merged_mentionsOnly {first w : Walk} {owed : Set SymbolId} (h : first.MentionsOnly owed w)
    (s : SymbolIndex) (hcalm : ((describing p (Describe.merged s)).run w).2.endless = false)
    (hlast : ((describing p (Describe.merged s)).run w).2.memory.Within last) :
    first.MentionsOnly {id | id ∈ owed ∨ ∃ entry ∈ p.tableAt last s, p.RefersTo last entry.2 id}
      ((describing p (Describe.merged s)).run w).2 := by
  -- the exports are mentioned as for the description of a module that is not shown
  let r := (Describe.exported s).runAt ⟨p, default⟩ ⟨w, []⟩
  have hrun : ((describing p (Describe.merged s)).run w).2 = r.2.walk := by
    change ((Describe.merged s).runAt ⟨p, default⟩ ⟨w, []⟩).2.walk = r.2.walk
    rw [Describe.merged, Describe.runAt_bind]
    split
    · next heq => simp only [r, heq]; rfl
    · next heq => simp only [r, heq]
  rw [hrun] at hcalm hlast ⊢
  obtain ⟨shape, hok, hshape⟩ := Describe.exported_settles s ⟨p, default⟩ ⟨w, []⟩ rfl hcalm hlast
  have htold := Describe.exported_telling s first ⟨p, default⟩ ⟨w, []⟩ rfl h
  rw [hok] at htold
  exact htold.mono fun id hid => hid.imp_right (hshape id)

/-- A symbol as what its description came to. -/
def described (p : Program) (s : SymbolIndex) :
    Except DescribeError (Option String × DocShape) → DocSymbol
  | .ok (docs, shape) => ⟨(p.symbol s).name, docs, shape⟩
  | .error e => p.undescribed (p.symbol s).name (p.located s) e.message

theorem resultNames_subset (s : SymbolIndex)
    (r : Except DescribeError (Option String × DocShape)) :
    Describe.resultNames (told ∅ fun r => r.2.ids) r ⊆
      {id | (described p s r).Failed ∨ id ∈ (described p s r).ids} := by
  cases r with
  | ok r => exact fun id hid => hid.imp (fun h => absurd h (Set.notMem_empty id)) fun h => h
  | error e => exact fun id _ => Or.inl ⟨_, e, rfl⟩

theorem describe_run (limit : ℕ) {s : SymbolIndex} {kind : SymbolKind}
    (hkind : (p.symbol s).describedKind? = some kind) (w : Walk) :
    ∃ ds r w', (shape p limit s kind ds).run w = (r, w') ∧
      (describe p limit s).run w = (described p s r,
        if kind ≠ .nameSpace && (p.symbol s).isA .nameSpace then
          ((describing p (Describe.merged s)).run w').2 else w') := by
  let ds := (p.located s).filter (·.declaration.shape.symbolKind = kind)
  rcases hshape : (shape p limit s kind ds).run w with ⟨r, w'⟩
  refine ⟨ds, r, w', hshape, ?_⟩
  unfold describe
  dsimp only
  rw [hkind]
  dsimp only
  rw [StateT.run_bind, hshape]
  split
  · cases r <;> rfl
  · cases r <;> rfl

/-- Describing a symbol mentions what is shown of it names, what it exports if it is a namespace as
well, and anything if it fails. -/
theorem describe_mentionsOnly (s : SymbolIndex) (w : Walk)
    (hcalm : ((describe p limit s).run w).2.endless = false)
    (hlast : ((describe p limit s).run w).2.memory.Within last) :
    w.MentionsOnly {id | ((describe p limit s).run w).1.Failed ∨
      id ∈ ((describe p limit s).run w).1.ids ∨ p.MergedExport last s id}
      ((describe p limit s).run w).2 := by
  cases hkind : (p.symbol s).describedKind? with
  | none =>
    have hrun : ((describe p limit s).run w).2 = w := by
      unfold describe
      dsimp only
      rw [hkind]
      rfl
    rw [hrun]
    exact .refl w _
  | some kind =>
    obtain ⟨ds, r, w', hshape, hrun⟩ := describe_run limit hkind w
    rw [hrun] at hcalm hlast ⊢
    have hstep : Telling ∅ (shape p limit s kind ds) _ := shape_telling limit s kind ds
    have htold := hstep w w (.refl w ∅)
    rw [hshape] at htold
    have hshown := htold.mono (resultNames_subset (p := p) s r)
    dsimp only at hcalm hlast ⊢
    split at hcalm
    · next hmerged =>
      rw [if_pos hmerged] at hlast ⊢
      obtain ⟨hne, hisA⟩ := (Bool.and_eq_true ..).mp hmerged
      refine (merged_mentionsOnly hshown s hcalm hlast).mono fun id hid => ?_
      rcases hid with (hfailed | hid) | hexported
      · exact Or.inl hfailed
      · exact Or.inr (Or.inl hid)
      · refine Or.inr (Or.inr ⟨hisA, ?_, hexported⟩)
        rw [hkind]
        simpa using hne
    · next hmerged =>
      rw [if_neg hmerged]
      exact hshown.mono fun id hid => hid.imp_right Or.inl

/-- Why a symbol is among those that mention another one: it names that one, or exports it as a
namespace beside what it is described as, or its description failed. -/
def Described.Accounts (p : Program) (last : Program.Memory) (done : Described) (b id : SymbolId) :
    Prop :=
  ∃ s d, done.handles.get? b = some s ∧ done.symbols.get? b = some d ∧
    (d.Failed ∨ id ∈ d.ids ∨ p.MergedExport last s id)

/-- All that is known to be mentioned is accounted for. -/
def Described.AccountsFor (p : Program) (last : Program.Memory) (done : Described) (w : Walk) :
    Prop :=
  ∀ id, ∀ b ∈ mentioners w.references id, done.Accounts p last b id

variable {i : ℕ} {done done' : Described} {w w' : Walk}

/-- Describing one more symbol accounts for what is mentioned meanwhile. -/
theorem Described.AccountsFor.describe (h : done.AccountsFor p last w) {s : SymbolIndex}
    (hid : ¬ done.symbols.has (p.symbolId s) = true) {r : DocSymbol × Walk}
    (hr : (Walk.describe p limit s).run { w with current := some (p.symbolId s) } = r)
    (hcalm : r.2.endless = false) (hlast : r.2.memory.Within last) :
    Described.AccountsFor p last ⟨done.symbols.insert (p.symbolId s) r.1,
      done.handles.insert (p.symbolId s) s⟩ { r.2 with current := none } := by
  intro id b hb
  subst hr
  rcases (describe_mentionsOnly s _ hcalm hlast).mentions id b hb with hb | ⟨hcurrent, hnamed⟩
  · obtain ⟨t, d, ht, hd, hwhy⟩ := h id b hb
    have hne : b ≠ p.symbolId s := by
      rintro rfl
      exact hid (Table.has_iff.mpr (Table.mem_keys_of_get? hd))
    refine ⟨t, d, ?_, ?_, hwhy⟩
    · rw [Table.get?_insert_of_ne _ _ hne, ht]
    · rw [Table.get?_insert_of_ne _ _ hne, hd]
  · obtain rfl : p.symbolId s = b := Option.some.inj hcurrent
    exact ⟨s, _, Table.get?_insert_self .., Table.get?_insert_self .., hnamed⟩

/-- Describing what is in the queue accounts for all that comes to be mentioned. -/
theorem describeFrom_accountsFor (n : ℕ)
    (hrun : (describeFrom p limit n i done).run.run w = (.ok done', w')) :
    w.memory.Within w'.memory ∧
      (done.AccountsFor p w'.memory w → done'.AccountsFor p w'.memory w') := by
  induction n generalizing i done w with
  | zero =>
    obtain ⟨hdone, rfl⟩ := (Prod.mk.injEq ..).mp hrun
    obtain rfl : done = done' := Except.ok.inj hdone
    exact ⟨.refl _, id⟩
  | succ n ih =>
    rw [describeFrom_succ] at hrun
    split at hrun
    · obtain ⟨hdone, rfl⟩ := (Prod.mk.injEq ..).mp hrun
      obtain rfl : done = done' := Except.ok.inj hdone
      exact ⟨.refl _, id⟩
    next s _ =>
    split at hrun
    · exact ih hrun
    next hhas =>
    split at hrun
    · exact absurd (congrArg Prod.fst hrun) (by simp)
    dsimp only at hrun
    split at hrun
    · exact absurd (congrArg Prod.fst hrun) (by simp)
    next hcalm =>
    obtain ⟨hrest, haccounts⟩ := ih hrun
    have hnoting : Noting p [] (Walk.describe p limit s) DocSymbol.ids := describe_noting limit s
    obtain ⟨hgrows, -⟩ := hnoting { w with current := some (p.symbolId s) } (by simp)
    refine ⟨hgrows.memory.trans hrest, fun h => haccounts ?_⟩
    exact h.describe hhas rfl (Bool.eq_false_of_not_eq_true hcalm) hrest

end Walk

/-- A symbol of a graph whose description failed. -/
def Graph.Failed (g : Graph) (b : SymbolId) : Prop :=
  ∃ d, g.symbols.get? b = some d ∧ d.Failed

/-- A symbol of a graph names another one in what is shown of it, or it is a namespace that is
described as something else and exports that one. -/
def Graph.Tells (g : Graph) (p : Program) (memory : Program.Memory) (b id : SymbolId) : Prop :=
  ∃ s d, g.handles.get? b = some s ∧ g.symbols.get? b = some d ∧
    (id ∈ d.ids ∨ p.MergedExport memory s id)

namespace Program

variable {p : Program} {limit : ℕ} {entries : List (String × FileIndex)} {memory : Memory}
variable {g : Graph}

/-- In the graph of a walk a symbol mentions only what is shown of it names and what it exports as a
namespace, unless its description failed. Every symbol but the entrypoints is there because it is
mentioned. -/
theorem walk_mentions_told (h : (p.walk limit entries memory).1 = .ok g) :
    (∀ id, ∀ b ∈ mentioners g.references id,
      g.Failed b ∨ g.Tells p (p.walk limit entries memory).2 b id) ∧
    ∀ id ∈ g.symbols.keys, id ∉ g.roots.map (·.id) → ∃ b, b ∈ mentioners g.references id := by
  constructor
  · obtain ⟨roots, w, done, w', hroots, hdone, rfl, hmemory⟩ := walk_steps h
    obtain ⟨hstarted, -⟩ := Walk.foldlM_addRoot (started_start p memory) hroots
    have hstart : Walk.Described.AccountsFor p w'.memory default w := by
      intro id b hb
      rw [hstarted.references] at hb
      exact absurd hb List.not_mem_nil
    intro id b hb
    obtain ⟨s, d, hs, hd, hwhy⟩ := (Walk.describeFrom_accountsFor _ hdone).2 hstart id b hb
    rw [hmemory]
    rcases hwhy with hfailed | hwhy
    · exact Or.inl ⟨d, hd, hfailed⟩
    · exact Or.inr ⟨s, d, hs, hd, hwhy⟩
  · obtain ⟨roots, k, done, w, hp, -, hids, -, -, hg⟩ := walk_progress h
    intro id hid hroot
    rw [hg] at hid ⊢
    obtain ⟨s, hs, -, rfl⟩ := hp.exists_handle hid
    obtain ⟨r, hr, hlink⟩ := hp.linked s hs
    rcases hlink.cases_tail with hsame | ⟨b, -, hmention⟩
    · refine absurd ?_ hroot
      rw [hids, hsame]
      exact List.mem_map.mpr ⟨r, hr, rfl⟩
    · exact ⟨b, hmention⟩

/-- A package with an enum that is a namespace too, which exports an interface of another file. -/
def mergedEnum : Program :=
  (load (FileTree.ofList
    [("/p/index.ts", "import \x7b T as M \x7d from \"./m\";\nexport enum E \x7b\x7d\n" ++
      "export namespace E \x7b export \x7b M \x7d \x7d"),
      ("/p/m.ts", "export interface T \x7b\x7d")]).fileSystem
    (.ofText "/p") ["index.ts"]).toOption.getD default

/-- What the namespace exports is mentioned by the enum, though the enum does not show it. -/
theorem mergedEnum_mentions_told : ∃ g, (mergedEnum.walk 128 [("pkg", 0)] []).1 = .ok g ∧
    (g.symbols.get? "index.ts:42+index.ts:64").map DocSymbol.ids = some [] ∧
    mentioners g.references "m.ts:17" = ["index.ts:42+index.ts:64"] ∧
    (g.Failed "index.ts:42+index.ts:64" ∨ g.Tells mergedEnum
      (mergedEnum.walk 128 [("pkg", 0)] []).2 "index.ts:42+index.ts:64" "m.ts:17") := by
  have hrun : (mergedEnum.walk 128 [("pkg", 0)] []).1.toOption.map (fun g =>
      ((g.symbols.get? "index.ts:42+index.ts:64").map DocSymbol.ids,
        mentioners g.references "m.ts:17")) = some (some [], ["index.ts:42+index.ts:64"]) := by
    decide +kernel
  obtain ⟨g, hok, hg⟩ := Walk.exists_of_toOption_map hrun
  obtain ⟨hids, hmentioners⟩ := (Prod.mk.injEq ..).mp hg
  have hmention : "index.ts:42+index.ts:64" ∈ mentioners g.references "m.ts:17" := by
    rw [hmentioners]
    exact List.mem_singleton_self _
  exact ⟨g, hok, hids, hmentioners, (walk_mentions_told hok).1 _ _ hmention⟩

/-- A package with an interface of two properties: the type of the first one is an interface, and
that of the second one is a conditional type of which a branch is missing. -/
def brokenBranch : Program :=
  (load (FileTree.ofList
    [("/p/index.ts", "interface U \x7b\x7d\nexport interface I \x7b a: U; " ++
      "b: string extends number ? U \x7d")]).fileSystem
    (.ofText "/p") ["index.ts"]).toOption.getD default

/-- The interface is shown as it is written, and names nothing, but the first property stays
mentioned, and so its type is part of the graph. -/
theorem broken_branch_mentions :
    ¬ ∀ (p : Program) (limit : ℕ) (entries : List (String × FileIndex)) (memory : Memory)
      (g : Graph), (p.walk limit entries memory).1 = .ok g →
      ∀ id, ∀ b ∈ mentioners g.references id,
        g.Tells p (p.walk limit entries memory).2 b id := by
  intro hclaim
  have hrun : (brokenBranch.walk 128 [("pkg", 0)] []).1.toOption.map (fun g =>
      (mentioners g.references "index.ts:10",
        (g.symbols.get? "index.ts:32").map DocSymbol.ids,
        (g.handles.get? "index.ts:32").map fun s => (brokenBranch.symbol s).isA .nameSpace)) =
      some (["index.ts:32"], some [], some false) := by
    decide +kernel
  obtain ⟨g, hok, hg⟩ := Walk.exists_of_toOption_map hrun
  simp only [Prod.mk.injEq] at hg
  obtain ⟨hmentioners, hids, hnone⟩ := hg
  have hmention : "index.ts:32" ∈ mentioners g.references "index.ts:10" := by
    rw [hmentioners]
    exact List.mem_singleton_self _
  obtain ⟨s, d, hs, hd, hwhy⟩ := hclaim _ _ _ _ g hok _ _ hmention
  rw [hd] at hids
  rw [hs] at hnone
  rcases hwhy with hid | hmerged
  · rw [Option.some.inj hids] at hid
    exact absurd hid List.not_mem_nil
  · exact absurd (hmerged.isA.symm.trans (Option.some.inj hnone)) (by simp)

end Program

end ApiSurface
