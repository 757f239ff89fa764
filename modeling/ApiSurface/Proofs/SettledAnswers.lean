import ApiSurface.Proofs.ExportTables
import ApiSurface.Proofs.Rows
/-!
What a program remembers settles its later answers. A table that is remembered is never taken back,
so a question that was answered once is answered in the same way ever after, as by the rules over
the tables that are known at the end.
-/
namespace ApiSurface

namespace Program

/-- One memory has all the tables of another one. -/
def Memory.Within (memory later : Memory) : Prop :=
  ∀ s t, memory.get? s = some t → later.get? s = some t

theorem Memory.Within.refl (memory : Memory) : memory.Within memory := fun _ _ h => h

theorem Memory.Within.trans {a b c : Memory} (hab : a.Within b) (hbc : b.Within c) :
    a.Within c :=
  fun s t h => hbc s t (hab s t h)

/-- The exports of a module as a program with a memory gives them. -/
def tableAt (p : Program) (memory : Memory) (s : SymbolIndex) : ExportTable :=
  (p.exportsOf s memory).1

/-- What an import comes to by the rules over the tables that a program with a memory gives. -/
def meaningAt (p : Program) (memory : Memory) (s : SymbolIndex) : Option Resolution :=
  Id.run (p.resolveBy (p.tableAt memory) s)

/-- A query takes nothing from the memory, and it comes to what is computed without one from the
tables of a memory, if that one has all that is remembered after the query. -/
def answering (last : Memory) : MonadRel Id Query where
  rel x q := ∀ memory, memory.Within (q memory).2 ∧ ((q memory).2.Within last → (q memory).1 = x)
  pure _ := fun memory => ⟨.refl memory, fun _ => rfl⟩
  bind := by
    intro α β x q f f' hq hf memory
    obtain ⟨hgrow, hanswer⟩ := hq memory
    have hrest (a : α) := hf a (q memory).2
    refine ⟨hgrow.trans (hrest _).1, fun hlast => ?_⟩
    -- the first answer is settled too: less was remembered then
    have hfirst : (q memory).1 = x := hanswer ((hrest _).1.trans hlast)
    have hbind : ((q >>= f') memory).1 = (f' (q memory).1 (q memory).2).1 := rfl
    rw [hbind, (hrest _).2 hlast, hfirst]
    rfl

variable {p : Program}

theorem exportsOf_answering (last : Memory) (s : SymbolIndex) :
    (answering last).rel (p.tableAt last s) (p.exportsOf s) := by
  intro memory
  refine ⟨fun x u => askWithin_keeps _ _ _ x u memory, fun hlast => ?_⟩
  have hremembered := hlast s _ (exportsOf_remembered s memory)
  rw [tableAt, exportsOf, askWithin_of_get? hremembered]
  rfl

theorem resolve_answering (last : Memory) (s : SymbolIndex) :
    (answering last).rel (p.meaningAt last s) (p.resolve s) :=
  resolveBy_rel (answering last) p (exportsOf_answering last) s

theorem entity_answering (last : Memory) (scope : Site) (parts : List String) :
    (answering last).rel
      (p.entityBy (m := Id) (p.tableAt last) (p.meaningAt last) scope parts)
      (p.entity scope parts) :=
  entityBy_rel (answering last) p (exportsOf_answering last) (resolve_answering last) scope
    parts

theorem exportsOf_within (s : SymbolIndex) (memory : Memory) :
    memory.Within (p.exportsOf s memory).2 :=
  (exportsOf_answering memory s memory).1

theorem resolve_within (s : SymbolIndex) (memory : Memory) :
    memory.Within (p.resolve s memory).2 :=
  (resolve_answering memory s memory).1

theorem entity_within (scope : Site) (parts : List String) (memory : Memory) :
    memory.Within (p.entity scope parts memory).2 :=
  (entity_answering memory scope parts memory).1

theorem membersBy_within (r : Resolution) (names : List String) (memory : Memory) :
    memory.Within (p.membersBy p.exportsOf r names memory).2 :=
  (membersBy_rel (answering memory) p (exportsOf_answering memory) r names memory).1

/-- What an import comes to stays the same once it was asked for: both answers are those that the
rules give for the tables after the later one. -/
theorem resolve_settled {s : SymbolIndex} {memory last : Memory}
    (h : (p.resolve s memory).2.Within last) :
    (p.resolve s last).1 = (p.resolve s memory).1 := by
  have hafter : (p.resolve s memory).1 = p.meaningAt (p.resolve s last).2 s :=
    (resolve_answering _ s memory).2 (h.trans (resolve_within s last))
  have hlast : (p.resolve s last).1 = p.meaningAt (p.resolve s last).2 s :=
    (resolve_answering _ s last).2 (.refl _)
  rw [hlast, hafter]

/-- An import comes to another symbol, and does so whatever is asked later. -/
structure LeadsOn (p : Program) (memory : Memory) (s t : SymbolIndex) : Prop where
  isAlias : (p.symbol s).isAlias = true
  ne : t ≠ s
  resolve : ∀ last, memory.Within last → (p.resolve s last).1 = some (.symbol t)

theorem LeadsOn.mono {memory last : Memory} (h : memory.Within last) {s t : SymbolIndex}
    (hst : p.LeadsOn memory s t) : p.LeadsOn last s t :=
  ⟨hst.isAlias, hst.ne, fun later hlater => hst.resolve later (h.trans hlater)⟩

theorem LeadsOn.lt {memory : Memory} {s t : SymbolIndex} (h : p.LeadsOn memory s t) :
    s < p.symbols.size := by
  by_contra hs
  have hdefault : p.symbol s = default := Bindings.symbol_of_size_le (Nat.le_of_not_lt hs)
  have halias := h.isAlias
  rw [hdefault] at halias
  cases halias

/-- Some imports lead from one to the next in a circle. -/
def Circular (p : Program) (memory : Memory) : Prop :=
  ∃ s, Relation.TransGen (p.LeadsOn memory) s s

theorem Circular.mono {memory last : Memory} (h : memory.Within last) :
    p.Circular memory → p.Circular last := by
  rintro ⟨s, hs⟩
  exact ⟨s, Relation.TransGen.mono (fun _ _ hst => hst.mono h) _ _ hs⟩

/-- A row of `k` imports leads to a symbol. -/
def RowTo (p : Program) (memory : Memory) (k : ℕ) (s : SymbolIndex) : Prop :=
  ∃ row : ℕ → SymbolIndex, row k = s ∧ ∀ i < k, p.LeadsOn memory (row i) (row (i+1))

theorem RowTo.zero (memory : Memory) (s : SymbolIndex) : p.RowTo memory 0 s :=
  ⟨fun _ => s, rfl, fun _ hi => absurd hi (Nat.not_lt_zero _)⟩

theorem RowTo.succ {memory last : Memory} (hlast : memory.Within last) {k : ℕ}
    {s t : SymbolIndex} (h : p.RowTo memory k s) (hst : p.LeadsOn last s t) :
    p.RowTo last (k+1) t := by
  obtain ⟨row, rfl, hrow⟩ := h
  refine ⟨Function.update row (k+1) t, Function.update_self .., fun i hi => ?_⟩
  rw [Function.update_of_ne (Nat.ne_of_lt hi)]
  rcases Nat.lt_succ_iff_lt_or_eq.mp hi with hi | rfl
  · rw [Function.update_of_ne (by omega)]
    exact (hrow i hi).mono hlast
  · rwa [Function.update_self]

/-- A row of more imports than there are symbols runs in a circle: one of them comes twice. -/
theorem RowTo.circular {memory : Memory} {s : SymbolIndex}
    (h : p.RowTo memory (p.symbols.size+1) s) : p.Circular memory := by
  obtain ⟨row, -, hrow⟩ := h
  have hsymbols : ∀ i < p.symbols.size+1, row i ∈ List.range p.symbols.size :=
    fun i hi => List.mem_range.mpr (hrow i hi).lt
  obtain ⟨i, -, hcircle⟩ :=
    exists_circle_of_row hrow id (List.range p.symbols.size) hsymbols (by simp) fun _ _ _ _ => id
  exact ⟨row i, hcircle⟩

end Program

end ApiSurface
