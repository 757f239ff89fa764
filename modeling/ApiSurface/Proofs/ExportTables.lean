import ApiSurface.Proofs.Asking
import ApiSurface.Proofs.Tables
import Mathlib
/-!
Whether the exports of a module depend on what a program was asked before. A module that is asked
while its own table is being computed says that it exports nothing, and tables that were computed
from such an answer are kept. So the order of questions shows where modules export each other in a
circle, and only there: a module whose exports can be worked out by the rules alone always gives
the table that the rules give.
-/
namespace ApiSurface

namespace Program

/-- The exports of a module by the rules alone, when the questions that they ask in turn go at most
`n` modules deep. Nothing is remembered, and no module says that it is busy: where the questions
come back to a module that is being worked out, no depth is enough. -/
def plainExports (p : Program) : ℕ → SymbolIndex → Option ExportTable
  | 0, _ => none
  | n+1, s => p.exportsBy (p.plainExports n) s

/-- Working out the exports of a module never comes back to a module that is being worked out. -/
def Settles (p : Program) (s : SymbolIndex) : Prop := ∃ n t, p.plainExports n s = some t

/-- An answer that is there stays the same. -/
def extending : MonadRel Option Option where
  rel x y := ∀ a, x = some a → y = some a
  pure _ := fun _ hb => hb
  bind := by
    intro α β x y f g hxy hfg b hb
    obtain ⟨a, ha, hb⟩ := Option.bind_eq_some_iff.mp hb
    exact Option.bind_eq_some_iff.mpr ⟨a, hxy a ha, hfg a b hb⟩

/-- An answer that is there is given by a program with a memory of a kind, which it keeps. -/
def agreeing (P : Memory → Prop) : MonadRel Option Query where
  rel x y := ∀ a, x = some a → ∀ memory, P memory → (y memory).1 = a ∧ P (y memory).2
  pure a := by
    intro b hb memory hm
    exact ⟨Option.some.inj hb, hm⟩
  bind := by
    intro α β x y f g hxy hfg b hb memory hm
    obtain ⟨a, ha, hb⟩ := Option.bind_eq_some_iff.mp hb
    obtain ⟨heq, hm⟩ := hxy a ha memory hm
    have hb' : f (y memory).1 = some b := heq ▸ hb
    exact hfg (y memory).1 b hb' _ hm

/-- A program keeps a memory of a kind. -/
def keeping (P : Memory → Prop) : MonadRel Query Query where
  rel _ y := ∀ memory, P memory → P (y memory).2
  pure _ := fun _ hm => hm
  bind := fun hxy hfg memory hm => hfg _ _ (hxy memory hm)

variable {p : Program}

theorem plainExports_succ {n : ℕ} {s : SymbolIndex} {t : ExportTable}
    (h : p.plainExports n s = some t) : p.plainExports (n+1) s = some t := by
  induction n generalizing s t with
  | zero => exact absurd h (by simp [plainExports])
  | succ n ih => exact exportsBy_rel extending p (fun _ _ ha => ih ha) s t h

theorem plainExports_mono {n k : ℕ} (hk : n ≤ k) {s : SymbolIndex} {t : ExportTable}
    (h : p.plainExports n s = some t) : p.plainExports k s = some t := by
  induction hk with
  | refl => exact h
  | step _ ih => exact plainExports_succ ih

theorem plainExports_unique {n k : ℕ} {s : SymbolIndex} {t t' : ExportTable}
    (h : p.plainExports n s = some t) (h' : p.plainExports k s = some t') : t = t' := by
  have hn := plainExports_mono (Nat.le_max_left n k) h
  have hk := plainExports_mono (Nat.le_max_right n k) h'
  exact Option.some.inj (hn.symm.trans hk)

/-- The least depth that is enough for a module. -/
theorem Settles.exists_least {s : SymbolIndex} (h : p.Settles s) :
    ∃ n t, p.plainExports (n+1) s = some t ∧ ∀ k t', p.plainExports k s = some t' → n < k := by
  classical
  have hex : ∃ n, ∃ t, p.plainExports n s = some t := h
  obtain ⟨t, ht⟩ := Nat.find_spec hex
  cases hn : Nat.find hex with
  | zero => exact absurd (hn ▸ ht) (by simp [plainExports])
  | succ n =>
    refine ⟨n, t, hn ▸ ht, fun k t' hk => ?_⟩
    have hle := Nat.find_min' hex ⟨t', hk⟩
    omega

/-- What a memory has of modules that settle is what the rules give. -/
def Memory.Plain (p : Program) (memory : Memory) : Prop :=
  ∀ s t, memory.get? s = some t → ∀ n t', p.plainExports n s = some t' → t = t'

/-- The modules in `busy` need more depth than the module `s`, which their tables wait for. -/
def Waits (p : Program) (busy : List SymbolIndex) (s : SymbolIndex) : Prop :=
  ∀ b ∈ busy, ∀ n t, p.plainExports n b = some t → ∃ k < n, ∃ t', p.plainExports k s = some t'

theorem Waits.not_settles {busy : List SymbolIndex} {s : SymbolIndex} (h : p.Waits busy s)
    (hs : s ∈ busy) : ¬p.Settles s := by
  intro hsettles
  obtain ⟨n, t, ht, hleast⟩ := hsettles.exists_least
  obtain ⟨k, hk, t', ht'⟩ := h s hs _ t ht
  have hlt := hleast k t' ht'
  omega

/-- A module asked by one that never settles is waited for by modules that never settle. -/
theorem Waits.cons_of_not_settles {busy : List SymbolIndex} {s : SymbolIndex}
    (h : p.Waits busy s) (hs : ¬p.Settles s) (b : SymbolIndex) : p.Waits (s :: busy) b := by
  intro c hc n t ht
  rcases List.mem_cons.mp hc with rfl | hc
  · exact absurd ⟨n, t, ht⟩ hs
  · obtain ⟨k, -, t', ht'⟩ := h c hc n t ht
    exact absurd ⟨k, t', ht'⟩ hs

/-- A module whose table is needed for that of `s` takes less depth than `s`. -/
theorem Waits.cons_of_least {busy : List SymbolIndex} {s b : SymbolIndex} {n : ℕ}
    {t : ExportTable} (h : p.Waits busy s)
    (hleast : ∀ k t', p.plainExports k s = some t' → n < k) (hb : p.plainExports n b = some t) :
    p.Waits (s :: busy) b := by
  intro c hc k t' ht'
  rcases List.mem_cons.mp hc with rfl | hc
  · exact ⟨n, hleast k t' ht', t, hb⟩
  · obtain ⟨j, hj, t'', ht''⟩ := h c hc k t' ht'
    have hlt := hleast j t'' ht''
    exact ⟨n, by omega, t, hb⟩

/-- A number that no symbol has exports nothing. -/
theorem exportsBy_of_size_le {m : Type → Type} [Monad m] [LawfulMonad m]
    (ask : SymbolIndex → m ExportTable) {s : SymbolIndex} (hs : p.symbols.size ≤ s) :
    p.exportsBy ask s = pure [] := by
  have hsymbol : p.symbol s = default := Bindings.symbol_of_size_le hs
  have hbodies : p.bodies s = [] := by
    rw [bodies, hsymbol]
    rfl
  simp [exportsBy, explicitBy, hbodies]

theorem Memory.Plain.insert {memory : Memory} (h : memory.Plain p) {s : SymbolIndex}
    {t : ExportTable} (ht : ∀ n t', p.plainExports n s = some t' → t = t') :
    Memory.Plain p (Table.insert memory s t) := by
  intro x u hu n t' ht'
  by_cases hx : x = s
  · subst hx
    rw [Table.get?_insert_self] at hu
    exact (Option.some.inj hu) ▸ ht n t' ht'
  · rw [Table.get?_insert_of_ne _ _ hx] at hu
    exact h x u hu n t' ht'

/-- Fewer modules are busy than there are symbols. -/
theorem busy_length_le {busy : List SymbolIndex} (hd : busy.Nodup)
    (hb : ∀ b ∈ busy, b < p.symbols.size) : busy.length ≤ p.symbols.size := by
  have hsub : busy ⊆ List.range p.symbols.size := fun b h => List.mem_range.mpr (hb b h)
  simpa using (hd.subperm hsub).length_le

theorem askWithin_of_get? {fuel : ℕ} {busy : List SymbolIndex} {s : SymbolIndex} {memory : Memory}
    {t : ExportTable} (h : memory.get? s = some t) :
    p.askWithin (fuel+1) busy s memory = (t, memory) := by
  simp only [askWithin, bind, StateT.bind, get, getThe, MonadStateOf.get, StateT.get, pure, h]
  rfl

theorem askWithin_of_mem {fuel : ℕ} {busy : List SymbolIndex} {s : SymbolIndex} {memory : Memory}
    (h : memory.get? s = none) (hs : s ∈ busy) :
    p.askWithin (fuel+1) busy s memory = ([], memory) := by
  simp only [askWithin, bind, StateT.bind, get, getThe, MonadStateOf.get, StateT.get, pure, h,
    List.contains_eq_mem, hs]
  rfl

theorem askWithin_of_new {fuel : ℕ} {busy : List SymbolIndex} {s : SymbolIndex} {memory : Memory}
    (h : memory.get? s = none) (hs : s ∉ busy) :
    p.askWithin (fuel+1) busy s memory =
      let r := p.exportsBy (p.askWithin fuel (s :: busy)) s memory
      (r.1, Table.insert r.2 s r.1) := by
  simp only [askWithin, bind, StateT.bind, get, getThe, MonadStateOf.get, StateT.get, pure, h,
    List.contains_eq_mem, hs]
  rfl

/-- The answer of a module that settles is what the rules give, whatever was asked before and
whichever modules are busy that wait for it. -/
theorem askWithin_plain (fuel : ℕ) (busy : List SymbolIndex) (s : SymbolIndex) (memory : Memory)
    (hd : busy.Nodup) (hb : ∀ b ∈ busy, b < p.symbols.size)
    (hfuel : p.symbols.size < busy.length+fuel) (hwaits : p.Waits busy s)
    (hplain : memory.Plain p) :
    (p.askWithin fuel busy s memory).2.Plain p ∧
      ∀ n t, p.plainExports n s = some t → (p.askWithin fuel busy s memory).1 = t := by
  induction fuel generalizing busy s memory with
  | zero =>
    have hle := busy_length_le hd hb
    omega
  | succ fuel ih =>
    cases hmem : memory.get? s with
    | some t =>
      rw [askWithin_of_get? hmem]
      exact ⟨hplain, hplain s t hmem⟩
    | none =>
      by_cases hs : s ∈ busy
      · rw [askWithin_of_mem hmem hs]
        exact ⟨hplain, fun n t ht => absurd ⟨n, t, ht⟩ (hwaits.not_settles hs)⟩
      · rw [askWithin_of_new hmem hs]
        by_cases hsize : p.symbols.size ≤ s
        · have hempty (n : ℕ) (t : ExportTable) (ht : p.plainExports n s = some t) : [] = t := by
            cases n with
            | zero => simp [plainExports] at ht
            | succ n =>
              rw [plainExports, exportsBy_of_size_le _ hsize] at ht
              exact Option.some.inj ht
          rw [exportsBy_of_size_le _ hsize]
          exact ⟨hplain.insert hempty, hempty⟩
        · have hd' : (s :: busy).Nodup := List.nodup_cons.mpr ⟨hs, hd⟩
          have hb' : ∀ b ∈ s :: busy, b < p.symbols.size :=
            List.forall_mem_cons.mpr ⟨Nat.lt_of_not_le hsize, hb⟩
          have hfuel' : p.symbols.size < (s :: busy).length+fuel := by
            rw [List.length_cons]
            omega
          by_cases hsettles : p.Settles s
          · obtain ⟨n, t, ht, hleast⟩ := hsettles.exists_least
            -- what `s` asks settles with less depth, so it is answered by the rules alone
            obtain ⟨heq, hafter⟩ := exportsBy_rel (agreeing (Memory.Plain p)) p
              (fun b u hu m hm =>
                have h := ih _ b m hd' hb' hfuel' (hwaits.cons_of_least hleast hu) hm
                ⟨h.2 n u hu, h.1⟩) s t ht memory hplain
            have hall (k : ℕ) (t' : ExportTable) (hk : p.plainExports k s = some t') : t = t' :=
              plainExports_unique ht hk
            exact ⟨hafter.insert (heq ▸ hall), heq ▸ hall⟩
          · -- the table of `s` is kept, but no module that settles ever asks for it
            have hask (b : SymbolIndex) : (keeping (Memory.Plain p)).rel
                (p.askWithin fuel (s :: busy) b) (p.askWithin fuel (s :: busy) b) := fun m hm =>
              (ih _ b m hd' hb' hfuel' (hwaits.cons_of_not_settles hsettles b) hm).1
            have hafter := exportsBy_rel (keeping (Memory.Plain p)) p hask s memory hplain
            have hnone (n : ℕ) (t u : ExportTable) (ht : p.plainExports n s = some t) : u = t :=
              absurd ⟨n, t, ht⟩ hsettles
            exact ⟨hafter.insert fun n t => hnone n t _, fun n t => hnone n t _⟩

theorem exportsOf_plain (s : SymbolIndex) {memory : Memory} (h : memory.Plain p) :
    (p.exportsOf s memory).2.Plain p ∧
      ∀ n t, p.plainExports n s = some t → (p.exportsOf s memory).1 = t :=
  askWithin_plain _ _ _ _ List.nodup_nil (by simp) (by simp) (by simp [Waits]) h

/-- What is remembered stays. -/
theorem askWithin_keeps (fuel : ℕ) (busy : List SymbolIndex) (s x : SymbolIndex) (u : ExportTable)
    (memory : Memory) (h : memory.get? x = some u) :
    (p.askWithin fuel busy s memory).2.get? x = some u := by
  induction fuel generalizing busy s memory with
  | zero => exact h
  | succ fuel ih =>
    cases hmem : memory.get? s with
    | some t => rwa [askWithin_of_get? hmem]
    | none =>
      by_cases hs : s ∈ busy
      · rwa [askWithin_of_mem hmem hs]
      · rw [askWithin_of_new hmem hs]
        have hne : x ≠ s := by
          rintro rfl
          rw [hmem] at h
          exact absurd h (by simp)
        rw [Table.get?_insert_of_ne _ _ hne]
        have hask (b : SymbolIndex) : (keeping fun m => m.get? x = some u).rel
            (p.askWithin fuel (s :: busy) b) (p.askWithin fuel (s :: busy) b) :=
          fun m hm => ih (s :: busy) b m hm
        exact exportsBy_rel _ p hask s memory h

/-- An answer to a request is remembered. -/
theorem exportsOf_remembered (s : SymbolIndex) (memory : Memory) :
    (p.exportsOf s memory).2.get? s = some (p.exportsOf s memory).1 := by
  unfold exportsOf
  cases hmem : memory.get? s with
  | some t => rw [askWithin_of_get? hmem, hmem]
  | none =>
    rw [askWithin_of_new hmem List.not_mem_nil]
    exact Table.get?_insert_self ..

/-- Requests for the exports of modules, one after the other, each with its answer. -/
def answers (p : Program) : List SymbolIndex → Memory → List (SymbolIndex × ExportTable)
  | [], _ => []
  | s :: requests, memory =>
    let r := p.exportsOf s memory
    (s, r.1) :: answers p requests r.2

theorem mem_keys_answers {requests : List SymbolIndex} {memory : Memory} {s : SymbolIndex} :
    (∃ t, (s, t) ∈ p.answers requests memory) ↔ s ∈ requests := by
  induction requests generalizing memory with
  | nil => simp [answers]
  | cons r requests ih =>
    simp only [answers, List.mem_cons, Prod.mk.injEq, exists_or, ih, exists_and_left, exists_eq,
      and_true]

theorem answers_of_remembered {requests : List SymbolIndex} {memory : Memory} {s : SymbolIndex}
    {t u : ExportTable} (hm : memory.get? s = some u) (h : (s, t) ∈ p.answers requests memory) :
    t = u := by
  induction requests generalizing memory with
  | nil => simp [answers] at h
  | cons r requests ih =>
    rcases List.mem_cons.mp h with he | h
    · obtain ⟨rfl, rfl⟩ := (Prod.mk.injEq ..).mp he
      rw [exportsOf, askWithin_of_get? hm]
    · exact ih (askWithin_keeps _ _ _ _ _ _ hm) h

/-- In one run all answers for a module are the same, whether or not it settles. -/
theorem answers_consistent {requests : List SymbolIndex} {memory : Memory} {s : SymbolIndex}
    {t t' : ExportTable} (h : (s, t) ∈ p.answers requests memory)
    (h' : (s, t') ∈ p.answers requests memory) : t = t' := by
  induction requests generalizing memory with
  | nil => simp [answers] at h
  | cons r requests ih =>
    rcases List.mem_cons.mp h with he | h <;> rcases List.mem_cons.mp h' with he' | h'
    · exact congrArg Prod.snd (he.trans he'.symm)
    · obtain ⟨rfl, rfl⟩ := (Prod.mk.injEq ..).mp he
      exact (answers_of_remembered (exportsOf_remembered _ _) h').symm
    · obtain ⟨rfl, rfl⟩ := (Prod.mk.injEq ..).mp he'
      exact answers_of_remembered (exportsOf_remembered _ _) h
    · exact ih h h'

theorem answers_plain {requests : List SymbolIndex} {memory : Memory} (hm : memory.Plain p)
    {s : SymbolIndex} {t u : ExportTable} {n : ℕ} (h : (s, t) ∈ p.answers requests memory)
    (hu : p.plainExports n s = some u) : t = u := by
  induction requests generalizing memory with
  | nil => simp [answers] at h
  | cons r requests ih =>
    rcases List.mem_cons.mp h with he | h
    · obtain ⟨rfl, rfl⟩ := (Prod.mk.injEq ..).mp he
      exact (exportsOf_plain _ hm).2 n u hu
    · exact ih (exportsOf_plain _ hm).1 h

/-- The exports of a module that settles are the same in all runs that ask for them, whatever else
they ask and in whichever order: they are those that the rules give. Within one run the answers for
any module are the same, also where modules export each other in a circle. -/
theorem exports_independent_of_order (p : Program) (requests requests' : List SymbolIndex) :
    (∀ s t t', (s, t) ∈ p.answers requests [] → (s, t') ∈ p.answers requests [] → t = t') ∧
      ∀ s ∈ requests, s ∈ requests' → p.Settles s → ∃ t, (s, t) ∈ p.answers requests [] ∧
        (s, t) ∈ p.answers requests' [] ∧ (∃ n, p.plainExports n s = some t) ∧
        (∀ u, (s, u) ∈ p.answers requests [] → u = t) ∧
        ∀ u, (s, u) ∈ p.answers requests' [] → u = t := by
  refine ⟨fun s t t' => answers_consistent, fun s hs hs' hsettles => ?_⟩
  obtain ⟨n, t, ht⟩ := hsettles
  have hplain : Memory.Plain p [] := by
    intro x u hu
    simp [Table.get?] at hu
  have hrun (rs : List SymbolIndex) (u : ExportTable) (hu : (s, u) ∈ p.answers rs []) : u = t :=
    answers_plain hplain hu ht
  obtain ⟨u, hu⟩ := mem_keys_answers.mpr hs
  obtain ⟨u', hu'⟩ := mem_keys_answers.mpr hs'
  exact ⟨t, hrun requests u hu ▸ hu, hrun requests' u' hu' ▸ hu', ⟨n, ht⟩, hrun requests,
    hrun requests'⟩

/-- A package in which two files export all of each other and a third one stands aside. -/
def circleFiles : FileSystem := (FileTree.ofList
  [("/p/a.ts", "export * from \"./b\";\nexport const x = 1;"),
    ("/p/b.ts", "export * from \"./a\";\nexport const y = 1;"),
    ("/p/c.ts",
      "import \x7b z \x7d from \"./d\";\nexport \x7b z as w \x7d;\nexport * from \"./d\";"),
    ("/p/d.ts", "export const z = 1;")]).fileSystem

/-- The program of that package: the symbols of its files are 0, 4, 2 and 6. -/
def circle : Program :=
  (Program.load circleFiles (.ofText "/p") ["a.ts", "c.ts"]).toOption.getD default

theorem load_circleFiles :
    Program.load circleFiles (.ofText "/p") ["a.ts", "c.ts"] = .ok circle := by
  have hok : (Program.load circleFiles (.ofText "/p") ["a.ts", "c.ts"]).isOk = true := by
    decide +kernel
  unfold circle
  cases h : Program.load circleFiles (.ofText "/p") ["a.ts", "c.ts"] with
  | error e => exact absurd (h ▸ hok) (by simp [Except.isOk, Except.toBool])
  | ok p => rfl

/-- The file that stands aside settles, so it is the same to ask it first or last. -/
theorem circle_bystander_exports :
    2 ∈ [0, 4, 2] ∧ 2 ∈ [2, 0] ∧ circle.Settles 2 ∧
      ∃ t, (2, t) ∈ circle.answers [0, 4, 2] [] ∧ (2, t) ∈ circle.answers [2, 0] [] := by
  have hsettles : circle.Settles 2 :=
    ⟨2, [("w", .symbol 7), ("z", .symbol 7)], by decide +kernel⟩
  obtain ⟨t, h, h', -⟩ := (exports_independent_of_order circle [0, 4, 2] [2, 0]).2 2
    (by decide) (by decide) hsettles
  exact ⟨by decide, by decide, hsettles, t, h, h'⟩

/-- What the second file of the circle exports depends on whether the first was asked before it. -/
theorem exports_depend_on_order_in_circle :
    ¬ ∀ (fs : FileSystem) (root : Path) (entries : List String) (p : Program),
      Program.load fs root entries = .ok p →
      ∀ s, (p.symbol s).isModuleLike = true → ∀ requests requests' : List SymbolIndex,
      s ∈ requests → s ∈ requests' →
      ∀ t t', (s, t) ∈ p.answers requests [] → (s, t') ∈ p.answers requests' [] →
      ∀ name, t.get? name = t'.get? name := by
  intro h
  have hlate : (4, [("y", .symbol 5)]) ∈ circle.answers [0, 4] [] := by decide +kernel
  have hfirst : (4, [("y", .symbol 5), ("x", .symbol 1)]) ∈ circle.answers [4] [] := by
    decide +kernel
  have hx := h circleFiles _ _ circle load_circleFiles 4 (by decide +kernel) [0, 4] [4]
    (by decide) (by decide) _ _ hlate hfirst "x"
  exact absurd hx (by decide)

end Program

end ApiSurface
