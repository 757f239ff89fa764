import ApiSurface.Proofs.ResolvedNames
/-!
Answers about exports and names end, and no table of exports is computed twice. Here a module is
marked while its table is being computed and unmarked when the table is there, every such beginning
is logged, and a question that would go more than `n` modules deep has no answer at all. As no
module is begun while it is marked, a depth of one more than there are symbols is always enough,
and what is answered is then what a program answers.
-/
namespace ApiSurface

namespace Program

/-- What a program has at hand when it is asked. -/
structure Desk where
  /-- The tables that are there. -/
  memory : Memory
  /-- The modules whose tables are being computed. -/
  busy : List SymbolIndex
  /-- The modules whose tables were begun, in order, each as often as it was. -/
  begun : List SymbolIndex
  deriving Inhabited

namespace Desk

/-- Nothing was asked yet. -/
def fresh : Desk := ⟨[], [], []⟩

/-- The table of a module is begun. -/
def start (s : SymbolIndex) (d : Desk) : Desk := ⟨d.memory, s :: d.busy, d.begun ++ [s]⟩

/-- The table of a module is there. -/
def finish (s : SymbolIndex) (t : ExportTable) (d : Desk) : Desk :=
  ⟨d.memory.insert s t, d.busy.erase s, d.begun⟩

end Desk

/-- Questions that may go too deep. -/
abbrev Work := StateT Desk Option

/-- The exports of a module, when the tables that it takes go at most `n` deep. -/
def work (p : Program) : ℕ → SymbolIndex → Work ExportTable
  | 0, _ => failure
  | n+1, s => do
    let d ← get
    if let some t := d.memory.get? s then return t
    if d.busy.contains s then return []
    modify (Desk.start s)
    let t ← p.exportsBy (p.work n) s
    modify (Desk.finish s t)
    return t

/-- What is found for a request, over any way of asking for exports. -/
def Request.answerBy {m : Type → Type} [Monad m] (p : Program) (ask : SymbolIndex → m ExportTable) :
    Request → m (List Resolution)
  | .exports s => return (← ask s).map (·.2)
  | .lookupExport s name => return ((← ask s).find? name).toList
  | .resolve s => return (← p.resolveBy ask s).toList
  | .entity scope parts => return (← p.entityBy ask (p.resolveBy ask) scope parts).toList
  | .member s name => return (← p.memberBy ask s name).toList

theorem Request.answerBy_exportsOf (p : Program) (request : Request) :
    request.answerBy p p.exportsOf = request.answer p := by
  cases request <;> rfl

variable {p : Program} {n : ℕ} {s : SymbolIndex} {d d' : Desk}

/-- Every module that was begun is either being computed or has its table, and it was begun once. -/
structure Desk.Fit (d : Desk) : Prop where
  busy_nodup : d.busy.Nodup
  begun_nodup : d.begun.Nodup
  mem_begun : ∀ s, s ∈ d.begun ↔ s ∈ d.busy ∨ s ∈ d.memory.keys
  apart : ∀ s ∈ d.busy, s ∉ d.memory.keys

/-- What may happen to a desk: the same tables are being computed, those that are there stay, and
none is taken from the log. -/
structure Desk.Later (d d' : Desk) : Prop where
  busy_eq : d'.busy = d.busy
  begun_prefix : d.begun <+: d'.begun
  kept : ∀ s t, d.memory.get? s = some t → d'.memory.get? s = some t

namespace Desk

theorem Later.refl (d : Desk) : d.Later d := ⟨rfl, List.prefix_rfl, fun _ _ h => h⟩

theorem Later.trans {d d' d'' : Desk} (h : d.Later d') (h' : d'.Later d'') : d.Later d'' :=
  ⟨h'.busy_eq.trans h.busy_eq, h.begun_prefix.trans h'.begun_prefix,
    fun s t ht => h'.kept s t (h.kept s t ht)⟩

theorem Fit.fresh : fresh.Fit := by
  constructor <;> simp [Desk.fresh, Table.keys]

theorem not_mem_keys (hmemory : d.memory.get? s = none) : s ∉ d.memory.keys := by
  intro hkeys
  obtain ⟨t, ht⟩ := Table.mem_keys_iff.mp hkeys
  rw [hmemory] at ht
  cases ht

/-- A module is begun only if it was not begun before. -/
theorem Fit.start (h : d.Fit) (hmemory : d.memory.get? s = none) (hs : s ∉ d.busy) :
    (d.start s).Fit where
  busy_nodup := List.nodup_cons.mpr ⟨hs, h.busy_nodup⟩
  begun_nodup := by
    have hbegun : s ∉ d.begun := fun hbegun =>
      ((h.mem_begun s).mp hbegun).elim hs (not_mem_keys hmemory)
    rw [Desk.start, ← List.concat_eq_append]
    exact (List.nodup_concat ..).mpr ⟨hbegun, h.begun_nodup⟩
  mem_begun x := by
    simp only [Desk.start, List.mem_append, List.mem_cons, List.not_mem_nil, or_false, h.mem_begun]
    tauto
  apart := List.forall_mem_cons.mpr ⟨not_mem_keys hmemory, h.apart⟩

theorem busy_finish (hlater : (d.start s).Later d') (t : ExportTable) :
    (d'.finish s t).busy = d.busy := by
  rw [Desk.finish, hlater.busy_eq]
  exact List.erase_cons_head s d.busy

theorem Fit.finish (h : d.Fit) (hs : s ∈ d.busy) (t : ExportTable) : (d.finish s t).Fit where
  busy_nodup := h.busy_nodup.erase s
  begun_nodup := h.begun_nodup
  mem_begun x := by
    simp only [Desk.finish, h.mem_begun, h.busy_nodup.mem_erase_iff, Table.mem_keys_insert]
    by_cases hx : x = s
    · simp [hx, hs]
    · simp [hx]
  apart x hx := by
    obtain ⟨hne, hx⟩ := h.busy_nodup.mem_erase_iff.mp hx
    rw [Desk.finish, Table.mem_keys_insert, not_or]
    exact ⟨hne, h.apart x hx⟩

theorem Later.finish (hlater : (d.start s).Later d') (hmemory : d.memory.get? s = none)
    (t : ExportTable) : d.Later (d'.finish s t) where
  busy_eq := busy_finish hlater t
  begun_prefix := (List.prefix_append d.begun [s]).trans hlater.begun_prefix
  kept x u hu := by
    have hx : x ≠ s := by
      rintro rfl
      rw [hmemory] at hu
      cases hu
    rw [Desk.finish, Table.get?_insert_of_ne _ _ hx]
    exact hlater.kept x u hu

end Desk

theorem work_of_get? {t : ExportTable} (h : d.memory.get? s = some t) :
    p.work (n+1) s d = some (t, d) := by
  simp only [work, bind, StateT.bind, get, getThe, MonadStateOf.get, StateT.get, pure,
    Option.bind_some, h]
  rfl

theorem work_of_mem (h : d.memory.get? s = none) (hs : s ∈ d.busy) :
    p.work (n+1) s d = some ([], d) := by
  simp only [work, bind, StateT.bind, get, getThe, MonadStateOf.get, StateT.get, pure,
    Option.bind_some, h, List.contains_eq_mem, hs]
  rfl

theorem work_of_new (h : d.memory.get? s = none) (hs : s ∉ d.busy) :
    p.work (n+1) s d =
      (p.exportsBy (p.work n) s (d.start s)).map fun r => (r.1, r.2.finish s r.1) := by
  simp only [work, bind, StateT.bind, get, getThe, MonadStateOf.get, StateT.get, pure,
    Option.bind_some, h, List.contains_eq_mem, hs]
  change (p.exportsBy (p.work n) s (d.start s)).bind _ = _
  cases p.exportsBy (p.work n) s (d.start s) <;> rfl

/-- What a program answers while some modules are busy is answered at every desk where they are,
and they are busy afterwards too. -/
def working (busy : List SymbolIndex) : MonadRel Query Work where
  rel x y := ∀ d : Desk, d.Fit → d.busy = busy → ∃ d' : Desk,
    y d = some ((x d.memory).1, d') ∧ d'.memory = (x d.memory).2 ∧ d'.Fit ∧ d.Later d'
  pure _ := fun d hd _ => ⟨d, rfl, rfl, hd, .refl d⟩
  bind := by
    intro α β x y f g hxy hfg d hd hbusy
    obtain ⟨d₁, hy, hm₁, hd₁, hl₁⟩ := hxy d hd hbusy
    obtain ⟨d₂, hg, hm₂, hd₂, hl₂⟩ := hfg (x d.memory).1 d₁ hd₁ (hl₁.busy_eq.trans hbusy)
    rw [hm₁] at hg hm₂
    refine ⟨d₂, ?_, hm₂, hd₂, hl₁.trans hl₂⟩
    change (y d).bind _ = _
    rw [hy]
    exact hg

/-- There is an answer where the depth is more than the number of modules that are not busy. -/
theorem work_rel (k : ℕ) (busy : List SymbolIndex) (s : SymbolIndex)
    (hb : ∀ b ∈ busy, b < p.symbols.size) (hk : p.symbols.size < busy.length+k)
    (hn : p.symbols.size < busy.length+n) :
    (working busy).rel (p.askWithin k busy s) (p.work n s) := by
  intro d hd hbusy
  subst hbusy
  have hle := busy_length_le hd.busy_nodup hb
  induction n generalizing k d s with
  | zero => omega
  | succ n ih =>
    obtain ⟨k, rfl⟩ : ∃ j, k = j+1 := ⟨k-1, by omega⟩
    cases hmemory : d.memory.get? s with
    | some t =>
      rw [work_of_get? hmemory, askWithin_of_get? hmemory]
      exact ⟨d, rfl, rfl, hd, .refl d⟩
    | none =>
      by_cases hs : s ∈ d.busy
      · rw [work_of_mem hmemory hs, askWithin_of_mem hmemory hs]
        exact ⟨d, rfl, rfl, hd, .refl d⟩
      · rw [work_of_new hmemory hs, askWithin_of_new hmemory hs]
        have hinner : (working (s :: d.busy)).rel
            (p.exportsBy (p.askWithin k (s :: d.busy)) s) (p.exportsBy (p.work n) s) := by
          by_cases hsize : p.symbols.size ≤ s
          · rw [exportsBy_of_size_le _ hsize, exportsBy_of_size_le _ hsize]
            exact (working _).pure []
          · -- one more module is busy, so one less depth is enough
            have hb' : ∀ b ∈ s :: d.busy, b < p.symbols.size :=
              List.forall_mem_cons.mpr ⟨Nat.lt_of_not_le hsize, hb⟩
            refine exportsBy_rel _ p (fun b d₁ hd₁ hbusy₁ => ?_) s
            have hlength : d₁.busy.length = d.busy.length+1 := by
              rw [hbusy₁, List.length_cons]
            rw [← hbusy₁] at hb' ⊢
            exact ih k b d₁ hd₁ hb' (by omega) (by omega) (busy_length_le hd₁.busy_nodup hb')
        obtain ⟨d', hrun, hm, hfit, hlater⟩ := hinner (d.start s) (hd.start hmemory hs) rfl
        have hbusy' : s ∈ d'.busy := hlater.busy_eq ▸ List.mem_cons_self
        rw [hrun]
        refine ⟨_, rfl, ?_, hfit.finish hbusy' _, hlater.finish hmemory _⟩
        rw [Desk.finish, hm]
        rfl

theorem answerBy_rel {m m' : Type → Type} [Monad m] [Monad m'] [LawfulMonad m] [LawfulMonad m']
    (R : MonadRel m m') {ask : SymbolIndex → m ExportTable} {ask' : SymbolIndex → m' ExportTable}
    (hask : ∀ s, R.rel (ask s) (ask' s)) (request : Request) :
    R.rel (request.answerBy p ask) (request.answerBy p ask') := by
  have hresolve := resolveBy_rel R p hask
  cases request with
  | exports s => exact R.bind (hask s) fun t => R.pure _
  | lookupExport s name => exact R.bind (hask s) fun t => R.pure _
  | resolve s => exact R.bind (hresolve s) fun r => R.pure _
  | entity scope parts =>
    exact R.bind (entityBy_rel R p hask hresolve scope parts) fun r => R.pure _
  | member s name => exact R.bind (memberBy_rel R p hask s name) fun r => R.pure _

/-- Every run of requests ends, also one that is made while tables are being computed. Afterwards
the same tables are being computed as before, every table that was there is the same, and no table
was begun twice. A run from the start gives what a program answers, and leaves the tables that were
begun and no others. -/
theorem requests_end (p : Program) (hn : p.symbols.size < n) (requests : List Request) :
    (∀ d : Desk, d.Fit → (∀ b ∈ d.busy, b < p.symbols.size) →
      ∃ answers d', requests.mapM (Request.answerBy p (p.work n)) d = some (answers, d') ∧
        d'.busy = d.busy ∧ d'.begun.Nodup ∧ d.begun <+: d'.begun ∧
        ∀ s t, d.memory.get? s = some t → d'.memory.get? s = some t) ∧
    ∃ answers d', requests.mapM (Request.answerBy p (p.work n)) .fresh = some (answers, d') ∧
      d'.busy = [] ∧ d'.begun.Nodup ∧ (∀ s, s ∈ d'.begun ↔ s ∈ d'.memory.keys) ∧
      requests.mapM (Request.answer p) [] = (answers, d'.memory) := by
  have hanswer (busy : List SymbolIndex) (hb : ∀ b ∈ busy, b < p.symbols.size) :
      (working busy).rel (requests.mapM (Request.answerBy p (p.askWithin (p.symbols.size+1) busy)))
        (requests.mapM (Request.answerBy p (p.work n))) :=
    (working busy).mapM (answerBy_rel _ fun s => work_rel _ busy s hb (by omega) (by omega))
      requests
  refine ⟨fun d hd hb => ?_, ?_⟩
  · obtain ⟨d', hrun, -, hfit, hlater⟩ := hanswer d.busy hb d hd rfl
    exact ⟨_, d', hrun, hlater.busy_eq, hfit.begun_nodup, hlater.begun_prefix, hlater.kept⟩
  · obtain ⟨d', hrun, hm, hfit, hlater⟩ := hanswer [] (by simp) .fresh .fresh rfl
    refine ⟨_, d', hrun, hlater.busy_eq, hfit.begun_nodup, fun s => ?_, ?_⟩
    · rw [hfit.mem_begun, hlater.busy_eq]
      simp [Desk.fresh]
    · rw [← funext (Request.answerBy_exportsOf p), hm]
      rfl

/-- Two files that export all of each other: each of their tables is begun once, though the second
is asked for while the first is being computed and again afterwards. -/
theorem circle_requests_end :
    Program.load circleFiles (.ofText "/p") ["a.ts", "c.ts"] = .ok circle ∧
      circle.symbols.size < 10 ∧
      ∃ answers d', [Request.exports 0, .resolve 3, .exports 4, .member 0 "y"].mapM
          (Request.answerBy circle (circle.work 10)) Desk.fresh = some (answers, d') ∧
        d'.busy = [] ∧ d'.begun.Nodup ∧ 0 ∈ d'.begun ∧ 4 ∈ d'.begun := by
  have hsize : circle.symbols.size < 10 := by decide +kernel
  obtain ⟨answers, d', hrun, hbusy, hbegun, hkeys, hmemory⟩ :=
    (requests_end circle hsize [.exports 0, .resolve 3, .exports 4, .member 0 "y"]).2
  have hthere : ∀ s ∈ [0, 4], s ∈ ([Request.exports 0, .resolve 3, .exports 4, .member 0 "y"].mapM
      (Request.answer circle) []).2.keys := by
    decide +kernel
  rw [hmemory] at hthere
  exact ⟨load_circleFiles, hsize, answers, d', hrun, hbusy, hbegun,
    (hkeys 0).mpr (hthere 0 (by decide)), (hkeys 4).mpr (hthere 4 (by decide))⟩

end Program

end ApiSurface
