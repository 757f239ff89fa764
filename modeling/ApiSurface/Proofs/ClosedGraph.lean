import ApiSurface.Extraction.Discovery
import ApiSurface.Proofs.DescribedSymbols
import Mathlib
/-!
The graph that a walk gives is closed: whatever a described symbol names is described too or belongs
to another package, and every mention is known. Everything but the entrypoints was reached from
them by mentions and belongs to the package.
-/
namespace ApiSurface

/-- One symbol is known to mention another one. -/
def Mentions (references : Table SymbolId (List SymbolId)) (b id : SymbolId) : Prop :=
  b ∈ mentioners references id

namespace Walk

variable {p : Program} {roots : List SymbolIndex} {i : ℕ} {done : Described} {w : Walk}

/-- How symbols came to the queue: the entrypoints first, and then symbols of the package to which
mentions lead from the entrypoints. -/
structure Reached (p : Program) (roots : List SymbolIndex) (w : Walk) : Prop where
  first : roots <+: w.queue.toList
  nodup : w.queue.toList.Nodup
  queued : ∀ s ∈ w.queue.toList, s ∈ roots ∨ p.isInternal s = true
  linked : ∀ s ∈ w.queue.toList, ∃ r ∈ roots,
    Relation.ReflTransGen (Mentions w.references) (p.symbolId r) (p.symbolId s)

/-- What is known when the first `i` symbols of the queue are described. -/
structure Progress (p : Program) (roots : List SymbolIndex) (i : ℕ) (done : Described) (w : Walk) :
    Prop extends Reached p roots w where
  current : w.current = none
  calm : w.endless = false
  described : ∀ j s, j < i → w.queue[j]? = some s → p.symbolId s ∈ done.symbols.keys
  keys : done.handles.keys = done.symbols.keys
  distinct : done.symbols.keys.Nodup
  handle : ∀ id s, done.handles.get? id = some s → s ∈ w.queue.toList ∧ p.symbolId s = id
  known : ∀ b d, done.symbols.get? b = some d → ∀ id ∈ d.ids,
    (∃ s ∈ w.queue.toList, p.symbolId s = id) ∨ id ∈ w.externals.keys
  mentioned : ∀ b d, done.symbols.get? b = some d → ∀ id ∈ d.ids, b ≠ id →
    Mentions w.references b id

theorem isInternal_lt {s : SymbolIndex} (h : p.isInternal s = true) : s < p.symbols.size := by
  by_contra hs
  have hdefault : p.symbol s = default := Bindings.symbol_of_size_le (Nat.le_of_not_lt hs)
  simp [Program.isInternal, hdefault, show (default : Symbol).declarations = [] from rfl] at h

theorem symbolId_of_size_le {s t : SymbolIndex} (hs : p.symbols.size ≤ s)
    (ht : p.symbols.size ≤ t) : p.symbolId s = p.symbolId t := by
  simp only [Program.symbolId, Program.places, Bindings.symbol_of_size_le hs,
    Bindings.symbol_of_size_le ht]

/-- No more symbols are in the queue than can be described: those that are no entrypoints are among
the symbols of the program, and at most one entrypoint is not. -/
theorem Reached.queue_size_le (h : Reached p roots w)
    (hroots : (roots.map p.symbolId).Nodup) : w.queue.size ≤ p.symbols.size + 1 := by
  -- all numbers that are no symbols count as one
  have hinj : ∀ s t : ℕ, s ∈ w.queue.toList → t ∈ w.queue.toList →
      min s p.symbols.size = min t p.symbols.size → s = t := by
    intro s t hs ht heq
    rcases Nat.lt_or_ge s p.symbols.size with hs' | hs'
    · omega
    · have ht' : p.symbols.size ≤ t := by omega
      have root {u : SymbolIndex} (hu : u ∈ w.queue.toList) (hsize : p.symbols.size ≤ u) :
          u ∈ roots := by
        rcases h.queued u hu with hroot | hi
        · exact hroot
        · exact absurd (isInternal_lt hi) (Nat.not_lt.mpr hsize)
      exact List.inj_on_of_nodup_map hroots (root hs hs') (root ht ht')
        (symbolId_of_size_le hs' ht')
  have hd : (w.queue.toList.map fun s => min s p.symbols.size).Nodup :=
    List.Nodup.map_on (fun s hs t ht => hinj s t hs ht) h.nodup
  have hsub : (w.queue.toList.map fun s => min s p.symbols.size) ⊆
      List.range (p.symbols.size + 1) := by
    intro k hk
    obtain ⟨s, -, rfl⟩ := List.mem_map.mp hk
    exact List.mem_range.mpr (by omega)
  have hle := (hd.subperm hsub).length_le
  simpa using hle

theorem Progress.described_of_mem {k : ℕ} (h : Progress p roots k done w) (hk : w.queue.size ≤ k)
    {s : SymbolIndex} (hs : s ∈ w.queue.toList) : p.symbolId s ∈ done.symbols.keys := by
  obtain ⟨j, hj⟩ := List.mem_iff_getElem?.mp hs
  rw [Array.getElem?_toList] at hj
  have hlt : j < w.queue.size := by
    by_contra hn
    rw [Array.getElem?_eq_none (Nat.le_of_not_lt hn)] at hj
    exact absurd hj (by simp)
  exact h.described j s (hlt.trans_le hk) hj

theorem Progress.exists_handle (h : Progress p roots i done w) {id : SymbolId}
    (hid : id ∈ done.symbols.keys) :
    ∃ s ∈ w.queue.toList, done.handles.get? id = some s ∧ p.symbolId s = id := by
  rw [← h.keys] at hid
  obtain ⟨s, hs⟩ := Table.mem_keys_iff.mp hid
  obtain ⟨hmem, hsid⟩ := h.handle id s hs
  exact ⟨s, hmem, hs, hsid⟩

theorem describeFrom_succ (limit n i : ℕ) (done : Described) (w : Walk) :
    (describeFrom p limit (n+1) i done).run.run w = match w.queue[i]? with
      | none => (.ok done, w)
      | some s =>
        if done.symbols.has (p.symbolId s) then (describeFrom p limit n (i+1) done).run.run w
        else if (p.symbol s).declarations.isEmpty then
          (.error (.noDeclarations (p.symbol s).name), w)
        else
          let r := (Walk.describe p limit s).run { w with current := some (p.symbolId s) }
          if r.2.endless then (.error .endless, r.2)
          else (describeFrom p limit n (i+1) ⟨done.symbols.insert (p.symbolId s) r.1,
            done.handles.insert (p.symbolId s) s⟩).run.run { r.2 with current := none } := by
  have hget (f : Walk → ExceptT ExtractError (StateM Walk) Described) :
      (do f (← get)).run.run w = (f w).run.run w := rfl
  rw [describeFrom, hget]
  cases w.queue[i]? with
  | none => rfl
  | some s =>
    dsimp only
    split
    · rfl
    · split
      · rfl
      · let r := (Walk.describe p limit s).run { w with current := some (p.symbolId s) }
        change StateT.run (ExceptT.run (if r.2.endless = true then _ else _)) r.2 =
          if r.2.endless = true then _ else _
        by_cases he : r.2.endless = true
        · rw [if_pos he, if_pos he]
          rfl
        · rw [if_neg he, if_neg he]
          rfl

/-- A symbol that shares its name with a described one is passed over. -/
theorem Progress.skip (h : Progress p roots i done w) {s : SymbolIndex}
    (hs : w.queue[i]? = some s) (hid : p.symbolId s ∈ done.symbols.keys) :
    Progress p roots (i+1) done w := by
  refine { h with described := fun j t hj ht => ?_ }
  rcases Nat.lt_succ_iff_lt_or_eq.mp hj with hj | rfl
  · exact h.described j t hj ht
  · obtain rfl : s = t := Option.some.inj (hs.symm.trans ht)
    exact hid

theorem queue_prefix_get {w' : Walk} (h : w.queue.toList <+: w'.queue.toList) {j : ℕ}
    (hj : j < w.queue.size) : w'.queue[j]? = w.queue[j]? := by
  obtain ⟨rest, hrest⟩ := h
  rw [← Array.getElem?_toList, ← Array.getElem?_toList, ← hrest]
  exact List.getElem?_append_left hj

/-- A chain of mentions stays one when more mentions come to be known. -/
theorem linked_mono {w' : Walk} (h : ∀ id, mentioners w.references id ⊆ mentioners w'.references id)
    {a b : SymbolId} (hab : Relation.ReflTransGen (Mentions w.references) a b) :
    Relation.ReflTransGen (Mentions w'.references) a b :=
  Relation.ReflTransGen.mono (fun _ id hm => h id hm) a b hab

/-- What comes to the queue while a symbol is described is linked to the entrypoints through it. -/
theorem Reached.linked_fresh (h : Reached p roots w) {s t : SymbolIndex} {w' : Walk}
    (hs : s ∈ w.queue.toList) (hg : Grows p { w with current := some (p.symbolId s) } w')
    (ht : w'.Notes p (p.symbolId t)) :
    ∃ r ∈ roots, Relation.ReflTransGen (Mentions w'.references) (p.symbolId r) (p.symbolId t) := by
  obtain ⟨r, hr, hlink⟩ := h.linked s hs
  have hlink' := linked_mono hg.references hlink
  refine ⟨r, hr, ?_⟩
  -- a symbol of the same name as the one described is not mentioned by it, but linked already
  by_cases heq : p.symbolId s = p.symbolId t
  · rwa [← heq]
  · exact hlink'.tail (ht.mentioned (p.symbolId s) hg.current heq)

theorem Reached.grow (h : Reached p roots w) {s : SymbolIndex} {w' : Walk}
    (hs : s ∈ w.queue.toList) (hg : Grows p { w with current := some (p.symbolId s) } w') :
    Reached p roots { w' with current := none } where
  first := h.first.trans hg.queue
  nodup := hg.nodup h.nodup
  queued t ht := by
    rcases hg.fresh t ht with ht | ⟨hi, -⟩
    · exact h.queued t ht
    · exact Or.inr hi
  linked t ht := by
    rcases hg.fresh t ht with ht | ⟨-, hn⟩
    · obtain ⟨r, hr, hlink⟩ := h.linked t ht
      exact ⟨r, hr, linked_mono hg.references hlink⟩
    · have hlink := h.linked_fresh hs hg hn
      exact hlink

/-- Describing one more symbol keeps all that is known. -/
theorem Progress.describe (h : Progress p roots i done w) {s : SymbolIndex}
    (hs : w.queue[i]? = some s) (hid : p.symbolId s ∉ done.symbols.keys) {symbol : DocSymbol}
    {w' : Walk} (hg : Grows p { w with current := some (p.symbolId s) } w')
    (hcalm : w'.endless = false) (hids : ∀ id ∈ symbol.ids, w'.Notes p id) :
    Progress p roots (i+1)
      ⟨done.symbols.insert (p.symbolId s) symbol, done.handles.insert (p.symbolId s) s⟩
      { w' with current := none } := by
  have hmem : s ∈ w.queue.toList := by
    rw [← Array.getElem?_toList] at hs
    exact List.mem_of_getElem? hs
  have hi : i < w.queue.size := by
    by_contra hi
    rw [Array.getElem?_eq_none (Nat.le_of_not_lt hi)] at hs
    exact absurd hs (by simp)
  constructor
  case current => rfl
  case calm => exact hcalm
  case toReached => exact h.toReached.grow hmem hg
  case described =>
    intro j t hj ht
    rw [queue_prefix_get hg.queue (by simp only; omega)] at ht
    rcases Nat.lt_succ_iff_lt_or_eq.mp hj with hj | rfl
    · exact Table.mem_keys_insert.mpr (Or.inr (h.described j t hj ht))
    · obtain rfl : s = t := Option.some.inj (hs.symm.trans ht)
      exact Table.mem_keys_insert.mpr (Or.inl rfl)
  case keys =>
    have hid' : p.symbolId s ∉ done.handles.keys := h.keys ▸ hid
    have hkeys := h.keys
    simp only [Table.keys] at hkeys
    simp only [Table.insert_of_not_mem hid, Table.insert_of_not_mem hid', Table.keys,
      List.map_append, hkeys, List.map_cons, List.map_nil]
  case distinct => exact Table.keys_insert_nodup h.distinct _ _
  case handle =>
    intro id t ht
    rw [Table.get?_insert] at ht
    split at ht
    · next heq =>
      obtain rfl : s = t := Option.some.inj ht
      exact ⟨hg.queue.subset hmem, (eq_of_beq heq).symm⟩
    · obtain ⟨ht, hid⟩ := h.handle id t ht
      exact ⟨hg.queue.subset ht, hid⟩
  case known =>
    intro b d hb id hd
    rw [Table.get?_insert] at hb
    split at hb
    · obtain rfl : symbol = d := Option.some.inj hb
      exact (hids id hd).known
    · rcases h.known b d hb id hd with ⟨t, ht, htid⟩ | he
      · exact Or.inl ⟨t, hg.queue.subset ht, htid⟩
      · exact Or.inr (hg.externals he)
  case mentioned =>
    intro b d hb id hd hne
    rw [Table.get?_insert] at hb
    split at hb
    · next heq =>
      obtain rfl := eq_of_beq heq
      obtain rfl : symbol = d := Option.some.inj hb
      exact (hids id hd).mentioned _ hg.current hne
    · exact hg.references id (h.mentioned b d hb id hd hne)

/-- When the walk ends, every symbol of the queue is described. -/
theorem describeFrom_progress {limit n : ℕ} {done' : Described} {w' : Walk}
    (hroots : (roots.map p.symbolId).Nodup) (h : Progress p roots i done w)
    (hn : p.symbols.size + 1 ≤ n + i)
    (hrun : (describeFrom p limit n i done).run.run w = (.ok done', w')) :
    ∃ k, w'.queue.size ≤ k ∧ Progress p roots k done' w' := by
  induction n generalizing i done w with
  | zero =>
    -- the bound is met only when there is no room for more in the queue
    obtain ⟨hdone, rfl⟩ := (Prod.mk.injEq ..).mp hrun
    obtain rfl : done = done' := Except.ok.inj hdone
    exact ⟨i, (h.queue_size_le hroots).trans (by omega), h⟩
  | succ n ih =>
    rw [describeFrom_succ] at hrun
    cases hs : w.queue[i]? with
    | none =>
      rw [hs] at hrun
      obtain ⟨hdone, rfl⟩ := (Prod.mk.injEq ..).mp hrun
      obtain rfl : done = done' := Except.ok.inj hdone
      exact ⟨i, Array.getElem?_eq_none_iff.mp hs, h⟩
    | some s =>
      rw [hs] at hrun
      dsimp only at hrun
      split at hrun
      · next hhas => exact ih (h.skip hs (Table.has_iff.mp hhas)) (by omega) hrun
      · next hhas =>
        split at hrun
        · exact absurd (congrArg Prod.fst hrun) (by simp)
        split at hrun
        · exact absurd (congrArg Prod.fst hrun) (by simp)
        · next hcalm =>
          have hnoting : Noting p [] (Walk.describe p limit s) DocSymbol.ids :=
            describe_noting limit s
          obtain ⟨hg, hids⟩ := hnoting { w with current := some (p.symbolId s) } (by simp)
          have hid : p.symbolId s ∉ done.symbols.keys := fun hid => hhas (Table.has_iff.mpr hid)
          exact ih (h.describe hs hid hg (Bool.eq_false_of_not_eq_true hcalm) hids) (by omega) hrun

/-- The entrypoints are in the queue in their order, each name once, and nothing else is known. -/
structure Started (p : Program) (roots : List RootModule) (w : Walk) : Prop where
  current : w.current = none
  calm : w.endless = false
  references : w.references = []
  externals : w.externals = []
  ids : roots.map (·.id) = w.queue.toList.map p.symbolId
  distinct : (roots.map (·.id)).Nodup

theorem addRoot_run (roots : List RootModule) (specifier : String) (file : FileIndex) (w : Walk) :
    (addRoot p roots (specifier, file)).run.run w = match p.modules.get? file with
      | none => (.error (.entrypointNotModule specifier (p.source file).name), w)
      | some s => if roots.any (·.id == p.symbolId s) then (.ok roots, w)
        else (.ok (roots ++ [⟨specifier, p.symbolId s⟩]), w.enqueue s) := by
  unfold addRoot
  dsimp only
  cases p.modules.get? file with
  | none => rfl
  | some s =>
    dsimp only
    split <;> rfl

/-- A new entrypoint comes last in the queue. -/
theorem Started.enqueue {roots : List RootModule} (h : Started p roots w) {s : SymbolIndex}
    {specifier : String} (hs : ¬ roots.any (·.id == p.symbolId s)) :
    Started p (roots ++ [⟨specifier, p.symbolId s⟩]) (w.enqueue s) := by
  have hid : p.symbolId s ∉ roots.map (·.id) := by
    intro hid
    obtain ⟨r, hr, heq⟩ := List.mem_map.mp hid
    exact hs (List.any_eq_true.mpr ⟨r, hr, beq_iff_eq.mpr heq⟩)
  have hnew : s ∉ w.queue.toList := by
    intro hmem
    rw [h.ids] at hid
    exact hid (List.mem_map.mpr ⟨s, hmem, rfl⟩)
  have hqueue : (w.enqueue s).queue.toList = w.queue.toList ++ [s] := by
    unfold Walk.enqueue
    rw [if_neg (by simpa using hnew)]
    simp
  refine ⟨?_, ?_, ?_, ?_, ?_, ?_⟩
  · rw [enqueue_current, h.current]
  · rw [enqueue_endless, h.calm]
  · rw [enqueue_references, h.references]
  · rw [enqueue_externals, h.externals]
  · rw [hqueue, List.map_append, List.map_append, h.ids]
    rfl
  · rw [List.map_append]
    refine h.distinct.append (List.nodup_singleton _) ?_
    intro id hmem hlast
    obtain rfl := List.mem_singleton.mp hlast
    exact hid hmem

/-- A step that succeeds after another one. -/
theorem exists_of_bind_run {ε σ α β : Type} {x : ExceptT ε (StateM σ) α}
    {f : α → ExceptT ε (StateM σ) β} {b : β} {s s' : σ}
    (h : (x >>= f).run.run s = (.ok b, s')) :
    ∃ a t, x.run.run s = (.ok a, t) ∧ (f a).run.run t = (.ok b, s') := by
  simp only [ExceptT.run_bind, StateT.run_bind] at h
  rcases hx : x.run.run s with ⟨r, t⟩
  rw [hx] at h
  cases r with
  | ok a => exact ⟨a, t, rfl, h⟩
  | error e =>
    have herr : (.error e : Except ε β) = .ok b := congrArg Prod.fst h
    exact absurd herr (by simp)

theorem exists_of_toOption_map {ε α β : Type} {x : Except ε α} {f : α → β} {b : β}
    (h : x.toOption.map f = some b) : ∃ a, x = .ok a ∧ f a = b := by
  cases x with
  | ok a => exact ⟨a, rfl, Option.some.inj h⟩
  | error e =>
    have hnone : none = some b := h
    exact absurd hnone (by simp)

/-- The entrypoints keep the names under which they are given. -/
theorem foldlM_addRoot {entries : List (String × FileIndex)} {roots roots' : List RootModule}
    {w w' : Walk} (h : Started p roots w)
    (hrun : (entries.foldlM (addRoot p) roots).run.run w = (.ok roots', w')) :
    Started p roots' w' ∧ ∃ more, roots' = roots ++ more ∧
      (more.map (·.specifier)).Sublist (entries.map (·.1)) := by
  induction entries generalizing roots w with
  | nil =>
    obtain ⟨hok, rfl⟩ := (Prod.mk.injEq ..).mp hrun
    obtain rfl : roots = roots' := Except.ok.inj hok
    exact ⟨h, [], by simp, List.Sublist.refl _⟩
  | cons entry entries ih =>
    -- the module of the first entrypoint is new, or is that of an earlier one
    obtain ⟨specifier, file⟩ := entry
    rw [List.foldlM_cons] at hrun
    obtain ⟨next, t, hnext, hrest⟩ := exists_of_bind_run hrun
    rw [addRoot_run] at hnext
    split at hnext
    · exact absurd (congrArg Prod.fst hnext) (by simp)
    · split at hnext
      · obtain ⟨hok, rfl⟩ := (Prod.mk.injEq ..).mp hnext
        obtain rfl : roots = next := Except.ok.inj hok
        obtain ⟨hstarted, more, heq, hsub⟩ := ih h hrest
        exact ⟨hstarted, more, heq, hsub.cons specifier⟩
      · next s _ hs =>
        obtain ⟨hok, rfl⟩ := (Prod.mk.injEq ..).mp hnext
        obtain rfl := Except.ok.inj hok
        obtain ⟨hstarted, more, heq, hsub⟩ := ih (h.enqueue hs) hrest
        refine ⟨hstarted, ⟨specifier, p.symbolId s⟩ :: more, ?_, hsub.cons_cons specifier⟩
        rw [heq, List.append_assoc, List.singleton_append]

/-- At the start of the walk only the entrypoints are known. -/
theorem Started.progress {roots : List RootModule} (h : Started p roots w) :
    Progress p w.queue.toList 0 default w where
  first := List.prefix_rfl
  nodup := by
    have hd := h.distinct
    rw [h.ids] at hd
    exact hd.of_map _
  queued s hs := Or.inl hs
  linked s hs := ⟨s, hs, .refl⟩
  current := h.current
  calm := h.calm
  described j s hj := absurd hj (Nat.not_lt_zero j)
  keys := rfl
  distinct := List.nodup_nil
  handle id s hs :=
    absurd hs (by simp [Table.get?, show (default : Described).handles = [] from rfl])
  known b d hb := absurd hb (by simp [Table.get?, show (default : Described).symbols = [] from rfl])
  mentioned b d hb :=
    absurd hb (by simp [Table.get?, show (default : Described).symbols = [] from rfl])

end Walk

/-- A graph in which nothing is left out. -/
structure Graph.Closed (p : Program) (g : Graph) : Prop where
  /-- What a symbol names is described, or belongs to another package. -/
  known : ∀ b d, g.symbols.get? b = some d → ∀ id ∈ d.ids,
    id ∈ g.symbols.keys ∨ id ∈ g.externals.keys
  /-- A symbol is among those that mention what it names. -/
  mentioned : ∀ b d, g.symbols.get? b = some d → ∀ id ∈ d.ids, b ≠ id →
    b ∈ mentioners g.references id
  /-- A chain of mentions leads from an entrypoint to every other symbol. -/
  linked : ∀ id ∈ g.symbols.keys, id ∉ g.roots.map (·.id) →
    ∃ r ∈ g.roots, Relation.TransGen (Mentions g.references) r.id id
  /-- All declarations of a symbol that is no entrypoint are in files of the package. -/
  internal : ∀ id ∈ g.symbols.keys, id ∉ g.roots.map (·.id) →
    ∃ s, g.handles.get? id = some s ∧ p.symbolId s = id ∧ (p.symbol s).declarations ≠ [] ∧
      ∀ site ∈ (p.symbol s).declarations, (p.file site.fileIndex).isInternal = true

/-- The entrypoints of a graph and the names by which its symbols are known. -/
structure Graph.Rooted (p : Program) (g : Graph) : Prop where
  rootIds : (g.roots.map (·.id)).Nodup
  roots : ∀ r ∈ g.roots, r.id ∈ g.symbols.keys
  handles : g.handles.keys = g.symbols.keys
  distinct : g.symbols.keys.Nodup
  symbolId : ∀ id s, g.handles.get? id = some s → p.symbolId s = id

namespace Program

variable {p : Program} {limit : ℕ} {entries : List (String × FileIndex)} {memory : Memory}
variable {g : Graph}

/-- A walk that succeeds has added the entrypoints and then described what came to its queue. -/
theorem walk_steps (h : (p.walk limit entries memory).1 = .ok g) :
    ∃ roots w done w',
      (entries.foldlM (Walk.addRoot p) []).run.run { Walk.start with memory := memory } =
        (.ok roots, w) ∧
      (Walk.describeFrom p limit (p.symbols.size+1) 0 default).run.run w = (.ok done, w') ∧
      g = ⟨roots, done.symbols, done.handles, w'.references, w'.externals⟩ ∧
      (p.walk limit entries memory).2 = w'.memory := by
  unfold walk at h ⊢
  dsimp only at h ⊢
  split at h
  next r last hrun =>
    obtain rfl : r = .ok g := h
    split at hrun
    · obtain ⟨_, _, hthrow, -⟩ := Walk.exists_of_bind_run hrun
      exact absurd (congrArg Prod.fst hthrow) (by simp)
    · obtain ⟨roots, w, hroots, hrun⟩ := Walk.exists_of_bind_run hrun
      obtain ⟨done, w', hdone, hrun⟩ := Walk.exists_of_bind_run hrun
      obtain ⟨hok, rfl⟩ := (Prod.mk.injEq ..).mp hrun
      exact ⟨roots, w, done, w', hroots, hdone, (Except.ok.inj hok).symm, rfl⟩

theorem started_start (p : Program) (memory : Memory) :
    Walk.Started p [] { Walk.start with memory := memory } :=
  ⟨rfl, rfl, rfl, rfl, rfl, List.nodup_nil⟩

/-- A walk that succeeds has described all that came to its queue. -/
theorem walk_progress (h : (p.walk limit entries memory).1 = .ok g) :
    ∃ roots k done w, Walk.Progress p roots k done w ∧ w.queue.size ≤ k ∧
      g.roots.map (·.id) = roots.map p.symbolId ∧ (g.roots.map (·.id)).Nodup ∧
      (g.roots.map (·.specifier)).Sublist (entries.map (·.1)) ∧
      g = ⟨g.roots, done.symbols, done.handles, w.references, w.externals⟩ := by
  obtain ⟨roots, w, done, w', hroots, hdone, rfl, -⟩ := walk_steps h
  obtain ⟨hstarted, more, hmore, hsub⟩ := Walk.foldlM_addRoot (started_start p memory) hroots
  obtain rfl : roots = more := hmore
  have hids : (w.queue.toList.map p.symbolId).Nodup := hstarted.ids ▸ hstarted.distinct
  obtain ⟨k, hk, hprogress⟩ := Walk.describeFrom_progress hids hstarted.progress (by omega) hdone
  exact ⟨_, k, done, w', hprogress, hk, hstarted.ids, hstarted.distinct, hsub, rfl⟩

/-- The graph of every walk that succeeds is closed, however deep types are described. -/
theorem walk_closed (h : (p.walk limit entries memory).1 = .ok g) : g.Closed p := by
  obtain ⟨roots, k, done, w, hp, hk, hids, hd, -, hg⟩ := walk_progress h
  -- the graph is what is known at the end, when all of the queue is described
  rw [hg]
  constructor
  case known =>
    intro b d hb id hid
    rcases hp.known b d hb id hid with ⟨s, hs, rfl⟩ | he
    · exact Or.inl (hp.described_of_mem hk hs)
    · exact Or.inr he
  case mentioned => exact hp.mentioned
  case linked =>
    intro id hid hroot
    obtain ⟨s, hs, -, rfl⟩ := hp.exists_handle hid
    obtain ⟨r, hr, hlink⟩ := hp.linked s hs
    have hmem : p.symbolId r ∈ g.roots.map (·.id) := by
      rw [hids]
      exact List.mem_map.mpr ⟨r, hr, rfl⟩
    obtain ⟨root, hroot', heq⟩ := List.mem_map.mp hmem
    refine ⟨root, hroot', ?_⟩
    rcases Relation.reflTransGen_iff_eq_or_transGen.mp hlink with hsame | hlink
    · exact absurd (hsame ▸ hmem) hroot
    · exact heq ▸ hlink
  case internal =>
    intro id hid hroot
    obtain ⟨s, hs, hget, rfl⟩ := hp.exists_handle hid
    refine ⟨s, hget, rfl, ?_⟩
    rcases hp.queued s hs with hr | hi
    · refine absurd ?_ hroot
      simp only [hids]
      exact List.mem_map.mpr ⟨s, hr, rfl⟩
    · simpa [isInternal] using hi

/-- A package with a module inside its entrypoint, an enum in that module, and a symbol of another
package. -/
def tiered : Program :=
  (load (FileTree.ofList
    [("/p/index.ts", "export * as m from \"./m\";\nexport \x7b Far \x7d from \"far\";"),
      ("/p/m.ts", "export const x = 1;\nexport enum E \x7b A \x7d")]).fileSystem
    (.ofText "/p") ["index.ts"]).toOption.getD default

theorem tiered_walk_closed : ∃ g, (tiered.walk 8 [("pkg", 0)] []).1 = .ok g ∧
    g.symbols.keys = ["index.ts:0", "m.ts:0", "m.ts:13", "m.ts:32", "m.ts:36"] ∧
    g.externals.keys = ["unresolved:far#Far"] ∧ g.Closed tiered := by
  have hkeys : (tiered.walk 8 [("pkg", 0)] []).1.toOption.map
      (fun g => (g.symbols.keys, g.externals.keys)) =
      some (["index.ts:0", "m.ts:0", "m.ts:13", "m.ts:32", "m.ts:36"], ["unresolved:far#Far"]) := by
    decide +kernel
  obtain ⟨g, hok, hkeys⟩ := Walk.exists_of_toOption_map hkeys
  obtain ⟨hsymbols, hexternals⟩ := (Prod.mk.injEq ..).mp hkeys
  exact ⟨g, hok, hsymbols, hexternals, walk_closed hok⟩

/-- The entrypoints are among the described symbols, and what is described is known by its name. -/
theorem walk_rooted (h : (p.walk limit entries memory).1 = .ok g) : g.Rooted p := by
  obtain ⟨roots, k, done, w, hp, hk, hids, hd, -, hg⟩ := walk_progress h
  have hroots : ∀ r ∈ g.roots, r.id ∈ done.symbols.keys := by
    intro r hr
    have hmem : r.id ∈ roots.map p.symbolId := hids ▸ List.mem_map.mpr ⟨r, hr, rfl⟩
    obtain ⟨s, hs, heq⟩ := List.mem_map.mp hmem
    exact heq ▸ hp.described_of_mem hk (hp.first.subset hs)
  rw [hg]
  exact ⟨hd, hroots, hp.keys, hp.distinct, fun id s hs => (hp.handle id s hs).2⟩

/-- Entrypoints keep the specifiers under which they are given. -/
theorem walk_specifiers (h : (p.walk limit entries memory).1 = .ok g) :
    (g.roots.map (·.specifier)).Sublist (entries.map (·.1)) := by
  obtain ⟨-, -, -, -, -, -, -, -, hsub, -⟩ := walk_progress h
  exact hsub

end Program

end ApiSurface
