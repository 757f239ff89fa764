import ApiSurface.Extraction.Describe
import ApiSurface.Proofs.SettledAnswers
/-!
What a step of a description leaves noted. While a symbol is described the graph only grows: what
is in the queue stays there, and so does every mention. A step notes a name when the symbol of that
name is in the queue or belongs to another package, and is known to be mentioned by the symbol that
is being described.
-/
namespace ApiSurface

/-- The symbols that mention a symbol, by a table of mentions. -/
def mentioners (references : Table SymbolId (List SymbolId)) (id : SymbolId) : List SymbolId :=
  (references.get? id).getD []

namespace Walk

/-- A name is noted: it will be described or belongs to another package, and the symbol that is
being described is known to mention it. -/
structure Notes (p : Program) (w : Walk) (id : SymbolId) : Prop where
  known : (∃ s ∈ w.queue.toList, p.symbolId s = id) ∨ id ∈ w.externals.keys
  mentioned : ∀ b, w.current = some b → b ≠ id → b ∈ mentioners w.references id

/-- Nothing is lost, what comes to the queue belongs to the package and is noted, and only imports
in a circle are followed without end. -/
structure Grows (p : Program) (w w' : Walk) : Prop where
  current : w'.current = w.current
  queue : w.queue.toList <+: w'.queue.toList
  nodup : w.queue.toList.Nodup → w'.queue.toList.Nodup
  references : ∀ id, mentioners w.references id ⊆ mentioners w'.references id
  externals : w.externals.keys ⊆ w'.externals.keys
  fresh : ∀ s ∈ w'.queue.toList,
    s ∈ w.queue.toList ∨ p.isInternal s = true ∧ w'.Notes p (p.symbolId s)
  memory : w.memory.Within w'.memory
  endless : w'.endless = true → w.endless = true ∨ p.Circular w'.memory

/-- A step between two states: if some names are noted before it, then others are after it. -/
def Leads (p : Program) (known ids : List SymbolId) (w w' : Walk) : Prop :=
  (∀ id ∈ known, w.Notes p id) → w.Grows p w' ∧ ∀ id ∈ ids, w'.Notes p id

variable {p : Program} {w w' w'' : Walk}

theorem Notes.grow {id : SymbolId} (h : w.Notes p id) (hg : w.Grows p w') : w'.Notes p id := by
  constructor
  · rcases h.known with ⟨s, hs, hid⟩ | he
    · exact Or.inl ⟨s, hg.queue.subset hs, hid⟩
    · exact Or.inr (hg.externals he)
  · intro b hb hne
    rw [hg.current] at hb
    exact hg.references id (h.mentioned b hb hne)

theorem Grows.refl (p : Program) (w : Walk) : w.Grows p w where
  current := rfl
  queue := List.prefix_rfl
  nodup := id
  references _ := List.Subset.refl _
  externals := List.Subset.refl _
  fresh _ hs := Or.inl hs
  memory := .refl _
  endless := Or.inl

theorem Grows.trans (h : w.Grows p w') (h' : w'.Grows p w'') : w.Grows p w'' where
  current := h'.current.trans h.current
  queue := h.queue.trans h'.queue
  nodup hw := h'.nodup (h.nodup hw)
  references id := List.Subset.trans (h.references id) (h'.references id)
  externals := List.Subset.trans h.externals h'.externals
  fresh s hs := by
    rcases h'.fresh s hs with hs | hs
    · rcases h.fresh s hs with hs | ⟨hi, hn⟩
      · exact Or.inl hs
      · exact Or.inr ⟨hi, hn.grow h'⟩
    · exact Or.inr hs
  memory := h.memory.trans h'.memory
  endless he := by
    rcases h'.endless he with he | hc
    · exact (h.endless he).imp (fun he => he) (Program.Circular.mono h'.memory)
    · exact Or.inr hc

theorem Leads.refl {known ids : List SymbolId} (hids : ids ⊆ known) : Leads p known ids w w :=
  fun hknown => ⟨.refl p w, fun id hid => hknown id (hids hid)⟩

theorem Leads.trans {known ids ids' : List SymbolId} (h : Leads p known ids w w')
    (h' : Leads p (ids ++ known) ids' w' w'') : Leads p known ids' w w'' := by
  intro hknown
  obtain ⟨hg, hids⟩ := h hknown
  have hall : ∀ id ∈ ids ++ known, w'.Notes p id := by
    intro id hid
    rcases List.mem_append.mp hid with hid | hid
    · exact hids id hid
    · exact (hknown id hid).grow hg
  obtain ⟨hg', hids'⟩ := h' hall
  exact ⟨hg.trans hg', hids'⟩

theorem Leads.mono {known known' ids ids' : List SymbolId} (h : Leads p known ids w w')
    (hknown : known ⊆ known') (hids : ids' ⊆ ids ++ known') : Leads p known' ids' w w' := by
  intro hn
  obtain ⟨hg, hn'⟩ := h fun id hid => hn id (hknown hid)
  refine ⟨hg, fun id hid => ?_⟩
  rcases List.mem_append.mp (hids hid) with hid | hid
  · exact hn' id hid
  · exact (hn id hid).grow hg

@[simp] theorem mention_current (w : Walk) (id : SymbolId) :
    (w.mention id).current = w.current := by
  unfold mention
  split
  · rfl
  · split <;> rfl

@[simp] theorem mention_queue (w : Walk) (id : SymbolId) : (w.mention id).queue = w.queue := by
  unfold mention
  split
  · rfl
  · split <;> rfl

@[simp] theorem mention_externals (w : Walk) (id : SymbolId) :
    (w.mention id).externals = w.externals := by
  unfold mention
  split
  · rfl
  · split <;> rfl

@[simp] theorem mention_memory (w : Walk) (id : SymbolId) : (w.mention id).memory = w.memory := by
  unfold mention
  split
  · rfl
  · split <;> rfl

@[simp] theorem mention_endless (w : Walk) (id : SymbolId) :
    (w.mention id).endless = w.endless := by
  unfold mention
  split
  · rfl
  · split <;> rfl

/-- A mention adds the symbol that is being described to those that mention the target, and nothing
else. -/
theorem mem_mentioners_mention {id other b : SymbolId} :
    b ∈ mentioners (w.mention id).references other ↔
      b ∈ mentioners w.references other ∨ other = id ∧ w.current = some b ∧ b ≠ id := by
  unfold mention
  cases hc : w.current with
  | none => simp
  | some current =>
    by_cases heq : current = id
    · subst heq
      simp only [beq_self_eq_true, if_true, Option.some.injEq]
      exact ⟨Or.inl, fun h => h.elim id fun ⟨_, hb, hne⟩ => absurd hb.symm hne⟩
    · simp only [beq_eq_false_iff_ne.mpr heq, Bool.false_eq_true, if_false, Option.some.injEq]
      by_cases ho : other = id
      · subst ho
        simp only [mentioners, Table.get?_insert_self, Option.getD_some, true_and]
        split <;> grind
      · simp only [mentioners, Table.get?_insert_of_ne _ _ ho, ho, false_and, or_false]

theorem mention_grows (w : Walk) (id : SymbolId) : w.Grows p (w.mention id) where
  current := mention_current w id
  queue := by rw [mention_queue]
  nodup := by rw [mention_queue]; exact fun h => h
  references _ _ hb := mem_mentioners_mention.mpr (Or.inl hb)
  externals := by rw [mention_externals]; exact List.Subset.refl _
  fresh s hs := by
    rw [mention_queue] at hs
    exact Or.inl hs
  memory := by rw [mention_memory]; exact .refl _
  endless := by rw [mention_endless]; exact Or.inl

theorem mention_mentioned {id b : SymbolId} (hb : (w.mention id).current = some b) (hne : b ≠ id) :
    b ∈ mentioners (w.mention id).references id := by
  rw [mention_current] at hb
  exact mem_mentioners_mention.mpr (Or.inr ⟨rfl, hb, hne⟩)

theorem mem_enqueue {s t : SymbolIndex} :
    t ∈ (w.enqueue s).queue.toList ↔ t ∈ w.queue.toList ∨ t = s := by
  unfold enqueue
  split
  · next h =>
    have hs : s ∈ w.queue.toList := by simpa using h
    exact ⟨Or.inl, fun ht => ht.elim (fun h => h) fun heq => heq ▸ hs⟩
  · simp

theorem enqueue_queue_prefix (w : Walk) (s : SymbolIndex) :
    w.queue.toList <+: (w.enqueue s).queue.toList := by
  unfold enqueue
  split
  · exact List.prefix_rfl
  · simp

theorem enqueue_nodup {s : SymbolIndex} (hd : w.queue.toList.Nodup) :
    (w.enqueue s).queue.toList.Nodup := by
  unfold enqueue
  split
  · exact hd
  · next h =>
    have hs : s ∉ w.queue.toList := by simpa using h
    simp only [Array.toList_push, List.nodup_append]
    refine ⟨hd, by simp, fun a ha b hb => ?_⟩
    obtain rfl : b = s := by simpa using hb
    exact fun hab => hs (hab ▸ ha)

theorem enqueue_current (w : Walk) (s : SymbolIndex) : (w.enqueue s).current = w.current := by
  unfold enqueue
  split <;> rfl

theorem enqueue_references (w : Walk) (s : SymbolIndex) :
    (w.enqueue s).references = w.references := by
  unfold enqueue
  split <;> rfl

theorem enqueue_externals (w : Walk) (s : SymbolIndex) :
    (w.enqueue s).externals = w.externals := by
  unfold enqueue
  split <;> rfl

theorem enqueue_memory (w : Walk) (s : SymbolIndex) : (w.enqueue s).memory = w.memory := by
  unfold enqueue
  split <;> rfl

theorem enqueue_endless (w : Walk) (s : SymbolIndex) : (w.enqueue s).endless = w.endless := by
  unfold enqueue
  split <;> rfl

/-- A symbol of the package is noted by a mention of it and a place in the queue. -/
theorem internal_leads {known : List SymbolId} {s : SymbolIndex} (hs : p.isInternal s = true) :
    Leads p known [p.symbolId s] w ((w.mention (p.symbolId s)).enqueue s) := by
  intro _
  have hm : w.Grows p (w.mention (p.symbolId s)) := mention_grows w _
  have hnotes : ((w.mention (p.symbolId s)).enqueue s).Notes p (p.symbolId s) := by
    constructor
    · exact Or.inl ⟨s, mem_enqueue.mpr (Or.inr rfl), rfl⟩
    · intro b hb hne
      rw [enqueue_current] at hb
      rw [enqueue_references]
      exact mention_mentioned hb hne
  refine ⟨?_, fun id hid => List.mem_singleton.mp hid ▸ hnotes⟩
  apply hm.trans
  -- the only symbol that may be new is the one just noted
  refine ⟨enqueue_current _ s, enqueue_queue_prefix _ s, enqueue_nodup, fun id => ?_, ?_, ?_, ?_,
    ?_⟩
  · rw [enqueue_references]
    exact List.Subset.refl _
  · rw [enqueue_externals]
    exact List.Subset.refl _
  · intro t ht
    rcases mem_enqueue.mp ht with ht | rfl
    · exact Or.inl ht
    · exact Or.inr ⟨hs, hnotes⟩
  · rw [enqueue_memory]
    exact .refl _
  · rw [enqueue_endless]
    exact Or.inl

theorem external_leads {known : List SymbolId} (e : ExternalSymbol) :
    Leads p known [e.id] w (w.mentionExternal e) := by
  intro _
  have hm : w.Grows p (w.mention e.id) := mention_grows w _
  have hadd : (w.mention e.id).Grows p (w.mentionExternal e) := by
    refine ⟨rfl, List.prefix_rfl, fun h => h, fun _ => List.Subset.refl _, ?_, fun _ => Or.inl,
      .refl _, Or.inl⟩
    exact fun _ hid => Table.mem_keys_insertNew.mpr (Or.inr hid)
  refine ⟨hm.trans hadd, fun id hid => ?_⟩
  obtain rfl := List.mem_singleton.mp hid
  constructor
  · exact Or.inr (Table.mem_keys_insertNew.mpr (Or.inl rfl))
  · exact fun _ => mention_mentioned

theorem remember_grows {memory : Program.Memory} (h : w.memory.Within memory) :
    w.Grows p { w with memory := memory } where
  current := rfl
  queue := List.prefix_rfl
  nodup := id
  references _ := List.Subset.refl _
  externals := List.Subset.refl _
  fresh _ hs := Or.inl hs
  memory := h
  endless := Or.inl

/-- A step that notes all names in its result, if some names are noted before it. -/
def Noting {α : Type} (p : Program) (known : List SymbolId) (step : StateM Walk α)
    (ids : α → List SymbolId) : Prop :=
  ∀ w, Leads p known (ids (step.run w).1) w (step.run w).2

section

variable {α β : Type} {known : List SymbolId} {ids : α → List SymbolId} {ids' : β → List SymbolId}

theorem Noting.pure {a : α} (h : ids a ⊆ known) : Noting p known (Pure.pure a) ids :=
  fun _ => .refl h

theorem Noting.bind {x : StateM Walk α} {f : α → StateM Walk β} (hx : Noting p known x ids)
    (hf : ∀ a, Noting p (ids a ++ known) (f a) ids') : Noting p known (x >>= f) ids' :=
  fun w => (hx w).trans (hf _ _)

theorem Noting.discard {x : StateM Walk α} (hx : Noting p known x ids) :
    Noting p known (Functor.discard x) fun _ => [] :=
  fun w => (hx w).mono (List.Subset.refl _) (List.nil_subset _)

theorem Noting.ask {q : Program.Query α}
    (hq : ∀ memory : Program.Memory, memory.Within (q memory).2) :
    Noting p known (Walk.ask q) fun _ => [] := by
  intro w _
  refine ⟨remember_grows (hq w.memory), fun id hid => ?_⟩
  exact absurd hid List.not_mem_nil

end

variable {known : List SymbolId}

theorem referExternal_noting (e : ExternalSymbol) :
    Noting p known (referExternal e) fun id => [id] :=
  fun _ => external_leads e

/-- After a row of imports that lead in a circle nothing else is to come. -/
theorem circular_grows (h : p.Circular w.memory) : w.Grows p { w with endless := true } where
  current := rfl
  queue := List.prefix_rfl
  nodup := id
  references _ := List.Subset.refl _
  externals := List.Subset.refl _
  fresh _ hs := Or.inl hs
  memory := .refl _
  endless _ := Or.inr h

theorem referWithin_of_isAlias (n : ℕ) {s : SymbolIndex} (hs : (p.symbol s).isAlias = true)
    (w : Walk) :
    (referWithin p (n+1) s).run w = (match (p.resolve s w.memory).1 with
      | some (.symbol t) =>
        if t = s then referExternal (.global (p.symbol s).name) else referWithin p n t
      | some (.unresolved specifier name) => referExternal (.unresolved specifier name)
      | none => referExternal (.global (p.symbol s).name)).run
        { w with memory := (p.resolve s w.memory).2 } := by
  rw [referWithin, if_pos hs]
  rfl

/-- However a row of imports ends, the name that is given is noted. -/
theorem referWithin_leads (n : ℕ) {k : ℕ} (hn : n+k = p.symbols.size+1) {s : SymbolIndex}
    (hrow : p.RowTo w.memory k s) :
    Leads p known [((referWithin p n s).run w).1] w ((referWithin p n s).run w).2 := by
  -- by the number of imports that may still be followed; `k` of them are behind
  induction n generalizing s w k known with
  | zero =>
    obtain rfl : k = p.symbols.size+1 := by omega
    intro hknown
    have hgrows := circular_grows hrow.circular
    obtain ⟨hexternal, hids⟩ := external_leads (.global (p.symbol s).name)
      fun id hid => (hknown id hid).grow hgrows
    exact ⟨hgrows.trans hexternal, hids⟩
  | succ n ih =>
    by_cases hs : (p.symbol s).isAlias = true
    · rw [referWithin_of_isAlias n hs w]
      have hask : Leads p known [] w { w with memory := (p.resolve s w.memory).2 } :=
        Noting.ask (Program.resolve_within s) w
      apply hask.trans
      split
      · next t hr =>
        split
        · exact external_leads _
        · next hne =>
          -- one more import is behind, and it will always lead on to `t`
          have hnext : p.LeadsOn (p.resolve s w.memory).2 s t :=
            ⟨hs, hne, fun last hlast => by rw [Program.resolve_settled hlast, hr]⟩
          exact ih (by omega) (hrow.succ (Program.resolve_within s _) hnext)
      · exact external_leads _
      · exact external_leads _
    · rw [referWithin, if_neg hs]
      split
      · next hs => exact internal_leads hs
      · exact external_leads _

theorem referSymbol_noting (s : SymbolIndex) : Noting p known (referSymbol p s) fun id => [id] :=
  fun w => referWithin_leads _ (Nat.add_zero _) (.zero w.memory s)

theorem refer_noting (r : Resolution) : Noting p known (refer p r) fun id => [id] := by
  cases r with
  | symbol s => exact referSymbol_noting s
  | unresolved specifier name => exact referExternal_noting _

theorem referEntity_noting (scope : Site) (parts : List String) :
    Noting p known (referEntity p scope parts) fun id => [id] := by
  apply (Noting.ask (Program.entity_within scope parts)).bind
  intro r
  cases r with
  | none => exact referExternal_noting _
  | some r => exact refer_noting r

end Walk

end ApiSurface
