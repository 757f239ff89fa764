import ApiSurface.Proofs.NamingRounds
import Mathlib.Logic.Relation
/-!
The shapes of names. A symbol is called after the place where it is shown: below its home, below
its enum, or inside the first symbol that mentions it and was named before it; what needs something
that never gets a name keeps its bare name. The rounds in which symbols are named go up along the
symbols that are shown inside each other, so these are never shown inside themselves.
-/
namespace ApiSurface

namespace Graph

variable {g : Graph} {t : Table SymbolId ExportLocation} {id : SymbolId}

/-- One symbol is called after another one, by the name that the other one has in the end. -/
def CalledAfter (names : Table SymbolId String) (above id : SymbolId) (form : String → String) :
    Prop :=
  ∃ parent name, names.get? above = some parent ∧ names.get? id = some name ∧
    NumberedFrom (form parent) name

/-- An enum lists a symbol as its member. -/
def Lists (g : Graph) (owner id : SymbolId) : Prop :=
  ∃ s isConst members, (owner, s) ∈ g.symbols ∧ s.shape = .enum isConst members ∧ id ∈ members

theorem lists_of_enumOf? {owner : SymbolId} (h : g.enumOf? id = some owner) : g.Lists owner id := by
  obtain ⟨⟨_, s⟩, hfound, rfl⟩ := Option.map_eq_some_iff.mp h
  have hmem : (_, s) ∈ g.symbols := List.mem_reverse.mp (List.mem_of_find?_eq_some hfound)
  have htest := List.find?_some hfound
  dsimp only at htest
  split at htest
  · next isConst members hshape => exact ⟨s, isConst, members, hmem, hshape, by simpa using htest⟩
  · exact absurd htest (by simp)

theorem enumOf?_eq_none_iff : g.enumOf? id = none ↔ ∀ owner, ¬ g.Lists owner id := by
  constructor
  · rintro h owner ⟨s, isConst, members, hs, hshape, hmem⟩
    have hnone := List.find?_eq_none.mp (Option.map_eq_none_iff.mp h) _ (List.mem_reverse.mpr hs)
    simp [hshape, hmem] at hnone
  · intro h
    by_contra hsome
    obtain ⟨owner, howner⟩ := Option.ne_none_iff_exists'.mp hsome
    exact h owner (lists_of_enumOf? howner)

/-- One symbol is shown as part of another one. -/
def ShownIn (g : Graph) (t : Table SymbolId ExportLocation) (owner id : SymbolId) : Prop :=
  ∃ shown, (g.identifiers t).inner.get? owner = some shown ∧ id ∈ shown

/-- The rules by which symbols come to their names. -/
inductive NameRule
  | exported
  | member
  | inline
  | bare
  deriving DecidableEq

/-- What a rule says of a symbol that is named by it. -/
def NamedBy (g : Graph) (t : Table SymbolId ExportLocation) (id : SymbolId) : NameRule → Prop
  | .exported => ∃ l, t.get? id = some l ∧ l.parent ∈ (g.settled t).placed.keys ∧
      CalledAfter (g.identifiers t).identifiers l.parent id fun parent =>
        s!"{parent}.{l.exportName}"
  | .member => t.get? id = none ∧ ∃ owner, g.Lists owner id ∧ g.enumOf? id = some owner ∧
      owner ∈ (g.settled t).placed.keys ∧
      CalledAfter (g.identifiers t).identifiers owner id fun parent => s!"{parent}.{g.nameOf id}"
  | .inline => t.get? id = none ∧ (∀ owner, ¬ g.Lists owner id) ∧
      ∃ n < placementRounds, ∃ owner, g.PlacedIn t id n ∧
        ((g.references.get? id).getD []).find? (g.after t n).placed.has = some owner ∧
        CalledAfter (g.identifiers t).identifiers owner id (fun parent =>
          s!"{parent}~{g.nameOf id}") ∧
        ((g.identifiers t).inner.flatMap (·.2)).count id = 1 ∧ g.ShownIn t owner id
  | .bare => (∀ l, t.get? id = some l → l.parent ∉ (g.settled t).placed.keys) ∧
      (t.get? id = none → ∀ owner, g.enumOf? id = some owner →
        owner ∉ (g.settled t).placed.keys) ∧
      (t.get? id = none → (∀ owner, ¬ g.Lists owner id) →
        ∀ r ∈ (g.references.get? id).getD [], r ∉ (g.settled t).placed.keys) ∧
      ∃ name, (g.identifiers t).identifiers.get? id = some name ∧ NumberedFrom (g.nameOf id) name

/-- A name that is given in the rounds is the final one. -/
theorem identifiers_get?_of_after {n : ℕ} (hn : n ≤ placementRounds) {name : String}
    (h : (g.after t n).placed.get? id = some name) :
    (g.identifiers t).identifiers.get? id = some name := by
  rw [identifiers_get?]
  exact placement_get?_of_settled (name_after_mono hn h)

theorem shownOnce_placement (hkeys : g.symbols.keys.Nodup) : (g.placement t).ShownOnce := by
  refine (shownOnce_after hkeys placementRounds).placeAll ?_ fun c hc => ?_
  · have hids : (g.leftovers (g.settled t)).map (·.id) = g.unnamed (g.settled t) := by
      simp [leftovers, Function.comp_def]
    exact hids ▸ unnamed_nodup hkeys _
  · exact (mem_unnamed.mp (mem_unnamed_of_mem_leftovers hc)).2

theorem identifiers_inner (g : Graph) (t : Table SymbolId ExportLocation) :
    (g.identifiers t).inner = (g.placement t).inner.sorted := rfl

/-- What is shown as part of what in the end, and in which round it came there. -/
theorem shownIn_iff (hkeys : g.symbols.keys.Nodup) {owner : SymbolId} :
    g.ShownIn t owner id ↔ ∃ n < placementRounds, id ∈ g.unnamed (g.after t n) ∧
      ∃ c, g.candidate? t (g.after t n).placed id = some c ∧ c.owner = some owner := by
  have hshown : g.ShownIn t owner id ↔ id ∈ (g.placement t).shown owner := by
    rw [ShownIn, identifiers_inner, Table.get?_sorted (shownOnce_placement hkeys).owners,
      Placement.shown]
    cases (g.placement t).inner.get? owner <;> simp
  have hleft : ¬ ∃ c ∈ g.leftovers (g.settled t), c.owner = some owner ∧ c.id = id := by
    rintro ⟨c, hc, ho, -⟩
    obtain ⟨_, -, rfl⟩ := List.mem_map.mp hc
    exact absurd ho (by simp)
  rw [hshown, placement, Placement.mem_shown_placeAll, or_iff_left hleft]
  exact mem_shown_after

/-- Only a symbol that neither is exported nor stands in an enum is proposed with an owner. -/
theorem candidate?_of_owner {placed : Table SymbolId String} {c : Candidate} {owner : SymbolId}
    (hc : g.candidate? t placed id = some c) (ho : c.owner = some owner) :
    t.get? id = none ∧ g.enumOf? id = none ∧
      ((g.references.get? id).getD []).find? placed.has = some owner := by
  obtain ⟨_, _, -, -, rfl⟩ | ⟨-, _, _, -, -, rfl⟩ | ⟨hl, he, o, _, hfirst, -, rfl⟩ :=
    candidate?_cases hc
  · exact absurd ho (by simp)
  · exact absurd ho (by simp)
  · obtain rfl : o = owner := Option.some.inj ho
    exact ⟨hl, he, hfirst⟩

/-- The owner of a symbol has its name in an earlier round. -/
theorem ShownIn.exists_round (hkeys : g.symbols.keys.Nodup) {owner : SymbolId}
    (h : g.ShownIn t owner id) :
    ∃ n, owner ∈ (g.after t n).placed.keys ∧ id ∉ (g.after t n).placed.keys := by
  obtain ⟨n, -, hid, c, hc, ho⟩ := (shownIn_iff hkeys).mp h
  obtain ⟨-, -, hfirst⟩ := candidate?_of_owner hc ho
  exact ⟨n, Table.has_iff.mp (List.find?_some hfirst), (mem_unnamed.mp hid).2⟩

/-- What lies above a symbol in the order of being shown has its name in an earlier round. -/
theorem exists_round_of_transGen (hkeys : g.symbols.keys.Nodup) {owner : SymbolId}
    (h : Relation.TransGen (g.ShownIn t) owner id) :
    ∃ n, owner ∈ (g.after t n).placed.keys ∧ id ∉ (g.after t n).placed.keys := by
  induction h with
  | single h => exact h.exists_round hkeys
  | tail _ h ih =>
    obtain ⟨n, howner, hbetween⟩ := ih
    obtain ⟨m, hnamed, hid⟩ := h.exists_round hkeys
    -- what stands between has no name after `n` rounds, but one after `m`
    have hnm : n ≤ m := by
      by_contra hlt
      exact hbetween (mem_after_mono (by omega) hnamed)
    exact ⟨m, mem_after_mono hnm howner, hid⟩

/-- The rule that applies to a symbol. -/
def ruleOf (g : Graph) (t : Table SymbolId ExportLocation) (id : SymbolId) : NameRule :=
  let placed := (g.settled t).placed
  match t.get? id with
  | some l => if placed.has l.parent then .exported else .bare
  | none =>
    match g.enumOf? id with
    | some owner => if placed.has owner then .member else .bare
    | none => if ((g.references.get? id).getD []).any placed.has then .inline else .bare

theorem ruleOf_of_first (hl : t.get? id = none) (he : g.enumOf? id = none) {n : ℕ}
    (hn : n ≤ placementRounds) {owner : SymbolId}
    (hfirst : ((g.references.get? id).getD []).find? (g.after t n).placed.has = some owner) :
    g.ruleOf t id = .inline := by
  have hearly : owner ∈ (g.after t n).placed.keys := Table.has_iff.mp (List.find?_some hfirst)
  have howner : owner ∈ (g.settled t).placed.keys := mem_after_mono hn hearly
  have hany : ((g.references.get? id).getD []).any (g.settled t).placed.has = true :=
    List.any_eq_true.mpr ⟨owner, List.mem_of_find?_eq_some hfirst, Table.has_iff.mpr howner⟩
  simp only [ruleOf, hl, he, hany, ↓reduceIte]

/-- No symbol is named by two rules. -/
theorem NamedBy.eq_ruleOf {r : NameRule} (h : g.NamedBy t id r) : r = g.ruleOf t id := by
  cases r with
  | exported =>
    obtain ⟨l, hl, hparent, -⟩ := h
    simp [ruleOf, hl, Table.has_iff.mpr hparent]
  | member =>
    obtain ⟨hl, owner, -, ho, howner, -⟩ := h
    simp [ruleOf, hl, ho, Table.has_iff.mpr howner]
  | inline =>
    obtain ⟨hl, he, n, hn, owner, -, hfirst, -⟩ := h
    exact (ruleOf_of_first hl (enumOf?_eq_none_iff.mpr he) hn.le hfirst).symm
  | bare =>
    obtain ⟨hparent, howner, hreferences, -⟩ := h
    have hnone {id : SymbolId} (hid : id ∉ (g.settled t).placed.keys) :
        (g.settled t).placed.has id = false :=
      Bool.eq_false_iff.mpr fun hm => hid (Table.has_iff.mp hm)
    unfold ruleOf
    split
    · next l hl => simp [hnone (hparent l hl)]
    · next hl =>
      split
      · next owner ho => simp [hnone (howner hl owner ho)]
      · next ho =>
        have hany : ((g.references.get? id).getD []).any (g.settled t).placed.has = false := by
          refine List.any_eq_false.mpr fun r hr => ?_
          simp [hnone (hreferences hl (enumOf?_eq_none_iff.mp ho) r hr)]
        simp [hany]

/-- A name that is given in the first rounds is the final one, and its symbol counts as placed. -/
theorem above_of_after {n : ℕ} (hn : n ≤ placementRounds) {parent : String}
    (h : (g.after t n).placed.get? id = some parent) :
    id ∈ (g.settled t).placed.keys ∧ (g.identifiers t).identifiers.get? id = some parent :=
  ⟨mem_after_mono hn (Table.mem_keys_of_get? h), identifiers_get?_of_after hn h⟩

/-- What is shown as part of a symbol is shown there only. -/
theorem ShownIn.count_eq_one (hkeys : g.symbols.keys.Nodup) {owner : SymbolId}
    (h : g.ShownIn t owner id) : ((g.identifiers t).inner.flatMap (·.2)).count id = 1 := by
  obtain ⟨inside, hinside, hmem⟩ := h
  have hperm : ((g.identifiers t).inner.flatMap (·.2)).Perm
      ((g.placement t).inner.flatMap (·.2)) :=
    List.Perm.flatMap_right _ (List.mergeSort_perm ..)
  exact List.count_eq_one_of_mem (hperm.nodup_iff.mpr (shownOnce_placement hkeys).nodup)
    (List.mem_flatMap.mpr ⟨_, Table.mem_of_get? hinside, hmem⟩)

/-- A symbol that is named in some round is named by the rule that proposed its name. -/
theorem PlacedIn.exists_namedBy (hkeys : g.symbols.keys.Nodup) {n : ℕ} (hn : n < placementRounds)
    (hid : id ∈ g.symbols.keys) (h : g.PlacedIn t id n) : ∃ r, g.NamedBy t id r := by
  obtain ⟨c, name, hc, hname, hform⟩ := h.exists_candidate
  have hfinal := identifiers_get?_of_after (n := n+1) hn hname
  obtain ⟨l, parent, hl, hparent, rfl⟩ | ⟨hl, owner, parent, ho, hparent, rfl⟩ |
    ⟨hl, ho, owner, parent, hfirst, hparent, rfl⟩ := candidate?_cases hc
  · obtain ⟨hplaced, hget⟩ := above_of_after hn.le hparent
    exact ⟨.exported, l, hl, hplaced, parent, name, hget, hfinal, hform⟩
  · obtain ⟨hplaced, hget⟩ := above_of_after hn.le hparent
    exact ⟨.member, hl, owner, lists_of_enumOf? ho, ho, hplaced, parent, name, hget, hfinal, hform⟩
  · obtain ⟨-, hget⟩ := above_of_after hn.le hparent
    have hshown : g.ShownIn t owner id :=
      (shownIn_iff hkeys).mpr ⟨n, hn, mem_unnamed.mpr ⟨hid, h.1⟩, _, hc, rfl⟩
    exact ⟨.inline, hl, enumOf?_eq_none_iff.mp ho, n, hn, owner, h, hfirst,
      ⟨parent, name, hget, hfinal, hform⟩, hshown.count_eq_one hkeys, hshown⟩

/-- What is shown as part of another symbol is named after it. -/
theorem ShownIn.namedBy (hkeys : g.symbols.keys.Nodup) {owner : SymbolId}
    (h : g.ShownIn t owner id) : g.NamedBy t id .inline := by
  obtain ⟨n, hn, hid, c, hc, ho⟩ := (shownIn_iff hkeys).mp h
  obtain ⟨hl, he, hfirst⟩ := candidate?_of_owner hc ho
  have hround : g.PlacedIn t id n := by
    refine ⟨(mem_unnamed.mp hid).2, ?_⟩
    rw [after_succ]
    exact Placement.mem_keys_placeAll.mpr
      (Or.inr ⟨c, List.mem_filterMap.mpr ⟨id, hid, hc⟩, candidate?_id hc⟩)
  obtain ⟨r, hr⟩ := hround.exists_namedBy hkeys hn (mem_unnamed.mp hid).1
  obtain rfl : r = .inline := hr.eq_ruleOf.trans (ruleOf_of_first hl he hn.le hfirst)
  exact hr

/-- A symbol that no round names keeps its bare name, when no further round would name it. -/
theorem namedBy_bare (hend : g.candidates t (g.settled t) = []) (hid : id ∈ g.symbols.keys)
    (hleft : id ∉ (g.settled t).placed.keys) : g.NamedBy t id .bare := by
  have hnone : g.candidate? t (g.settled t).placed id = none :=
    List.filterMap_eq_nil_iff.mp hend id (mem_unnamed.mpr ⟨hid, hleft⟩)
  obtain ⟨hparent, howner, hreferences⟩ := candidate?_eq_none hnone
  obtain ⟨name, hname, hform⟩ := exists_bare_name hid hleft
  exact ⟨hparent, howner, fun hl he => hreferences hl (enumOf?_eq_none_iff.mpr he), name,
    (identifiers_get? g t id).trans hname, hform⟩

/-- When the rounds of naming end before their limit, every symbol that is no root is named by
exactly one rule. Only what is named after the first symbol that mentions it is shown as part of
another symbol, whose name comes in an earlier round, so nothing is shown inside itself; and no
further round would name what has no name after the rounds. -/
theorem names_by_rule (g : Graph) (t : Table SymbolId ExportLocation)
    (hkeys : g.symbols.keys.Nodup) (hend : g.RoundsEnd t) :
    (∀ id ∈ g.symbols.keys, id ∉ g.roots.map (·.id) → ∃! r, g.NamedBy t id r) ∧
    (∀ owner id, g.ShownIn t owner id → g.NamedBy t id .inline ∧
      ∃ n, owner ∈ (g.after t n).placed.keys ∧ id ∉ (g.after t n).placed.keys) ∧
    (∀ id, ¬ Relation.TransGen (g.ShownIn t) id id) ∧
    ∀ id ∈ g.symbols.keys, id ∉ (g.settled t).placed.keys →
      g.candidate? t (g.settled t).placed id = none := by
  have hstuck := hend.candidates_settled
  refine ⟨fun id hid hroot => ?_, fun owner id h =>
    ⟨h.namedBy hkeys, h.exists_round hkeys⟩, fun id h => ?_,
    fun id hid hleft => ?_⟩
  · obtain ⟨r, hr⟩ : ∃ r, g.NamedBy t id r := by
      by_cases hplaced : id ∈ (g.settled t).placed.keys
      · obtain ⟨n, hn, hround⟩ := exists_placedIn hroot hplaced
        exact hround.exists_namedBy hkeys hn hid
      · exact ⟨.bare, namedBy_bare hstuck hid hplaced⟩
    exact ⟨r, hr, fun other ho => ho.eq_ruleOf.trans hr.eq_ruleOf.symm⟩
  · obtain ⟨n, hnamed, hunnamed⟩ := exists_round_of_transGen hkeys h
    exact hunnamed hnamed
  · exact List.filterMap_eq_nil_iff.mp hstuck id (mem_unnamed.mpr ⟨hid, hleft⟩)

/-- A function mentions an interface, which mentions another one. An interface that nothing mentions
mentions the first one too. -/
def chained : Graph where
  roots := [⟨"pkg", "index.ts:0"⟩]
  symbols := [("index.ts:0", ⟨"index", none, .module []⟩),
    ("index.ts:9", ⟨"Retry", none, .interface [] [] []⟩),
    ("index.ts:44", ⟨"Config", none, .interface [] [] []⟩),
    ("index.ts:82", ⟨"run", none, .function []⟩),
    ("index.ts:99", ⟨"Lost", none, .interface [] [] []⟩)]
  handles := []
  references := [("index.ts:82", ["index.ts:0"]), ("index.ts:44", ["index.ts:99", "index.ts:82"]),
    ("index.ts:9", ["index.ts:44"])]
  externals := []

/-- The function is exported. -/
def chainedHomes : Table SymbolId ExportLocation := [("index.ts:82", ⟨"run", "index.ts:0"⟩)]

/-- The inner interface of a chain is named by one rule, and the chain is no circle. -/
theorem chained_named :
    chained.symbols.keys.Nodup ∧ chained.RoundsEnd chainedHomes ∧
      "index.ts:9" ∈ chained.symbols.keys ∧ "index.ts:9" ∉ chained.roots.map (·.id) ∧
      (∃! r, chained.NamedBy chainedHomes "index.ts:9" r) ∧
      ∀ id, ¬ Relation.TransGen (chained.ShownIn chainedHomes) id id := by
  have hkeys : chained.symbols.keys.Nodup := by decide
  have hend : chained.RoundsEnd chainedHomes := roundsEnd_of_length_le (by decide)
  have hmem : "index.ts:9" ∈ chained.symbols.keys := by decide
  have hroot : "index.ts:9" ∉ chained.roots.map (·.id) := by decide
  obtain ⟨hrule, -, hcircle, -⟩ := names_by_rule chained chainedHomes hkeys hend
  exact ⟨hkeys, hend, hmem, hroot, hrule _ hmem hroot, hcircle⟩

end Graph

end ApiSurface
