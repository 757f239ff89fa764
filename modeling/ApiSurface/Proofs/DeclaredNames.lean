import ApiSurface.Proofs.BoundSites
import ApiSurface.Proofs.QuietProductions
/-!
Where the names of declarations stand. Each stands after those of the declarations before it in the
table, and only a declaration without a name of its own can stand at the very start of a text.
-/
namespace ApiSurface

namespace Declaration

/-- Where the name starts. -/
def offset (d : Declaration) : ℕ := d.name.span.start

/-- A function or class that goes by the word `default`. -/
def IsNameless (d : Declaration) : Prop :=
  d.name.text = "default" ∧ (d.shape.kindName = "function" ∨ d.shape.kindName = "class")

/-- A block for the whole program. -/
def IsGlobal (d : Declaration) : Prop := d.naming? = some .global

/-- A declaration that takes its first word for its name. -/
def MayLead (d : Declaration) : Prop := d.IsNameless ∨ d.IsGlobal

/-- A member of an enum. -/
def IsMember (d : Declaration) : Prop := ∃ initial, d.shape = .enumMember initial

/-- What an enum lists are members of enums. -/
def ListsMembers (d : Declaration) (table : Array Declaration) : Prop :=
  ∀ members, d.shape = .enum members → ∀ m ∈ members, ∃ e, table[m]? = some e ∧ e.IsMember

theorem ListsMembers.mono {d : Declaration} {table table' : Array Declaration}
    (h : d.ListsMembers table)
    (hkept : ∀ (m : ℕ) (e : Declaration), table[m]? = some e → e.IsMember →
      table'[m]? = some e) : d.ListsMembers table' := by
  intro members hshape m hm
  obtain ⟨e, he, hmember⟩ := h members hshape m hm
  exact ⟨e, hkept m e he hmember, hmember⟩

end Declaration

/-- An enum of this form lists no members yet. -/
def DeclarationShape.ListsNothing : DeclarationShape → Prop
  | .enum members => members = []
  | _ => True

theorem Declaration.listsMembers_of_nothing {d : Declaration} (h : d.shape.ListsNothing)
    (table : Array Declaration) : d.ListsMembers table := by
  intro members hshape m hm
  rw [hshape] at h
  have hnone : members = [] := h
  rw [hnone] at hm
  cases hm

namespace ParseState

variable {s s₁ s₂ s' : ParseState} {name : Ident} {d : Declaration}

/-- All names of declarations stand before the current token. -/
def Fresh (s : ParseState) : Prop := ∀ d ∈ s.declarations, d.offset < s.pos

/-- The names of declarations stand one after the other, and at the current token only if that is
no word. -/
structure Tidy (s : ParseState) : Prop where
  ordered : s.Ordered
  increasing : ∀ (i j : ℕ) (d e : Declaration), i < j → s.declarations[i]? = some d →
    s.declarations[j]? = some e → d.offset < e.offset
  behind : ∀ d ∈ s.declarations, d.offset ≤ s.pos
  fresh : s.current.kind = .identifier → s.Fresh
  leading : ∀ d ∈ s.declarations, 0 < d.offset ∨ d.MayLead
  members : ∀ d ∈ s.declarations, d.ListsMembers s.declarations

theorem Passes.fresh (h : s.Passes s') (hs : s.Fresh) : s'.Fresh := fun d hd =>
  Nat.lt_of_lt_of_le (hs d (h.declarations ▸ hd)) h.pos_le

theorem Passes.tidy (h : s.Passes s') (hs : s.Tidy) : s'.Tidy where
  ordered := h.ordered
  increasing := h.declarations ▸ hs.increasing
  behind d hd := Nat.le_trans (hs.behind d (h.declarations ▸ hd)) h.pos_le
  fresh hkind := by
    -- no token was taken and the current one is the same, or all names are behind the new one
    rcases Nat.eq_or_lt_of_le h.pos_le with heq | hlt
    · exact h.fresh (hs.fresh (h.kind_eq heq.symm ▸ hkind))
    · exact fun d hd => Nat.lt_of_le_of_lt (hs.behind d (h.declarations ▸ hd)) hlt
  leading d hd := hs.leading d (h.declarations ▸ hd)
  members := h.declarations ▸ hs.members

/-- The state in the body of a declaration. -/
def inBody (s : ParseState) (i : DeclIndex) : ParseState := { s with context.parent := some i }

/-- The state behind a body that was entered from the state `s`. -/
def outOf (s' s : ParseState) : ParseState := { s' with context.parent := s.context.parent }

theorem Tidy.inContext (h : s.Tidy) (context : ParseContext) : Tidy { s with context } :=
  ⟨h.ordered.of_eq rfl, h.increasing, h.behind, h.fresh, h.leading, h.members⟩

theorem Tidy.inBody (h : s.Tidy) (i : DeclIndex) : (s.inBody i).Tidy := h.inContext _

/-- A name that is found from here on stands after all others, and not at the very start. -/
structure Ready (s : ParseState) : Prop where
  fresh : s.Fresh
  pos_pos : 0 < s.pos

/-- Once a token is taken, all names are behind. -/
theorem Passes.ready (h : s.Passes s') (hs : s.Tidy) (hlt : s.pos < s'.pos) : s'.Ready where
  fresh d hd := Nat.lt_of_le_of_lt (hs.behind d (h.declarations ▸ hd)) hlt
  pos_pos := Nat.zero_lt_of_lt hlt

/-- One token further on, something is taken or was taken before. -/
theorem Passes.next_lt (h : s.Passes s') (hend : s.current.kind ≠ .endOfFile) :
    s.pos < (Parse.next s').pos := by
  rcases Nat.eq_or_lt_of_le h.pos_le with heq | hlt
  · exact heq ▸ (next_passed h.ordered (h.kind_eq heq.symm ▸ hend)).1
  · exact Nat.lt_of_lt_of_le hlt (next_passes h.ordered).pos_le

/-- From one state to another a name was found and nothing was declared. -/
structure Names (s s' : ParseState) (name : Ident) : Prop where
  passes : s.Passes s'
  pos_le : s.pos ≤ name.span.start
  behind : name.span.start ≤ s'.pos
  lt : s'.current.kind = .identifier → name.span.start < s'.pos

theorem Names.after (h : s₁.Names s' name) (hs : s.Passes s₁) : s.Names s' name :=
  ⟨hs.trans h.passes, Nat.le_trans hs.pos_le h.pos_le, h.behind, h.lt⟩

theorem Names.andThen (h : s.Names s₁ name) (hs : s₁.Passes s') : s.Names s' name where
  passes := h.passes.trans hs
  pos_le := h.pos_le
  behind := Nat.le_trans h.behind hs.pos_le
  lt hkind := by
    rcases Nat.eq_or_lt_of_le hs.pos_le with heq | hlt
    · exact heq ▸ h.lt (hs.kind_eq heq.symm ▸ hkind)
    · exact Nat.lt_of_le_of_lt h.behind hlt

theorem Ready.start_pos (h : s.Ready) (hname : s.Names s' name) : 0 < name.span.start :=
  Nat.lt_of_lt_of_le h.pos_pos hname.pos_le

/-- A token that is not the end, as a name. -/
theorem names_next (hs : s.Ordered) (hkind : s.current.kind ≠ .endOfFile) (text : String) :
    s.Names (Parse.next s) ⟨text, s.current.span⟩ :=
  ⟨next_passes hs, Nat.le_refl _, Nat.le_of_lt (next_passed hs hkind).1,
    fun _ => (next_passed hs hkind).1⟩

theorem Tidy.push (hs : s.Tidy) (hfresh : s.Fresh) (hname : s.Names s' d.name)
    (hlead : 0 < d.offset ∨ d.MayLead) (hlists : d.shape.ListsNothing) :
    Tidy { s' with declarations := s'.declarations.push d } where
  ordered := hname.passes.ordered.of_eq rfl
  increasing i j e e' hij he he' := by
    have hsame := hname.passes.declarations
    have hlt := (Array.getElem?_eq_some_iff.mp he').1
    rw [Array.size_push] at hlt
    rw [Array.getElem?_push, if_neg (by omega), hsame] at he
    rw [Array.getElem?_push] at he'
    split at he'
    -- the later one is the new one
    · obtain rfl := Option.some.inj he'
      exact Nat.lt_of_lt_of_le (hfresh e (Array.mem_of_getElem? he)) hname.pos_le
    · exact hs.increasing i j e e' hij he (hsame ▸ he')
  behind e he := by
    rcases Array.mem_push.mp he with he | rfl
    · exact (hname.passes.tidy hs).behind e he
    · exact hname.behind
  fresh hkind e he := by
    rcases Array.mem_push.mp he with he | rfl
    · exact (hname.passes.tidy hs).fresh hkind e he
    · exact hname.lt hkind
  leading e he := by
    rcases Array.mem_push.mp he with he | rfl
    · exact (hname.passes.tidy hs).leading e he
    · exact hlead
  members e he := by
    rcases Array.mem_push.mp he with he | rfl
    · refine ((hname.passes.tidy hs).members e he).mono fun m e' he' _ => ?_
      rw [Array.getElem?_push, if_neg (Nat.ne_of_lt (Array.getElem?_eq_some_iff.mp he').1), he']
    · exact Declaration.listsMembers_of_nothing hlists _

/-! ### What is added to the table -/

/-- The file has the declarations that were made from one state to another. -/
def HeldBy (s s' : ParseState) (f : SourceFile) : Prop :=
  ∀ i, s.declarations.size ≤ i → i < s'.declarations.size →
    f.declaration? i = s'.declarations[i]?

/-- From one state to another, declarations were added to the table. In a file that has them, those
that are listed are different ones of them, and none is a block for the whole program. -/
structure Adds (s s' : ParseState) (listing : SourceFile → List DeclIndex) : Prop where
  tidy : s'.Tidy
  pos_le : s.pos ≤ s'.pos
  ahead_le : s'.ahead ≤ s.ahead
  size_le : s.declarations.size ≤ s'.declarations.size
  kept : ∀ i < s.declarations.size, s'.declarations[i]? = s.declarations[i]?
  nodup : ∀ f, s.HeldBy s' f → (listing f).Nodup
  range : ∀ f, s.HeldBy s' f → ∀ i ∈ listing f,
    s.declarations.size ≤ i ∧ i < s'.declarations.size
  bound : ∀ f, s.HeldBy s' f → ∀ i ∈ listing f, ∀ d, f.declaration? i = some d → ¬ d.IsGlobal

variable {l l' : SourceFile → List DeclIndex}

theorem Passes.adds (h : s.Passes s') (hs : s.Tidy) : s.Adds s' fun _ => [] where
  tidy := h.tidy hs
  pos_le := h.pos_le
  ahead_le := h.ahead_le
  size_le := by rw [h.declarations]
  kept i _ := by rw [h.declarations]
  nodup _ _ := List.nodup_nil
  range _ _ i hi := absurd hi List.not_mem_nil
  bound _ _ i hi := absurd hi List.not_mem_nil

theorem Adds.weaken (h : s.Adds s' l) (hsub : ∀ f, s.HeldBy s' f → (l' f).Sublist (l f)) :
    s.Adds s' l' where
  tidy := h.tidy
  pos_le := h.pos_le
  ahead_le := h.ahead_le
  size_le := h.size_le
  kept := h.kept
  nodup f hf := (h.nodup f hf).sublist (hsub f hf)
  range f hf i hi := h.range f hf i ((hsub f hf).subset hi)
  bound f hf i hi := h.bound f hf i ((hsub f hf).subset hi)

theorem Adds.append (h : s.Adds s₁ l) (h' : s₁.Adds s' l') :
    s.Adds s' fun f => l f ++ l' f := by
  -- what a file holds of the whole range it holds of each part
  have hfirst {f : SourceFile} (hf : s.HeldBy s' f) : s.HeldBy s₁ f := fun i hle hlt =>
    (hf i hle (Nat.lt_of_lt_of_le hlt h'.size_le)).trans (h'.kept i hlt)
  have hsecond {f : SourceFile} (hf : s.HeldBy s' f) : s₁.HeldBy s' f := fun i hle hlt =>
    hf i (Nat.le_trans h.size_le hle) hlt
  constructor
  case tidy => exact h'.tidy
  case pos_le => exact Nat.le_trans h.pos_le h'.pos_le
  case ahead_le => exact Nat.le_trans h'.ahead_le h.ahead_le
  case size_le => exact Nat.le_trans h.size_le h'.size_le
  case kept =>
    exact fun i hi => (h'.kept i (Nat.lt_of_lt_of_le hi h.size_le)).trans (h.kept i hi)
  case nodup =>
    intro f hf
    refine List.nodup_append.mpr ⟨h.nodup f (hfirst hf), h'.nodup f (hsecond hf), ?_⟩
    intro i hi j hj heq
    -- the ranges of the two listings lie one after the other
    have hbefore := (h.range f (hfirst hf) i hi).2
    have hafter := (h'.range f (hsecond hf) j hj).1
    exact absurd heq (Nat.ne_of_lt (Nat.lt_of_lt_of_le hbefore hafter))
  case range =>
    intro f hf i hi
    rcases List.mem_append.mp hi with hi | hi
    · have hrange := h.range f (hfirst hf) i hi
      exact ⟨hrange.1, Nat.lt_of_lt_of_le hrange.2 h'.size_le⟩
    · have hrange := h'.range f (hsecond hf) i hi
      exact ⟨Nat.le_trans h.size_le hrange.1, hrange.2⟩
  case bound =>
    intro f hf i hi
    rcases List.mem_append.mp hi with hi | hi
    · exact h.bound f (hfirst hf) i hi
    · exact h'.bound f (hsecond hf) i hi

theorem Adds.after (h : s₁.Adds s' l) (hs : s.Passes s₁) : s.Adds s' l where
  tidy := h.tidy
  pos_le := Nat.le_trans hs.pos_le h.pos_le
  ahead_le := Nat.le_trans h.ahead_le hs.ahead_le
  size_le := hs.declarations ▸ h.size_le
  kept := hs.declarations ▸ h.kept
  nodup f hf := h.nodup f fun i hi => hf i (hs.declarations ▸ hi)
  range f hf := hs.declarations ▸ h.range f fun i hi => hf i (hs.declarations ▸ hi)
  bound f hf := h.bound f fun i hi => hf i (hs.declarations ▸ hi)

theorem Adds.andThen (h : s.Adds s₁ l) (hs : s₁.Passes s') : s.Adds s' l :=
  (h.append (hs.adds h.tidy)).weaken fun f _ => by rw [List.append_nil]

theorem Adds.outOf {i : DeclIndex} (h : (s.inBody i).Adds s' l) : s.Adds (s'.outOf s) l :=
  { h with tidy := h.tidy.inContext _ }

/-- Changes to the table that keep the names. -/
theorem Tidy.modify (hs : s.Tidy) {i : DeclIndex} {d : Declaration}
    (hd : s.declarations[i]? = some d) {change : Declaration → Declaration}
    (hname : (change d).name = d.name) (hlead : d.MayLead → (change d).MayLead)
    (hmember : ¬ d.IsMember) (hlists : (change d).ListsMembers s.declarations) :
    Tidy { s with declarations := s.declarations.modify i change } := by
  -- each entry has the name of the one that stood there before
  have hsame {j : ℕ} {e : Declaration} (he : (s.declarations.modify i change)[j]? = some e) :
      ∃ e', s.declarations[j]? = some e' ∧ e.name = e'.name ∧ (e'.MayLead → e.MayLead) := by
    rw [Array.getElem?_modify] at he
    split at he
    · next hij =>
      rw [← hij, hd, Option.map_some] at he
      obtain rfl := Option.some.inj he
      exact ⟨d, hij ▸ hd, hname, hlead⟩
    · exact ⟨e, he, rfl, id⟩
  have hmem {e : Declaration} (he : e ∈ s.declarations.modify i change) :
      ∃ e' ∈ s.declarations, e.name = e'.name ∧ (e'.MayLead → e.MayLead) := by
    obtain ⟨j, hj⟩ := Array.mem_iff_getElem?.mp he
    obtain ⟨e', he', hboth⟩ := hsame hj
    exact ⟨e', Array.mem_of_getElem? he', hboth⟩
  constructor
  case ordered => exact hs.ordered.of_eq rfl
  case increasing =>
    intro j k e e' hjk he he'
    obtain ⟨f, hf, hnamed, -⟩ := hsame he
    obtain ⟨f', hf', hnamed', -⟩ := hsame he'
    rw [Declaration.offset, Declaration.offset, hnamed, hnamed']
    exact hs.increasing j k f f' hjk hf hf'
  case behind =>
    intro e he
    obtain ⟨f, hf, hnamed, -⟩ := hmem he
    rw [Declaration.offset, hnamed]
    exact hs.behind f hf
  case fresh =>
    intro hkind e he
    obtain ⟨f, hf, hnamed, -⟩ := hmem he
    rw [Declaration.offset, hnamed]
    exact hs.fresh hkind f hf
  case leading =>
    intro e he
    obtain ⟨f, hf, hnamed, hleads⟩ := hmem he
    rw [Declaration.offset, hnamed]
    exact (hs.leading f hf).imp_right hleads
  case members =>
    intro e he
    have hold : e.ListsMembers s.declarations := by
      obtain ⟨j, hj⟩ := Array.mem_iff_getElem?.mp he
      rw [Array.getElem?_modify] at hj
      split at hj
      · next hij =>
        rw [← hij, hd, Option.map_some] at hj
        exact Option.some.inj hj ▸ hlists
      · exact hs.members e (Array.mem_of_getElem? hj)
    -- what is changed is no member itself
    refine hold.mono fun m e' he' hmember' => ?_
    have hne : i ≠ m := by
      rintro rfl
      exact hmember (Option.some.inj (hd.symm.trans he') ▸ hmember')
    rw [Array.getElem?_modify, if_neg hne, he']

/-- A declaration was entered, maybe one that others are declared in. -/
structure Opens (s s' : ParseState) (i : DeclIndex) (d : Declaration) : Prop where
  adds : s.Adds s' fun _ => []
  index : s.declarations.size = i
  declarations : s'.declarations = s.declarations.push d
  current : s'.current = s.current

/-- A declaration whose name was found just before. -/
theorem Tidy.opens (hs : s.Tidy) (hfresh : s.Fresh) (hname : s.Names s' d.name)
    (hlead : 0 < d.offset ∨ d.MayLead) (hlists : d.shape.ListsNothing) :
    s'.Opens { s' with declarations := s'.declarations.push d } s'.declarations.size d where
  index := rfl
  declarations := rfl
  current := rfl
  adds :=
    { tidy := hs.push hfresh hname hlead hlists
      pos_le := Nat.le_refl _
      ahead_le := Nat.le_refl _
      size_le := by simp
      kept := fun i hi => by rw [Array.getElem?_push, if_neg (Nat.ne_of_lt hi)]
      nodup := fun _ _ => List.nodup_nil
      range := fun _ _ i hi => absurd hi List.not_mem_nil
      bound := fun _ _ i hi => absurd hi List.not_mem_nil }

theorem Opens.get {i : DeclIndex} (h : s.Opens s₁ i d) (h' : s₁.Adds s' l) :
    s'.declarations[i]? = some d := by
  obtain ⟨-, rfl, hlast, -⟩ := h
  rw [h'.kept _ (by rw [hlast, Array.size_push]; omega), hlast, Array.getElem?_push_size]

/-- A declaration that is completed after what is declared in it. -/
theorem Opens.complete {i : DeclIndex} (h : s.Opens s₁ i d) (h' : s₁.Adds s' l)
    {change : Declaration → Declaration} (hname : (change d).name = d.name)
    (hlead : d.MayLead → (change d).MayLead) (hmember : ¬ d.IsMember)
    (hlists : (change d).ListsMembers s'.declarations)
    (hl : ∀ f, f.declaration? i = some (change d) → (l' f).Sublist (i :: l f))
    (hbound : ∀ f, f.declaration? i = some (change d) → (change d).IsGlobal →
      (l' f).Sublist (l f)) :
    s.Adds { s' with declarations := s'.declarations.modify i change } l' := by
  have hd := h.get h'
  obtain ⟨hadds, rfl, hlast, -⟩ := h
  have hall := hadds.append h'
  have hsize : s₁.declarations.size = s.declarations.size + 1 := by rw [hlast, Array.size_push]
  let last : ParseState :=
    { s' with declarations := s'.declarations.modify s.declarations.size change }
  -- only the entry of the declaration itself changes
  have hget (i : ℕ) (hi : s.declarations.size ≠ i) :
      last.declarations[i]? = s'.declarations[i]? := by
    rw [Array.getElem?_modify, if_neg hi]
  have hlen : last.declarations.size = s'.declarations.size := Array.size_modify
  have hown {f : SourceFile} (hf : s.HeldBy last f) :
      f.declaration? s.declarations.size = some (change d) := by
    have hle := h'.size_le
    rw [hf _ (Nat.le_refl _) (by omega), Array.getElem?_modify, if_pos rfl, hd, Option.map_some]
  have hrest {f : SourceFile} (hf : s.HeldBy last f) : s₁.HeldBy s' f := by
    intro i hle hlt
    rw [hf i (by omega) (by omega), hget i (by omega)]
  constructor
  case tidy => exact h'.tidy.modify hd hname hlead hmember hlists
  case pos_le => exact hall.pos_le
  case ahead_le => exact hall.ahead_le
  case size_le => exact hlen ▸ hall.size_le
  case kept =>
    intro i hi
    rw [hget i (by omega)]
    exact hall.kept i hi
  case nodup =>
    intro f hf
    -- what is declared within stands after the declaration itself
    refine List.Nodup.sublist (hl f (hown hf)) (List.nodup_cons.mpr ⟨fun hmem => ?_, ?_⟩)
    · have hge := (h'.range f (hrest hf) _ hmem).1
      omega
    · exact h'.nodup f (hrest hf)
  case range =>
    intro f hf i hi
    rw [hlen]
    rcases List.mem_cons.mp ((hl f (hown hf)).subset hi) with rfl | hi
    · exact ⟨Nat.le_refl _, (Array.getElem?_eq_some_iff.mp hd).1⟩
    · have hge := h'.range f (hrest hf) i hi
      exact ⟨by omega, hge.2⟩
  case bound =>
    intro f hf i hi e he
    rcases List.mem_cons.mp ((hl f (hown hf)).subset hi) with rfl | hi'
    -- a block for the whole program is not listed itself, and what is listed stands after it
    · intro hglobal
      obtain rfl := Option.some.inj (he.symm.trans (hown hf))
      have hge := (h'.range f (hrest hf) _ ((hbound f (hown hf) hglobal).subset hi)).1
      omega
    · exact h'.bound f (hrest hf) i hi' e he

/-- A declaration that nothing is declared in. -/
theorem Opens.adds_self {i : DeclIndex} (h : s.Opens s' i d) (hd : ¬ d.IsGlobal) :
    s.Adds s' fun _ => [i] := by
  have hlast := h.get ((Passes.refl h.adds.tidy.ordered).adds h.adds.tidy)
  refine { h.adds with nodup := ?_, range := ?_, bound := ?_ }
  · exact fun _ _ => List.nodup_singleton _
  · intro f _ j hj
    rw [List.mem_singleton.mp hj]
    exact ⟨Nat.le_of_eq h.index, (Array.getElem?_eq_some_iff.mp hlast).1⟩
  · intro f hf j hj e he
    rw [List.mem_singleton.mp hj,
      hf i (Nat.le_of_eq h.index) (Array.getElem?_eq_some_iff.mp hlast).1, hlast] at he
    exact Option.some.inj he ▸ hd

/-- From one state to another, the members of an enum were declared. -/
structure AddsMembers (s s' : ParseState) (members : List DeclIndex) : Prop where
  adds : s.Adds s' fun _ => members
  members : ∀ m ∈ members, ∃ d, s'.declarations[m]? = some d ∧ d.IsMember

theorem Passes.addsMembers (h : s.Passes s') (hs : s.Tidy) : s.AddsMembers s' [] :=
  ⟨h.adds hs, fun _ hm => absurd hm List.not_mem_nil⟩

theorem AddsMembers.append {members more : List DeclIndex} (h : s.AddsMembers s₁ members)
    (h' : s₁.AddsMembers s' more) : s.AddsMembers s' (members ++ more) := by
  refine ⟨h.adds.append h'.adds, fun m hm => ?_⟩
  rcases List.mem_append.mp hm with hm | hm
  · obtain ⟨d, hd, hmember⟩ := h.members m hm
    exact ⟨d, (h'.adds.kept m (Array.getElem?_eq_some_iff.mp hd).1).trans hd, hmember⟩
  · exact h'.members m hm

theorem AddsMembers.andThen {members : List DeclIndex} (h : s.AddsMembers s₁ members)
    (hs : s₁.Passes s') : s.AddsMembers s' members :=
  ⟨h.adds.andThen hs, hs.declarations ▸ h.members⟩

theorem AddsMembers.outOf {members : List DeclIndex} {i : DeclIndex}
    (h : (s.inBody i).AddsMembers s' members) : s.AddsMembers (s'.outOf s) members :=
  ⟨h.adds.outOf, h.members⟩

/-! ### What statements add -/

/-- From one state to another, what was declared is what some statements list, bodies in them at
any depth. -/
def Declares (s s' : ParseState) (statements : List Statement) : Prop :=
  ∀ n, s.Adds s' fun f => f.boundIn n statements

end ParseState

/-- Nothing is declared in a declaration of this form. -/
def DeclarationShape.IsLeaf : DeclarationShape → Prop
  | .enum _ | .module .. => False
  | _ => True

theorem DeclarationShape.IsLeaf.listsNothing {shape : DeclarationShape} (h : shape.IsLeaf) :
    shape.ListsNothing := by
  cases shape with
  | «enum» members => exact h.elim
  | _ => trivial

theorem Declaration.not_isGlobal_of_leaf {d : Declaration} (hleaf : d.shape.IsLeaf) :
    ¬ d.IsGlobal := by
  intro hglobal
  unfold IsGlobal naming? at hglobal
  split at hglobal
  · next naming body hshape =>
    rw [hshape] at hleaf
    exact hleaf
  · cases hglobal

namespace SourceFile

variable {f : SourceFile} {n : ℕ}

theorem boundBy_leaf {i : DeclIndex} {d : Declaration} (hd : f.declaration? i = some d)
    (hleaf : d.shape.IsLeaf) (inner : List Statement → List DeclIndex) :
    f.boundBy inner i = [i] := by
  rw [boundBy, hd, Option.map_some]
  cases hshape : d.shape with
  | «enum» members => rw [hshape] at hleaf; exact hleaf.elim
  | module naming body => rw [hshape] at hleaf; exact hleaf.elim
  | _ => rfl

theorem boundIn_nil : f.boundIn n [] = [] := by
  cases n <;> rfl

theorem boundIn_append (statements others : List Statement) :
    f.boundIn n (statements ++ others) = f.boundIn n statements ++ f.boundIn n others := by
  cases n with
  | zero => rfl
  | succ n => exact List.flatMap_append

/-- Statements other than declarations declare nothing. -/
theorem boundIn_singleton {statement : Statement} (h : ∀ i, statement ≠ .declaration i) :
    f.boundIn n [statement] = [] := by
  cases n with
  | zero => rfl
  | succ n =>
    cases statement with
    | declaration i => exact absurd rfl (h i)
    | _ => rfl

theorem boundIn_declaration (i : DeclIndex) :
    f.boundIn (n + 1) [.declaration i] = f.boundBy (f.boundIn n) i := List.flatMap_singleton _ _

end SourceFile

namespace ParseState

variable {s s₁ s' : ParseState} {statements others : List Statement}

theorem Passes.declares (h : s.Passes s') (hs : s.Tidy) : s.Declares s' [] := fun _ =>
  (h.adds hs).weaken fun _ _ => by rw [SourceFile.boundIn_nil]

theorem Declares.tidy (h : s.Declares s' statements) : s'.Tidy := (h 0).tidy

theorem Declares.append (h : s.Declares s₁ statements) (h' : s₁.Declares s' others) :
    s.Declares s' (statements ++ others) := fun n =>
  ((h n).append (h' n)).weaken fun f _ => by rw [SourceFile.boundIn_append]

theorem Declares.after (h : s₁.Declares s' statements) (hs : s.Passes s₁) :
    s.Declares s' statements := fun n => (h n).after hs

theorem Declares.outOf {i : DeclIndex} (h : (s.inBody i).Declares s' statements) :
    s.Declares (s'.outOf s) statements := fun n => (h n).outOf

theorem Declares.andThen (h : s.Declares s₁ statements) (hs : s₁.Passes s') :
    s.Declares s' statements := fun n => (h n).andThen hs

/-- A single declaration, by what is bound with it. -/
theorem declares_declaration {i : DeclIndex} {l : ℕ → SourceFile → List DeclIndex}
    (h : ∀ n, s.Adds s' (l n)) (hl : ∀ n f, s.HeldBy s' f →
      (f.boundBy (f.boundIn n) i).Sublist (l n f)) : s.Declares s' [.declaration i] := by
  intro n
  cases n with
  | zero => exact (h 0).weaken fun f _ => List.nil_sublist _
  | succ n =>
    refine (h n).weaken fun f hf => ?_
    rw [SourceFile.boundIn_declaration]
    exact hl n f hf

end ParseState

end ApiSurface
