import ApiSurface.Extraction.Symbols
import ApiSurface.Proofs.BreadthFirst
import ApiSurface.Proofs.NotingSteps
import ApiSurface.Proofs.Tables
/-!
What the description of a class shows of its members: which of them, in which order, and what each is
described by. All of it is said of descriptions that succeed.
-/
namespace ApiSurface

/-! ### Descriptions that succeed -/

namespace Describe

variable {α β σ : Type} {ctx : Context}

/-- In a context, a step can come to a result. -/
def Gives (x : Describe α) (ctx : Context) (a : α) : Prop := ∃ d d', x.runAt ctx d = (.ok a, d')

namespace Gives

theorem eq_of_pure {a b : α} (h : (Pure.pure a : Describe α).Gives ctx b) : b = a := by
  obtain ⟨d, d', h⟩ := h
  have hok : (Except.ok a : Except DescribeError α) = .ok b := congrArg Prod.fst h
  exact (Except.ok.inj hok).symm

/-- The first step gives a result with which the rest goes on. -/
theorem of_bind {x : Describe α} {f : α → Describe β} {b : β} (h : (x >>= f).Gives ctx b) :
    ∃ a, x.Gives ctx a ∧ (f a).Gives ctx b := by
  obtain ⟨d, d', h⟩ := h
  rw [runAt_bind] at h
  rcases hx : x.runAt ctx d with ⟨r, d''⟩
  rw [hx] at h
  cases r with
  | error e => cases h
  | ok a => exact ⟨a, ⟨d, d'', hx⟩, ⟨d'', d', h⟩⟩

/-- What each step keeps holds when all have been taken. -/
theorem of_foldlM {f : σ → α → Describe σ} {I : List α → σ → Prop}
    (hstep : ∀ done a s s', I done s → (f s a).Gives ctx s' → I (done ++ [a]) s') {l : List α}
    {s s' : σ} (hs : I [] s) (h : (l.foldlM f s).Gives ctx s') : I l s' := by
  -- by induction on the steps that are still to be taken
  have hall (done rest : List α) (s : σ) (hs : I done s) (h : (rest.foldlM f s).Gives ctx s') :
      I (done ++ rest) s' := by
    induction rest generalizing done s with
    | nil =>
      obtain rfl := eq_of_pure h
      rwa [List.append_nil]
    | cons a rest ih =>
      rw [List.foldlM_cons] at h
      obtain ⟨t, ht, hrest⟩ := of_bind h
      rw [List.append_cons]
      exact ih _ _ (hstep done a s t hs ht) hrest
  exact hall [] l s hs h

/-- Inside a declaration, a step is taken in its scope. -/
theorem of_inDeclaration {x : Describe α} {file : FileIndex} {i : DeclIndex} {names : List String}
    {a : α} (h : (inDeclaration file i names x).Gives ctx a) :
    x.Gives { ctx with scope := (ctx.program.source file).scopeOf file i } a := by
  obtain ⟨d, d', h⟩ := h
  exact ⟨{ d with typeParams := names }, d', h⟩

end Gives

end Describe

/-! ### Members that are shown -/

namespace ClassMember

/-- A method or a constructor with a body. -/
def hasBody (m : ClassMember) : Bool :=
  match m.shape with
  | .method _ _ _ body | .constructor _ body => body.isSome
  | _ => false

/-- Whether a member is passed over for others, as the body behind overloads or as the setter of a
property that has a getter, or because it is no known member. Private members count as others. -/
def isPassedOver (all : List ClassMember) (m : ClassMember) : Bool :=
  match m.shape with
  | .method .. => 1 < (all.countP fun n => n.isMethod && n.sharesName m) && m.hasBody
  | .constructor .. => 1 < all.countP isConstructor && m.hasBody
  | .setter .. => all.any fun n => n.isGetter && n.sharesName m
  | .unknown => true
  | .property .. | .getter .. | .index .. => false

/-- Whether a member is shown. -/
def isShown (all : List ClassMember) (m : ClassMember) : Bool := !m.isPrivate && !m.isPassedOver all

/-- Whether a property that is read can be written as well. -/
def isWritten (all : List ClassMember) (m : ClassMember) : Bool :=
  all.any fun n => n.isSetter && n.sharesName m

/-- What a member among all members may be described as. -/
def MayBe (all : List ClassMember) (m : ClassMember) (x : DocMember) : Prop :=
  match m.shape with
  | .property name optional _ _ => ∃ readonly t, x = .property name.text m.doc optional readonly t
  | .method name optional _ _ => ∃ s, x = .method name.text m.doc optional s
  | .getter name _ _ => ∃ t, x = .property name.text m.doc false (!m.isWritten all) t
  | .setter name _ => ∃ t, x = .property name.text m.doc false false t
  | .index _ _ => ∃ keyName keyType readonly t, x = .index m.doc keyName keyType readonly t
  | .constructor _ _ | .unknown => False

/-- The parameters of a constructor that are properties others may see. -/
def properties (m : ClassMember) : List Param :=
  match m.shape with
  | .constructor s _ => s.params.filter fun p => p.isProperty && !p.hasModifier .privateAccess
  | _ => []

/-- Those of all constructors that are not private. -/
def publicProperties (ms : List ClassMember) : List Param :=
  (ms.filter (!·.isPrivate)).flatMap properties

end ClassMember

namespace Describe

variable (by_ : Depth) (ctx : Context)

/-- A constructor is shown as a signature. -/
def ShowsConstructor (m : ClassMember) (s : DocSignature) : Prop :=
  ∃ signature body, m.shape = .constructor signature body ∧
    (Describe.signature by_.type by_.inferred signature m.doc true none).Gives ctx s

/-- A member among all members is shown as another one. -/
structure ShowsMember (all : List ClassMember) (m : ClassMember) (x : DocClassMember) : Prop where
  member : (classMember by_.type by_.inferred all m).Gives ctx (some x.member)
  isStatic : x.isStatic = m.hasModifier .static
  isProtected : x.isProtected = m.hasModifier .protectedAccess
  isAbstract : x.isAbstract = m.hasModifier .abstracted

/-- A parameter of a constructor is shown as a property. -/
def ShowsProperty (p : Param) (x : DocClassMember) : Prop :=
  ∃ t, (by_.inferred p.infer).Gives ctx t ∧
    x = ⟨.property p.name.text none p.optional (p.hasModifier .readonly) (t.ofProperty p.optional),
      false, p.hasModifier .protectedAccess, false⟩

/-- The first parameter of each name is shown as a property of that name. -/
def ShowsProperties (ps : List Param) (properties : Table String DocClassMember) : Prop :=
  List.Forall₂ (fun name entry => entry.1 = name ∧
    ∃ p, ps.find? (·.name.text == name) = some p ∧ ShowsProperty by_ ctx p entry.2)
      (ps.map (·.name.text)).eraseDups properties

/-- After some of all members, those of them that are shown are known. -/
structure ShowsParts (all done : List ClassMember) (c : ClassParts) : Prop where
  constructors : List.Forall₂ (ShowsConstructor by_ ctx)
    (done.filter fun m => m.isShown all && m.isConstructor) c.constructors
  properties : ShowsProperties by_ ctx (ClassMember.publicProperties done) c.parameters
  members : List.Forall₂ (ShowsMember by_ ctx all)
    (done.filter fun m => m.isShown all && !m.isConstructor) c.members

variable {by_ ctx} {all done : List ClassMember} {c c' : ClassParts} {m : ClassMember}

/-! ### Parameters -/

theorem ShowsProperties.keys {ps : List Param} {properties : Table String DocClassMember}
    (h : ShowsProperties by_ ctx ps properties) :
    properties.keys = (ps.map (·.name.text)).eraseDups := by
  unfold ShowsProperties at h
  generalize (ps.map (·.name.text)).eraseDups = names at h
  induction h with
  | nil => rfl
  | cons hentry _ ih =>
    rw [Table.keys, List.map_cons, hentry.1]
    exact congrArg _ ih

/-- Behind a parameter of the same name, another one changes nothing. -/
theorem ShowsProperties.append_of_mem {ps : List Param} {properties : Table String DocClassMember}
    (h : ShowsProperties by_ ctx ps properties) {p : Param}
    (hp : p.name.text ∈ ps.map (·.name.text)) : ShowsProperties by_ ctx (ps ++ [p]) properties := by
  unfold ShowsProperties
  rw [List.map_append, List.map_singleton, eraseDups_append_singleton, if_pos hp]
  refine List.Forall₂.imp (fun name entry hentry => ?_) h
  obtain ⟨hname, q, hq, hshows⟩ := hentry
  exact ⟨hname, q, by rw [List.find?_append, hq, Option.some_or], hshows⟩

/-- The first parameter of a name is shown behind the others. -/
theorem ShowsProperties.append_of_notMem {ps : List Param}
    {properties : Table String DocClassMember} (h : ShowsProperties by_ ctx ps properties)
    {p : Param} {x : DocClassMember} (hp : p.name.text ∉ ps.map (·.name.text))
    (hx : ShowsProperty by_ ctx p x) :
    ShowsProperties by_ ctx (ps ++ [p]) (properties ++ [(p.name.text, x)]) := by
  unfold ShowsProperties
  rw [List.map_append, List.map_singleton, eraseDups_append_singleton, if_neg hp]
  refine List.rel_append (List.Forall₂.imp (fun name entry hentry => ?_) h) (.cons ⟨rfl, p, ?_, hx⟩ .nil)
  · obtain ⟨hname, q, hq, hshows⟩ := hentry
    exact ⟨hname, q, by rw [List.find?_append, hq, Option.some_or], hshows⟩
  · have hnone : ps.find? (·.name.text == p.name.text) = none := by
      refine List.find?_eq_none.mpr fun q hq heq => hp ?_
      exact List.mem_map.mpr ⟨q, hq, eq_of_beq heq⟩
    rw [List.find?_append, hnone, Option.none_or]
    exact List.find?_cons_of_pos BEq.rfl

/-- After one more parameter of a constructor. -/
theorem parameterProperty_shows {ps : List Param} {p : Param}
    (h : ShowsProperties by_ ctx ps c.parameters)
    (hp : (parameterProperty by_.inferred c p).Gives ctx c') :
    ShowsProperties by_ ctx
        (ps ++ [p].filter fun p => p.isProperty && !p.hasModifier .privateAccess) c'.parameters ∧
      c'.constructors = c.constructors ∧ c'.members = c.members := by
  unfold parameterProperty at hp
  split at hp
  · next hproperty =>
    obtain rfl := hp.eq_of_pure
    have hnone : p.isProperty = false := by simpa using hproperty
    simpa [hnone] using h
  next hproperty =>
  split at hp
  · next hprivate =>
    obtain rfl := hp.eq_of_pure
    simpa [hprivate] using h
  next hpublic =>
  have hshown : ([p].filter fun p => p.isProperty && !p.hasModifier .privateAccess) = [p] := by
    simp at hproperty hpublic
    simp [hproperty, hpublic]
  rw [hshown]
  -- the table has an entry exactly for the names of the parameters before
  have hmem : c.parameters.has p.name.text = true ↔ p.name.text ∈ ps.map (·.name.text) := by
    rw [Table.has_iff, h.keys, List.mem_eraseDups]
  split at hp
  · next hknown =>
    obtain rfl := hp.eq_of_pure
    exact ⟨h.append_of_mem (hmem.mp hknown), rfl, rfl⟩
  · next hnew =>
    obtain ⟨t, ht, hp⟩ := hp.of_bind
    obtain rfl := hp.eq_of_pure
    refine ⟨?_, rfl, rfl⟩
    have hkey : p.name.text ∉ c.parameters.keys := fun hkey => hnew (Table.has_iff.mpr hkey)
    dsimp only
    rw [Table.insert_of_not_mem hkey]
    exact h.append_of_notMem (mt hmem.mpr hnew) ⟨t, ht, rfl⟩

/-! ### Members -/

/-- A member is described unless it is passed over or a constructor. -/
theorem classMember_cases {r : Option DocMember}
    (h : (classMember by_.type by_.inferred all m).Gives ctx r) :
    (r = none ∧ (m.isPassedOver all = true ∨ m.isConstructor = true)) ∨
      ∃ x, r = some x ∧ m.isPassedOver all = false ∧ m.MayBe all x := by
  unfold classMember at h
  unfold ClassMember.isPassedOver ClassMember.hasBody ClassMember.isConstructor ClassMember.MayBe
  cases hshape : m.shape with
  | property name optional t initial =>
    rw [hshape] at h
    cases t with
    | none =>
      obtain ⟨t, -, h⟩ := h.of_bind
      exact Or.inr ⟨_, h.eq_of_pure, rfl, _, _, rfl⟩
    | some t =>
      obtain ⟨t, -, h⟩ := h.of_bind
      exact Or.inr ⟨_, h.eq_of_pure, rfl, _, _, rfl⟩
  | method name optional s body =>
    rw [hshape] at h
    dsimp only at h ⊢
    split at h
    · next hover => exact Or.inl ⟨h.eq_of_pure, Or.inl hover⟩
    · next hover =>
      obtain ⟨t, -, h⟩ := h.of_bind
      exact Or.inr ⟨_, h.eq_of_pure, Bool.eq_false_iff.mpr hover, _, rfl⟩
  | getter name t body =>
    rw [hshape] at h
    obtain ⟨t, -, h⟩ := h.of_bind
    exact Or.inr ⟨_, h.eq_of_pure, rfl, _, rfl⟩
  | setter name q =>
    rw [hshape] at h
    dsimp only at h ⊢
    split at h
    · next hgetter => exact Or.inl ⟨h.eq_of_pure, Or.inl hgetter⟩
    · next hgetter =>
      obtain ⟨t, -, h⟩ := h.of_bind
      exact Or.inr ⟨_, h.eq_of_pure, Bool.eq_false_iff.mpr hgetter, _, rfl⟩
  | index params t =>
    rw [hshape] at h
    obtain ⟨key, -, h⟩ := h.of_bind
    obtain ⟨t, -, h⟩ := h.of_bind
    exact Or.inr ⟨_, h.eq_of_pure, rfl, _, _, _, _, rfl⟩
  | constructor s body =>
    rw [hshape] at h
    exact Or.inl ⟨h.eq_of_pure, Or.inr rfl⟩
  | unknown =>
    rw [hshape] at h
    exact Or.inl ⟨h.eq_of_pure, Or.inl rfl⟩

theorem ShowsMember.mayBe {x : DocClassMember} (h : ShowsMember by_ ctx all m x) :
    m.MayBe all x.member := by
  rcases classMember_cases h.member with ⟨hnone, -⟩ | ⟨y, hy, -, hmayBe⟩
  · cases hnone
  · exact Option.some.inj hy ▸ hmayBe

/-- A member that is no constructor is described, and is then known if it is shown. -/
theorem classPart_of_member (hpublic : m.isPrivate = false) (hconstructor : m.isConstructor = false)
    (hm : (classPart by_.type by_.inferred all c m).Gives ctx c') :
    (m.isPassedOver all = true ∧ c' = c) ∨ m.isPassedOver all = false ∧
      ∃ x, ShowsMember by_ ctx all m x ∧ c' = { c with members := c.members ++ [x] } := by
  have hdescribed : ∃ r, (classMember by_.type by_.inferred all m).Gives ctx r ∧
      c' = r.elim c fun member => { c with members := c.members ++ [⟨member, m.hasModifier .static,
        m.hasModifier .protectedAccess, m.hasModifier .abstracted⟩] } := by
    unfold classPart at hm
    rw [hpublic, if_neg Bool.false_ne_true] at hm
    unfold ClassMember.isConstructor at hconstructor
    cases hshape : m.shape with
    | constructor s body =>
      rw [hshape] at hconstructor
      cases hconstructor
    | property | method | getter | setter | index | unknown =>
      rw [hshape] at hm
      obtain ⟨r, hr, hm⟩ := hm.of_bind
      cases r with
      | none => exact ⟨none, hr, hm.eq_of_pure⟩
      | some member => exact ⟨some member, hr, hm.eq_of_pure⟩
  obtain ⟨r, hr, rfl⟩ := hdescribed
  rcases classMember_cases hr with ⟨rfl, hover | hno⟩ | ⟨member, rfl, hover, -⟩
  · exact Or.inl ⟨hover, rfl⟩
  · exact absurd hno (ne_true_of_eq_false hconstructor)
  · exact Or.inr ⟨hover, _, ⟨hr, rfl, rfl, rfl⟩, rfl⟩

/-- The parameters of a constructor are described first, and the constructor unless it is passed over. -/
theorem classPart_of_constructor (hpublic : m.isPrivate = false)
    (hconstructor : m.isConstructor = true)
    (hm : (classPart by_.type by_.inferred all c m).Gives ctx c') :
    ∃ s body c₁, m.shape = .constructor s body ∧
      (s.params.foldlM (parameterProperty by_.inferred) c).Gives ctx c₁ ∧
        ((m.isPassedOver all = true ∧ c' = c₁) ∨ m.isPassedOver all = false ∧
          ∃ x, ShowsConstructor by_ ctx m x ∧
            c' = { c₁ with constructors := c₁.constructors ++ [x] }) := by
  unfold classPart at hm
  rw [hpublic, if_neg Bool.false_ne_true] at hm
  unfold ClassMember.isConstructor at hconstructor
  unfold ClassMember.isPassedOver ClassMember.hasBody
  cases hshape : m.shape with
  | constructor s body =>
    rw [hshape] at hm
    obtain ⟨c₁, h₁, hm⟩ := hm.of_bind
    refine ⟨s, body, c₁, rfl, h₁, ?_⟩
    dsimp only at hm ⊢
    split at hm
    · next hover => exact Or.inl ⟨hover, hm.eq_of_pure⟩
    · next hover =>
      obtain ⟨x, hx, hm⟩ := hm.of_bind
      exact Or.inr ⟨Bool.eq_false_iff.mpr hover, x, ⟨s, body, hshape, hx⟩, hm.eq_of_pure⟩
  | property | method | getter | setter | index | unknown =>
    rw [hshape] at hconstructor
    cases hconstructor

/-- After all parameters of a constructor. -/
theorem parameters_shows {ps qs : List Param} (h : ShowsProperties by_ ctx ps c.parameters)
    (hqs : (qs.foldlM (parameterProperty by_.inferred) c).Gives ctx c') :
    ShowsProperties by_ ctx
        (ps ++ qs.filter fun p => p.isProperty && !p.hasModifier .privateAccess) c'.parameters ∧
      c'.constructors = c.constructors ∧ c'.members = c.members := by
  refine Gives.of_foldlM (I := fun done c' => ShowsProperties by_ ctx
    (ps ++ done.filter fun p => p.isProperty && !p.hasModifier .privateAccess) c'.parameters ∧
      c'.constructors = c.constructors ∧ c'.members = c.members) ?_ ?_ hqs
  · rintro done p c₁ c₂ ⟨h₁, hconstructors, hmembers⟩ hp
    obtain ⟨h₂, hconstructors', hmembers'⟩ := parameterProperty_shows h₁ hp
    rw [List.filter_append, ← List.append_assoc]
    exact ⟨h₂, hconstructors'.trans hconstructors, hmembers'.trans hmembers⟩
  · rw [List.filter_nil, List.append_nil]
    exact ⟨h, rfl, rfl⟩

/-- One more member adds what is shown of it. -/
theorem ShowsParts.append (h : ShowsParts by_ ctx all done c)
    {constructors : List DocSignature} {members : List DocClassMember}
    (hconstructors : c'.constructors = c.constructors ++ constructors)
    (hmembers : c'.members = c.members ++ members)
    (hsignatures : List.Forall₂ (ShowsConstructor by_ ctx)
      ([m].filter fun m => m.isShown all && m.isConstructor) constructors)
    (hproperties : ShowsProperties by_ ctx
      (ClassMember.publicProperties done ++ ClassMember.publicProperties [m]) c'.parameters)
    (hothers : List.Forall₂ (ShowsMember by_ ctx all)
      ([m].filter fun m => m.isShown all && !m.isConstructor) members) :
    ShowsParts by_ ctx all (done ++ [m]) c' := by
  refine ⟨?_, ?_, ?_⟩
  · rw [List.filter_append, hconstructors]
    exact List.rel_append h.constructors hsignatures
  · rw [ClassMember.publicProperties, List.filter_append, List.flatMap_append]
    exact hproperties
  · rw [List.filter_append, hmembers]
    exact List.rel_append h.members hothers

/-- After one more member that is private: it adds nothing. -/
theorem shows_of_private (h : ShowsParts by_ ctx all done c) (hprivate : m.isPrivate = true)
    (hm : (classPart by_.type by_.inferred all c m).Gives ctx c') :
    ShowsParts by_ ctx all (done ++ [m]) c' := by
  unfold classPart at hm
  rw [if_pos hprivate] at hm
  obtain rfl := hm.eq_of_pure
  have hshown : m.isShown all = false := by simp [ClassMember.isShown, hprivate]
  have hnone : ClassMember.publicProperties [m] = [] := by
    simp [ClassMember.publicProperties, hprivate]
  refine h.append (List.append_nil _).symm (List.append_nil _).symm ?_ ?_ ?_
  · simp [hshown]
  · rw [hnone, List.append_nil]
    exact h.properties
  · simp [hshown]

/-- After one more constructor: its properties are known in any case. -/
theorem shows_of_constructor (h : ShowsParts by_ ctx all done c) (hpublic : m.isPrivate = false)
    (hconstructor : m.isConstructor = true)
    (hm : (classPart by_.type by_.inferred all c m).Gives ctx c') :
    ShowsParts by_ ctx all (done ++ [m]) c' := by
  obtain ⟨s, body, c₁, hshape, hparameters, hrest⟩ :=
    classPart_of_constructor hpublic hconstructor hm
  obtain ⟨hknown, hconstructors, hmembers⟩ := parameters_shows h.properties hparameters
  have hshown : m.isShown all = !m.isPassedOver all := by simp [ClassMember.isShown, hpublic]
  have hown : ClassMember.publicProperties [m] =
      s.params.filter fun p => p.isProperty && !p.hasModifier .privateAccess := by
    simp [ClassMember.publicProperties, hpublic, ClassMember.properties, hshape]
  have hothers : List.Forall₂ (ShowsMember by_ ctx all)
      ([m].filter fun m => m.isShown all && !m.isConstructor) [] := by simp [hconstructor]
  rw [← hown] at hknown
  rw [← List.append_nil c.members] at hmembers
  rcases hrest with ⟨hover, rfl⟩ | ⟨hover, x, hx, rfl⟩
  · rw [← List.append_nil c.constructors] at hconstructors
    refine h.append hconstructors hmembers ?_ hknown hothers
    simp [hshown, hover]
  · refine h.append (congrArg (· ++ [x]) hconstructors) hmembers ?_ hknown hothers
    simpa [hshown, hover, hconstructor] using hx

/-- After one more member of another kind. -/
theorem shows_of_member (h : ShowsParts by_ ctx all done c) (hpublic : m.isPrivate = false)
    (hconstructor : m.isConstructor = false)
    (hm : (classPart by_.type by_.inferred all c m).Gives ctx c') :
    ShowsParts by_ ctx all (done ++ [m]) c' := by
  have hshown : m.isShown all = !m.isPassedOver all := by simp [ClassMember.isShown, hpublic]
  have hown : m.properties = [] := by
    unfold ClassMember.properties
    unfold ClassMember.isConstructor at hconstructor
    cases hshape : m.shape with
    | constructor s body =>
      rw [hshape] at hconstructor
      cases hconstructor
    | property | method | getter | setter | index | unknown => rfl
  have hknown : ShowsProperties by_ ctx
      (ClassMember.publicProperties done ++ ClassMember.publicProperties [m]) c.parameters := by
    have hnone : ClassMember.publicProperties [m] = [] := by
      simp [ClassMember.publicProperties, hpublic, hown]
    rw [hnone, List.append_nil]
    exact h.properties
  have hsignatures : List.Forall₂ (ShowsConstructor by_ ctx)
      ([m].filter fun m => m.isShown all && m.isConstructor) [] := by simp [hconstructor]
  rcases classPart_of_member hpublic hconstructor hm with ⟨hover, rfl⟩ | ⟨hover, x, hx, rfl⟩
  · refine h.append (List.append_nil _).symm (List.append_nil _).symm hsignatures hknown ?_
    simp [hshown, hover]
  · refine h.append (List.append_nil _).symm rfl hsignatures hknown ?_
    simpa [hshown, hover, hconstructor] using hx

/-- After one more of all members. -/
theorem classPart_shows (h : ShowsParts by_ ctx all done c)
    (hm : (classPart by_.type by_.inferred all c m).Gives ctx c') :
    ShowsParts by_ ctx all (done ++ [m]) c' := by
  cases hprivate : m.isPrivate with
  | true => exact shows_of_private h hprivate hm
  | false =>
    cases hconstructor : m.isConstructor with
    | true => exact shows_of_constructor h hprivate hconstructor hm
    | false => exact shows_of_member h hprivate hconstructor hm

/-- What a class shows when all its members are described. -/
theorem classParts_shows (h : (classParts by_.type by_.inferred all).Gives ctx c) :
    ShowsParts by_ ctx all all c := by
  have hstart : ShowsParts by_ ctx all [] .start := ⟨.nil, .nil, .nil⟩
  exact Gives.of_foldlM (fun _ _ _ _ => classPart_shows) hstart h

/-- Where a declaration is described. -/
def context (ctx : Context) (d : Located) : Context :=
  { ctx with scope := (ctx.program.source d.file).scopeOf d.file d.index }

/-- A class shows the constructors and the members that are known in the end. -/
theorem single_shows {d : Located} {typeParams : List TypeParam} {base : Option TypeExpr}
    {implemented : List TypeExpr} (hd : d.declaration.shape = .class typeParams base implemented all)
    {shape : DocShape} (h : (single by_ d).Gives ctx shape) :
    ∃ params parent interfaces parts, ShowsParts by_ (context ctx d) all all parts ∧
      shape = .class params parent interfaces parts.constructors parts.allMembers parts.hasPrivate
        (d.declaration.modifiers.contains .abstracted) := by
  unfold single at h
  rw [hd] at h
  obtain ⟨params, -, h⟩ := h.of_inDeclaration.of_bind
  obtain ⟨parent, -, h⟩ := h.of_bind
  obtain ⟨interfaces, -, h⟩ := h.of_bind
  obtain ⟨parts, hparts, h⟩ := h.of_bind
  exact ⟨params, parent, interfaces, parts, classParts_shows hparts, h.eq_of_pure⟩

/-! ### Parameters that are properties -/

/-- A class shows the first parameter of each name that is a property of a constructor that is not
private, before all other members and in the order of those parameters, whether the constructor is
shown or not. So it shows exactly one for a property of a constructor if a constructor that is not
private has a property of that name. -/
theorem class_properties_shown {d : Located} {typeParams : List TypeParam} {base : Option TypeExpr}
    {implemented : List TypeExpr} (hd : d.declaration.shape = .class typeParams base implemented all)
    {s s' : Describing} {params : List DocTypeParam} {parent : Option DocType}
    {interfaces : List DocType} {constructors : List DocSignature} {members : List DocClassMember}
    {hasPrivate isAbstract : Bool} (h : (single by_ d).runAt ctx s =
      (.ok (.class params parent interfaces constructors members hasPrivate isAbstract), s')) :
    ∃ properties ordinary, members = properties.map (·.2) ++ ordinary ∧
      ShowsProperties by_ (context ctx d) (ClassMember.publicProperties all) properties ∧
      List.Forall₂ (ShowsMember by_ (context ctx d) all)
        (all.filter fun m => m.isShown all && !m.isConstructor) ordinary ∧
      ∀ m ∈ all, ∀ p ∈ m.properties, properties.keys.count p.name.text =
        if ∃ n ∈ all, n.isPrivate = false ∧ ∃ q ∈ n.properties, q.name.text = p.name.text then 1
        else 0 := by
  obtain ⟨_, _, _, parts, hparts, hshape⟩ := single_shows hd ⟨s, s', h⟩
  injection hshape with _ _ _ _ hmembers
  refine ⟨parts.parameters, parts.members, hmembers, hparts.properties, hparts.members, ?_⟩
  intro m _ p _
  -- no name is a key twice, so the count says only whether it is one
  rw [hparts.properties.keys, List.Nodup.count (eraseDups_nodup _)]
  refine if_congr ?_ rfl rfl
  simp only [List.mem_eraseDups, List.mem_map, ClassMember.publicProperties, List.mem_flatMap,
    List.mem_filter, Bool.not_eq_true']
  constructor
  · rintro ⟨q, ⟨n, ⟨hn, hpublic⟩, hq⟩, hname⟩
    exact ⟨n, hn, hpublic, q, hq, hname⟩
  · rintro ⟨n, hn, hpublic, q, hq, hname⟩
    exact ⟨q, ⟨n, ⟨hn, hpublic⟩, hq⟩, hname⟩

/-- A class that declares some members. -/
def classOf (members : List ClassMember) : Located :=
  ⟨0, 0, ⟨"A", default⟩, default, [], none, .class [] none [] members, none⟩

/-- A constructor whose only parameter is a property. -/
def pointConstructor (modifiers : Modifiers) : ClassMember :=
  let x : Param := ⟨⟨"x", default⟩, default, [.publicAccess], false, false,
    some ⟨default, .keyword "number"⟩, none⟩
  ⟨default, none, modifiers, .constructor ⟨[], [x], none⟩ (some default)⟩

/-- The property, as it is shown. -/
def pointProperty : DocClassMember :=
  ⟨.property "x" none false false (.intrinsic "number"), false, false, false⟩

theorem point_property_shown :
    ∃ properties ordinary, [pointProperty] = properties.map (·.2) ++ ordinary ∧
      ShowsProperties (.ofLimit 1) (context default (classOf [pointConstructor []]))
        (ClassMember.publicProperties [pointConstructor []]) properties ∧
      List.Forall₂ (ShowsMember (.ofLimit 1) (context default (classOf [pointConstructor []]))
          [pointConstructor []])
        ([pointConstructor []].filter fun m =>
          m.isShown [pointConstructor []] && !m.isConstructor) ordinary ∧
      ∀ m ∈ [pointConstructor []], ∀ p ∈ m.properties, properties.keys.count p.name.text =
        if ∃ n ∈ [pointConstructor []], n.isPrivate = false ∧
          ∃ q ∈ n.properties, q.name.text = p.name.text then 1 else 0 := by
  have hrun : (single (.ofLimit 1) (classOf [pointConstructor []])).runAt default default =
      (.ok (.class [] none [] [.mk none [] [.mk "x" (.intrinsic "number") false false]
        (.intrinsic "any") true] [pointProperty] false false), default) := rfl
  exact class_properties_shown rfl hrun

/-- A property of a private constructor is not shown. -/
theorem hidden_constructor_property :
    (pointConstructor [.privateAccess]).properties.map (·.name.text) = ["x"] ∧
      (single (.ofLimit 1) (classOf [pointConstructor [.privateAccess]])).runAt default default =
        (.ok (.class [] none [] [] [] true false), default) := ⟨rfl, rfl⟩

end Describe

end ApiSurface
