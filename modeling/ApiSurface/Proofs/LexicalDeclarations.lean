import ApiSurface.Proofs.LexicalTypes
/-!
Declarations described in lexical scopes. A declaration binds its type parameters for all its types,
and each signature in it binds its own.
-/
namespace ApiSurface

/-- The names that some type parameters bind. -/
def typeParamNames (params : List TypeParam) : List String := params.map (·.name.text)

namespace ClassMember

/-- The names that a member binds for its types. -/
def names (m : ClassMember) : List String :=
  match m.shape with
  | .method _ _ s _ | .constructor s _ => s.names
  | _ => []

/-- The types in a member, those of parameters that are properties also as such. -/
def parts (m : ClassMember) : List TypePart :=
  match m.shape with
  | .property _ _ (some t) _ => [.written t]
  | .property _ _ none initial => [.shown (inferProperty initial (m.hasModifier .readonly))]
  | .method _ _ s body => s.parts (s.inferReturn body (m.hasModifier .async))
  | .getter _ t _ => t.toList.map .written
  | .setter _ p => p.toList.map Param.part
  | .index params t => params.map Param.part ++ t.toList.map .written
  | .constructor s _ => s.parts none ++ s.params.map fun p => .shown p.infer
  | .unknown => []

end ClassMember

namespace Declaration

/-- The names that a declaration binds for all its types. -/
def names (d : Declaration) : List String :=
  match d.shape with
  | .typeAlias params _ | .interface params _ _ | .class params _ _ _ => typeParamNames params
  | _ => []

/-- The types in a declaration, each with the names that are bound for it. -/
def parts (d : Declaration) : List (List String × TypePart) :=
  match d.shape with
  | .function s body =>
    (s.parts (s.inferReturn body (d.modifiers.contains .async))).map (s.names, ·)
  | .variable kind t initial => [([], .shown (inferVariable kind t initial))]
  | .typeAlias params t => (typeParamParts params ++ [TypePart.written t]).map (d.names, ·)
  | .interface params bases ms =>
    (typeParamParts params ++ bases.map TypePart.written).map (d.names, ·) ++
      ms.flatMap fun m => m.parts.map (d.names ++ m.names, ·)
  | .class params base implemented ms =>
    (typeParamParts params ++ (base.toList ++ implemented).map TypePart.written).map (d.names, ·) ++
      ms.flatMap fun m => m.parts.map (d.names ++ m.names, ·)
  | .enum _ | .enumMember _ | .module .. => []

/-- All types in a declaration are well inferred, and no parameter of a constructor that is a
property mentions a type parameter of the constructor: it is described for the class as well, where
that is not known. -/
structure WellInferred (d : Declaration) : Prop where
  parts : ∀ names u, (names, u) ∈ d.parts → u.WellInferred {x | x ∈ names}
  properties : ∀ params base implemented ms, d.shape = .class params base implemented ms →
    ∀ m ∈ ms, ∀ s body, m.shape = .constructor s body → ∀ p ∈ s.params, p.isProperty = true →
      ∀ x ∈ s.names, (TypePart.shown p.infer).Mentions x → x ∈ d.names

end Declaration

namespace Describe

section

variable (by_ : Set String → Depth)

/-- The members of a class, each with its type parameters known. -/
def classPartsIn (known : Set String) (all : List ClassMember) : Describe ClassParts :=
  all.foldlM (fun c m => classPart (within by_ known m.names).type
    (within by_ known m.names).inferred all c m) .start

/-- Functions, with the type parameters of each signature known in it. -/
def functionsIn (ds : List Located) : Describe DocShape := do
  let declared := ds.filterMap fun d =>
    match d.declaration.shape with
    | .function s body => some (d, s, body)
    | _ => none
  let kept := overloads (fun (_, _, body) => body.isSome) declared
  let signatures ← kept.mapM fun (d, s, body) =>
    inDeclaration d.file d.index [] do
      let returned := s.inferReturn body (d.declaration.modifiers.contains .async)
      let inside := by_ {x | x ∈ s.names}
      signature inside.type inside.inferred s d.declaration.doc false returned
  return .function signatures

/-- An interface, with the type parameters of each declaration known in it. -/
def interfacesIn (ds : List Located) : Describe DocShape := do
  let (params, bases, members) ← ds.foldlM (fun (params, bases, members) d =>
    match d.declaration.shape with
    | .interface typeParameters extends_ ms =>
      inDeclaration d.file d.index [] do
        let known := {x | x ∈ d.declaration.names}
        let params ←
          if params.isEmpty then typeParams (by_ known).type typeParameters else pure params
        let bases := bases ++ (← extends_.mapM (by_ known).type)
        return (params, bases, members ++ (← membersIn by_ known ms))
    | _ => return (params, bases, members)) ([], [], [])
  return .interface params bases members

/-- What one declaration declares, with its type parameters known. -/
def singleIn (d : Located) : Describe DocShape :=
  let known := {x | x ∈ d.declaration.names}
  match d.declaration.shape with
  | .class typeParameters extends_ implements members =>
    inDeclaration d.file d.index [] do
      let params ← typeParams (by_ known).type typeParameters
      let base ← optional (by_ known).type extends_
      let implemented ← implements.mapM (by_ known).type
      let parts ← classPartsIn by_ known members
      return .class params base implemented parts.constructors parts.allMembers parts.hasPrivate
        (d.declaration.modifiers.contains .abstracted)
  | _ => single (by_ known) d

end

variable {names : List String} {by_ by' : Depth}

theorem parameterProperty_agrees (c : ClassParts) {q : Param}
    (h : q.isProperty = true → by_.AgreeOn names by' (.shown q.infer)) :
    Agrees (· = names) (parameterProperty by_.inferred c q)
      (parameterProperty by'.inferred c q) := by
  unfold parameterProperty
  cases hq : q.isProperty with
  | false => exact .pure c
  | true =>
    dsimp only [Bool.not_true]
    split
    · exact .pure c
    split
    · exact .pure _
    split
    · exact .pure c
    exact (h hq).inferred.bind fun t => .pure _

theorem classMember_agrees {all : List ClassMember} {m : ClassMember}
    (h : ∀ u ∈ m.parts, by_.AgreeOn (names ++ m.names) by' u) :
    Agrees (· = names) (classMember by_.type by_.inferred all m)
      (classMember by'.type by'.inferred all m) := by
  unfold classMember
  unfold ClassMember.parts ClassMember.names at h
  cases hm : m.shape with
  | property name optional t initial =>
    simp only [hm, List.append_nil] at h
    cases t with
    | some t =>
      exact (h (.written t) (by simp)).type.bind fun t => .pure _
    | none => exact (h _ (List.mem_singleton_self _)).inferred.bind fun t => .pure _
  | method name optional s body =>
    simp only [hm] at h
    dsimp only
    split
    · exact .pure none
    · exact (signature_agrees h).bind fun s => .pure _
  | getter name t body =>
    simp only [hm, List.append_nil, List.forall_mem_map] at h
    exact (typeOrAny_agrees h).bind fun t => .pure _
  | setter name q =>
    simp only [hm, List.append_nil, List.forall_mem_map] at h
    dsimp only
    split
    · exact .pure none
    · exact (setter_agrees h).bind fun t => .pure _
  | index params t =>
    simp only [hm, List.append_nil, List.forall_mem_append] at h
    obtain ⟨hkey, hvalue⟩ := h
    apply (indexKey_agrees hkey).bind
    intro key
    exact (typeOrAny_agrees (List.forall_mem_map.mp hvalue)).bind fun t => .pure _
  | constructor s body => exact .pure none
  | unknown => exact .pure none

theorem classPart_agrees {all : List ClassMember} (c : ClassParts) {m : ClassMember}
    (h : ∀ u ∈ m.parts, by_.AgreeOn (names ++ m.names) by' u)
    (hproperties : ∀ s body, m.shape = .constructor s body → ∀ p ∈ s.params,
      p.isProperty = true → by_.AgreeOn names by' (.shown p.infer)) :
    Agrees (· = names) (classPart by_.type by_.inferred all c m)
      (classPart by'.type by'.inferred all c m) := by
  unfold classPart
  split
  · exact .pure _
  cases hm : m.shape with
  | constructor s body =>
    have hproperty : Agrees (· = names) (s.params.foldlM (parameterProperty by_.inferred) c)
        (s.params.foldlM (parameterProperty by'.inferred) c) :=
      .foldlM (fun c p hp => parameterProperty_agrees c (hproperties s body hm p hp)) c
    apply hproperty.bind
    intro c
    split
    · exact .pure c
    have hnames : m.names = s.names := by simp [ClassMember.names, hm]
    have hparts : ∀ u ∈ s.parts none, by_.AgreeOn (names ++ s.names) by' u := fun u hu =>
      hnames ▸ h u (by simp [ClassMember.parts, hm, hu])
    exact (signature_agrees hparts).bind fun s => .pure _
  | property | method | getter | setter | index | unknown =>
    refine (classMember_agrees h).bind fun member => ?_
    cases member <;> exact .pure _

/-- What all declarations of a document are described by, at the level of their outermost types. -/
theorem ofLimit_agrees (limit : ℕ) {known : Set String} {u : TypePart}
    (h : u.Fits names known) :
    (Depth.ofLimit limit).AgreeOn names (lexical (limit + 1) known) u :=
  ofLevels_agrees (limit + 1) names known u h

theorem within_list (L : Set String → Depth) (names more : List String) :
    within L {x | x ∈ names} more = L {x | x ∈ names ++ more} := by
  simp only [within, List.mem_append]
  rfl

/-- What is well inferred with just its own names in scope is described in its lexical scope. -/
theorem part_agrees (limit : ℕ) {d : Declaration} (h : d.WellInferred) {names : List String}
    {u : TypePart} (hu : (names, u) ∈ d.parts) :
    (Depth.ofLimit limit).AgreeOn names (lexical (limit + 1) {x | x ∈ names}) u :=
  ofLimit_agrees limit (TypePart.fits_self (h.parts names u hu))

theorem mem_of_mem_overloads {α : Type} {hasBody : α → Bool} {items : List α} {x : α}
    (h : x ∈ overloads hasBody items) : x ∈ items := by
  unfold overloads at h
  split at h
  · exact h
  · exact List.mem_of_mem_filter h

theorem functions_agree (limit : ℕ) {ds : List Located}
    (h : ∀ d ∈ ds, d.declaration.WellInferred) :
    Agrees (fun _ => True) (functions (Depth.ofLimit limit) ds)
      (functionsIn (lexical (limit + 1)) ds) := by
  refine Agrees.bind (.mapM ?_) fun signatures => .pure _
  -- each signature that is kept is one of a declaration
  rintro ⟨d, s, body⟩ hkept
  obtain ⟨d', hd, hshape⟩ := List.mem_filterMap.mp (mem_of_mem_overloads hkept)
  split at hshape
  · next s' body' hs =>
    obtain ⟨rfl, rfl, rfl⟩ : d' = d ∧ s' = s ∧ body' = body := by simpa using hshape
    refine .inDeclaration d'.file d'.index [] (signature_agrees fun u hu => ?_)
    refine part_agrees limit (h d' hd) ?_
    simp only [Declaration.parts, hs]
    exact List.mem_map_of_mem hu
  · exact absurd hshape (by simp)

theorem interfaces_agree (limit : ℕ) {ds : List Located}
    (h : ∀ d ∈ ds, d.declaration.WellInferred) :
    Agrees (fun _ => True) (interfaces (Depth.ofLimit limit) ds)
      (interfacesIn (lexical (limit + 1)) ds) := by
  refine Agrees.bind (.foldlM ?_ _) fun i => .pure _
  rintro ⟨params, bases, members⟩ d hd
  have hpart {names : List String} {u : TypePart} (hu : (names, u) ∈ d.declaration.parts) :=
    part_agrees limit (h d hd) hu
  dsimp only
  cases hs : d.declaration.shape with
  | interface typeParameters extends_ ms =>
    have hnames : typeParameters.map (·.name.text) = d.declaration.names := by
      simp only [Declaration.names, hs, typeParamNames]
    simp only [Declaration.parts, hs] at hpart
    have hhead {u : TypePart}
        (hu : u ∈ typeParamParts typeParameters ++ extends_.map TypePart.written) :=
      hpart (List.mem_append_left _ (List.mem_map_of_mem hu))
    have hmembers : ∀ m ∈ ms, ∀ u ∈ m.parts,
        (Depth.ofLimit limit).AgreeOn (d.declaration.names ++ m.names)
          (within (lexical (limit + 1)) {x | x ∈ d.declaration.names} m.names) u := by
      intro m hm u hu
      rw [within_list]
      exact hpart (List.mem_append_right _
        (List.mem_flatMap.mpr ⟨m, hm, List.mem_map_of_mem hu⟩))
    have hrest (params : List DocTypeParam) : Agrees (· = d.declaration.names)
        (do
          let bases := bases ++ (← extends_.mapM (Depth.ofLimit limit).type)
          return (params, bases, members ++ (← Describe.members (Depth.ofLimit limit).type
            (Depth.ofLimit limit).inferred ms)))
        (do
          let bases := bases ++
            (← extends_.mapM (lexical (limit + 1) {x | x ∈ d.declaration.names}).type)
          return (params, bases, members ++ (← membersIn (lexical (limit + 1))
            {x | x ∈ d.declaration.names} ms))) := by
      apply (types_agree fun u hu =>
        hhead (List.mem_append_right _ (List.mem_map_of_mem hu))).bind
      intro more
      exact (members_agree hmembers).bind fun ms => .pure _
    dsimp only
    rw [hnames]
    apply Agrees.inDeclaration
    -- only the first declaration that has type parameters describes them
    split
    · exact (typeParams_agree fun u hu => hhead (List.mem_append_left _ hu)).bind hrest
    · exact (Agrees.pure params).bind hrest
  | _ => exact .pure _

theorem classParts_agree (limit : ℕ) {d : Declaration} (h : d.WellInferred)
    {params : List TypeParam} {base : Option TypeExpr} {implemented : List TypeExpr}
    {ms : List ClassMember} (hs : d.shape = .class params base implemented ms) :
    Agrees (· = d.names) (classParts (Depth.ofLimit limit).type (Depth.ofLimit limit).inferred ms)
      (classPartsIn (lexical (limit + 1)) {x | x ∈ d.names} ms) := by
  have hpart {m : ClassMember} (hm : m ∈ ms) {u : TypePart} (hu : u ∈ m.parts) :
      (d.names ++ m.names, u) ∈ d.parts := by
    simp only [Declaration.parts, hs]
    exact List.mem_append_right _ (List.mem_flatMap.mpr ⟨m, hm, List.mem_map_of_mem hu⟩)
  refine .foldlM (fun c m hm => classPart_agrees c (fun u hu => ?_)
    fun s body hshape q hq hproperty => ?_) _
  · rw [within_list]
    exact part_agrees limit h (hpart hm hu)
  · -- the property is described for the class, where the constructor's names are not in scope
    have hnames : m.names = s.names := by simp only [ClassMember.names, hshape]
    have hq' : .shown q.infer ∈ m.parts := by
      simp only [ClassMember.parts, hshape]
      exact List.mem_append_right _ (List.mem_map_of_mem hq)
    rw [within_list]
    refine ofLimit_agrees limit ⟨fun x hx => ?_, h.parts _ _ (hpart hm hq')⟩
    have hown := h.properties _ _ _ _ hs m hm s body hshape q hq hproperty x
    simp only [Set.mem_ofPred_eq, List.mem_append, hnames]
    exact ⟨Or.inl, fun hin => hin.elim id fun hin => hown hin hx⟩

theorem single_agrees (limit : ℕ) {d : Located} (h : d.declaration.WellInferred) :
    Agrees (fun _ => True) (single (Depth.ofLimit limit) d)
      (singleIn (lexical (limit + 1)) d) := by
  have hpart {names : List String} {u : TypePart} (hu : (names, u) ∈ d.declaration.parts) :=
    part_agrees limit h hu
  unfold singleIn
  cases hs : d.declaration.shape with
  | «variable» kind t initial =>
    have hnames : d.declaration.names = [] := by simp only [Declaration.names, hs]
    simp only [Declaration.parts, hs] at hpart
    simp only [single, hs, hnames]
    apply Agrees.inDeclaration
    exact (hpart (List.mem_singleton_self _)).inferred.bind fun t => .pure _
  | typeAlias typeParameters t =>
    have hnames : typeParameters.map (·.name.text) = d.declaration.names := by
      simp only [Declaration.names, hs, typeParamNames]
    simp only [Declaration.parts, hs] at hpart
    have hall {u : TypePart} (hu : u ∈ typeParamParts typeParameters ++ [TypePart.written t]) :=
      hpart (List.mem_map_of_mem hu)
    simp only [single, hs, hnames]
    apply Agrees.inDeclaration
    apply (typeParams_agree fun u hu => hall (List.mem_append_left _ hu)).bind
    intro params
    exact (hall (List.mem_append_right _ (List.mem_singleton_self _))).type.bind fun t => .pure _
  | «class» typeParameters extends_ implements members =>
    have hnames : typeParameters.map (·.name.text) = d.declaration.names := by
      simp only [Declaration.names, hs, typeParamNames]
    simp only [Declaration.parts, hs] at hpart
    have hhead {u : TypePart} (hu : u ∈ typeParamParts typeParameters ++
        (extends_.toList ++ implements).map TypePart.written) :=
      hpart (List.mem_append_left _ (List.mem_map_of_mem hu))
    have hheritage {t : TypeExpr} (ht : t ∈ extends_.toList ++ implements) :=
      hhead (List.mem_append_right _ (List.mem_map_of_mem ht))
    simp only [single, hs, hnames]
    apply Agrees.inDeclaration
    apply (typeParams_agree fun u hu => hhead (List.mem_append_left _ hu)).bind
    intro params
    apply (Agrees.optional fun u hu => (hheritage (List.mem_append_left _ hu)).type).bind
    intro base
    apply (types_agree fun u hu => hheritage (List.mem_append_right _ hu)).bind
    intro implemented
    exact (classParts_agree limit h hs).bind fun parts => .pure _
  | _ =>
    simp only [single, hs]
    exact .pure _

theorem exists_of_bind_runAt {α β : Type} {x : Describe α} {f : α → Describe β} {ctx : Context}
    {d : Describing} {b : β} (h : ((x >>= f).runAt ctx d).1 = .ok b) :
    ∃ a d', ((f a).runAt ctx d').1 = .ok b := by
  rw [runAt_bind] at h
  rcases hx : x.runAt ctx d with ⟨r, d'⟩
  rw [hx] at h
  cases r with
  | ok a => exact ⟨a, d', h⟩
  | error e => exact absurd h (by simp)

theorem freeReference_ne (type : TypeExpr → Describe DocType) (name : EntityName)
    (args : List TypeExpr) (ctx : Context) (d : Describing) (x : String) :
    ((freeReference type name args).runAt ctx d).1 ≠ .ok (.typeParameter x) := by
  have hnamed (d : Describing) : (Describe.runAt (do
      let id ← entity name.texts
      return DocType.reference id name.text (← args.mapM type)) ctx d).1 ≠
        .ok (.typeParameter x) := by
    intro h
    obtain ⟨id, d', h⟩ := exists_of_bind_runAt h
    obtain ⟨args, d'', h⟩ := exists_of_bind_runAt h
    exact absurd (Except.ok.inj h) (by simp)
  intro h
  unfold freeReference at h
  split at h
  · next item =>
    obtain ⟨kind, d', h⟩ := exists_of_bind_runAt h
    cases kind with
    | none => exact hnamed d' h
    | some readonly =>
      obtain ⟨t, d'', h⟩ := exists_of_bind_runAt h
      exact absurd (Except.ok.inj h) (by simp)
  · exact hnamed d h

/-- In its lexical scope a name is described as that of a type parameter just if it is simple and
known. -/
theorem typeParameter_iff (n : ℕ) (known : Set String) (span : Span) (name : EntityName)
    (args : List TypeExpr) (ctx : Context) (d : Describing) :
    (∃ x, (((lexical (n + 1) known).type ⟨span, .reference name args⟩).runAt ctx d).1 =
      .ok (.typeParameter x)) ↔ name.isSimple = true ∧ name.head.text ∈ known := by
  have hrule : (lexical (n + 1) known).type ⟨span, .reference name args⟩ =
      open Classical in
      if name.isSimple = true ∧ name.head.text ∈ known then return .typeParameter name.head.text
      else freeReference (lexical n known).type name args := rfl
  rw [hrule]
  by_cases hname : name.isSimple = true ∧ name.head.text ∈ known
  · rw [if_pos hname]
    exact iff_of_true ⟨_, rfl⟩ hname
  · rw [if_neg hname]
    refine iff_of_false ?_ hname
    rintro ⟨x, hx⟩
    exact freeReference_ne _ _ _ ctx d x hx

/-- A type by a simple name. -/
def typeNamed (name : String) : TypeExpr := ⟨default, .reference (.ofIdent ⟨name, default⟩) []⟩

/-- The type `infer U`. -/
def inferU : TypeExpr := ⟨default, .infer ⟨"U", default⟩ none⟩

/-- The tuple type `[infer U, ...]` with more elements behind the first. -/
def inferredTuple (more : List TypeExpr) : TypeExpr :=
  ⟨default, .tuple ((inferU :: more).map fun t => ⟨default, none, false, false, t⟩)⟩

/-- The conditional type `T extends [infer U, ...] ? U : T`. -/
def firstOfTuple (more : List TypeExpr) : TypeExpr :=
  ⟨default, .conditional (typeNamed "T") (inferredTuple more) (some (typeNamed "U"))
    (some (typeNamed "T"))⟩

/-- The declaration `type First<T> = T extends [infer U, ...] ? U : T`. -/
def firstAlias (more : List TypeExpr) : Located :=
  ⟨0, 0, ⟨⟨"First", default⟩, default, [], none,
    .typeAlias [⟨⟨"T", default⟩, none, none⟩] (firstOfTuple more), none⟩⟩

theorem parts_typeNamed (name : String) : (TypePart.written (typeNamed name)).parts = [] := rfl

theorem parts_inferU : (TypePart.written inferU).parts = [] := rfl

theorem parts_inferredTuple (more : List TypeExpr) :
    (TypePart.written (inferredTuple more)).parts =
      partsUnder [] ((inferU :: more).map TypePart.written) := by
  simp [TypePart.parts, TypeExpr.parts, inferredTuple, Function.comp_def]

theorem parts_firstOfTuple (more : List TypeExpr) : (TypePart.written (firstOfTuple more)).parts =
    [(.clause, .written (inferredTuple more)),
      (.outcome (inferredTuple more), .written (typeNamed "U")),
      (.under [], .written (typeNamed "T")), (.under [], .written (typeNamed "T"))] := rfl

theorem infers_inferredTuple (more : List TypeExpr) :
    (TypePart.written (inferredTuple more)).Infers "U" :=
  .inside (by rw [parts_inferredTuple]; exact List.mem_cons_self) (by simp) (.here rfl rfl)

theorem mentions_typeNamed {x name : String} (h : (TypePart.written (typeNamed name)).Mentions x) :
    x = name := by
  cases h with
  | here hshape hsimple htext => cases hshape; exact htext.symm
  | inside hpart => simp [parts_typeNamed] at hpart

/-- The tuple type `[infer U]` mentions nothing. -/
theorem not_mentions_inferredTuple {x : String} :
    ¬ (TypePart.written (inferredTuple [])).Mentions x := by
  intro h
  cases h with
  | here hshape => cases hshape
  | inside hpart hx hinside =>
    rw [parts_inferredTuple] at hpart
    obtain ⟨rfl, rfl⟩ : _ = Position.under [] ∧ _ = TypePart.written inferU := by
      simpa [partsUnder] using hpart
    cases hinside with
    | here hshape => cases hshape
    | inside hpart => simp [parts_inferU] at hpart

theorem wellInferred_firstOfTuple :
    (TypePart.written (firstOfTuple [])).WellInferred {x | x ∈ ["T"]} := by
  have hname (known : Set String) (name : String) :
      (TypePart.written (typeNamed name)).WellInferred known :=
    .of_parts (by simp [parts_typeNamed]) (by rintro _ _ _ _ _ ⟨⟩ ⟨⟩)
  have hinfer (known : Set String) : (TypePart.written inferU).WellInferred known :=
    .of_parts (by simp [parts_inferU]) (by rintro _ _ _ _ _ ⟨⟩ ⟨⟩)
  have htuple (known : Set String) : (TypePart.written (inferredTuple [])).WellInferred known :=
    .of_parts (by simp [parts_inferredTuple, partsUnder, hinfer]) (by rintro _ _ _ _ _ ⟨⟩ ⟨⟩)
  have hnames : (inferredTuple []).inferredNames = ["U"] := by decide +kernel
  intro known' t check bound whenTrue whenFalse hinside hshape
  cases hinside with
  | here =>
    cases hshape
    refine ⟨fun x _ hx => absurd hx not_mentions_inferredTuple, fun x hx => ?_⟩
    obtain rfl := mentions_typeNamed hx
    rw [hnames]
    exact ⟨fun _ => List.mem_singleton_self _, fun _ => Or.inl (infers_inferredTuple [])⟩
  | part hpart hinside =>
    have hwell : ∀ p ∈ (TypePart.written (firstOfTuple [])).parts,
        p.2.WellInferred ({x | x ∈ ["T"]} ∪ p.1.names) := by
      simp [parts_firstOfTuple, hname, htuple]
    exact hwell _ hpart _ _ _ _ _ _ hinside hshape

theorem wellInferred_firstAlias : (firstAlias []).declaration.WellInferred where
  parts names u hu := by
    obtain ⟨rfl, rfl⟩ : names = ["T"] ∧ u = .written (firstOfTuple []) := by
      simpa [Declaration.parts, Declaration.names, firstAlias, typeParamParts, typeParamNames]
        using hu
    exact wellInferred_firstOfTuple
  properties := by rintro _ _ _ _ ⟨⟩

theorem lexical_known {n : ℕ} {known : Set String} {x : String} (h : x ∈ known) :
    (lexical (n + 1) known).type (typeNamed x) = return .typeParameter x :=
  if_pos ⟨rfl, h⟩

theorem lexical_free {n : ℕ} {known : Set String} {x : String} (h : x ∉ known) :
    (lexical (n + 1) known).type (typeNamed x) =
      freeReference (lexical n known).type (.ofIdent ⟨x, default⟩) [] :=
  if_neg fun hn => h hn.2

/-- In an extends clause that mentions what it infers, the name means what it means outside. -/
theorem lexical_inferredTuple {known : Set String} (h : "U" ∉ known) :
    (lexical 2 known).type (inferredTuple [typeNamed "U"]) = do
      let t ← freeReference (lexical 0 known).type (.ofIdent ⟨"U", default⟩) []
      return .tuple false [.mk .required none (.infer "U" none), .mk .required none t] := by
  have hinfer : (lexical 1 known).type inferU = return .infer "U" none := rfl
  have hlevel (items : List TupleItem) : (lexical 2 known).type ⟨default, .tuple items⟩ = do
      return .tuple false (← items.mapM (tupleItem (lexical 1 known).type)) := rfl
  have hitem (t : TypeExpr) : tupleItem (lexical 1 known).type ⟨default, none, false, false, t⟩ =
      do return .mk .required none (← (lexical 1 known).type t) := rfl
  simp only [inferredTuple, hlevel, List.map_cons, List.map_nil, List.mapM_cons, List.mapM_nil,
    hitem, hinfer, lexical_free h, pure_bind, bind_assoc]

/-- Types are described in their lexical scopes, as far as they are well inferred: a simple name is
described as that of a type parameter just if its lexical scope has it, and any other name means
what it means in the scope of the declaration. So are functions, interfaces, classes, type aliases
and variables, whose types know the type parameters of their declaration and of the signature that
they stand in. -/
theorem described_in_lexical_scope (limit : ℕ) :
    (∀ n names t, (TypePart.written t).WellInferred {x | x ∈ names} →
      Agrees (· = names) (typeWithin n t) ((lexical n {x | x ∈ names}).type t)) ∧
    (∀ ds, (∀ d ∈ ds, d.declaration.WellInferred) →
      Agrees (fun _ => True) (functions (Depth.ofLimit limit) ds)
        (functionsIn (lexical (limit + 1)) ds) ∧
      Agrees (fun _ => True) (interfaces (Depth.ofLimit limit) ds)
        (interfacesIn (lexical (limit + 1)) ds)) ∧
    (∀ d, d.declaration.WellInferred →
      Agrees (fun _ => True) (single (Depth.ofLimit limit) d)
        (singleIn (lexical (limit + 1)) d)) ∧
    ∀ n known span name args ctx d,
      (∃ x, (((lexical (n + 1) known).type ⟨span, .reference name args⟩).runAt ctx d).1 =
        .ok (.typeParameter x)) ↔ name.isSimple = true ∧ name.head.text ∈ known :=
  ⟨fun n names t h => ofLevels_agrees n names _ (.written t) (TypePart.fits_self h),
    fun _ h => ⟨functions_agree limit h, interfaces_agree limit h⟩,
    fun _ h => single_agrees limit h, typeParameter_iff⟩

/-- What the first element of a tuple is inferred as is known in the first outcome. -/
theorem first_of_tuple_in_scope :
    (TypePart.written (firstOfTuple [])).WellInferred {x | x ∈ ["T"]} ∧
      Agrees (· = ["T"]) (typeWithin 3 (firstOfTuple []))
        ((lexical 3 {x | x ∈ ["T"]}).type (firstOfTuple [])) ∧
    (firstAlias []).declaration.WellInferred ∧
      Agrees (fun _ => True) (functions (Depth.ofLimit 20) [firstAlias []])
        (functionsIn (lexical 21) [firstAlias []]) ∧
      Agrees (fun _ => True) (single (Depth.ofLimit 20) (firstAlias []))
        (singleIn (lexical 21) (firstAlias [])) := by
  obtain ⟨htypes, hmerged, hsingle, -⟩ := described_in_lexical_scope 20
  obtain ⟨hfunctions, -⟩ := hmerged [firstAlias []] (by simpa using wellInferred_firstAlias)
  exact ⟨wellInferred_firstOfTuple, htypes 3 ["T"] (firstOfTuple []) wellInferred_firstOfTuple,
    wellInferred_firstAlias, hfunctions, hsingle (firstAlias []) wellInferred_firstAlias⟩

/-- Whether the second element of a tuple in an extends clause is described as a type parameter. -/
def knowsSecond : Except DescribeError DocType → Bool
  | .ok (.conditional _ (.tuple _ [_, .mk _ _ (.typeParameter _)]) _ _) => true
  | _ => false

/-- A name that an extends clause infers is taken for a type parameter also in the clause itself. -/
theorem inferred_name_in_clause : ¬ ∀ n names t,
    Agrees (· = names) (typeWithin n t) ((lexical n {x | x ∈ names}).type t) := by
  intro hclaim
  let known : Set String := {x | x ∈ ["T"]}
  have hT : "T" ∈ known := by simp [known]
  have hU : "U" ∉ known := by simp [known]
  have hinside : "U" ∈
      known ∪ {x | TypePart.Infers x (.written (inferredTuple [typeNamed "U"]))} :=
    Or.inr (infers_inferredTuple _)
  have hlevel : (lexical 3 known).type (firstOfTuple [typeNamed "U"]) =
      conditionalIn (lexical 2 known).type (lexical 2 (known ∪ {x | TypePart.Infers x
        (.written (inferredTuple [typeNamed "U"]))})).type default (typeNamed "T")
        (inferredTuple [typeNamed "U"]) (some (typeNamed "U")) (some (typeNamed "T")) := rfl
  obtain ⟨hresult, -, -⟩ := hclaim 3 ["T"] (firstOfTuple [typeNamed "U"]) default
    ⟨default, ["T"]⟩ ⟨default, ["T"]⟩ rfl rfl
  rw [hlevel] at hresult
  -- the second element of the clause is a free name on this side, a type parameter on the other
  simp only [conditionalIn, branch, pure_bind, lexical_known hT, lexical_known hinside,
    lexical_inferredTuple hU] at hresult
  exact absurd (congrArg knowsSecond hresult) (by decide +kernel)

end Describe

end ApiSurface
