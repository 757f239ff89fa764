import ApiSurface.Proofs.DescribedSymbols
import ApiSurface.Proofs.ToldTypes
/-!
A described symbol names all that was mentioned while it was described, if its description did not
fail: the members of a class, all that a module exports, the members of an enum. What a namespace
exports that is described as something else is mentioned as well.
-/
namespace ApiSurface

namespace Describe

variable {p : Program} {owed : Set SymbolId}
variable {type : TypeExpr → Describe DocType} {inferred : InferredType → Describe DocType}

theorem parameterProperty_telling (hinferred : TellAll p inferred DocType.ids) (c : ClassParts)
    (q : Param) :
    Telling p (told owed ClassParts.ids c) (parameterProperty inferred c q)
      (told owed ClassParts.ids) := by
  unfold parameterProperty
  split
  · exact .pure Set.Subset.rfl
  split
  · exact .pure Set.Subset.rfl
  split
  · exact .pure Set.Subset.rfl
  next hnew =>
  -- no property of that name is there, so none is replaced
  have hinsert (m : DocClassMember) :
      c.parameters.insert q.name.text m = c.parameters ++ [(q.name.text, m)] :=
    Table.insert_of_not_mem fun hkey => hnew (Table.has_iff.mpr hkey)
  apply (hinferred _ q.infer).bind
  intro t
  refine .pure fun id hid => ?_
  have hproperty (hid : id ∈ t.ids) : id ∈ (t.ofProperty q.optional).ids :=
    DocType.ids_subset_ofProperty q.optional hid
  simp only [mem_told, ClassParts.mem_ids, hinsert, List.mem_append, List.mem_singleton] at hid ⊢
  rcases hid with (hid | hs | ⟨entry, hentry, hid⟩ | hm) | hid
  · exact Or.inl hid
  · exact Or.inr (Or.inl hs)
  · exact Or.inr (Or.inr (Or.inl ⟨entry, Or.inl hentry, hid⟩))
  · exact Or.inr (Or.inr (Or.inr hm))
  · exact Or.inr (Or.inr (Or.inl ⟨_, Or.inr rfl, hproperty hid⟩))

theorem classMember_telling (htype : TellAll p type DocType.ids)
    (hinferred : TellAll p inferred DocType.ids) (all : List ClassMember) (m : ClassMember) :
    Telling p owed (classMember type inferred all m) (told owed memberIds?) := by
  unfold classMember
  cases m.shape with
  | property name optional t initial =>
    have hproperty (t : DocType) : Telling p (told owed DocType.ids t)
        (return some (.property name.text m.doc optional (m.hasModifier .readonly)
          (t.ofProperty optional)) : Describe (Option DocMember)) (told owed memberIds?) :=
      .pure (told_subset (subset_told _ _ _) fun id hid =>
        Or.inr (DocType.ids_subset_ofProperty optional hid))
    cases t with
    | none => exact (hinferred _ _).bind hproperty
    | some t => exact (htype _ t).bind hproperty
  | method name optional s body =>
    dsimp only
    split
    · exact .pure (subset_told _ _ _)
    · exact (signature_telling htype hinferred _ _ _ _).wrap fun _ => rfl
  | getter name t body =>
    exact (typeOrAny_telling htype t).wrap fun _ => rfl
  | setter name q =>
    dsimp only
    split
    · exact .pure (subset_told _ _ _)
    · exact (typeOrAny_telling htype _).wrap fun _ => rfl
  | index params t =>
    apply (indexKey_telling htype params).bind
    intro key
    apply (typeOrAny_telling htype t).bind
    intro t
    refine .pure fun id hid => ?_
    simp only [mem_told, memberIds?, Option.elim, DocMember.ids, List.mem_append] at hid ⊢
    tauto
  | constructor | unknown => exact .pure (subset_told _ _ _)

theorem shownMember_telling (htype : TellAll p type DocType.ids)
    (hinferred : TellAll p inferred DocType.ids) (all : List ClassMember) (c : ClassParts)
    (m : ClassMember) :
    Telling p (told owed ClassParts.ids c) (do
      match ← classMember type inferred all m with
      | none => return c
      | some member =>
        let member : DocClassMember :=
          { member, isStatic := m.hasModifier .static, isProtected := m.hasModifier .protectedAccess
            isAbstract := m.hasModifier .abstracted }
        return { c with members := c.members ++ [member] }) (told owed ClassParts.ids) := by
  apply (classMember_telling htype hinferred all m).bind
  intro member
  cases member with
  | none => exact .pure (told_subset Set.Subset.rfl fun id hid => absurd hid List.not_mem_nil)
  | some member =>
    refine .pure fun id hid => ?_
    simp only [mem_told, ClassParts.mem_ids, memberIds?, Option.elim, List.mem_append,
      List.mem_singleton] at hid ⊢
    rcases hid with (hid | hs | hp | ⟨n, hn, hid⟩) | hid
    · exact Or.inl hid
    · exact Or.inr (Or.inl hs)
    · exact Or.inr (Or.inr (Or.inl hp))
    · exact Or.inr (Or.inr (Or.inr ⟨n, Or.inl hn, hid⟩))
    · exact Or.inr (Or.inr (Or.inr ⟨_, Or.inr rfl, hid⟩))

theorem classPart_telling (htype : TellAll p type DocType.ids)
    (hinferred : TellAll p inferred DocType.ids) (all : List ClassMember) (c : ClassParts)
    (m : ClassMember) :
    Telling p (told owed ClassParts.ids c) (classPart type inferred all c m)
      (told owed ClassParts.ids) := by
  unfold classPart
  split
  · exact .pure Set.Subset.rfl
  cases m.shape with
  | constructor s body =>
    apply (Telling.foldlM fun c q => parameterProperty_telling hinferred c q).bind
    intro c
    split
    · exact .pure Set.Subset.rfl
    apply (signature_telling htype hinferred s m.doc true none).bind
    intro s
    refine .pure fun id hid => ?_
    simp only [mem_told, ClassParts.mem_ids, List.mem_append, List.mem_singleton] at hid ⊢
    rcases hid with (hid | ⟨t, ht, hid⟩ | hrest) | hid
    · exact Or.inl hid
    · exact Or.inr (Or.inl ⟨t, Or.inl ht, hid⟩)
    · exact Or.inr (Or.inr hrest)
    · exact Or.inr (Or.inl ⟨s, Or.inr rfl, hid⟩)
  | property | method | getter | setter | index | unknown =>
    exact shownMember_telling htype hinferred all c m

theorem classParts_telling (htype : TellAll p type DocType.ids)
    (hinferred : TellAll p inferred DocType.ids) (all : List ClassMember) :
    Telling p (told owed ClassParts.ids .start) (classParts type inferred all)
      (told owed ClassParts.ids) :=
  .foldlM fun c m => classPart_telling htype hinferred all c m

/-- Ways of describing types that tell all. -/
structure Depth.Telling (p : Program) (by_ : Depth) : Prop where
  type : TellAll p by_.type DocType.ids
  inferred : TellAll p by_.inferred DocType.ids

theorem ofLimit_telling (limit : ℕ) : (Depth.ofLimit limit).Telling p :=
  ⟨(typeWithin_telling _).1, (typeWithin_telling _).2⟩

variable {by_ : Depth}

theorem functions_telling (h : by_.Telling p) (ds : List Located) :
    Telling p owed (functions by_ ds) (told owed DocShape.ids) := by
  refine Telling.wrap (Telling.mapM fun owed d =>
    (?_ : Telling p owed _ (told owed DocSignature.ids))) fun signatures => rfl
  exact .inDeclaration (signature_telling h.type h.inferred _ _ _ _)

theorem interfaces_telling (h : by_.Telling p) (ds : List Located) :
    Telling p owed (interfaces by_ ds) (told owed DocShape.ids) := by
  have hstart : owed ⊆ told owed interfaceIds ([], [], []) := subset_told _ _ _
  refine Telling.wrap (Telling.weaken hstart (Telling.foldlM fun i d =>
    (?_ : Telling p _ _ (told owed interfaceIds)))) fun i => rfl
  obtain ⟨params, bases, members⟩ := i
  dsimp only
  split
  · next typeParameters extends_ ms _ =>
    apply Telling.inDeclaration
    -- the type parameters are those of this declaration or those that are known already
    have hrest (shown : List DocTypeParam) :
        Telling p (told (told owed interfaceIds ([], bases, members))
            (fun ps => ps.flatMap DocTypeParam.ids) shown) (do
          let bases := bases ++ (← extends_.mapM by_.type)
          return (shown, bases, members ++ (← Describe.members by_.type by_.inferred ms)))
          (told owed interfaceIds) := by
      apply (types_telling h.type extends_).bind
      intro more
      apply (members_telling h.type h.inferred ms).bind
      intro declared
      refine .pure fun id hid => ?_
      simp only [mem_told, interfaceIds, List.flatMap_append, List.flatMap_nil, List.mem_append,
        List.not_mem_nil] at hid ⊢
      tauto
    split
    · next hnone =>
      obtain rfl : params = [] := List.isEmpty_iff.mp hnone
      exact (typeParams_telling h.type typeParameters).bind hrest
    · refine (Telling.pure ?_).bind hrest
      intro id hid
      simp only [mem_told, interfaceIds, List.flatMap_nil, List.mem_append,
        List.not_mem_nil] at hid ⊢
      tauto
  · exact .pure Set.Subset.rfl

theorem single_telling (h : by_.Telling p) (d : Located) :
    Telling p owed (single by_ d) (told owed DocShape.ids) := by
  unfold single
  cases d.declaration.shape with
  | «variable» kind t initial =>
    apply Telling.inDeclaration
    exact (h.inferred _ _).wrap fun _ => rfl
  | typeAlias typeParameters t =>
    apply Telling.inDeclaration
    apply (typeParams_telling h.type typeParameters).bind
    intro params
    apply (h.type _ t).bind
    intro t
    refine .pure fun id hid => ?_
    simp only [mem_told, DocShape.ids, List.mem_append] at hid ⊢
    tauto
  | «class» typeParameters extends_ implements members =>
    apply Telling.inDeclaration
    apply (typeParams_telling h.type typeParameters).bind
    intro params
    apply (optionalType_telling h.type extends_).bind
    intro base
    apply (types_telling h.type implements).bind
    intro implemented
    apply (Telling.weaken (subset_told _ _ _)
      (classParts_telling h.type h.inferred members)).bind
    intro parts
    refine .pure fun id hid => ?_
    simp only [mem_told, DocShape.ids, ClassParts.ids, List.mem_append] at hid ⊢
    tauto
  | function | interface | «enum» | enumMember | module => exact .pure (subset_told _ _ _)

theorem enums_telling (ds : List Located) :
    Telling p owed (enums ds) (told owed DocShape.ids) := by
  refine Telling.bind (Telling.filterMapM fun owed site => (.walking ?_ : Telling p owed _
    (told owed fun found : Option SymbolId => found.elim [] fun id => [id]))) ?_
  · cases p.symbolOf.get? site with
    | none => exact .pure (subset_told _ _ _)
    | some s =>
      exact (Walk.refer_telling (.symbol s)).bind fun id => .pure Set.Subset.rfl
  · intro ids
    refine .pure (told_subset (subset_told _ _ _) fun id hid => Or.inr ?_)
    obtain ⟨other, hother, hid⟩ := List.mem_flatMap.mp hid
    obtain rfl := List.mem_singleton.mp hid
    exact List.mem_eraseDups.mpr hother

theorem exported_telling (s : SymbolIndex) :
    Telling p owed (exported s) (told owed DocShape.ids) := by
  apply (Telling.walking (Walk.Telling.ask (Program.exportsOf_within s))).bind
  intro table
  refine Telling.wrap (Telling.mapM fun owed entry => (?_ : Telling p owed _
    (told owed fun entry : String × SymbolId => [entry.2]))) fun exports => ?_
  · exact (Telling.walking (Walk.refer_telling entry.2)).wrap fun _ => rfl
  · exact List.map_eq_flatMap

end Describe

namespace Walk

variable {p : Program} {owed : Set SymbolId}

theorem describing_telling {α : Type} {names : α → Set SymbolId} {step : Describe α}
    (h : Describe.Telling p owed step names) :
    Telling owed (describing p step) (Describe.resultNames names) :=
  fun first w hw => h first ⟨p, default⟩ ⟨w, []⟩ rfl hw

theorem shape_telling (limit : ℕ) (s : SymbolIndex) (kind : SymbolKind) (ds : List Located) :
    Telling owed (shape p limit s kind ds)
      (Describe.resultNames (told owed fun r => r.2.ids)) := by
  have hdepth : (Describe.Depth.ofLimit limit).Telling p := Describe.ofLimit_telling limit
  have hother : Describe.Telling p owed (ds.head?.elim (return Describe.undeclared kind)
      (Describe.single (Describe.Depth.ofLimit limit))) (told owed DocShape.ids) := by
    cases ds.head? with
    | none => exact .pure (subset_told _ _ _)
    | some d => exact Describe.single_telling hdepth d
  refine Telling.bind
    (describing_telling (?_ : Describe.Telling p owed _ (told owed DocShape.ids))) ?_
  · cases kind with
    | function => exact Describe.functions_telling hdepth ds
    | interface => exact Describe.interfaces_telling hdepth ds
    | «enum» => exact Describe.enums_telling ds
    | nameSpace => exact Describe.exported_telling s
    | enumMember => exact .pure (subset_told _ _ _)
    | «variable» | typeAlias | classType | ambientModule | sourceFile | importAlias => exact hother
  · intro r
    refine .pure ?_
    cases r <;> exact Set.Subset.rfl

end Walk

end ApiSurface
