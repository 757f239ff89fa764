import ApiSurface.Extraction.Symbols
import ApiSurface.Proofs.DescribedTypes
/-!
Every name in a described symbol is noted: the members of a class, all that a module exports, the
members of an enum, and also what is only mentioned because a symbol is a namespace as well.
-/
namespace ApiSurface

/-- The names in what is known of a class. -/
def ClassParts.ids (c : ClassParts) : List SymbolId :=
  c.constructors.flatMap DocSignature.ids ++ c.allMembers.flatMap DocClassMember.ids

theorem ClassParts.mem_ids {c : ClassParts} {id : SymbolId} :
    id ∈ c.ids ↔ (∃ s ∈ c.constructors, id ∈ s.ids) ∨ (∃ entry ∈ c.parameters, id ∈ entry.2.ids) ∨
      ∃ m ∈ c.members, id ∈ m.ids := by
  simp only [ids, allMembers, List.flatMap_append, List.flatMap_map, List.mem_append,
    List.mem_flatMap]

namespace Describe

variable {p : Program} {known : List SymbolId}
variable {type : TypeExpr → Describe DocType} {inferred : InferredType → Describe DocType}

theorem parameterProperty_noting (hinferred : NotesAll p inferred DocType.ids) (c : ClassParts)
    (q : Param) (hc : c.ids ⊆ known) :
    Noting p known (parameterProperty inferred c q) ClassParts.ids := by
  unfold parameterProperty
  split
  · exact .pure hc
  split
  · exact .pure hc
  split
  · exact .pure hc
  apply (hinferred known q.infer).bind
  intro t
  refine .pure fun id hid => ?_
  rcases ClassParts.mem_ids.mp hid with hs | ⟨entry, hentry, hid⟩ | hm
  · exact List.mem_append_right _ (hc (ClassParts.mem_ids.mpr (Or.inl hs)))
  · -- the property just described, or one that was there
    rcases Table.mem_of_mem_insert hentry with rfl | hentry
    · exact List.mem_append_left _ (DocType.ids_ofProperty hid)
    · have hold := ClassParts.mem_ids.mpr (Or.inr (Or.inl ⟨entry, hentry, hid⟩))
      exact List.mem_append_right _ (hc hold)
  · exact List.mem_append_right _ (hc (ClassParts.mem_ids.mpr (Or.inr (Or.inr hm))))

theorem classMember_noting (htype : NotesAll p type DocType.ids)
    (hinferred : NotesAll p inferred DocType.ids) (all : List ClassMember) (m : ClassMember) :
    Noting p known (classMember type inferred all m) memberIds? := by
  unfold classMember
  cases m.shape with
  | property name optional t initial =>
    have hproperty (known : List SymbolId) (t : DocType) : Noting p (t.ids ++ known)
        (return some (.property name.text m.doc optional (m.hasModifier .readonly)
          (t.ofProperty optional)) : Describe (Option DocMember)) memberIds? :=
      .pure fun id hid => List.mem_append_left _ (DocType.ids_ofProperty hid)
    cases t with
    | none => exact (hinferred _ _).bind (hproperty _)
    | some t => exact (htype _ t).bind (hproperty _)
  | method name optional s body =>
    dsimp only
    split
    · exact .pure (List.nil_subset _)
    · exact (signature_noting htype hinferred _ _ _ _).wrap fun _ => rfl
  | getter name t body =>
    exact (typeOrAny_noting htype t).wrap fun _ => rfl
  | setter name q =>
    dsimp only
    split
    · exact .pure (List.nil_subset _)
    · exact (typeOrAny_noting htype _).wrap fun _ => rfl
  | index params t =>
    apply (indexKey_noting htype params).bind
    intro key
    apply (typeOrAny_noting htype t).bind
    intro t
    refine .pure fun id hid => ?_
    simp only [memberIds?, Option.elim, DocMember.ids, List.mem_append] at hid ⊢
    tauto
  | constructor | unknown => exact .pure (List.nil_subset _)

/-- What is known of a class after a member that is shown among the members, if it is. -/
theorem shownMember_noting (htype : NotesAll p type DocType.ids)
    (hinferred : NotesAll p inferred DocType.ids) (all : List ClassMember) (c : ClassParts)
    (m : ClassMember) (hc : c.ids ⊆ known) :
    Noting p known (do
      match ← classMember type inferred all m with
      | none => return c
      | some member =>
        let member : DocClassMember :=
          { member, isStatic := m.hasModifier .static, isProtected := m.hasModifier .protectedAccess
            isAbstract := m.hasModifier .abstracted }
        return { c with members := c.members ++ [member] }) ClassParts.ids := by
  apply (classMember_noting htype hinferred all m).bind
  intro member
  cases member with
  | none => exact .pure (List.Subset.trans hc (List.subset_append_right _ _))
  | some member =>
    refine .pure fun id hid => ?_
    rcases ClassParts.mem_ids.mp hid with hs | hp | ⟨n, hn, hid⟩
    · exact List.mem_append_right _ (hc (ClassParts.mem_ids.mpr (Or.inl hs)))
    · exact List.mem_append_right _ (hc (ClassParts.mem_ids.mpr (Or.inr (Or.inl hp))))
    · rcases List.mem_append.mp hn with hn | hn
      · have hold := ClassParts.mem_ids.mpr (Or.inr (Or.inr ⟨n, hn, hid⟩))
        exact List.mem_append_right _ (hc hold)
      · obtain rfl := List.mem_singleton.mp hn
        exact List.mem_append_left _ hid

theorem classPart_noting (htype : NotesAll p type DocType.ids)
    (hinferred : NotesAll p inferred DocType.ids) (all : List ClassMember) (c : ClassParts)
    (m : ClassMember) (hc : c.ids ⊆ known) :
    Noting p known (classPart type inferred all c m) ClassParts.ids := by
  unfold classPart
  split
  · exact .pure hc
  cases m.shape with
  | constructor s body =>
    apply (Noting.foldlM (fun known c q hc => parameterProperty_noting hinferred c q hc) hc).bind
    intro c
    split
    · exact .pure (List.subset_append_left _ _)
    apply (signature_noting htype hinferred s m.doc true none).bind
    intro s
    refine .pure fun id hid => ?_
    have hold (h : id ∈ c.ids) : id ∈ s.ids ++ (c.ids ++ known) :=
      List.mem_append_right _ (List.mem_append_left _ h)
    rcases ClassParts.mem_ids.mp hid with ⟨t, ht, hid⟩ | hrest
    · rcases List.mem_append.mp ht with ht | ht
      · exact hold (ClassParts.mem_ids.mpr (Or.inl ⟨t, ht, hid⟩))
      · have heq : t = s := List.mem_singleton.mp ht
        exact List.mem_append_left _ (heq ▸ hid)
    · exact hold (ClassParts.mem_ids.mpr (Or.inr hrest))
  | property | method | getter | setter | index | unknown =>
    exact shownMember_noting htype hinferred all c m hc

theorem classParts_noting (htype : NotesAll p type DocType.ids)
    (hinferred : NotesAll p inferred DocType.ids) (all : List ClassMember) :
    Noting p known (classParts type inferred all) ClassParts.ids :=
  .foldlM (fun _ c m hc => classPart_noting htype hinferred all c m hc) (List.nil_subset _)

/-- Ways of describing types that note all names in the types. -/
structure Depth.Noting (p : Program) (by_ : Depth) : Prop where
  type : NotesAll p by_.type DocType.ids
  inferred : NotesAll p by_.inferred DocType.ids

theorem ofLimit_noting (limit : ℕ) : (Depth.ofLimit limit).Noting p :=
  ⟨(typeWithin_noting _).1, (typeWithin_noting _).2⟩

variable {by_ : Depth}

theorem functions_noting (h : by_.Noting p) (ds : List Located) :
    Noting p known (functions by_ ds) DocShape.ids := by
  refine Noting.bind (Noting.mapM fun known d => (?_ : Noting p known _ DocSignature.ids)) ?_
  · exact .inDeclaration (signature_noting h.type h.inferred _ _ _ _)
  · exact fun signatures => .pure (List.subset_append_left _ _)

/-- The names in what is known of an interface: of its type parameters, its bases and its
members. -/
def interfaceIds (i : List DocTypeParam × List DocType × List DocMember) : List SymbolId :=
  i.1.flatMap DocTypeParam.ids ++ i.2.1.flatMap DocType.ids ++ i.2.2.flatMap DocMember.ids

theorem interfaces_noting (h : by_.Noting p) (ds : List Located) :
    Noting p known (interfaces by_ ds) DocShape.ids := by
  refine Noting.bind (Noting.foldlM (fun known i d hi =>
    (?_ : Noting p known _ interfaceIds)) (List.nil_subset _)) ?_
  · obtain ⟨params, bases, members⟩ := i
    have hparams : params.flatMap DocTypeParam.ids ⊆ known := fun id hid =>
      hi (List.mem_append_left _ (List.mem_append_left _ hid))
    dsimp only
    split
    · next typeParameters extends_ ms _ =>
      apply Noting.inDeclaration
      -- the type parameters are those of this declaration or those that are known already
      have hrest (shown : List DocTypeParam) :
          Noting p (shown.flatMap DocTypeParam.ids ++ known) (do
            let bases := bases ++ (← extends_.mapM by_.type)
            return (shown, bases, members ++ (← Describe.members by_.type by_.inferred ms)))
            interfaceIds := by
        apply (types_noting h.type extends_).bind
        intro more
        apply (members_noting h.type h.inferred ms).bind
        intro declared
        refine .pure fun id hid => ?_
        have hold : id ∈ bases.flatMap DocType.ids ∨ id ∈ members.flatMap DocMember.ids →
            id ∈ known := by
          rintro (hid | hid)
          · exact hi (List.mem_append_left _ (List.mem_append_right _ hid))
          · exact hi (List.mem_append_right _ hid)
        simp only [interfaceIds, List.flatMap_append, List.mem_append] at hid ⊢
        tauto
      split
      · exact (typeParams_noting h.type typeParameters).bind hrest
      · exact (Noting.pure hparams).bind hrest
    · exact .pure hi
  · exact fun i => .pure (List.subset_append_left _ _)

theorem single_noting (h : by_.Noting p) (d : Located) :
    Noting p known (single by_ d) DocShape.ids := by
  unfold single
  cases d.declaration.shape with
  | «variable» kind t initial =>
    apply Noting.inDeclaration
    exact (h.inferred _ _).wrap fun _ => rfl
  | typeAlias typeParameters t =>
    apply Noting.inDeclaration
    apply (typeParams_noting h.type typeParameters).bind
    intro params
    apply (h.type _ t).bind
    intro t
    refine .pure ?_
    simp only [DocShape.ids]
    grind
  | «class» typeParameters extends_ implements members =>
    apply Noting.inDeclaration
    apply (typeParams_noting h.type typeParameters).bind
    intro params
    apply (optionalType_noting h.type extends_).bind
    intro base
    apply (types_noting h.type implements).bind
    intro implemented
    apply (classParts_noting h.type h.inferred members).bind
    intro parts
    refine .pure fun id hid => ?_
    simp only [DocShape.ids, ClassParts.ids, List.mem_append] at hid ⊢
    tauto
  | function | interface | «enum» | enumMember | module => exact .pure (List.nil_subset _)

theorem enums_noting (ds : List Located) : Noting p known (enums ds) DocShape.ids := by
  refine Noting.bind (Noting.filterMapM fun known site => (.walking ?_ : Noting p known _
    fun found : Option SymbolId => found.elim [] fun id => [id])) ?_
  · cases p.symbolOf.get? site with
    | none => exact .pure (List.nil_subset _)
    | some s =>
      exact (Walk.referSymbol_noting s).bind fun id => .pure (List.subset_append_left _ _)
  · intro ids
    refine .pure fun id hid => List.mem_append_left _ ?_
    have hid : id ∈ ids := List.mem_eraseDups.mp hid
    exact List.mem_flatMap.mpr ⟨id, hid, List.mem_singleton_self id⟩

theorem exported_noting (s : SymbolIndex) : Noting p known (exported s) DocShape.ids := by
  apply (Noting.walking (Walk.Noting.ask (Program.exportsOf_within s))).bind
  intro table
  refine Noting.bind (Noting.mapM fun known entry => (?_ : Noting p known _
    fun entry : String × SymbolId => [entry.2])) ?_
  · exact (Noting.walking (Walk.refer_noting entry.2)).wrap fun _ => rfl
  · intro exports
    refine .pure fun id hid => List.mem_append_left _ ?_
    obtain ⟨entry, hentry, rfl⟩ := List.mem_map.mp hid
    exact List.mem_flatMap.mpr ⟨entry, hentry, List.mem_singleton_self _⟩

theorem merged_noting (s : SymbolIndex) : Noting p known (merged s) fun _ => [] :=
  (exported_noting s).bind fun _ => .pure (List.nil_subset _)

end Describe

namespace Walk

variable {p : Program} {known : List SymbolId}

theorem describing_noting {α : Type} {ids : α → List SymbolId} {step : Describe α}
    (h : Describe.Noting p known step ids) :
    Noting p known (describing p step) (Describe.resultIds ids) :=
  fun w => h ⟨p, default⟩ ⟨w, []⟩ rfl

theorem shape_noting (limit : ℕ) (s : SymbolIndex) (kind : SymbolKind) (ds : List Located) :
    Noting p known (shape p limit s kind ds) (Describe.resultIds fun r => r.2.ids) := by
  have hdepth : (Describe.Depth.ofLimit limit).Noting p := Describe.ofLimit_noting limit
  have hother (known : List SymbolId) : Describe.Noting p known
      (ds.head?.elim (return Describe.undeclared kind)
        (Describe.single (Describe.Depth.ofLimit limit))) DocShape.ids := by
    cases ds.head? with
    | none => exact .pure (List.nil_subset _)
    | some d => exact Describe.single_noting hdepth d
  refine Noting.bind (describing_noting (?_ : Describe.Noting p known _ DocShape.ids)) ?_
  · cases kind with
    | function => exact Describe.functions_noting hdepth ds
    | interface => exact Describe.interfaces_noting hdepth ds
    | «enum» => exact Describe.enums_noting ds
    | nameSpace => exact Describe.exported_noting s
    | enumMember => exact .pure (List.nil_subset _)
    | «variable» | typeAlias | classType | ambientModule | sourceFile | importAlias =>
      exact hother known
  · intro r
    refine .pure ?_
    cases r <;> exact List.subset_append_left _ _

/-- A symbol that cannot be described names nothing. -/
theorem described_noting (s : SymbolIndex)
    (r : Except DescribeError (Option String × DocShape))
    (hr : Describe.resultIds (fun r => r.2.ids) r ⊆ known) :
    Noting p known (match r with
      | .ok (docs, shape) => return ⟨(p.symbol s).name, docs, shape⟩
      | .error e => return p.undescribed (p.symbol s).name (p.located s) e.message)
      DocSymbol.ids := by
  cases r with
  | ok r => exact .pure hr
  | error e => exact .pure (List.nil_subset _)

/-- All names in a described symbol are noted, whatever of its description is left out. -/
theorem describe_noting (limit : ℕ) (s : SymbolIndex) :
    Noting p known (describe p limit s) DocSymbol.ids := by
  unfold describe
  dsimp only
  split
  · exact .pure (List.nil_subset _)
  · next kind _ =>
    apply (shape_noting limit s kind _).bind
    intro r
    split
    · apply (describing_noting (Describe.merged_noting s)).discard.bind
      intro _
      apply described_noting s r
      exact List.Subset.trans (List.subset_append_left _ known) (List.subset_append_right _ _)
    · exact described_noting s r (List.subset_append_left _ _)

end Walk

end ApiSurface
