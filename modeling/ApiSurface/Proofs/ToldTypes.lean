import ApiSurface.Proofs.DescribedTypes
import ApiSurface.Proofs.Telling
/-!
A described type names all that was mentioned while it was described, at any depth of the type: no
part of a type is described and then left out.
-/
namespace ApiSurface

namespace Describe

variable {p : Program} {owed : Set SymbolId}
variable {type : TypeExpr → Describe DocType} {inferred : InferredType → Describe DocType}

theorem any_telling : Telling p owed (pure DocType.any) (told owed DocType.ids) :=
  .pure (subset_told _ _ _)

theorem typeOrAny_telling (htype : TellAll p type DocType.ids) (t : Option TypeExpr) :
    Telling p owed (typeOrAny type t) (told owed DocType.ids) := by
  cases t with
  | none => exact any_telling
  | some t => exact htype owed t

theorem optionalType_telling (htype : TellAll p type DocType.ids) (t : Option TypeExpr) :
    Telling p owed (optional type t) (told owed typeIds?) :=
  (Telling.optional htype t).mono fun a id hid => by simpa [elim_ids] using hid

theorem types_telling (htype : TellAll p type DocType.ids) (ts : List TypeExpr) :
    Telling p owed (ts.mapM type) (told owed fun ts => ts.flatMap DocType.ids) :=
  .mapM htype

theorem typeParams_telling (htype : TellAll p type DocType.ids) (ps : List TypeParam) :
    Telling p owed (typeParams type ps) (told owed fun ps => ps.flatMap DocTypeParam.ids) := by
  apply Telling.mapM
  intro owed q
  apply (optionalType_telling htype q.bound).bind
  intro bound
  apply (optionalType_telling htype q.fallback).bind
  intro fallback
  refine .pure fun id hid => ?_
  simp only [mem_told, DocTypeParam.ids, List.mem_append] at hid ⊢
  tauto

theorem param_telling (htype : TellAll p type DocType.ids)
    (hinferred : TellAll p inferred DocType.ids) (q : Param) :
    Telling p owed (param type inferred q) (told owed DocParam.ids) := by
  unfold param
  split
  · exact (htype owed _).wrap fun _ => rfl
  · exact (hinferred owed _).wrap fun _ => rfl

theorem signature_telling (htype : TellAll p type DocType.ids)
    (hinferred : TellAll p inferred DocType.ids) (s : Signature) (docs : Option String)
    (isConstructor : Bool) (returned : Option InferredType) :
    Telling p owed (signature type inferred s docs isConstructor returned)
      (told owed DocSignature.ids) := by
  apply Telling.withTypeParams
  apply (typeParams_telling htype s.typeParams).bind
  intro typeParams
  apply (Telling.mapM fun owed q => param_telling htype hinferred q).bind
  intro params
  have hreturns (returns : DocType) :
      told (told (told owed (fun ps => ps.flatMap DocTypeParam.ids) typeParams)
        (fun ps => ps.flatMap DocParam.ids) params) DocType.ids returns ⊆
      told owed DocSignature.ids (.mk docs typeParams params returns isConstructor) := by
    intro id hid
    simp only [mem_told, DocSignature.ids, typeParamsIds_eq, paramsIds_eq, List.mem_append]
      at hid ⊢
    tauto
  split
  · exact (htype _ _).bind fun t => .pure (hreturns t)
  · exact (hinferred _ _).bind fun t => .pure (hreturns t)
  · exact any_telling.bind fun t => .pure (hreturns t)

theorem indexKey_telling (htype : TellAll p type DocType.ids) (params : List Param) :
    Telling p owed (indexKey type params) (told owed fun key => key.2.ids) := by
  cases params with
  | nil => exact .pure (subset_told _ _ _)
  | cons q params => exact (typeOrAny_telling htype q.type).wrap fun _ => rfl

theorem member_telling (htype : TellAll p type DocType.ids)
    (hinferred : TellAll p inferred DocType.ids) (all : List TypeMember) (m : TypeMember) :
    Telling p owed (member type inferred all m) (told owed memberIds?) := by
  unfold member
  cases m.shape with
  | property name optional readonly t =>
    apply (typeOrAny_telling htype t).bind
    intro t
    refine .pure (told_subset (subset_told _ _ _) fun id hid => ?_)
    exact Or.inr (DocType.ids_subset_ofProperty optional hid)
  | method name optional s =>
    exact (signature_telling htype hinferred _ _ _ _).wrap fun _ => rfl
  | call s =>
    exact (signature_telling htype hinferred _ _ _ _).wrap fun _ => rfl
  | construct s =>
    exact (signature_telling htype hinferred _ _ _ _).wrap fun _ => rfl
  | index params t readonly =>
    apply (indexKey_telling htype params).bind
    intro key
    apply (typeOrAny_telling htype t).bind
    intro t
    refine .pure fun id hid => ?_
    simp only [mem_told, memberIds?, Option.elim, DocMember.ids, List.mem_append] at hid ⊢
    tauto
  | getter name t =>
    exact (typeOrAny_telling htype t).wrap fun _ => rfl
  | setter name q =>
    dsimp only
    split
    · exact .pure (subset_told _ _ _)
    · exact (typeOrAny_telling htype _).wrap fun _ => rfl

/-- No member that is there is left out. -/
theorem ids_subset_reduceOption (ms : List (Option DocMember)) :
    ms.flatMap memberIds? ⊆ ms.reduceOption.flatMap DocMember.ids := by
  intro id hid
  obtain ⟨m, hm, hid⟩ := List.mem_flatMap.mp hid
  cases m with
  | none => exact absurd hid List.not_mem_nil
  | some m => exact List.mem_flatMap.mpr ⟨m, List.reduceOption_mem_iff.mpr hm, hid⟩

theorem members_telling (htype : TellAll p type DocType.ids)
    (hinferred : TellAll p inferred DocType.ids) (ms : List TypeMember) :
    Telling p owed (members type inferred ms) (told owed fun ms => ms.flatMap DocMember.ids) := by
  apply (Telling.mapM fun owed m => member_telling htype hinferred ms m).bind
  intro ms
  exact .pure (told_subset (subset_told _ _ _) fun id hid => Or.inr (ids_subset_reduceOption ms hid))

theorem tupleItem_telling (htype : TellAll p type DocType.ids) (i : TupleItem) :
    Telling p owed (tupleItem type i) (told owed DocTupleItem.ids) := by
  apply (htype owed i.type).bind
  intro t
  split
  · split
    · exact .pure Set.Subset.rfl
    · exact .pure Set.Subset.rfl
  · exact .pure Set.Subset.rfl

theorem arrayKind?_telling (name : EntityName) :
    Telling p owed (arrayKind? name) fun _ => owed := by
  apply Telling.read.bind
  intro ctx
  dsimp only
  split
  · exact .pure Set.Subset.rfl
  · exact .pure Set.Subset.rfl

theorem namedType_telling (htype : TellAll p type DocType.ids) (name : EntityName)
    (args : List TypeExpr) :
    Telling p owed (do
      let id ← entity name.texts
      return DocType.reference id name.text (← args.mapM type)) (told owed DocType.ids) := by
  apply (Telling.entity name.texts).bind
  intro id
  apply (types_telling htype args).bind
  intro args
  refine .pure fun id hid => ?_
  simp only [mem_told, DocType.ids, typesIds_eq, List.mem_cons, List.not_mem_nil] at hid ⊢
  tauto

theorem reference_telling (htype : TellAll p type DocType.ids) (name : EntityName)
    (args : List TypeExpr) : Telling p owed (reference type name args) (told owed DocType.ids) := by
  apply (Telling.isTypeParam name.head.text).bind
  intro isParam
  split
  · exact .pure (subset_told _ _ _)
  · split
    · next item =>
      apply (arrayKind?_telling name).bind
      intro kind
      cases kind with
      | none => exact namedType_telling htype name _
      | some readonly => exact (htype _ item).wrap fun _ => rfl
    · exact namedType_telling htype name _

theorem inModule?_telling (specifier : String) (names : List String) :
    Telling p owed (inModule? specifier names) fun _ => owed := by
  apply Telling.read.bind
  intro ctx
  exact .walking (.ask (Program.membersBy_within _ _))

theorem moduleType_telling (htype : TellAll p type DocType.ids) (specifier : String)
    (qualifier : Option EntityName) (args : List TypeExpr) (isTypeof : Bool) :
    Telling p owed (moduleType type specifier qualifier args isTypeof)
      (told owed DocType.ids) := by
  have hshown (id : SymbolId) (shown : String) :
      Telling p (told owed (fun id => [id]) id) (if isTypeof then return .typeof id shown else do
        return DocType.reference id shown (← args.mapM type)) (told owed DocType.ids) := by
    split
    · exact .pure Set.Subset.rfl
    · apply (types_telling htype args).bind
      intro args
      refine .pure fun id hid => ?_
      simp only [mem_told, DocType.ids, typesIds_eq, List.mem_cons, List.not_mem_nil] at hid ⊢
      tauto
  apply (inModule?_telling specifier (qualifier.elim [] EntityName.texts)).bind
  intro r
  cases r with
  | none =>
    apply (Telling.walking (Walk.referExternal_telling _)).bind
    exact fun id => hshown id _
  | some r =>
    apply (Telling.walking (Walk.refer_telling r)).bind
    exact fun id => hshown id _

theorem operated_telling (htype : TellAll p type DocType.ids) (whole : Span) (op : TypeOperator)
    (operand : TypeExpr) :
    Telling p owed (operated type whole op operand) (told owed DocType.ids) := by
  unfold operated
  split
  · exact (htype _ _).wrap fun _ => rfl
  · next items =>
    apply (Telling.mapM fun owed i => tupleItem_telling htype i).wrap
    intro items
    simp [DocType.ids]
  · exact (htype _ _).wrap fun _ => rfl
  · exact (Telling.written whole).bind fun _ => .pure (subset_told _ _ _)

theorem branch_telling (whole : Span) (name : String) (t : Option TypeExpr) :
    Telling p owed (branch whole name t) fun _ => owed := by
  cases t with
  | some t => exact .pure Set.Subset.rfl
  | none =>
    apply Telling.read.bind
    intro ctx
    apply (Telling.written whole).bind
    intro text
    exact .outcome (Set.subset_univ _)

theorem conditional_telling (htype : TellAll p type DocType.ids) (whole : Span)
    (check bound : TypeExpr) (whenTrue whenFalse : Option TypeExpr) :
    Telling p owed (conditional type whole check bound whenTrue whenFalse)
      (told owed DocType.ids) := by
  apply (branch_telling whole "true" whenTrue).bind
  intro whenTrue
  apply (branch_telling whole "false" whenFalse).bind
  intro whenFalse
  apply (htype _ check).bind
  intro check
  apply (Telling.both (htype · bound) (htype · whenTrue)).bind
  rintro ⟨bound, whenTrue⟩
  apply Telling.after_both
  intro bound whenTrue
  apply (htype _ whenFalse).bind
  intro whenFalse
  refine .pure fun id hid => ?_
  simp only [mem_told, DocType.ids, List.mem_append] at hid ⊢
  tauto

theorem mapped_telling (htype : TellAll p type DocType.ids) (readonly : Option MappedModifier)
    (param : Ident) (keys : TypeExpr) (rename : Option TypeExpr)
    (isOptional : Option MappedModifier) (value : Option TypeExpr) :
    Telling p owed (mapped type readonly param keys rename isOptional value)
      (told owed DocType.ids) := by
  apply (htype _ keys).bind
  intro keys
  apply (Telling.both (fun _ => optionalType_telling htype rename)
    (fun _ => optionalType_telling htype value)).bind
  rintro ⟨rename, value⟩
  apply Telling.after_both
  intro rename value
  refine .pure fun id hid => ?_
  simp only [mem_told, DocType.ids, List.mem_append] at hid ⊢
  tauto

/-- What is made of an entity alone names it. -/
theorem entity_telling (parts : List String) (f : SymbolId → DocType)
    (hf : ∀ id, (f id).ids = [id]) :
    Telling p owed (do return f (← entity parts)) (told owed DocType.ids) :=
  (Telling.entity parts).wrap hf

theorem writtenType_telling (htype : TellAll p type DocType.ids)
    (hinferred : TellAll p inferred DocType.ids) :
    TellAll p (writtenType type inferred) DocType.ids := by
  intro owed t
  unfold writtenType
  cases t.shape with
  | keyword word => exact .pure (subset_told _ _ _)
  | reference name args => exact reference_telling htype name args
  | query name args => exact entity_telling _ _ fun _ => rfl
  | array item => exact (htype _ item).wrap fun _ => rfl
  | operator op operand => exact operated_telling htype t.span op operand
  | union parts =>
    apply (types_telling htype parts).wrap
    intro parts
    simp [DocType.ids]
  | intersection parts =>
    apply (types_telling htype parts).wrap
    intro parts
    simp [DocType.ids]
  | infer name bound =>
    exact (optionalType_telling htype bound).wrap fun _ => rfl
  | parenthesized inner => exact (htype _ inner).wrap fun _ => rfl
  | tuple items =>
    apply (Telling.mapM fun owed i => tupleItem_telling htype i).wrap
    intro items
    simp [DocType.ids]
  | object ms =>
    apply (members_telling htype hinferred ms).wrap
    intro ms
    simp [DocType.ids]
  | indexed object index =>
    apply (htype _ object).bind
    intro object
    apply (htype _ index).bind
    intro index
    refine .pure fun id hid => ?_
    simp only [mem_told, DocType.ids, List.mem_append] at hid ⊢
    tauto
  | conditional check bound whenTrue whenFalse =>
    exact conditional_telling htype t.span check bound whenTrue whenFalse
  | literal value => cases value <;> exact .pure (subset_told _ _ _)
  | mapped readonly param keys rename isOptional value =>
    exact mapped_telling htype readonly param keys rename isOptional value
  | function s =>
    exact (signature_telling htype hinferred _ _ _ _).wrap fun _ => rfl
  | constructor s isAbstract =>
    exact (signature_telling htype hinferred _ _ _ _).wrap fun _ => rfl
  | predicate asserts param t =>
    exact (optionalType_telling htype t).wrap fun _ => rfl
  | moduleType specifier qualifier args isTypeof =>
    exact moduleType_telling htype specifier qualifier args isTypeof
  | template | unsupported =>
    exact (Telling.written t.span).bind fun _ => .pure (subset_told _ _ _)

theorem inferredSignature_telling (htype : TellAll p type DocType.ids)
    (hinferred : TellAll p inferred DocType.ids) (s : InferredSignature) :
    Telling p owed (inferredSignature type inferred s) (told owed DocSignature.ids) := by
  cases s with
  | mk s returned => exact signature_telling htype hinferred _ _ _ _

theorem shownType_telling (htype : TellAll p type DocType.ids)
    (hinferred : TellAll p inferred DocType.ids) :
    TellAll p (shownType type inferred) DocType.ids := by
  intro owed t
  unfold shownType
  cases t with
  | intrinsic | string | number | bigInt | boolean => exact .pure (subset_told _ _ _)
  | array item => exact (hinferred _ item).wrap fun _ => rfl
  | tuple readonly items =>
    have hitem (owed : Set SymbolId) (t : InferredType) :
        Telling p owed (do return DocTupleItem.mk .required none (← inferred t))
          (told owed DocTupleItem.ids) :=
      (hinferred _ t).wrap fun _ => rfl
    apply (Telling.mapM fun owed t => hitem owed t).wrap
    intro items
    simp [DocType.ids]
  | union parts =>
    apply (Telling.mapM hinferred).wrap
    intro parts
    simp [DocType.ids]
  | object readonly ms =>
    refine Telling.wrap (Telling.mapM fun owed m =>
      (?_ : Telling p owed _ (told owed DocMember.ids))) ?_
    · cases m with
      | property name t =>
        exact (hinferred _ t).wrap fun _ => rfl
      | method name s =>
        exact (inferredSignature_telling htype hinferred s).wrap fun _ => rfl
    · intro ms
      simp [DocType.ids]
  | query path => exact entity_telling _ _ fun _ => rfl
  | «instance» path => exact entity_telling _ _ fun _ => rfl
  | written t => exact htype _ t
  | global name args =>
    apply (Telling.mapM hinferred).bind
    intro args
    apply (Telling.entity [name]).bind
    intro id
    refine .pure fun id hid => ?_
    simp only [mem_told, DocType.ids, typesIds_eq, List.mem_cons, List.not_mem_nil] at hid ⊢
    tauto
  | function s =>
    exact (inferredSignature_telling htype hinferred s).wrap fun _ => rfl

/-- At every depth, a described type names all that was mentioned. -/
theorem typeWithin_telling (n : ℕ) :
    TellAll p (typeWithin n) DocType.ids ∧ TellAll p (inferredWithin n) DocType.ids := by
  -- both at once, as each of them describes through the other one level below
  induction n with
  | zero =>
    constructor
    · intro owed t
      exact (Telling.written t.span).bind fun _ => .pure (subset_told _ _ _)
    · exact fun owed t => any_telling
  | succ n ih =>
    obtain ⟨htype, hinferred⟩ := ih
    exact ⟨writtenType_telling htype hinferred, shownType_telling htype hinferred⟩

end Describe

end ApiSurface
