import ApiSurface.Proofs.NotingSteps
import ApiSurface.Proofs.OccurringIds
import Mathlib.Data.List.ReduceOption
import Mathlib.Tactic.Tauto
/-!
Every name in a described type is noted, at any depth of the type: also where a part of a type is
left out, cut off below the last level or shown as written.
-/
namespace ApiSurface

namespace Describe

variable {p : Program} {known : List SymbolId}
variable {type : TypeExpr → Describe DocType} {inferred : InferredType → Describe DocType}

theorem any_noting : Noting p known (pure DocType.any) DocType.ids :=
  .pure (List.nil_subset _)

theorem typeOrAny_noting (htype : NotesAll p type DocType.ids) (t : Option TypeExpr) :
    Noting p known (typeOrAny type t) DocType.ids := by
  cases t with
  | none => exact any_noting
  | some t => exact htype known t

theorem elim_ids (t : Option DocType) : t.elim [] DocType.ids = typeIds? t := by
  cases t <;> rfl

theorem optionalType_noting (htype : NotesAll p type DocType.ids) (t : Option TypeExpr) :
    Noting p known (optional type t) typeIds? :=
  (Noting.optional htype t).mono (List.Subset.refl _) fun a => by simp [elim_ids]

theorem types_noting (htype : NotesAll p type DocType.ids) (ts : List TypeExpr) :
    Noting p known (ts.mapM type) fun ts => ts.flatMap DocType.ids :=
  .mapM htype

theorem typeParams_noting (htype : NotesAll p type DocType.ids) (ps : List TypeParam) :
    Noting p known (typeParams type ps) fun ps => ps.flatMap DocTypeParam.ids := by
  apply Noting.mapM
  intro known q
  apply (optionalType_noting htype q.bound).bind
  intro bound
  apply (optionalType_noting htype q.fallback).bind
  intro fallback
  refine .pure ?_
  simp only [DocTypeParam.ids]
  grind

theorem param_noting (htype : NotesAll p type DocType.ids)
    (hinferred : NotesAll p inferred DocType.ids) (q : Param) :
    Noting p known (param type inferred q) DocParam.ids := by
  unfold param
  split
  · exact (htype known _).wrap fun _ => rfl
  · exact (hinferred known _).wrap fun _ => rfl

theorem signature_noting (htype : NotesAll p type DocType.ids)
    (hinferred : NotesAll p inferred DocType.ids) (s : Signature) (docs : Option String)
    (isConstructor : Bool) (returned : Option InferredType) :
    Noting p known (signature type inferred s docs isConstructor returned) DocSignature.ids := by
  apply Noting.withTypeParams
  apply (typeParams_noting htype s.typeParams).bind
  intro typeParams
  apply (Noting.mapM fun known q => param_noting htype hinferred q).bind
  intro params
  have hreturns (returns : DocType) :
      (DocSignature.mk docs typeParams params returns isConstructor).ids ⊆ returns.ids ++
        (params.flatMap DocParam.ids ++ (typeParams.flatMap DocTypeParam.ids ++ known)) := by
    intro id hid
    simp only [DocSignature.ids, typeParamsIds_eq, paramsIds_eq, List.mem_append] at hid ⊢
    tauto
  split
  · exact (htype _ _).bind fun t => .pure (hreturns t)
  · exact (hinferred _ _).bind fun t => .pure (hreturns t)
  · exact any_noting.bind fun t => .pure (hreturns t)

theorem indexKey_noting (htype : NotesAll p type DocType.ids) (params : List Param) :
    Noting p known (indexKey type params) fun key => key.2.ids := by
  cases params with
  | nil => exact .pure (List.nil_subset _)
  | cons q params =>
    exact (typeOrAny_noting htype q.type).wrap fun _ => rfl

/-- The names in a member, if there is one. -/
def memberIds? (m : Option DocMember) : List SymbolId := m.elim [] DocMember.ids

theorem member_noting (htype : NotesAll p type DocType.ids)
    (hinferred : NotesAll p inferred DocType.ids) (all : List TypeMember) (m : TypeMember) :
    Noting p known (member type inferred all m) memberIds? := by
  unfold member
  cases m.shape with
  | property name optional readonly t =>
    apply (typeOrAny_noting htype t).bind
    intro t
    refine .pure fun id hid => ?_
    exact List.mem_append_left _ (DocType.ids_ofProperty hid)
  | method name optional s =>
    exact (signature_noting htype hinferred _ _ _ _).wrap fun _ => rfl
  | call s =>
    exact (signature_noting htype hinferred _ _ _ _).wrap fun _ => rfl
  | construct s =>
    exact (signature_noting htype hinferred _ _ _ _).wrap fun _ => rfl
  | index params t readonly =>
    apply (indexKey_noting htype params).bind
    intro key
    apply (typeOrAny_noting htype t).bind
    intro t
    refine .pure fun id hid => ?_
    simp only [memberIds?, Option.elim, DocMember.ids, List.mem_append] at hid ⊢
    tauto
  | getter name t =>
    exact (typeOrAny_noting htype t).wrap fun _ => rfl
  | setter name q =>
    dsimp only
    split
    · exact .pure (List.nil_subset _)
    · exact (typeOrAny_noting htype _).wrap fun _ => rfl

/-- Leaving out what is not shown leaves no other name in. -/
theorem reduceOption_ids (ms : List (Option DocMember)) :
    ms.reduceOption.flatMap DocMember.ids ⊆ ms.flatMap memberIds? := by
  intro id hid
  obtain ⟨m, hm, hid⟩ := List.mem_flatMap.mp hid
  exact List.mem_flatMap.mpr ⟨some m, List.reduceOption_mem_iff.mp hm, hid⟩

theorem members_noting (htype : NotesAll p type DocType.ids)
    (hinferred : NotesAll p inferred DocType.ids) (ms : List TypeMember) :
    Noting p known (members type inferred ms) fun ms => ms.flatMap DocMember.ids := by
  apply (Noting.mapM fun known m => member_noting htype hinferred ms m).bind
  intro ms
  exact .pure (List.Subset.trans (reduceOption_ids ms) (List.subset_append_left _ _))

theorem tupleItem_noting (htype : NotesAll p type DocType.ids) (i : TupleItem) :
    Noting p known (tupleItem type i) DocTupleItem.ids := by
  apply (htype known i.type).bind
  intro t
  split
  · split
    · exact .pure (List.subset_append_left _ _)
    · exact .pure (List.subset_append_left _ _)
  · exact .pure (List.subset_append_left _ _)

theorem arrayKind?_noting (name : EntityName) :
    Noting p known (arrayKind? name) fun _ => [] := by
  apply Noting.read.bind
  intro ctx
  dsimp only
  split
  · exact .pure (List.nil_subset _)
  · exact .pure (List.nil_subset _)

theorem namedType_noting (htype : NotesAll p type DocType.ids) (name : EntityName)
    (args : List TypeExpr) :
    Noting p known (do
      let id ← entity name.texts
      return DocType.reference id name.text (← args.mapM type)) DocType.ids := by
  apply (Noting.entity name.texts).bind
  intro id
  apply (types_noting htype args).bind
  intro args
  refine .pure ?_
  simp only [DocType.ids, typesIds_eq]
  grind

theorem reference_noting (htype : NotesAll p type DocType.ids) (name : EntityName)
    (args : List TypeExpr) : Noting p known (reference type name args) DocType.ids := by
  apply (Noting.isTypeParam name.head.text).bind
  intro isParam
  split
  · exact .pure (List.nil_subset _)
  · split
    · next item =>
      apply (arrayKind?_noting name).bind
      intro kind
      cases kind with
      | none => exact namedType_noting htype name _
      | some readonly =>
        exact (htype _ item).wrap fun _ => rfl
    · exact namedType_noting htype name _

theorem inModule?_noting (specifier : String) (names : List String) :
    Noting p known (inModule? specifier names) fun _ => [] := by
  apply Noting.read.bind
  intro ctx
  exact .walking (.ask (Program.membersBy_within _ _))

theorem moduleType_noting (htype : NotesAll p type DocType.ids) (specifier : String)
    (qualifier : Option EntityName) (args : List TypeExpr) (isTypeof : Bool) :
    Noting p known (moduleType type specifier qualifier args isTypeof) DocType.ids := by
  have hshown (known : List SymbolId) (id : SymbolId) (shown : String) (hid : id ∈ known) :
      Noting p known (if isTypeof then return .typeof id shown else do
        return DocType.reference id shown (← args.mapM type)) DocType.ids := by
    split
    · refine .pure ?_
      simpa [DocType.ids] using hid
    · apply (types_noting htype args).bind
      intro args
      refine .pure ?_
      simp only [DocType.ids, typesIds_eq]
      grind
  apply (inModule?_noting specifier (qualifier.elim [] EntityName.texts)).bind
  intro r
  cases r with
  | none =>
    apply (Noting.walking (Walk.referExternal_noting _)).bind
    exact fun id => hshown _ id _ List.mem_cons_self
  | some r =>
    apply (Noting.walking (Walk.refer_noting r)).bind
    exact fun id => hshown _ id _ List.mem_cons_self

theorem operated_noting (htype : NotesAll p type DocType.ids) (whole : Span) (op : TypeOperator)
    (operand : TypeExpr) : Noting p known (operated type whole op operand) DocType.ids := by
  unfold operated
  split
  · exact (htype _ _).wrap fun _ => rfl
  · next items =>
    apply (Noting.mapM fun known i => tupleItem_noting htype i).wrap
    intro items
    simp [DocType.ids]
  · exact (htype _ _).wrap fun _ => rfl
  · exact (Noting.written whole).wrap fun _ => rfl

theorem branch_noting (whole : Span) (name : String) (t : Option TypeExpr) :
    Noting p known (branch whole name t) fun _ => [] := by
  cases t with
  | some t => exact .pure (List.nil_subset _)
  | none =>
    -- there is no branch to go on with, so the step fails and names nothing
    apply Noting.read.bind
    intro ctx
    apply (Noting.written whole).bind
    intro text
    exact .outcome (List.nil_subset _)

theorem conditional_noting (htype : NotesAll p type DocType.ids) (whole : Span)
    (check bound : TypeExpr) (whenTrue whenFalse : Option TypeExpr) :
    Noting p known (conditional type whole check bound whenTrue whenFalse) DocType.ids := by
  apply (branch_noting whole "true" whenTrue).bind
  intro whenTrue
  apply (branch_noting whole "false" whenFalse).bind
  intro whenFalse
  apply (htype _ check).bind
  intro check
  apply ((htype _ bound).both (htype _ whenTrue)).bind
  rintro ⟨bound, whenTrue⟩
  apply Noting.after_both
  intro bound whenTrue
  apply (htype _ whenFalse).bind
  intro whenFalse
  refine .pure ?_
  simp only [DocType.ids]
  grind

theorem mapped_noting (htype : NotesAll p type DocType.ids) (readonly : Option MappedModifier)
    (param : Ident) (keys : TypeExpr) (rename : Option TypeExpr)
    (isOptional : Option MappedModifier) (value : Option TypeExpr) :
    Noting p known (mapped type readonly param keys rename isOptional value) DocType.ids := by
  apply (htype _ keys).bind
  intro keys
  apply ((optionalType_noting htype rename).both (optionalType_noting htype value)).bind
  rintro ⟨rename, value⟩
  apply Noting.after_both
  intro rename value
  refine .pure ?_
  simp only [DocType.ids]
  grind

/-- The name of an entity is the only one in what is made of it alone. -/
theorem entity_noting (parts : List String) (f : SymbolId → DocType)
    (hf : ∀ id, (f id).ids = [id]) :
    Noting p known (do return f (← entity parts)) DocType.ids := by
  apply (Noting.entity parts).bind
  intro id
  refine .pure ?_
  rw [hf]
  exact List.subset_append_left _ _

theorem writtenType_noting (htype : NotesAll p type DocType.ids)
    (hinferred : NotesAll p inferred DocType.ids) :
    NotesAll p (writtenType type inferred) DocType.ids := by
  intro known t
  unfold writtenType
  cases t.shape with
  | keyword word => exact .pure (List.nil_subset _)
  | reference name args => exact reference_noting htype name args
  | query name args => exact entity_noting _ _ fun _ => rfl
  | array item => exact (htype _ item).wrap fun _ => rfl
  | operator op operand => exact operated_noting htype t.span op operand
  | union parts =>
    apply (types_noting htype parts).wrap
    intro parts
    simp [DocType.ids]
  | intersection parts =>
    apply (types_noting htype parts).wrap
    intro parts
    simp [DocType.ids]
  | infer name bound =>
    exact (optionalType_noting htype bound).wrap fun _ => rfl
  | parenthesized inner => exact (htype _ inner).wrap fun _ => rfl
  | tuple items =>
    apply (Noting.mapM fun known i => tupleItem_noting htype i).wrap
    intro items
    simp [DocType.ids]
  | object ms =>
    apply (members_noting htype hinferred ms).wrap
    intro ms
    simp [DocType.ids]
  | indexed object index =>
    apply (htype _ object).bind
    intro object
    apply (htype _ index).bind
    intro index
    refine .pure ?_
    simp only [DocType.ids]
    grind
  | conditional check bound whenTrue whenFalse =>
    exact conditional_noting htype t.span check bound whenTrue whenFalse
  | literal value => cases value <;> exact .pure (List.nil_subset _)
  | mapped readonly param keys rename isOptional value =>
    exact mapped_noting htype readonly param keys rename isOptional value
  | function s =>
    exact (signature_noting htype hinferred _ _ _ _).wrap fun _ => rfl
  | constructor s isAbstract =>
    exact (signature_noting htype hinferred _ _ _ _).wrap fun _ => rfl
  | predicate asserts param t =>
    exact (optionalType_noting htype t).wrap fun _ => rfl
  | moduleType specifier qualifier args isTypeof =>
    exact moduleType_noting htype specifier qualifier args isTypeof
  | template | unsupported =>
    exact (Noting.written t.span).wrap fun _ => rfl

theorem inferredSignature_noting (htype : NotesAll p type DocType.ids)
    (hinferred : NotesAll p inferred DocType.ids) (s : InferredSignature) :
    Noting p known (inferredSignature type inferred s) DocSignature.ids := by
  cases s with
  | mk s returned => exact signature_noting htype hinferred _ _ _ _

theorem shownType_noting (htype : NotesAll p type DocType.ids)
    (hinferred : NotesAll p inferred DocType.ids) :
    NotesAll p (shownType type inferred) DocType.ids := by
  intro known t
  unfold shownType
  cases t with
  | intrinsic | string | number | bigInt | boolean => exact .pure (List.nil_subset _)
  | array item => exact (hinferred _ item).wrap fun _ => rfl
  | tuple readonly items =>
    have hitem (known : List SymbolId) (t : InferredType) :
        Noting p known (do return DocTupleItem.mk .required none (← inferred t))
          DocTupleItem.ids :=
      (hinferred _ t).wrap fun _ => rfl
    apply (Noting.mapM fun known t => hitem known t).wrap
    intro items
    simp [DocType.ids]
  | union parts =>
    apply (Noting.mapM hinferred).wrap
    intro parts
    simp [DocType.ids]
  | object readonly ms =>
    refine Noting.bind (Noting.mapM fun known m => (?_ : Noting p known _ DocMember.ids)) ?_
    · cases m with
      | property name t =>
        exact (hinferred _ t).wrap fun _ => rfl
      | method name s =>
        exact (inferredSignature_noting htype hinferred s).wrap fun _ => rfl
    · intro ms
      refine .pure ?_
      simp [DocType.ids]
  | query path => exact entity_noting _ _ fun _ => rfl
  | «instance» path => exact entity_noting _ _ fun _ => rfl
  | written t => exact htype _ t
  | global name args =>
    apply (Noting.mapM hinferred).bind
    intro args
    apply (Noting.entity [name]).bind
    intro id
    refine .pure ?_
    simp only [DocType.ids, typesIds_eq]
    grind
  | function s =>
    exact (inferredSignature_noting htype hinferred s).wrap fun _ => rfl

/-- At every depth, the names in a described type are noted. -/
theorem typeWithin_noting (n : ℕ) :
    NotesAll p (typeWithin n) DocType.ids ∧ NotesAll p (inferredWithin n) DocType.ids := by
  -- both at once, as each of them describes through the other one level below
  induction n with
  | zero =>
    constructor
    · intro known t
      exact (Noting.written t.span).wrap fun _ => rfl
    · exact fun known t => any_noting
  | succ n ih =>
    obtain ⟨htype, hinferred⟩ := ih
    exact ⟨writtenType_noting htype hinferred, shownType_noting htype hinferred⟩

end Describe

end ApiSurface
