import ApiSurface.Extraction.ClassBody
import ApiSurface.Proofs.AgreeingSteps
/-!
Describing something leaves the type parameters in scope as they were. A signature, a mapped type
and a conditional type bring more of them into scope for some of their parts; that they are out of
it again afterwards follows for each from what its parts do, also where a part cannot be described.
-/
namespace ApiSurface

namespace Describe

variable {α β : Type}

/-- A step that leaves the type parameters in scope as they were, whether it comes to a result or
fails. -/
def Balanced (x : Describe α) : Prop := ∀ ctx d, (x.runAt ctx d).2.typeParams = d.typeParams

namespace Balanced

theorem pure (a : α) : Balanced (Pure.pure a : Describe α) := fun _ _ => rfl

theorem bind {x : Describe α} {f : α → Describe β} (hx : Balanced x) (hf : ∀ a, Balanced (f a)) :
    Balanced (x >>= f) := by
  intro ctx d
  have hbefore := hx ctx d
  rw [runAt_bind]
  rcases hr : x.runAt ctx d with ⟨r, d'⟩
  rw [hr] at hbefore
  cases r with
  | ok a => exact (hf a ctx d').trans hbefore
  | error e => exact hbefore

theorem map {f : α → β} {x : Describe α} (h : Balanced x) : Balanced (f <$> x) := by
  rw [map_eq_pure_bind]
  exact h.bind fun a => .pure (f a)

theorem mapM {f : α → Describe β} (h : ∀ a, Balanced (f a)) (l : List α) : Balanced (l.mapM f) := by
  induction l with
  | nil => exact .pure []
  | cons a l ih =>
    rw [List.mapM_cons]
    apply (h a).bind
    intro b
    exact ih.bind fun bs => .pure (b :: bs)

theorem foldlM {f : β → α → Describe β} (h : ∀ b a, Balanced (f b a)) (l : List α) (b : β) :
    Balanced (l.foldlM f b) := by
  induction l generalizing b with
  | nil => exact .pure b
  | cons a l ih =>
    rw [List.foldlM_cons]
    exact (h b a).bind ih

theorem optional {f : α → Describe β} (h : ∀ a, Balanced (f a)) (a : Option α) :
    Balanced (Describe.optional f a) := by
  cases a with
  | none => exact .pure none
  | some a => exact (h a).map

theorem read : Balanced (MonadReader.read : Describe Context) := fun _ _ => rfl

theorem get : Balanced (MonadState.get : Describe Describing) := fun _ _ => rfl

theorem walking (f : Program → StateM Walk α) : Balanced (Describe.walking f) := fun _ _ => rfl

theorem outcome (r : Except DescribeError α) : Balanced (Describe.outcome r) := fun _ _ => rfl

theorem attempt {x : Describe α} (h : Balanced x) : Balanced (Describe.attempt x) := h

/-- Names come into scope above those that are there, and are cut off where these end. -/
theorem withTypeParams (names : List String) {x : Describe α} (h : Balanced x) :
    Balanced (Describe.withTypeParams names x) := by
  intro ctx d
  rw [withTypeParams_runAt]
  dsimp only
  rw [h ctx { d with typeParams := d.typeParams ++ names }, List.take_left]

/-- What two steps come to is looked at only when their names are out of scope again. -/
theorem both {γ : Type} (names : List String) {x : Describe α} {y : Describe β}
    {f : α → β → Describe γ} (hx : Balanced x) (hy : Balanced y) (hf : ∀ a b, Balanced (f a b)) :
    Balanced (do
      let (a, b) ← Describe.withTypeParams names do
        return (← Describe.attempt x, ← Describe.attempt y)
      let a ← Describe.outcome a
      let b ← Describe.outcome b
      f a b) := by
  have hpair : Balanced (do return (← Describe.attempt x, ← Describe.attempt y)) :=
    hx.attempt.bind fun a => hy.attempt.bind fun b => .pure (a, b)
  apply (hpair.withTypeParams names).bind
  intro r
  exact (outcome r.1).bind fun a => (outcome r.2).bind fun b => hf a b

theorem isTypeParam (name : String) : Balanced (Describe.isTypeParam name) :=
  get.bind fun _ => .pure _

theorem written (span : Span) : Balanced (Describe.written span) := read.bind fun _ => .pure _

theorem entity (parts : List String) : Balanced (Describe.entity parts) :=
  read.bind fun _ => .walking _

end Balanced

/-! ### One level of types -/

section Level

variable {type : TypeExpr → Describe DocType} {inferred : InferredType → Describe DocType}

theorem typeOrAny_balanced (htype : ∀ t, Balanced (type t)) (t : Option TypeExpr) :
    Balanced (typeOrAny type t) := by
  cases t with
  | none => exact .pure DocType.any
  | some t => exact htype t

theorem typeParams_balanced (htype : ∀ t, Balanced (type t)) (ps : List TypeParam) :
    Balanced (typeParams type ps) := by
  refine .mapM (fun q => ?_) ps
  apply (Balanced.optional htype q.bound).bind
  intro bound
  exact (Balanced.optional htype q.fallback).bind fun fallback => .pure _

theorem param_balanced (htype : ∀ t, Balanced (type t)) (hinferred : ∀ t, Balanced (inferred t))
    (q : Param) : Balanced (param type inferred q) := by
  unfold param
  split
  · next t _ => exact (htype t).bind fun t => .pure _
  · exact (hinferred q.infer).bind fun t => .pure _

theorem signature_balanced (htype : ∀ t, Balanced (type t))
    (hinferred : ∀ t, Balanced (inferred t)) (s : Signature) (docs : Option String)
    (isConstructor : Bool) (returned : Option InferredType) :
    Balanced (signature type inferred s docs isConstructor returned) := by
  apply Balanced.withTypeParams
  apply (typeParams_balanced htype s.typeParams).bind
  intro typeParams
  apply (Balanced.mapM (param_balanced htype hinferred) s.params).bind
  intro params
  split
  · next t _ => exact (htype t).bind fun t => .pure _
  · next t _ => exact (hinferred t).bind fun t => .pure _
  · exact Balanced.pure _

theorem indexKey_balanced (htype : ∀ t, Balanced (type t)) (params : List Param) :
    Balanced (indexKey type params) := by
  cases params with
  | nil => exact .pure _
  | cons q params => exact (typeOrAny_balanced htype q.type).bind fun t => .pure _

theorem member_balanced (htype : ∀ t, Balanced (type t)) (hinferred : ∀ t, Balanced (inferred t))
    (all : List TypeMember) (m : TypeMember) : Balanced (member type inferred all m) := by
  unfold member
  cases m.shape with
  | property name optional readonly t =>
    exact (typeOrAny_balanced htype t).bind fun t => .pure _
  | method name optional s =>
    exact (signature_balanced htype hinferred s none false none).bind fun s => .pure _
  | call s => exact (signature_balanced htype hinferred s none false none).bind fun s => .pure _
  | construct s => exact (signature_balanced htype hinferred s none true none).bind fun s => .pure _
  | index params t readonly =>
    apply (indexKey_balanced htype params).bind
    intro key
    exact (typeOrAny_balanced htype t).bind fun t => .pure _
  | getter name t => exact (typeOrAny_balanced htype t).bind fun t => .pure _
  | setter name q =>
    dsimp only
    split
    · exact .pure none
    · exact (typeOrAny_balanced htype _).bind fun t => .pure _

theorem members_balanced (htype : ∀ t, Balanced (type t)) (hinferred : ∀ t, Balanced (inferred t))
    (ms : List TypeMember) : Balanced (members type inferred ms) :=
  (Balanced.mapM (member_balanced htype hinferred ms) ms).bind fun _ => .pure _

theorem tupleItem_balanced (htype : ∀ t, Balanced (type t)) (i : TupleItem) :
    Balanced (tupleItem type i) := by
  apply (htype i.type).bind
  intro t
  split
  · split <;> exact .pure _
  · exact .pure _

theorem arrayKind?_balanced (name : EntityName) : Balanced (arrayKind? name) := by
  apply Balanced.read.bind
  intro ctx
  dsimp only
  split <;> exact .pure _

theorem reference_balanced (htype : ∀ t, Balanced (type t)) (name : EntityName)
    (args : List TypeExpr) : Balanced (reference type name args) := by
  have hnamed : Balanced (do
      let id ← entity name.texts
      return DocType.reference id name.text (← args.mapM type)) :=
    (Balanced.entity name.texts).bind fun id => (Balanced.mapM htype args).bind fun ts => .pure _
  apply (Balanced.isTypeParam name.head.text).bind
  intro isParam
  split
  · exact .pure _
  · split
    · next item =>
      apply (arrayKind?_balanced name).bind
      intro kind
      cases kind with
      | none => exact hnamed
      | some readonly => exact (htype item).bind fun t => .pure _
    · exact hnamed

theorem moduleType_balanced (htype : ∀ t, Balanced (type t)) (specifier : String)
    (qualifier : Option EntityName) (args : List TypeExpr) (isTypeof : Bool) :
    Balanced (moduleType type specifier qualifier args isTypeof) := by
  have hshown (id : SymbolId) (shown : String) :
      Balanced (if isTypeof then return .typeof id shown else do
        return DocType.reference id shown (← args.mapM type)) := by
    split
    · exact .pure _
    · exact (Balanced.mapM htype args).bind fun args => .pure _
  have hmodule (names : List String) : Balanced (inModule? specifier names) :=
    Balanced.read.bind fun ctx => .walking _
  apply (hmodule (qualifier.elim [] EntityName.texts)).bind
  intro r
  cases r with
  | none => exact (Balanced.walking _).bind fun id => hshown id _
  | some r => exact (Balanced.walking _).bind fun id => hshown id _

theorem operated_balanced (htype : ∀ t, Balanced (type t)) (whole : Span) (op : TypeOperator)
    (operand : TypeExpr) : Balanced (operated type whole op operand) := by
  unfold operated
  split
  · next item _ => exact (htype item).bind fun t => .pure _
  · next items _ => exact (Balanced.mapM (tupleItem_balanced htype) items).bind fun items => .pure _
  · exact (htype operand).bind fun t => .pure _
  · exact (Balanced.written whole).bind fun text => .pure _

theorem branch_balanced (whole : Span) (name : String) (t : Option TypeExpr) :
    Balanced (branch whole name t) := by
  cases t with
  | some t => exact .pure t
  | none =>
    apply Balanced.read.bind
    intro ctx
    exact (Balanced.written whole).bind fun text => .outcome _

theorem conditional_balanced (htype : ∀ t, Balanced (type t)) (whole : Span)
    (check bound : TypeExpr) (whenTrue whenFalse : Option TypeExpr) :
    Balanced (conditional type whole check bound whenTrue whenFalse) := by
  apply (branch_balanced whole "true" whenTrue).bind
  intro whenTrue
  apply (branch_balanced whole "false" whenFalse).bind
  intro whenFalse
  apply (htype check).bind
  intro check
  refine (htype bound).both bound.inferredNames (htype whenTrue) fun bound whenTrue => ?_
  exact (htype whenFalse).bind fun whenFalse => .pure _

theorem mapped_balanced (htype : ∀ t, Balanced (type t)) (readonly : Option MappedModifier)
    (param : Ident) (keys : TypeExpr) (rename : Option TypeExpr)
    (isOptional : Option MappedModifier) (value : Option TypeExpr) :
    Balanced (mapped type readonly param keys rename isOptional value) := by
  apply (htype keys).bind
  intro keys
  have hrename := Balanced.optional htype rename
  have hvalue := Balanced.optional htype value
  exact hrename.both [param.text] hvalue fun rename value => .pure _

theorem writtenType_balanced (htype : ∀ t, Balanced (type t))
    (hinferred : ∀ t, Balanced (inferred t)) (t : TypeExpr) :
    Balanced (writtenType type inferred t) := by
  unfold writtenType
  cases t.shape with
  | keyword word => exact .pure _
  | reference name args => exact reference_balanced htype name args
  | query name args => exact (Balanced.entity name.texts).bind fun id => .pure _
  | array item => exact (htype item).bind fun t => .pure _
  | operator op operand => exact operated_balanced htype t.span op operand
  | union parts => exact (Balanced.mapM htype parts).bind fun ts => .pure _
  | intersection parts => exact (Balanced.mapM htype parts).bind fun ts => .pure _
  | infer name bound => exact (Balanced.optional htype bound).bind fun t => .pure _
  | parenthesized inner => exact (htype inner).bind fun t => .pure _
  | tuple items => exact (Balanced.mapM (tupleItem_balanced htype) items).bind fun ts => .pure _
  | object ms => exact (members_balanced htype hinferred ms).bind fun ms => .pure _
  | indexed object index =>
    exact (htype object).bind fun object => (htype index).bind fun index => .pure _
  | conditional check bound whenTrue whenFalse =>
    exact conditional_balanced htype t.span check bound whenTrue whenFalse
  | literal value => cases value <;> exact .pure _
  | mapped readonly param keys rename isOptional value =>
    exact mapped_balanced htype readonly param keys rename isOptional value
  | function s => exact (signature_balanced htype hinferred s none false none).bind fun s => .pure _
  | constructor s isAbstract =>
    exact (signature_balanced htype hinferred s none true none).bind fun s => .pure _
  | predicate asserts param t => exact (Balanced.optional htype t).bind fun t => .pure _
  | moduleType specifier qualifier args isTypeof =>
    exact moduleType_balanced htype specifier qualifier args isTypeof
  | template | unsupported => exact (Balanced.written t.span).bind fun text => .pure _

theorem inferredSignature_balanced (htype : ∀ t, Balanced (type t))
    (hinferred : ∀ t, Balanced (inferred t)) (s : InferredSignature) :
    Balanced (inferredSignature type inferred s) := by
  cases s with
  | mk s returned => exact signature_balanced htype hinferred s none false returned

theorem shownType_balanced (htype : ∀ t, Balanced (type t))
    (hinferred : ∀ t, Balanced (inferred t)) (t : InferredType) :
    Balanced (shownType type inferred t) := by
  unfold shownType
  cases t with
  | intrinsic | string | number | bigInt | boolean => exact .pure _
  | array item => exact (hinferred item).bind fun t => .pure _
  | tuple readonly items =>
    have hitem (t : InferredType) :
        Balanced (do return DocTupleItem.mk .required none (← inferred t)) :=
      (hinferred t).bind fun t => .pure _
    exact (Balanced.mapM hitem items).bind fun items => .pure _
  | union parts => exact (Balanced.mapM hinferred parts).bind fun parts => .pure _
  | object readonly ms =>
    refine Balanced.bind (.mapM (fun m => ?_) ms) fun ms => .pure _
    cases m with
    | property name t => exact (hinferred t).bind fun t => .pure _
    | method name s => exact (inferredSignature_balanced htype hinferred s).bind fun s => .pure _
  | query path => exact (Balanced.entity path).bind fun id => .pure _
  | «instance» path => exact (Balanced.entity path).bind fun id => .pure _
  | written t => exact htype t
  | global name args =>
    apply (Balanced.mapM hinferred args).bind
    intro args
    exact (Balanced.entity [name]).bind fun id => .pure _
  | function s => exact (inferredSignature_balanced htype hinferred s).bind fun s => .pure _

/-! ### Members of classes -/

theorem parameterProperty_balanced (hinferred : ∀ t, Balanced (inferred t)) (c : ClassParts)
    (q : Param) : Balanced (parameterProperty inferred c q) := by
  unfold parameterProperty
  split_ifs
  · exact .pure c
  · exact .pure _
  · exact .pure c
  · exact (hinferred q.infer).bind fun t => .pure _

theorem classMember_balanced (htype : ∀ t, Balanced (type t))
    (hinferred : ∀ t, Balanced (inferred t)) (all : List ClassMember) (m : ClassMember) :
    Balanced (classMember type inferred all m) := by
  unfold classMember
  cases m.shape with
  | property name optional t initial =>
    cases t with
    | some t => exact (htype t).bind fun t => .pure _
    | none => exact (hinferred _).bind fun t => .pure _
  | method name optional s body =>
    dsimp only
    split
    · exact .pure none
    · exact (signature_balanced htype hinferred s _ _ _).bind fun s => .pure _
  | getter name t => exact (typeOrAny_balanced htype t).bind fun t => .pure _
  | setter name q =>
    dsimp only
    split
    · exact .pure none
    · exact (typeOrAny_balanced htype _).bind fun t => .pure _
  | index params t =>
    apply (indexKey_balanced htype params).bind
    intro key
    exact (typeOrAny_balanced htype t).bind fun t => .pure _
  | constructor | unknown => exact .pure none

theorem classPart_balanced (htype : ∀ t, Balanced (type t))
    (hinferred : ∀ t, Balanced (inferred t)) (all : List ClassMember) (c : ClassParts)
    (m : ClassMember) : Balanced (classPart type inferred all c m) := by
  unfold classPart
  split
  · exact .pure _
  · split
    · next s body _ =>
      apply (Balanced.foldlM (parameterProperty_balanced hinferred) s.params c).bind
      intro c
      split
      · exact .pure c
      · exact (signature_balanced htype hinferred s _ _ _).bind fun s => .pure _
    · apply (classMember_balanced htype hinferred all m).bind
      intro member
      cases member <;> exact .pure _

theorem classParts_balanced (htype : ∀ t, Balanced (type t))
    (hinferred : ∀ t, Balanced (inferred t)) (all : List ClassMember) :
    Balanced (classParts type inferred all) :=
  .foldlM (classPart_balanced htype hinferred all) all _

end Level

/-! ### All levels -/

/-- At every depth, describing a type leaves the type parameters in scope as they were. -/
theorem typeWithin_balanced (n : ℕ) :
    (∀ t, Balanced (typeWithin n t)) ∧ ∀ t, Balanced (inferredWithin n t) := by
  -- both at once, as each of them describes through the other one level below
  induction n with
  | zero => exact ⟨fun t => (Balanced.written t.span).bind fun _ => .pure _, fun _ => .pure _⟩
  | succ n ih =>
    obtain ⟨htype, hinferred⟩ := ih
    exact ⟨writtenType_balanced htype hinferred, shownType_balanced htype hinferred⟩

/-- **Scopes are balanced on every path.** Wherever something is described, and whatever type
parameters are in scope there, they are the same ones in the same order afterwards: for a type and
for what an initializer shows, for a signature, for type parameters, and for the members of an
interface, of an object type and of a class, at most `n` levels of each. That holds of a description
that succeeds and of one that fails, however deep inside. -/
theorem scopes_balanced (n : ℕ) :
    (∀ t, Balanced (typeWithin n t)) ∧
    (∀ t, Balanced (inferredWithin n t)) ∧
    (∀ s docs isConstructor returned,
      Balanced (signature (typeWithin n) (inferredWithin n) s docs isConstructor returned)) ∧
    (∀ params, Balanced (typeParams (typeWithin n) params)) ∧
    (∀ ms, Balanced (members (typeWithin n) (inferredWithin n) ms)) ∧
    ∀ all, Balanced (classParts (typeWithin n) (inferredWithin n) all) := by
  obtain ⟨htype, hinferred⟩ := typeWithin_balanced n
  exact ⟨htype, hinferred, signature_balanced htype hinferred, typeParams_balanced htype,
    members_balanced htype hinferred, classParts_balanced htype hinferred⟩

/-- The bound of the type parameter `U` of a signature is a conditional type without a second
outcome: describing it fails while `U` is in scope beside `T`, and then `T` is in scope alone. -/
example :
    let bound : TypeExpr := ⟨default, .conditional default default (some default) none⟩
    let s : Signature := ⟨[⟨⟨"U", default⟩, some bound, none⟩], [], none⟩
    let last := (signature (typeWithin 2) (inferredWithin 2) s none false none).runAt default
      ⟨default, ["T"]⟩
    last.1.isOk = false ∧ last.2.typeParams = ["T"] := ⟨rfl, rfl⟩

end Describe

end ApiSurface
