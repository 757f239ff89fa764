import ApiSurface.Extraction.Symbols
import ApiSurface.Proofs.AgreeingSteps
import ApiSurface.Proofs.Scopes
/-!
Types described in lexical scopes: each type with the names that are known where it stands, given to
it outright. The description that brings type parameters into scope and out of it again agrees with
that, as far as types are well inferred.
-/
namespace ApiSurface

namespace Describe

/-- A type by its name, where no type parameter has the name. -/
def freeReference (type : TypeExpr → Describe DocType) (name : EntityName) (args : List TypeExpr) :
    Describe DocType := do
  if let [item] := args then
    if let some readonly ← arrayKind? name then return .array readonly (← type item)
  let id ← entity name.texts
  return .reference id name.text (← args.mapM type)

/-- A conditional type, whose first outcome is described apart from its other parts. -/
def conditionalIn (outside inside : TypeExpr → Describe DocType) (whole : Span)
    (check bound : TypeExpr) (whenTrue whenFalse : Option TypeExpr) : Describe DocType := do
  let whenTrue ← branch whole "true" whenTrue
  let whenFalse ← branch whole "false" whenFalse
  let check ← outside check
  let bound ← attempt (outside bound)
  let whenTrue ← attempt (inside whenTrue)
  let bound ← outcome bound
  let whenTrue ← outcome whenTrue
  return .conditional check bound whenTrue (← outside whenFalse)

/-- A mapped type, whose names and values are described apart from its keys. -/
def mappedIn (outside inside : TypeExpr → Describe DocType) (readonly : Option MappedModifier)
    (param : Ident) (keys : TypeExpr) (rename : Option TypeExpr)
    (isOptional : Option MappedModifier) (value : Option TypeExpr) : Describe DocType := do
  let keys ← outside keys
  let rename ← attempt (optional inside rename)
  let value ← attempt (optional inside value)
  let rename ← outcome rename
  return .mapped param.text keys rename readonly isOptional (← outcome value)

section

variable (by_ : Set String → Depth) (known : Set String)

/-- How types are described where some names are bound beside those that are known. -/
def within (names : List String) : Depth := by_ (known ∪ {x | x ∈ names})

/-- The members of an interface or of an object type, each with its type parameters known. -/
def membersIn (ms : List TypeMember) : Describe (List DocMember) :=
  return (← ms.mapM fun m =>
    member (within by_ known m.names).type (within by_ known m.names).inferred ms m).reduceOption

open Classical in
/-- One level of a written type in its lexical scope. A simple name is that of a type parameter just
if it is known. A signature binds its type parameters for all of its types, a mapped type its
parameter for its names and values, and a conditional type, for its first outcome, the names that
belong to its extends clause. Every other part of a type knows what the type itself knows. -/
noncomputable def typeIn (t : TypeExpr) : Describe DocType :=
  match t.shape with
  | .reference name args =>
    if name.isSimple ∧ name.head.text ∈ known then return .typeParameter name.head.text
    else freeReference (by_ known).type name args
  | .object ms => return .object (← membersIn by_ known ms)
  | .conditional check bound whenTrue whenFalse =>
    conditionalIn (by_ known).type (by_ (known ∪ {x | TypePart.Infers x (.written bound)})).type
      t.span check bound whenTrue whenFalse
  | .mapped readonly param keys rename isOptional value =>
    mappedIn (by_ known).type (within by_ known [param.text]).type readonly param keys rename
      isOptional value
  | .function s | .constructor s _ =>
    writtenType (within by_ known s.names).type (within by_ known s.names).inferred t
  | _ => writtenType (by_ known).type (by_ known).inferred t

/-- A signature that an initializer shows, with its type parameters known. -/
def inferredSignatureIn : InferredSignature → Describe DocSignature
  | .mk s returned => inferredSignature (within by_ known s.names).type
      (within by_ known s.names).inferred (.mk s returned)

/-- One level of a type that an initializer shows, in its lexical scope. -/
def shownIn (t : InferredType) : Describe DocType :=
  match t with
  | .object readonly ms => return .object (← ms.mapM fun
    | .property name t => return .property name none false readonly (← (by_ known).inferred t)
    | .method name s => return .method name none false (← inferredSignatureIn by_ known s))
  | .function s => return .signature (← inferredSignatureIn by_ known s)
  | t => shownType (by_ known).type (by_ known).inferred t

end

/-- Types in their lexical scopes, at most `n` levels of them. -/
noncomputable def lexical : ℕ → Set String → Depth
  | 0, _ => ⟨fun t => return .raw (← written t.span), fun _ => return DocType.any⟩
  | n + 1, known => ⟨typeIn (lexical n) known, shownIn (lexical n) known⟩

/-- Types as they are described, at most `n` levels of them. -/
def Depth.ofLevels (n : ℕ) : Depth := ⟨typeWithin n, inferredWithin n⟩

/-- Two ways of describing agree on a part where some type parameters are in scope. -/
def Depth.AgreeOn (names : List String) (by_ by' : Depth) : TypePart → Prop
  | .written t => Agrees (· = names) (by_.type t) (by'.type t)
  | .shown t => Agrees (· = names) (by_.inferred t) (by'.inferred t)

theorem Depth.AgreeOn.type {names : List String} {by_ by' : Depth} {t : TypeExpr}
    (h : by_.AgreeOn names by' (.written t)) :
    Agrees (· = names) (by_.type t) (by'.type t) := h

theorem Depth.AgreeOn.inferred {names : List String} {by_ by' : Depth} {t : InferredType}
    (h : by_.AgreeOn names by' (.shown t)) :
    Agrees (· = names) (by_.inferred t) (by'.inferred t) := h

section

variable {P : List String → Prop} {names : List String} {by_ by' : Depth}

theorem typeOrAny_agrees {t : Option TypeExpr}
    (h : ∀ u ∈ t.toList, by_.AgreeOn names by' (.written u)) :
    Agrees (· = names) (typeOrAny by_.type t) (typeOrAny by'.type t) := by
  cases t with
  | none => exact .pure DocType.any
  | some t => exact h t (by simp)

theorem types_agree {ts : List TypeExpr} (h : ∀ u ∈ ts, by_.AgreeOn names by' (.written u)) :
    Agrees (· = names) (ts.mapM by_.type) (ts.mapM by'.type) :=
  .mapM h

theorem typeParams_agree {ps : List TypeParam}
    (h : ∀ u ∈ typeParamParts ps, by_.AgreeOn names by' u) :
    Agrees (· = names) (typeParams by_.type ps) (typeParams by'.type ps) := by
  refine .mapM fun q hq => ?_
  have hpart (u : TypeExpr) (hu : u ∈ q.bound.toList ++ q.fallback.toList) :
      by_.AgreeOn names by' (.written u) :=
    h _ (List.mem_flatMap.mpr ⟨q, hq, List.mem_map_of_mem hu⟩)
  apply (Agrees.optional fun u hu => (hpart u (List.mem_append_left _ hu)).type).bind
  intro bound
  apply (Agrees.optional fun u hu => (hpart u (List.mem_append_right _ hu)).type).bind
  exact fun fallback => .pure _

theorem param_agrees {q : Param} (h : by_.AgreeOn names by' q.part) :
    Agrees (· = names) (param by_.type by_.inferred q) (param by'.type by'.inferred q) := by
  unfold param
  unfold Param.part at h
  cases ht : q.type with
  | some t =>
    rw [ht] at h
    exact h.type.bind fun t => .pure _
  | none =>
    rw [ht] at h
    exact h.inferred.bind fun t => .pure _

theorem signature_agrees {s : Signature} {docs : Option String} {isConstructor : Bool}
    {returned : Option InferredType}
    (h : ∀ u ∈ s.parts returned, by_.AgreeOn (names ++ s.names) by' u) :
    Agrees (· = names) (signature by_.type by_.inferred s docs isConstructor returned)
      (signature by'.type by'.inferred s docs isConstructor returned) := by
  have hpart {u : TypePart} (hu : u ∈ typeParamParts s.typeParams ++ s.params.map Param.part) :
      by_.AgreeOn (names ++ s.names) by' u :=
    h u (List.mem_append_left _ hu)
  apply Agrees.withTypeParams
  apply (typeParams_agree fun u hu => hpart (List.mem_append_left _ hu)).bind
  intro typeParams
  have hparams : Agrees (· = names ++ s.names) (s.params.mapM (param by_.type by_.inferred))
      (s.params.mapM (param by'.type by'.inferred)) :=
    .mapM fun q hq => param_agrees (hpart (List.mem_append_right _ (List.mem_map_of_mem hq)))
  apply hparams.bind
  intro params
  cases hs : s.returns with
  | some t =>
    have hreturns := h (.written t) (List.mem_append_right _ (by simp [hs]))
    exact hreturns.type.bind fun t => .pure _
  | none =>
    cases returned with
    | some t =>
      have hreturns := h (.shown t) (List.mem_append_right _ (by simp [hs]))
      exact hreturns.inferred.bind fun t => .pure _
    | none => exact Agrees.pure _

/-- What is described for a parameter that has a type is that type. -/
theorem part_eq_written {q : Param} {t : TypeExpr} (h : t ∈ q.type.toList) :
    q.part = .written t := by
  simp only [Option.mem_toList] at h
  simp [Param.part, h]

theorem indexKey_agrees {params : List Param}
    (h : ∀ u ∈ params.map Param.part, by_.AgreeOn names by' u) :
    Agrees (· = names) (indexKey by_.type params) (indexKey by'.type params) := by
  cases params with
  | nil => exact .pure _
  | cons q params =>
    have hkey : ∀ u ∈ q.type.toList, by_.AgreeOn names by' (.written u) :=
      fun u hu => part_eq_written hu ▸ h q.part (by simp)
    exact (typeOrAny_agrees hkey).bind fun t => .pure _

theorem setter_agrees {q : Option Param} (h : ∀ p ∈ q.toList, by_.AgreeOn names by' p.part) :
    Agrees (· = names) (typeOrAny by_.type (q.bind (·.type)))
      (typeOrAny by'.type (q.bind (·.type))) := by
  apply typeOrAny_agrees
  cases q with
  | none => simp
  | some q => exact fun u hu => part_eq_written hu ▸ h q (by simp)

theorem member_agrees {all : List TypeMember} {m : TypeMember}
    (h : ∀ u ∈ m.parts, by_.AgreeOn (names ++ m.names) by' u) :
    Agrees (· = names) (member by_.type by_.inferred all m)
      (member by'.type by'.inferred all m) := by
  unfold member
  unfold TypeMember.parts TypeMember.names at h
  cases hm : m.shape with
  | property name optional readonly t =>
    simp only [hm, List.append_nil, List.forall_mem_map] at h
    exact (typeOrAny_agrees h).bind fun t => .pure _
  | method name optional s =>
    simp only [hm] at h
    exact (signature_agrees h).bind fun s => .pure _
  | call s =>
    simp only [hm] at h
    exact (signature_agrees h).bind fun s => .pure _
  | construct s =>
    simp only [hm] at h
    exact (signature_agrees h).bind fun s => .pure _
  | index params t readonly =>
    simp only [hm, List.append_nil, List.forall_mem_append] at h
    obtain ⟨hkey, hvalue⟩ := h
    apply (indexKey_agrees hkey).bind
    intro key
    exact (typeOrAny_agrees (List.forall_mem_map.mp hvalue)).bind fun t => .pure _
  | getter name t =>
    simp only [hm, List.append_nil, List.forall_mem_map] at h
    exact (typeOrAny_agrees h).bind fun t => .pure _
  | setter name q =>
    simp only [hm, List.append_nil, List.forall_mem_map] at h
    dsimp only
    split
    · exact .pure none
    · exact (setter_agrees h).bind fun t => .pure _

theorem tupleItem_agrees {i : TupleItem} (h : by_.AgreeOn names by' (.written i.type)) :
    Agrees (· = names) (tupleItem by_.type i) (tupleItem by'.type i) := by
  apply h.type.bind
  intro t
  split
  · split <;> exact .pure _
  · exact .pure _

theorem arrayKind?_agrees (name : EntityName) : Agrees P (arrayKind? name) (arrayKind? name) := by
  apply Agrees.read.bind
  intro ctx
  dsimp only
  split <;> exact .pure _

theorem freeReference_agrees (name : EntityName) {args : List TypeExpr}
    (h : ∀ u ∈ args, by_.AgreeOn names by' (.written u)) :
    Agrees (· = names) (freeReference by_.type name args) (freeReference by'.type name args) := by
  have hnamed : Agrees (· = names)
      (do
        let id ← entity name.texts
        return DocType.reference id name.text (← args.mapM by_.type))
      (do
        let id ← entity name.texts
        return DocType.reference id name.text (← args.mapM by'.type)) := by
    apply (Agrees.entity name.texts).bind
    intro id
    exact (types_agree h).bind fun args => .pure _
  unfold freeReference
  split
  · next item =>
    apply (arrayKind?_agrees name).bind
    intro kind
    cases kind with
    | none => exact hnamed
    | some readonly => exact (h item (by simp)).type.bind fun t => .pure _
  · exact hnamed

theorem moduleType_agrees (specifier : String) (qualifier : Option EntityName)
    {args : List TypeExpr} (isTypeof : Bool)
    (h : ∀ u ∈ args, by_.AgreeOn names by' (.written u)) :
    Agrees (· = names) (moduleType by_.type specifier qualifier args isTypeof)
      (moduleType by'.type specifier qualifier args isTypeof) := by
  have hshown (id : SymbolId) (shown : String) : Agrees (· = names)
      (if isTypeof then return .typeof id shown else do
        return DocType.reference id shown (← args.mapM by_.type))
      (if isTypeof then return .typeof id shown else do
        return DocType.reference id shown (← args.mapM by'.type)) := by
    split
    · exact .pure _
    · exact (types_agree h).bind fun args => .pure _
  have hmodule : Agrees (· = names) (inModule? specifier (qualifier.elim [] EntityName.texts))
      (inModule? specifier (qualifier.elim [] EntityName.texts)) :=
    Agrees.read.bind fun ctx => .walking _
  apply hmodule.bind
  intro r
  cases r with
  | none => exact (Agrees.walking _).bind fun id => hshown id _
  | some r => exact (Agrees.walking _).bind fun id => hshown id _

variable {known : Set String}

theorem reference_runAt (type : TypeExpr → Describe DocType) (name : EntityName)
    (args : List TypeExpr) (ctx : Context) (d : Describing) :
    (reference type name args).runAt ctx d =
      (if name.isSimple && d.typeParams.contains name.head.text then
        return .typeParameter name.head.text
      else freeReference type name args).runAt ctx d := rfl

open Classical in
theorem reference_agrees {name : EntityName} {args : List TypeExpr}
    (hname : name.isSimple = true → (name.head.text ∈ names ↔ name.head.text ∈ known))
    (h : ∀ u ∈ args, by_.AgreeOn names by' (.written u)) :
    Agrees (· = names) (reference by_.type name args)
      (if name.isSimple ∧ name.head.text ∈ known then return .typeParameter name.head.text
        else freeReference by'.type name args) := by
  intro ctx d e hd hw
  subst hd
  rw [reference_runAt]
  by_cases hbound : name.isSimple = true ∧ name.head.text ∈ known
  · have hin := (hname hbound.1).mpr hbound.2
    simp only [hbound, hin, and_self, List.contains_eq_mem, decide_true, Bool.and_self, if_true]
    exact Agrees.pure (P := (· = d.typeParams)) _ ctx d e rfl hw
  · have hout : (name.isSimple && d.typeParams.contains name.head.text) = false := by
      rw [Bool.and_eq_false_iff]
      by_contra hn
      push Not at hn
      simp only [ne_eq, Bool.not_eq_false, List.contains_eq_mem, decide_eq_true_eq] at hn
      exact hbound ⟨hn.1, (hname hn.1).mp hn.2⟩
    simp only [hbound, hout, if_false, Bool.false_eq_true]
    exact freeReference_agrees name h ctx d e rfl hw

/-- Two attempts, with more type parameters in scope for the first description, go on alike. -/
theorem Agrees.both {α β γ : Type} {names more : List String} {x x' : Describe α}
    {y y' : Describe β} {f g : α → β → Describe γ} (hx : Agrees (· = names ++ more) x x')
    (hy : Agrees (· = names ++ more) y y') (hf : ∀ a b, Agrees (· = names) (f a b) (g a b)) :
    Agrees (· = names)
      (do
        let (a, b) ← Describe.withTypeParams more do
          return (← Describe.attempt x, ← Describe.attempt y)
        let a ← Describe.outcome a
        let b ← Describe.outcome b
        f a b)
      (do
        let a ← Describe.attempt x'
        let b ← Describe.attempt y'
        let a ← Describe.outcome a
        let b ← Describe.outcome b
        g a b) := by
  have hboth : Agrees (· = names)
      (Describe.withTypeParams more do return (← Describe.attempt x, ← Describe.attempt y))
      (do return (← Describe.attempt x', ← Describe.attempt y')) := by
    apply Agrees.scoped
    apply hx.attempt.bind
    intro a
    exact hy.attempt.bind fun b => .pure (a, b)
  have hall := hboth.bind fun r => (Agrees.outcome r.1).bind fun a =>
    (Agrees.outcome r.2).bind fun b => hf a b
  simp only [bind_assoc, pure_bind] at hall ⊢
  exact hall

/-- Where a branch is missing, nothing that comes after it is described. -/
theorem missingBranch_agrees {β : Type} (whole : Span) (name : String)
    (f g : TypeExpr → Describe β) :
    Agrees P (branch whole name none >>= f) (branch whole name none >>= g) :=
  fun _ _ _ hd hw => ⟨rfl, hw, hd⟩

theorem conditional_agrees {inside : TypeExpr → Describe DocType} (whole : Span)
    {check bound : TypeExpr} {whenTrue whenFalse : Option TypeExpr}
    (hcheck : by_.AgreeOn names by' (.written check))
    (hbound : ∀ u ∈ whenTrue.toList, Agrees (· = names ++ bound.inferredNames)
      (by_.type bound) (by'.type bound))
    (htrue : ∀ u ∈ whenTrue.toList, Agrees (· = names ++ bound.inferredNames)
      (by_.type u) (inside u))
    (hfalse : ∀ u ∈ whenFalse.toList, by_.AgreeOn names by' (.written u)) :
    Agrees (· = names) (conditional by_.type whole check bound whenTrue whenFalse)
      (conditionalIn by'.type inside whole check bound whenTrue whenFalse) := by
  have hbranch (name : String) (u : TypeExpr) : branch whole name (some u) = pure u := rfl
  unfold conditional conditionalIn
  cases whenTrue with
  | none => exact missingBranch_agrees whole "true" _ _
  | some whenTrue =>
    rw [hbranch, pure_bind, pure_bind]
    cases whenFalse with
    | none => exact missingBranch_agrees whole "false" _ _
    | some whenFalse =>
      rw [hbranch, pure_bind, pure_bind]
      apply hcheck.type.bind
      intro check
      -- what comes of clause and outcome is looked at only after the names are out of scope again
      have hbound := hbound whenTrue (by simp)
      have htrue := htrue whenTrue (by simp)
      refine hbound.both htrue fun bound whenTrue => ?_
      exact (hfalse whenFalse (by simp)).type.bind fun whenFalse => .pure _

theorem mapped_agrees {inside : TypeExpr → Describe DocType} (readonly : Option MappedModifier)
    {param : Ident} {keys : TypeExpr} {rename : Option TypeExpr}
    (isOptional : Option MappedModifier) {value : Option TypeExpr}
    (hkeys : by_.AgreeOn names by' (.written keys))
    (hinside : ∀ u ∈ rename.toList ++ value.toList,
      Agrees (· = names ++ [param.text]) (by_.type u) (inside u)) :
    Agrees (· = names) (mapped by_.type readonly param keys rename isOptional value)
      (mappedIn by'.type inside readonly param keys rename isOptional value) := by
  unfold mapped mappedIn
  -- the keys come before the parameter is in scope
  apply hkeys.type.bind
  intro keys
  have hrename := Agrees.optional fun u hu => hinside u (List.mem_append_left _ hu)
  have hvalue := Agrees.optional fun u hu => hinside u (List.mem_append_right _ hu)
  exact hrename.both hvalue fun rename value => .pure _

theorem operated_agrees (whole : Span) (op : TypeOperator) {operand : TypeExpr}
    (hoperand : by_.AgreeOn names by' (.written operand))
    (hitems : ∀ u, (.under [], .written u) ∈ operand.parts → by_.AgreeOn names by' (.written u)) :
    Agrees (· = names) (operated by_.type whole op operand)
      (operated by'.type whole op operand) := by
  unfold operated
  split
  · next item hs =>
    have hitem : (Position.under [], TypePart.written item) ∈ operand.parts := by
      simp [TypeExpr.parts, hs, partsUnder]
    exact (hitems item hitem).type.bind fun t => .pure _
  · next items hs =>
    refine Agrees.bind (.mapM fun i hi => tupleItem_agrees (hitems i.type ?_)) fun t => .pure _
    simp only [TypeExpr.parts, hs, partsUnder, List.map_map]
    exact List.mem_map.mpr ⟨i, hi, rfl⟩
  · exact hoperand.type.bind fun t => .pure _
  · exact (Agrees.written whole).bind fun t => .pure _

theorem members_agree {L : Set String → Depth} {ms : List TypeMember}
    (h : ∀ m ∈ ms, ∀ u ∈ m.parts, by_.AgreeOn (names ++ m.names) (within L known m.names) u) :
    Agrees (· = names) (members by_.type by_.inferred ms) (membersIn L known ms) :=
  (Agrees.mapM fun m hm => member_agrees (h m hm)).bind fun _ => .pure _

/-- Where ways of describing agree on all parts that fit, one level of a written type agrees with
the same level in its lexical scope. -/
theorem writtenType_agrees {L : Set String → Depth}
    (hparts : ∀ names known u, u.Fits names known → by_.AgreeOn names (L known) u) {t : TypeExpr}
    (h : (TypePart.written t).Fits names known) :
    Agrees (· = names) (writtenType by_.type by_.inferred t) (typeIn L known t) := by
  have hplain (u : TypePart) (hu : (.under [], u) ∈ t.parts) : by_.AgreeOn names (L known) u :=
    hparts names known u (h.plain hu)
  have hunder (more : List String) (u : TypePart) (hu : (.under more, u) ∈ t.parts) :
      by_.AgreeOn (names ++ more) (within L known more) u :=
    hparts _ _ u (h.under hu)
  obtain ⟨span, shape⟩ := t
  have hall {ts : List TypeExpr}
      (heq : TypeExpr.parts ⟨span, shape⟩ = partsUnder [] (ts.map .written)) :
      ∀ u ∈ ts, by_.AgreeOn names (L known) (.written u) :=
    fun u hu => hplain _ (heq ▸ List.mem_map_of_mem (List.mem_map_of_mem hu))
  cases shape with
  | keyword word => exact .pure _
  | reference name args =>
    exact reference_agrees (fun hs => h.agree _ (.here rfl hs rfl)) (hall rfl)
  | query name args => exact (Agrees.entity name.texts).bind fun id => .pure _
  | array item | parenthesized item =>
    have hitem := hplain (.written item) (by simp [TypeExpr.parts, partsUnder])
    exact hitem.type.bind fun t => .pure _
  | operator op operand =>
    have hmem : (.under [], .written operand) ∈ TypeExpr.parts ⟨span, .operator op operand⟩ := by
      simp [TypeExpr.parts, partsUnder]
    exact operated_agrees span op (hplain _ hmem) fun u hu =>
      hparts _ _ _ ((h.plain hmem).plain hu)
  | union parts | intersection parts => exact (types_agree (hall rfl)).bind fun ts => .pure _
  | infer name bound =>
    exact (Agrees.optional fun u hu => (hall rfl u hu).type).bind fun t => .pure _
  | tuple items =>
    have hitems : ∀ i ∈ items, by_.AgreeOn names (L known) (.written i.type) := fun i hi =>
      hplain _ (List.mem_map_of_mem (List.mem_map_of_mem hi))
    exact (Agrees.mapM fun i hi => tupleItem_agrees (hitems i hi)).bind fun is => .pure _
  | object ms =>
    refine (members_agree fun m hm u hu => hunder m.names u ?_).bind fun ms => .pure _
    exact List.mem_flatMap.mpr ⟨m, hm, List.mem_map_of_mem hu⟩
  | indexed object index =>
    have hobject := hplain (.written object) (by simp [TypeExpr.parts, partsUnder])
    have hindex := hplain (.written index) (by simp [TypeExpr.parts, partsUnder])
    exact hobject.type.bind fun object => hindex.type.bind fun index => .pure _
  | conditional check bound whenTrue whenFalse =>
    apply conditional_agrees
    · exact hplain _ (by simp [TypeExpr.parts, partsUnder])
    · -- the clause finds in scope what it infers, but does not mention it
      intro u hu
      obtain rfl := Option.mem_toList.mp hu
      exact (hparts _ _ _ (h.clause rfl)).type
    · -- the outcome finds in scope what is inferred anywhere in the clause
      intro u hu
      obtain rfl := Option.mem_toList.mp hu
      exact (hparts _ _ _ (h.outcome rfl)).type
    · exact fun u hu => hplain _ (by simp [TypeExpr.parts, partsUnder, Option.mem_toList.mp hu])
  | literal value => cases value <;> exact .pure _
  | mapped readonly param keys rename isOptional value =>
    apply mapped_agrees
    · exact hplain _ (by simp [TypeExpr.parts, partsUnder])
    · intro u hu
      refine (hunder [param.text] (.written u) ?_).type
      exact List.mem_append_right _ (List.mem_map_of_mem (List.mem_map_of_mem hu))
  | function s | constructor s isAbstract =>
    exact (signature_agrees fun u hu => hunder s.names u (List.mem_map_of_mem hu)).bind
      fun s => .pure _
  | predicate asserts param t =>
    exact (Agrees.optional fun u hu => (hall rfl u hu).type).bind fun t => .pure _
  | moduleType specifier qualifier args isTypeof =>
    exact moduleType_agrees specifier qualifier isTypeof (hall rfl)
  | template | unsupported => exact (Agrees.written span).bind fun t => .pure _

/-- Where ways of describing agree on all parts that fit, one level of what an initializer shows
agrees with the same level in its lexical scope. -/
theorem shownType_agrees {L : Set String → Depth}
    (hparts : ∀ names known u, u.Fits names known → by_.AgreeOn names (L known) u)
    {t : InferredType} (h : (TypePart.shown t).Fits names known) :
    Agrees (· = names) (shownType by_.type by_.inferred t) (shownIn L known t) := by
  have hplain (u : TypePart) (hu : (.under [], u) ∈ t.parts) : by_.AgreeOn names (L known) u :=
    hparts names known u (h.plain hu)
  have hunder (more : List String) (u : TypePart) (hu : (.under more, u) ∈ t.parts) :
      by_.AgreeOn (names ++ more) (within L known more) u :=
    hparts _ _ u (h.under hu)
  have hall {ts : List InferredType} (heq : t.parts = partsUnder [] (ts.map .shown)) :
      ∀ u ∈ ts, by_.AgreeOn names (L known) (.shown u) :=
    fun u hu => hplain _ (heq ▸ List.mem_map_of_mem (List.mem_map_of_mem hu))
  cases t with
  | intrinsic | string | number | bigInt | boolean => exact .pure _
  | array item =>
    have hitem := hplain (.shown item) (List.mem_singleton_self _)
    exact hitem.inferred.bind fun t => .pure _
  | tuple readonly items =>
    refine Agrees.bind (.mapM fun u hu => ?_) fun is => .pure _
    exact (hall rfl u hu).inferred.bind fun t => .pure _
  | union parts =>
    exact (Agrees.mapM fun u hu => (hall rfl u hu).inferred).bind fun ts => .pure _
  | object readonly ms =>
    refine Agrees.bind (.mapM fun m hm => ?_) fun ms => .pure _
    cases m with
    | property name t =>
      have hmem : (.under [], .shown t) ∈ InferredType.parts (.object readonly ms) :=
        List.mem_flatMap.mpr ⟨_, hm, List.mem_singleton_self _⟩
      exact (hplain _ hmem).inferred.bind fun t => .pure _
    | method name s =>
      obtain ⟨s, returned⟩ := s
      refine (signature_agrees fun u hu => hunder s.names u ?_).bind fun s => .pure _
      exact List.mem_flatMap.mpr ⟨_, hm, List.mem_map_of_mem hu⟩
  | query path | «instance» path => exact (Agrees.entity path).bind fun id => .pure _
  | written t => exact (hplain (.written t) (List.mem_singleton_self _)).type
  | global name args =>
    apply (Agrees.mapM fun u hu => (hall rfl u hu).inferred).bind
    intro args
    exact (Agrees.entity [name]).bind fun id => .pure _
  | function s =>
    obtain ⟨s, returned⟩ := s
    exact (signature_agrees fun u hu => hunder s.names u (List.mem_map_of_mem hu)).bind
      fun s => .pure _

/-- At every depth, what is described with type parameters in scope agrees with the same in its
lexical scope. -/
theorem ofLevels_agrees (n : ℕ) : ∀ names known u, TypePart.Fits names known u →
    (Depth.ofLevels n).AgreeOn names (lexical n known) u := by
  -- names and scope differ from part to part, so all that fit are taken at once
  induction n with
  | zero =>
    intro names known u _
    cases u with
    | written t =>
      have hraw : Agrees (· = names) (typeWithin 0 t) ((lexical 0 known).type t) :=
        (Agrees.written t.span).bind fun text => .pure _
      exact hraw
    | shown t =>
      have hany : Agrees (· = names) (inferredWithin 0 t) ((lexical 0 known).inferred t) := .pure _
      exact hany
  | succ n ih =>
    intro names known u h
    cases u with
    | written t => exact writtenType_agrees ih h
    | shown t => exact shownType_agrees ih h

end

end Describe

end ApiSurface
