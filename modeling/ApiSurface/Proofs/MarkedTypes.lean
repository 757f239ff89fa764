import ApiSurface.Extraction.Symbols
import ApiSurface.Proofs.AgreeingSteps
import ApiSurface.Proofs.TypeLevels
/-!
Descriptions that may leave a mark: a symbol of another package is mentioned where a description
stops for want of levels. Another description does all that such a one does as long as no mark is
left, and what comes of it has a property that all types inside have too: one rule for each way of
taking steps, and one for each form of type.
-/
namespace ApiSurface

namespace Describe

/-- Describes a part of a type. -/
def Depth.describe (by_ : Depth) : TypePart → Describe DocType
  | .written t => by_.type t
  | .shown t => by_.inferred t

/-- One more level of types. -/
def Depth.deeper (by_ : Depth) : Depth :=
  ⟨writtenType by_.type by_.inferred, shownType by_.type by_.inferred⟩

/-- Mentions a symbol instead of a description. -/
def mark (e : ExternalSymbol) : Describe DocType := do
  let _ ← walking fun _ => Walk.referExternal e
  return .any

/-- A name that is not mentioned outside of the package. -/
def Unmarked (id : SymbolId) (d : Describing) : Prop := id ∉ d.walk.externals.keys

/-! ### Steps that may leave a mark -/

variable {α β γ : Type} {id : SymbolId} {ctx : Context} {P : α → Prop} {Q : β → Prop}

/-- A step never takes a mark away, another one does all that it does if no mark is left, and what
it comes to has a property. -/
structure UnlessMarked (id : SymbolId) (ctx : Context) (x y : Describe α) (P : α → Prop) :
    Prop where
  stays : ∀ d, Unmarked id (x.runAt ctx d).2 → Unmarked id d
  agrees : ∀ d, Unmarked id (x.runAt ctx d).2 → y.runAt ctx d = x.runAt ctx d
  result : ∀ d a, (x.runAt ctx d).1 = .ok a → P a

namespace UnlessMarked

theorem mono {P' : α → Prop} {x y : Describe α} (h : UnlessMarked id ctx x y P)
    (hP : ∀ a, P a → P' a) : UnlessMarked id ctx x y P' where
  stays := h.stays
  agrees := h.agrees
  result d a ha := hP a (h.result d a ha)

theorem pure {a : α} (h : P a) :
    UnlessMarked id ctx (Pure.pure a : Describe α) (Pure.pure a) P where
  stays _ hd := hd
  agrees _ _ := rfl
  result d b hb := by
    obtain rfl : a = b := Except.ok.inj hb
    exact h

theorem bind {x y : Describe α} {f g : α → Describe β} (hx : UnlessMarked id ctx x y P)
    (hf : ∀ a, P a → UnlessMarked id ctx (f a) (g a) Q) :
    UnlessMarked id ctx (x >>= f) (y >>= g) Q := by
  constructor
  · intro d h
    rw [runAt_bind] at h
    rcases hrun : x.runAt ctx d with ⟨r, d'⟩
    apply hx.stays d
    rw [hrun] at h ⊢
    cases r with
    | ok a => exact (hf a (hx.result d a (congrArg Prod.fst hrun))).stays d' h
    | error e => exact h
  · intro d h
    rw [runAt_bind] at h
    rw [runAt_bind, runAt_bind]
    rcases hrun : x.runAt ctx d with ⟨r, d'⟩
    rw [hrun] at h
    -- the mark that the first step would leave would stay
    have hfirst : y.runAt ctx d = (r, d') := by
      rw [← hrun]
      apply hx.agrees d
      rw [hrun]
      cases r with
      | ok a => exact (hf a (hx.result d a (congrArg Prod.fst hrun))).stays d' h
      | error e => exact h
    rw [hfirst]
    cases r with
    | ok a => exact (hf a (hx.result d a (congrArg Prod.fst hrun))).agrees d' h
    | error e => rfl
  · intro d b hb
    rw [runAt_bind] at hb
    rcases hrun : x.runAt ctx d with ⟨r, d'⟩
    rw [hrun] at hb
    cases r with
    | ok a => exact (hf a (hx.result d a (congrArg Prod.fst hrun))).result d' b hb
    | error e => cases hb

/-- What comes of the first step may not matter. -/
theorem after {x y : Describe α} {f g : α → Describe β}
    (hx : UnlessMarked id ctx x y fun _ => True) (hf : ∀ a, UnlessMarked id ctx (f a) (g a) Q) :
    UnlessMarked id ctx (x >>= f) (y >>= g) Q :=
  hx.bind fun a _ => hf a

theorem map {f : α → β} {x y : Describe α} (h : UnlessMarked id ctx x y P)
    (hf : ∀ a, P a → Q (f a)) : UnlessMarked id ctx (f <$> x) (f <$> y) Q := by
  rw [map_eq_pure_bind, map_eq_pure_bind]
  exact h.bind fun a ha => .pure (hf a ha)

theorem mapM {f g : α → Describe β} {l : List α}
    (h : ∀ a ∈ l, UnlessMarked id ctx (f a) (g a) Q) :
    UnlessMarked id ctx (l.mapM f) (l.mapM g) fun bs => ∀ b ∈ bs, Q b := by
  induction l with
  | nil => exact .pure (List.forall_mem_nil Q)
  | cons a l ih =>
    obtain ⟨ha, hl⟩ := List.forall_mem_cons.mp h
    rw [List.mapM_cons, List.mapM_cons]
    apply ha.bind
    intro b hb
    apply (ih hl).bind
    intro bs hbs
    exact .pure (List.forall_mem_cons.mpr ⟨hb, hbs⟩)

theorem optional {f g : α → Describe β} {o : Option α}
    (h : ∀ a ∈ o.toList, UnlessMarked id ctx (f a) (g a) Q) :
    UnlessMarked id ctx (Describe.optional f o) (Describe.optional g o)
      fun r => ∀ b ∈ r.toList, Q b := by
  cases o with
  | none => exact .pure (List.forall_mem_nil Q)
  | some a => exact (h a List.mem_cons_self).map fun b hb => List.forall_mem_singleton.mpr hb

theorem attempt {x y : Describe α} (h : UnlessMarked id ctx x y P) :
    UnlessMarked id ctx (Describe.attempt x) (Describe.attempt y)
      fun r => ∀ a, r = .ok a → P a where
  stays := h.stays
  agrees d hd := congrArg (fun r => (Except.ok r.1, r.2)) (h.agrees d hd)
  result d r hr := by
    rintro a rfl
    exact h.result d a (Except.ok.inj hr)

theorem outcome {r : Except DescribeError α} (hr : ∀ a, r = .ok a → P a) :
    UnlessMarked id ctx (Describe.outcome r) (Describe.outcome r) P where
  stays _ hd := hd
  agrees _ _ := rfl
  result _ a ha := hr a ha

theorem withTypeParams (names : List String) {x y : Describe α}
    (h : UnlessMarked id ctx x y P) :
    UnlessMarked id ctx (Describe.withTypeParams names x) (Describe.withTypeParams names y) P where
  stays d hd := h.stays { d with typeParams := d.typeParams ++ names } hd
  agrees d hd := by
    rw [withTypeParams_runAt, withTypeParams_runAt]
    rw [h.agrees { d with typeParams := d.typeParams ++ names } hd]
  result d a ha := h.result { d with typeParams := d.typeParams ++ names } a ha

/-- Two attempts with more type parameters in scope, and what comes after them. -/
theorem both (names : List String) {R : γ → Prop} {x x' : Describe α} {y y' : Describe β}
    {f g : α → β → Describe γ} (hx : UnlessMarked id ctx x x' P) (hy : UnlessMarked id ctx y y' Q)
    (hf : ∀ a b, P a → Q b → UnlessMarked id ctx (f a b) (g a b) R) :
    UnlessMarked id ctx
      (do
        let (a, b) ← Describe.withTypeParams names do
          return (← Describe.attempt x, ← Describe.attempt y)
        let a ← Describe.outcome a
        let b ← Describe.outcome b
        f a b)
      (do
        let (a, b) ← Describe.withTypeParams names do
          return (← Describe.attempt x', ← Describe.attempt y')
        let a ← Describe.outcome a
        let b ← Describe.outcome b
        g a b) R := by
  have hattempts : UnlessMarked id ctx
      (do return (← Describe.attempt x, ← Describe.attempt y))
      (do return (← Describe.attempt x', ← Describe.attempt y'))
      fun r => (∀ a, r.1 = .ok a → P a) ∧ ∀ b, r.2 = .ok b → Q b :=
    hx.attempt.bind fun r hr => hy.attempt.bind fun r' hr' => .pure ⟨hr, hr'⟩
  apply (hattempts.withTypeParams names).bind
  rintro ⟨r, r'⟩ ⟨hr, hr'⟩
  apply (UnlessMarked.outcome hr).bind
  intro a ha
  exact (UnlessMarked.outcome hr').bind fun b hb => hf a b ha hb

theorem read :
    UnlessMarked id ctx (MonadReader.read : Describe Context) MonadReader.read fun _ => True :=
  ⟨fun _ hd => hd, fun _ _ => rfl, fun _ _ _ => trivial⟩

theorem get :
    UnlessMarked id ctx (MonadState.get : Describe Describing) MonadState.get fun _ => True :=
  ⟨fun _ hd => hd, fun _ _ => rfl, fun _ _ _ => trivial⟩

/-- Whatever is noted in the graph, what was mentioned before stays mentioned. -/
theorem walking {f : Program → StateM Walk α} {ids : α → List SymbolId}
    (h : ∀ p, Walk.Noting p [] (f p) ids) :
    UnlessMarked id ctx (Describe.walking f) (Describe.walking f) fun _ => True := by
  refine ⟨fun d hd hmem => hd ?_, fun _ _ => rfl, fun _ _ _ => trivial⟩
  obtain ⟨hgrows, -⟩ := h ctx.program d.walk (List.forall_mem_nil _)
  exact hgrows.externals hmem

theorem isTypeParam (name : String) :
    UnlessMarked id ctx (Describe.isTypeParam name) (Describe.isTypeParam name) fun _ => True :=
  get.after fun _ => .pure trivial

theorem written (span : Span) :
    UnlessMarked id ctx (Describe.written span) (Describe.written span) (· = ctx.textOf span) where
  stays _ hd := hd
  agrees _ _ := rfl
  result _ _ ha := (Except.ok.inj ha).symm

theorem entity (parts : List String) :
    UnlessMarked id ctx (Describe.entity parts) (Describe.entity parts) fun _ => True :=
  read.after fun _ => .walking fun _ => Walk.referEntity_noting _ _

end UnlessMarked

/-- Where the mark is left, nothing needs to be the same. -/
theorem mark_unlessMarked {e : ExternalSymbol} {P : DocType → Prop} (hany : P .any)
    (y : Describe DocType) : UnlessMarked e.id ctx (mark e) y P := by
  have hmarked (d : Describing) : ¬ Unmarked e.id ((mark e).runAt ctx d).2 := by
    intro h
    apply h
    show e.id ∈ ((d.walk.mention e.id).externals.insertNew e.id e).keys
    exact Table.mem_keys_insertNew.mpr (Or.inl rfl)
  refine ⟨fun d h => absurd h (hmarked d), fun d h => absurd h (hmarked d), fun d a ha => ?_⟩
  obtain rfl : DocType.any = a := Except.ok.inj ha
  exact hany

/-! ### One level of a type -/

section

variable {by_ by' : Depth} {Q : DocType → Prop} {R : String → Prop}

/-- The same for two ways to describe types, on some parts of a type. -/
abbrev UnlessMarkedOn (id : SymbolId) (ctx : Context) (by_ by' : Depth) (Q : DocType → Prop)
    (parts : List TypePart) : Prop :=
  ∀ u ∈ parts, UnlessMarked id ctx (by_.describe u) (by'.describe u) Q

theorem types_unlessMarked {ts : List TypeExpr}
    (h : UnlessMarkedOn id ctx by_ by' Q (ts.map .written)) :
    UnlessMarked id ctx (ts.mapM by_.type) (ts.mapM by'.type) fun rs => ∀ r ∈ rs, Q r :=
  .mapM (List.forall_mem_map.mp h)

theorem optional_unlessMarked {t : Option TypeExpr}
    (h : UnlessMarkedOn id ctx by_ by' Q (t.toList.map .written)) :
    UnlessMarked id ctx (optional by_.type t) (optional by'.type t)
      fun r => ∀ p ∈ r.toList, Q p :=
  .optional (List.forall_mem_map.mp h)

theorem typeOrAny_unlessMarked (hQ : Inherited Q) {t : Option TypeExpr}
    (h : UnlessMarkedOn id ctx by_ by' Q (t.toList.map .written)) :
    UnlessMarked id ctx (typeOrAny by_.type t) (typeOrAny by'.type t) Q := by
  cases t with
  | none => exact .pure hQ.any
  | some t => exact h (.written t) List.mem_cons_self

theorem typeParams_unlessMarked {ps : List TypeParam}
    (h : UnlessMarkedOn id ctx by_ by' Q (typeParamParts ps)) :
    UnlessMarked id ctx (typeParams by_.type ps) (typeParams by'.type ps)
      fun rs => ∀ p ∈ rs.flatMap DocTypeParam.parts, Q p := by
  suffices hrows : UnlessMarked id ctx (typeParams by_.type ps) (typeParams by'.type ps)
      fun rs => ∀ r ∈ rs, ∀ p ∈ r.parts, Q p from
    hrows.mono fun rs hrs => List.forall_mem_flatMap.mpr hrs
  apply UnlessMarked.mapM
  intro q hq
  have hparts := List.forall_mem_flatMap.mp h q hq
  rw [List.map_append] at hparts
  obtain ⟨hbound, hfallback⟩ := List.forall_mem_append.mp hparts
  apply (optional_unlessMarked hbound).bind
  intro bound hbound
  apply (optional_unlessMarked hfallback).bind
  intro fallback hfallback
  exact .pure (List.forall_mem_append.mpr ⟨hbound, hfallback⟩)

theorem param_unlessMarked {q : Param}
    (h : UnlessMarked id ctx (by_.describe q.part) (by'.describe q.part) Q) :
    UnlessMarked id ctx (param by_.type by_.inferred q) (param by'.type by'.inferred q)
      fun r => Q r.type := by
  unfold Param.part at h
  unfold param
  cases htype : q.type with
  | some t =>
    rw [htype] at h
    exact UnlessMarked.bind h fun t ht => .pure ht
  | none =>
    rw [htype] at h
    exact UnlessMarked.bind h fun t ht => .pure ht

theorem signature_unlessMarked (hQ : Inherited Q) {s : Signature} {returned : Option InferredType}
    (h : UnlessMarkedOn id ctx by_ by' Q (s.parts returned)) (docs : Option String)
    (isConstructor : Bool) :
    UnlessMarked id ctx (signature by_.type by_.inferred s docs isConstructor returned)
      (signature by'.type by'.inferred s docs isConstructor returned)
      fun r => ∀ p ∈ r.parts, Q p := by
  obtain ⟨hrest, hreturns⟩ := List.forall_mem_append.mp h
  obtain ⟨htypeParams, hparams⟩ := List.forall_mem_append.mp hrest
  apply UnlessMarked.withTypeParams
  apply (typeParams_unlessMarked htypeParams).bind
  intro typeParams htypeParams
  have hparam := List.forall_mem_map.mp hparams
  apply (UnlessMarked.mapM fun q hq => param_unlessMarked (hparam q hq)).bind
  intro params hparams
  have hdone {t : DocType} (ht : Q t) :
      ∀ p ∈ (DocSignature.mk docs typeParams params t isConstructor).parts, Q p := by
    refine List.forall_mem_append.mpr ⟨?_, List.forall_mem_singleton.mpr ht⟩
    exact List.forall_mem_append.mpr ⟨htypeParams, List.forall_mem_map.mpr hparams⟩
  cases hwritten : s.returns with
  | some t =>
    rw [hwritten] at hreturns
    have ht := hreturns (.written t) List.mem_cons_self
    exact UnlessMarked.bind ht fun t ht => .pure (hdone ht)
  | none =>
    rw [hwritten] at hreturns
    cases returned with
    | some t =>
      have ht := hreturns (.shown t) List.mem_cons_self
      exact UnlessMarked.bind ht fun t ht => .pure (hdone ht)
    | none => exact .pure (hdone hQ.any)

/-- The type that is written for a parameter. -/
theorem annotation_unlessMarked (hQ : Inherited Q) {q : Param}
    (h : UnlessMarked id ctx (by_.describe q.part) (by'.describe q.part) Q) :
    UnlessMarked id ctx (typeOrAny by_.type q.type) (typeOrAny by'.type q.type) Q := by
  unfold Param.part at h
  cases htype : q.type with
  | none => exact .pure hQ.any
  | some t => rwa [htype] at h

theorem indexKey_unlessMarked (hQ : Inherited Q) {params : List Param}
    (h : UnlessMarkedOn id ctx by_ by' Q (params.map Param.part)) :
    UnlessMarked id ctx (indexKey by_.type params) (indexKey by'.type params)
      fun r => Q r.2 := by
  cases params with
  | nil => exact .pure hQ.any
  | cons q params =>
    have hkey := annotation_unlessMarked hQ (h q.part List.mem_cons_self)
    exact hkey.bind fun t ht => .pure ht

theorem member_unlessMarked (hQ : Inherited Q) (all : List TypeMember) {m : TypeMember}
    (h : UnlessMarkedOn id ctx by_ by' Q m.parts) :
    UnlessMarked id ctx (member by_.type by_.inferred all m) (member by'.type by'.inferred all m)
      fun r => ∀ x ∈ r, ∀ p ∈ x.parts, Q p := by
  have hsome {x : DocMember} (hx : ∀ p ∈ x.parts, Q p) : ∀ y ∈ some x, ∀ p ∈ y.parts, Q p := by
    intro y hy
    obtain rfl := Option.some.inj hy
    exact hx
  unfold TypeMember.parts at h
  unfold member
  cases hshape : m.shape with
  | property name optional readonly t =>
    rw [hshape] at h
    apply (typeOrAny_unlessMarked hQ h).bind
    intro t ht
    exact .pure (hsome (List.forall_mem_singleton.mpr (hQ.ofProperty optional ht)))
  | method name optional s =>
    rw [hshape] at h
    exact (signature_unlessMarked hQ h none false).bind fun s hs => .pure (hsome hs)
  | call s =>
    rw [hshape] at h
    exact (signature_unlessMarked hQ h none false).bind fun s hs => .pure (hsome hs)
  | construct s =>
    rw [hshape] at h
    exact (signature_unlessMarked hQ h none true).bind fun s hs => .pure (hsome hs)
  | index params t readonly =>
    rw [hshape] at h
    obtain ⟨hparams, ht⟩ := List.forall_mem_append.mp h
    apply (indexKey_unlessMarked hQ hparams).bind
    rintro ⟨keyName, key⟩ hkey
    apply (typeOrAny_unlessMarked hQ ht).bind
    intro t ht
    exact .pure (hsome (List.forall_mem_cons.mpr ⟨hkey, List.forall_mem_singleton.mpr ht⟩))
  | getter name t =>
    rw [hshape] at h
    apply (typeOrAny_unlessMarked hQ h).bind
    intro t ht
    exact .pure (hsome (List.forall_mem_singleton.mpr ht))
  | setter name q =>
    rw [hshape] at h
    dsimp only
    split
    · exact .pure fun x hx => absurd hx (Option.not_mem_none x)
    · refine UnlessMarked.bind ?_ fun t ht => .pure (hsome (List.forall_mem_singleton.mpr ht))
      cases q with
      | none => exact .pure hQ.any
      | some q => exact annotation_unlessMarked hQ (h q.part List.mem_cons_self)

theorem members_unlessMarked (hQ : Inherited Q) {ms : List TypeMember}
    (h : ∀ m ∈ ms, UnlessMarkedOn id ctx by_ by' Q m.parts) :
    UnlessMarked id ctx (members by_.type by_.inferred ms) (members by'.type by'.inferred ms)
      fun rs => ∀ p ∈ rs.flatMap DocMember.parts, Q p := by
  apply (UnlessMarked.mapM fun m hm => member_unlessMarked hQ ms (h m hm)).bind
  intro rs hrs
  refine .pure (List.forall_mem_flatMap.mpr fun x hx => ?_)
  exact hrs (some x) (List.reduceOption_mem_iff.mp hx) x rfl

/-- The rest of a tuple has the type of its items. -/
theorem tupleItem_unlessMarked (hQ : Inherited Q) {i : TupleItem}
    (h : UnlessMarked id ctx (by_.describe (.written i.type)) (by'.describe (.written i.type)) Q) :
    UnlessMarked id ctx (tupleItem by_.type i) (tupleItem by'.type i) fun r => Q r.type := by
  apply UnlessMarked.bind h
  intro t ht
  split
  · split
    · exact .pure (hQ.part ht List.mem_cons_self)
    · exact .pure ht
  · exact .pure ht

theorem tupleItems_unlessMarked (hQ : Inherited Q) {items : List TupleItem}
    (h : UnlessMarkedOn id ctx by_ by' Q (items.map fun i => .written i.type)) :
    UnlessMarked id ctx (items.mapM (tupleItem by_.type)) (items.mapM (tupleItem by'.type))
      fun rs => ∀ p ∈ rs.map DocTupleItem.type, Q p := by
  have hitem := List.forall_mem_map.mp h
  apply (UnlessMarked.mapM fun i hi => tupleItem_unlessMarked hQ (hitem i hi)).mono
  exact fun rs hrs => List.forall_mem_map.mpr hrs

theorem arrayKind?_unlessMarked (name : EntityName) :
    UnlessMarked id ctx (arrayKind? name) (arrayKind? name) fun _ => True := by
  apply UnlessMarked.read.after
  intro ctx'
  dsimp only
  split <;> exact .pure trivial

theorem reference_unlessMarked (name : EntityName) {args : List TypeExpr}
    (h : UnlessMarkedOn id ctx by_ by' Q (args.map .written)) :
    UnlessMarked id ctx (reference by_.type name args) (reference by'.type name args)
      (Level Q R) := by
  have hnamed : UnlessMarked id ctx
      (do
        let symbol ← entity name.texts
        return .reference symbol name.text (← args.mapM by_.type))
      (do
        let symbol ← entity name.texts
        return .reference symbol name.text (← args.mapM by'.type)) (Level Q R) := by
    apply (UnlessMarked.entity name.texts).after
    intro symbol
    exact (types_unlessMarked h).bind fun args hargs => .pure (.of_parts hargs rfl)
  apply (UnlessMarked.isTypeParam name.head.text).after
  intro isParam
  split
  · exact .pure (.of_leaf rfl rfl)
  · split
    · next item =>
      apply (arrayKind?_unlessMarked name).after
      intro kind
      cases kind with
      | none => exact hnamed
      | some readonly =>
        apply UnlessMarked.bind (h (.written item) List.mem_cons_self)
        exact fun t ht => .pure (.of_parts (List.forall_mem_singleton.mpr ht) rfl)
    · exact hnamed

theorem moduleType_unlessMarked (specifier : String) (qualifier : Option EntityName)
    {args : List TypeExpr} (isTypeof : Bool)
    (h : UnlessMarkedOn id ctx by_ by' Q (args.map .written)) :
    UnlessMarked id ctx (moduleType by_.type specifier qualifier args isTypeof)
      (moduleType by'.type specifier qualifier args isTypeof) (Level Q R) := by
  have hshown (symbol : SymbolId) (shown : String) : UnlessMarked id ctx
      (if isTypeof then return .typeof symbol shown else do
        return DocType.reference symbol shown (← args.mapM by_.type))
      (if isTypeof then return .typeof symbol shown else do
        return DocType.reference symbol shown (← args.mapM by'.type)) (Level Q R) := by
    split
    · exact .pure (.of_leaf rfl rfl)
    · exact (types_unlessMarked h).bind fun args hargs => .pure (.of_parts hargs rfl)
  have hmodule : UnlessMarked id ctx (inModule? specifier (qualifier.elim [] EntityName.texts))
      (inModule? specifier (qualifier.elim [] EntityName.texts)) fun _ => True :=
    UnlessMarked.read.after fun ctx' => .walking fun _ => .ask (Program.membersBy_within _ _)
  apply hmodule.after
  intro r
  cases r with
  | none =>
    exact (UnlessMarked.walking fun _ => Walk.referExternal_noting _).after
      fun symbol => hshown symbol _
  | some r =>
    exact (UnlessMarked.walking fun _ => Walk.refer_noting r).after fun symbol => hshown symbol _

/-- A form that is only shown as written. -/
theorem written_unlessMarked {t : TypeExpr} (h : t.IsShownAsWritten) :
    UnlessMarked id ctx (do return .raw (← written t.span)) (do return .raw (← written t.span))
      (Level Q (t.IsTextOf ctx)) := by
  apply (UnlessMarked.written t.span).bind
  intro text htext
  refine .pure ⟨List.forall_mem_nil Q, fun s hs => ⟨h, ?_⟩⟩
  rw [← DocType.raw.inj hs, htext]

theorem operated_unlessMarked (hQ : Inherited Q) {t operand : TypeExpr} {op : TypeOperator}
    (hshape : t.shape = .operator op operand)
    (h : UnlessMarkedOn id ctx by_ by' Q t.next) :
    UnlessMarked id ctx (operated by_.type t.span op operand)
      (operated by'.type t.span op operand) (Level Q (t.IsTextOf ctx)) := by
  unfold operated
  split
  · next item hitem =>
    simp only [TypeExpr.next, hshape, hitem, List.forall_mem_singleton] at h
    exact UnlessMarked.bind h fun t ht => .pure (.of_parts (List.forall_mem_singleton.mpr ht) rfl)
  · next items hitems =>
    simp only [TypeExpr.next, hshape, hitems] at h
    exact (tupleItems_unlessMarked hQ h).bind fun items hitems => .pure (.of_parts hitems rfl)
  · have hoperand := h (.written operand)
      (by simp [TypeExpr.next, hshape, TypeExpr.parts, partsUnder])
    apply UnlessMarked.bind hoperand
    exact fun t ht => .pure (.of_parts (List.forall_mem_singleton.mpr ht) rfl)
  · next hkeyof harray htuple =>
    exact written_unlessMarked
      (TypeExpr.isShownAsWritten_of_operator hshape hkeyof harray htuple)

theorem branch_unlessMarked (whole : Span) (name : String) (t : Option TypeExpr) :
    UnlessMarked id ctx (branch whole name t) (branch whole name t) fun u => u ∈ t.toList := by
  cases t with
  | some t => exact .pure List.mem_cons_self
  | none =>
    apply UnlessMarked.read.after
    intro ctx'
    exact (UnlessMarked.written whole).bind fun text htext => .outcome fun a ha => by cases ha

theorem conditional_unlessMarked (whole : Span) {check bound : TypeExpr}
    {whenTrue whenFalse : Option TypeExpr}
    (hcheck : UnlessMarked id ctx (by_.type check) (by'.type check) Q)
    (hbound : UnlessMarked id ctx (by_.type bound) (by'.type bound) Q)
    (hwhenTrue : ∀ t ∈ whenTrue.toList, UnlessMarked id ctx (by_.type t) (by'.type t) Q)
    (hwhenFalse : ∀ t ∈ whenFalse.toList, UnlessMarked id ctx (by_.type t) (by'.type t) Q) :
    UnlessMarked id ctx (conditional by_.type whole check bound whenTrue whenFalse)
      (conditional by'.type whole check bound whenTrue whenFalse) (Level Q R) := by
  apply (branch_unlessMarked whole "true" whenTrue).bind
  intro t ht
  apply (branch_unlessMarked whole "false" whenFalse).bind
  intro f hf
  apply hcheck.bind
  intro check hcheck
  apply UnlessMarked.both _ hbound (hwhenTrue t ht)
  intro bound whenTrue hbound hwhenTrue
  apply (hwhenFalse f hf).bind
  intro whenFalse hwhenFalse
  refine .pure (.of_parts ?_ rfl)
  simp only [DocType.parts, List.forall_mem_cons]
  exact ⟨hcheck, hbound, hwhenTrue, hwhenFalse, List.forall_mem_nil Q⟩

theorem mapped_unlessMarked (readonly : Option MappedModifier) (param : Ident) {keys : TypeExpr}
    {rename : Option TypeExpr} (isOptional : Option MappedModifier) {value : Option TypeExpr}
    (hkeys : UnlessMarked id ctx (by_.type keys) (by'.type keys) Q)
    (hrename : ∀ t ∈ rename.toList, UnlessMarked id ctx (by_.type t) (by'.type t) Q)
    (hvalue : ∀ t ∈ value.toList, UnlessMarked id ctx (by_.type t) (by'.type t) Q) :
    UnlessMarked id ctx (mapped by_.type readonly param keys rename isOptional value)
      (mapped by'.type readonly param keys rename isOptional value) (Level Q R) := by
  apply hkeys.bind
  intro keys hkeys
  apply UnlessMarked.both _ (UnlessMarked.optional hrename) (UnlessMarked.optional hvalue)
  intro rename value hrename hvalue
  refine .pure (.of_parts (List.forall_mem_cons.mpr ⟨hkeys, ?_⟩) rfl)
  exact List.forall_mem_append.mpr ⟨hrename, hvalue⟩

theorem writtenType_unlessMarked (hQ : Inherited Q) {t : TypeExpr}
    (h : UnlessMarkedOn id ctx by_ by' Q t.next) :
    UnlessMarked id ctx (writtenType by_.type by_.inferred t)
      (writtenType by'.type by'.inferred t) (Level Q (t.IsTextOf ctx)) := by
  have hnext := h
  unfold TypeExpr.next TypeExpr.parts at h
  unfold writtenType
  revert h
  cases hshape : t.shape with
  | operator op operand => exact fun _ => operated_unlessMarked hQ hshape hnext
  | template | unsupported =>
    exact fun _ => written_unlessMarked (by simp [TypeExpr.IsShownAsWritten, hshape])
  | keyword word => exact fun _ => .pure (.of_leaf rfl rfl)
  | literal value => cases value <;> exact fun _ => .pure (.of_leaf rfl rfl)
  | query name args =>
    exact fun _ => (UnlessMarked.entity name.texts).after fun symbol => .pure (.of_leaf rfl rfl)
  | reference name args => exact fun h => reference_unlessMarked name (forall_mem_partsUnder.mp h)
  | moduleType specifier qualifier args isTypeof =>
    intro h
    exact moduleType_unlessMarked specifier qualifier isTypeof (forall_mem_partsUnder.mp h)
  | union parts | intersection parts =>
    intro h
    apply (types_unlessMarked (forall_mem_partsUnder.mp h)).bind
    exact fun parts hparts => .pure (.of_parts hparts rfl)
  | array item | parenthesized item =>
    intro h
    apply UnlessMarked.bind (h (.written item) List.mem_cons_self)
    exact fun t ht => .pure (.of_parts (List.forall_mem_singleton.mpr ht) rfl)
  | infer name u | predicate asserts param u =>
    intro h
    apply (optional_unlessMarked (forall_mem_partsUnder.mp h)).bind
    exact fun u hu => .pure (.of_parts hu rfl)
  | tuple items =>
    intro h
    apply (tupleItems_unlessMarked hQ (forall_mem_partsUnder.mp h)).bind
    exact fun items hitems => .pure (.of_parts hitems rfl)
  | object ms =>
    intro h
    rw [List.map_flatMap] at h
    have hmembers := List.forall_mem_flatMap.mp h
    apply (members_unlessMarked hQ fun m hm => forall_mem_partsUnder.mp (hmembers m hm)).bind
    exact fun ms hms => .pure (.of_parts hms rfl)
  | indexed object index =>
    intro h
    apply UnlessMarked.bind (h (.written object) List.mem_cons_self)
    intro object hobject
    apply UnlessMarked.bind (h (.written index) (List.mem_cons_of_mem _ List.mem_cons_self))
    intro index hindex
    refine .pure (.of_parts ?_ rfl)
    exact List.forall_mem_cons.mpr ⟨hobject, List.forall_mem_singleton.mpr hindex⟩
  | conditional check bound whenTrue whenFalse =>
    intro h
    rw [List.map_append, List.map_cons, List.map_map] at h
    obtain ⟨hclause, hrest⟩ := List.forall_mem_append.mp h
    obtain ⟨hbound, hwhenTrue⟩ := List.forall_mem_cons.mp hclause
    obtain ⟨hcheck, hwhenFalse⟩ := List.forall_mem_cons.mp (forall_mem_partsUnder.mp hrest)
    exact conditional_unlessMarked t.span hcheck hbound (List.forall_mem_map.mp hwhenTrue)
      (List.forall_mem_map.mp hwhenFalse)
  | mapped readonly param keys rename isOptional value =>
    intro h
    rw [List.map_append, List.map_append] at h
    obtain ⟨hkeys, hrest⟩ := List.forall_mem_append.mp h
    obtain ⟨hrename, hvalue⟩ := List.forall_mem_append.mp (forall_mem_partsUnder.mp hrest)
    exact mapped_unlessMarked readonly param isOptional (hkeys _ List.mem_cons_self)
      (List.forall_mem_map.mp hrename) (List.forall_mem_map.mp hvalue)
  | function s =>
    intro h
    apply (signature_unlessMarked hQ (forall_mem_partsUnder.mp h) none false).bind
    exact fun s hs => .pure (.of_parts hs rfl)
  | constructor s isAbstract =>
    intro h
    apply (signature_unlessMarked hQ (forall_mem_partsUnder.mp h) none true).bind
    exact fun s hs => .pure (.of_parts hs rfl)

theorem inferredSignature_unlessMarked (hQ : Inherited Q) {s : Signature}
    {returned : Option InferredType} (h : UnlessMarkedOn id ctx by_ by' Q (s.parts returned)) :
    UnlessMarked id ctx (inferredSignature by_.type by_.inferred (.mk s returned))
      (inferredSignature by'.type by'.inferred (.mk s returned)) fun r => ∀ p ∈ r.parts, Q p :=
  signature_unlessMarked hQ h none false

/-- A type that an initializer shows as written is that type; every other one is no text. -/
theorem shownType_unlessMarked (hQ : Inherited Q) {t : InferredType}
    (h : UnlessMarkedOn id ctx by_ by' Q (TypePart.shown t).next) :
    UnlessMarked id ctx (shownType by_.type by_.inferred t) (shownType by'.type by'.inferred t)
      fun r => Q r ∨ Level Q (fun _ => False) r := by
  have hinferred {ts : List InferredType}
      (h : UnlessMarkedOn id ctx by_ by' Q ((partsUnder [] (ts.map .shown)).map Prod.snd)) :
      ∀ t ∈ ts, UnlessMarked id ctx (by_.inferred t) (by'.inferred t) Q :=
    List.forall_mem_map.mp (forall_mem_partsUnder.mp h)
  unfold shownType
  cases t with
  | intrinsic | string | number | bigInt | boolean => exact .pure (Or.inr (.of_leaf rfl rfl))
  | query path | «instance» path =>
    exact (UnlessMarked.entity path).after fun symbol => .pure (Or.inr (.of_leaf rfl rfl))
  | written t => exact (h (.written t) List.mem_cons_self).mono fun r hr => Or.inl hr
  | array item =>
    apply UnlessMarked.bind (h (.shown item) List.mem_cons_self)
    exact fun t ht => .pure (Or.inr (.of_parts (List.forall_mem_singleton.mpr ht) rfl))
  | union parts =>
    apply (UnlessMarked.mapM (hinferred h)).bind
    exact fun parts hparts => .pure (Or.inr (.of_parts hparts rfl))
  | tuple readonly items =>
    have hitem : ∀ t ∈ items, UnlessMarked id ctx
        (do return ⟨.required, none, ← by_.inferred t⟩)
        (do return ⟨.required, none, ← by'.inferred t⟩) fun r : DocTupleItem => Q r.type :=
      fun t ht => (hinferred h t ht).bind fun r hr => .pure hr
    apply (UnlessMarked.mapM hitem).bind
    exact fun items hitems => .pure (Or.inr (.of_parts (List.forall_mem_map.mpr hitems) rfl))
  | object readonly ms =>
    rw [TypePart.next, InferredType.parts, List.map_flatMap] at h
    have hmembers := List.forall_mem_flatMap.mp h
    apply (UnlessMarked.mapM (Q := fun r : DocMember => ∀ p ∈ r.parts, Q p) ?_).bind
    · exact fun ms hms => .pure (Or.inr (.of_parts (List.forall_mem_flatMap.mpr hms) rfl))
    intro m hm
    have hparts := hmembers m hm
    cases m with
    | property name t =>
      apply UnlessMarked.bind (hparts (.shown t) List.mem_cons_self)
      exact fun t ht => .pure (List.forall_mem_singleton.mpr ht)
    | method name s =>
      cases s with
      | mk s returned =>
        apply (inferredSignature_unlessMarked hQ (forall_mem_partsUnder.mp hparts)).bind
        exact fun s hs => .pure hs
  | global name args =>
    apply (UnlessMarked.mapM (hinferred h)).bind
    intro args hargs
    exact (UnlessMarked.entity [name]).after fun symbol => .pure (Or.inr (.of_parts hargs rfl))
  | function s =>
    cases s with
    | mk s returned =>
      apply (inferredSignature_unlessMarked hQ (forall_mem_partsUnder.mp h)).bind
      exact fun s hs => .pure (Or.inr (.of_parts hs rfl))

/-- One level of a part: the types that stand directly in what it is described as come from the
parts that are one level further, and so does all of it where nothing but such a part is shown. -/
theorem deeper_unlessMarked (hQ : Inherited Q) {a : TypePart}
    (h : UnlessMarkedOn id ctx by_ by' Q a.next) :
    UnlessMarked id ctx (by_.deeper.describe a) (by'.deeper.describe a)
      fun r => Q r ∨ Level Q (fun s => ∃ t, a = .written t ∧ t.IsTextOf ctx s) r := by
  cases a with
  | written t =>
    apply (writtenType_unlessMarked hQ h).mono
    exact fun r hr => Or.inr ⟨hr.parts, fun s hs => ⟨t, rfl, hr.text s hs⟩⟩
  | shown t =>
    apply (shownType_unlessMarked hQ h).mono
    exact fun r hr => hr.imp_right fun hr => ⟨hr.parts, fun s hs => (hr.text s hs).elim⟩

end

end Describe

end ApiSurface
