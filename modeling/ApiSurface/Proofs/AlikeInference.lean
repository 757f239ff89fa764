import ApiSurface.Proofs.AlikeTrees
import ApiSurface.Proofs.WidenedTypes
/-!
Inferred types of expressions that are alike. They are the same types, with types and signatures in
them that are alike where those are written in the source.
-/
namespace ApiSurface

/-! ### Inferred types that are alike -/

section

variable (L : Likeness)

mutual

inductive InferredType.Alike : InferredType → InferredType → Prop
  | intrinsic (name : String) : InferredType.Alike (.intrinsic name) (.intrinsic name)
  | string (value : String) : InferredType.Alike (.string value) (.string value)
  | number (value : Float) : InferredType.Alike (.number value) (.number value)
  | bigInt (digits : String) : InferredType.Alike (.bigInt digits) (.bigInt digits)
  | boolean (value : Bool) : InferredType.Alike (.boolean value) (.boolean value)
  | array {t t' : InferredType} : InferredType.Alike t t' →
      InferredType.Alike (.array t) (.array t')
  | tuple (readonly : Bool) {ts ts' : List InferredType} : List.Forall₂ InferredType.Alike ts ts' →
      InferredType.Alike (.tuple readonly ts) (.tuple readonly ts')
  | union {ts ts' : List InferredType} : List.Forall₂ InferredType.Alike ts ts' →
      InferredType.Alike (.union ts) (.union ts')
  | object (readonly : Bool) {ms ms' : List InferredMember} :
      List.Forall₂ InferredMember.Alike ms ms' →
      InferredType.Alike (.object readonly ms) (.object readonly ms')
  | query (path : List String) : InferredType.Alike (.query path) (.query path)
  | instance (path : List String) :
      InferredType.Alike (InferredType.instance path) (InferredType.instance path)
  | written {t t' : TypeExpr} : t.Alike L t' → InferredType.Alike (.written t) (.written t')
  | global (name : String) {ts ts' : List InferredType} : List.Forall₂ InferredType.Alike ts ts' →
      InferredType.Alike (.global name ts) (.global name ts')
  | function {f f' : InferredSignature} : InferredSignature.Alike f f' →
      InferredType.Alike (.function f) (.function f')

inductive InferredMember.Alike : InferredMember → InferredMember → Prop
  | property (name : String) {t t' : InferredType} : InferredType.Alike t t' →
      InferredMember.Alike (.property name t) (.property name t')
  | method (name : String) {f f' : InferredSignature} : InferredSignature.Alike f f' →
      InferredMember.Alike (.method name f) (.method name f')

inductive InferredSignature.Alike : InferredSignature → InferredSignature → Prop
  | mk {f f' : Signature} {t t' : Option InferredType} : f.Alike L f' →
      Option.Rel InferredType.Alike t t' → InferredSignature.Alike (.mk f t) (.mk f' t')

end

end

variable {L : Likeness}

namespace InferredType

/-- Types that are alike are told apart from others alike. -/
theorem sameAs_alike {t t' u u' : InferredType} (h : t.Alike L t') (hu : u.Alike L u') :
    sameAs t u = sameAs t' u' := by
  cases h with
  | @array s s' hs =>
    cases hu with
    | @array v v' hv =>
      have hitem : sameAs s v = sameAs s' v' := sameAs_alike hs hv
      exact hitem
    | _ => rfl
  | intrinsic | string | number | bigInt | boolean => cases hu <;> rfl
  | _ => rfl
termination_by sizeOf t

theorem distinct_alike {ts ts' : List InferredType} (h : List.Forall₂ (Alike L) ts ts') :
    List.Forall₂ (Alike L) (distinct ts) (distinct ts') := by
  -- the same types have been kept before
  suffices ∀ kept kept', List.Forall₂ (Alike L) kept kept' → List.Forall₂ (Alike L)
      (ts.foldl (fun kept t => if kept.any (sameAs · t) then kept else kept ++ [t]) kept)
      (ts'.foldl (fun kept t => if kept.any (sameAs · t) then kept else kept ++ [t]) kept') from
    this [] [] .nil
  induction h with
  | nil => exact fun _ _ hkept => hkept
  | @cons t t' ts ts' ht hts ih =>
    intro kept kept' hkept
    have hany : kept.any (sameAs · t) = kept'.any (sameAs · t') := by
      induction hkept with
      | nil => rfl
      | cons hk _ ihkept => rw [List.any_cons, List.any_cons, ihkept, sameAs_alike hk ht]
    rw [List.foldl_cons, List.foldl_cons, hany]
    split
    · exact ih _ _ hkept
    · exact ih _ _ (List.rel_append hkept (.cons ht .nil))

theorem unionOf_alike {ts ts' : List InferredType} (h : List.Forall₂ (Alike L) ts ts') :
    (unionOf ts).Alike L (unionOf ts') := by
  have hdistinct := distinct_alike h
  unfold unionOf
  generalize distinct ts = us at hdistinct
  generalize distinct ts' = us' at hdistinct
  rcases hdistinct with _ | ⟨hu, _ | ⟨hv, hrest⟩⟩
  · exact .intrinsic "any"
  · exact hu
  · exact .union (.cons hu (.cons hv hrest))

end InferredType

namespace Expr

open InferredType

/-- What a function returns. -/
theorem returned_alike {body body' : Option FunctionBody} {t t' : Option InferredType}
    (hbody : Option.Rel (FunctionBody.Alike L) body body') (ht : Option.Rel (InferredType.Alike L) t t')
    (isAsync : Bool) : (returned body t isAsync).Alike L (returned body' t' isAsync) := by
  have htype : (returned body t false).Alike L (returned body' t' false) := by
    cases ht with
    | some ht => exact ht
    | none =>
      cases hbody with
      | none => exact .intrinsic "any"
      | @some b b' hb =>
        simp only [returned, hb.returnsValue, Bool.false_eq_true, if_false]
        split <;> exact .intrinsic _
  cases isAsync with
  | false => exact htype
  | true => exact .global "Promise" (.cons htype .nil)

/-- An operator looks at no more of its operand than whether that is a literal number. -/
theorem operated_alike (op : String) {e e' : Expr} (h : e.Alike L e') (w : Widening) :
    (operated op e w).Alike L (operated op e' w) := by
  obtain ⟨-, hshape⟩ := h
  by_cases hminus : op = "-"
  · subst hminus
    cases w <;> cases hshape <;> first | exact .number _ | exact .intrinsic _
  by_cases hplus : op = "+"
  · subst hplus
    cases w <;> cases hshape <;> first | exact .number _ | exact .intrinsic _
  -- any other operator is no sign
  have hnone (e : Expr) : signedLiteral? op e = none := by
    unfold signedLiteral?
    split
    · exact absurd rfl hminus
    · exact absurd rfl hplus
    · rfl
  unfold operated
  rw [hnone, hnone]
  cases w
  all_goals
    dsimp only
    split
    · exact absurd rfl hminus
    all_goals exact .intrinsic _

theorem texts_alike {n n' : EntityName} (h : n.Alike L n') : n.texts = n'.texts := by
  have htail : n.tail.map (·.text) = n'.tail.map (·.text) :=
    List.forall₂_eq_eq_eq ▸ (List.forall₂_map_left_iff.mpr (List.forall₂_map_right_iff.mpr
      (h.tail.imp fun _ _ hpart => hpart.text)))
  unfold EntityName.texts EntityName.parts
  rw [List.map_cons, List.map_cons, h.head.text, htail]

theorem named_alike {n n' : EntityName} (h : n.Alike L n') : (named n).Alike L (named n') := by
  unfold named EntityName.text
  rw [texts_alike h]
  split
  all_goals first | exact .intrinsic _ | exact .query _

theorem propertyText_alike (hwritten : ∀ w w', L.written w w' → w = w') {n n' : PropertyName}
    (h : n.Alike L n') : n.text = n'.text := by
  cases h with
  | ident h | hidden h => exact h.text
  | string text | number text => rfl
  | computed h => exact hwritten _ _ h

theorem signature_alike {f f' : Signature} (h : f.Alike L f') {t t' : InferredType}
    (ht : t.Alike L t') :
    InferredSignature.Alike L (.mk f (if f.returns.isSome then none else some t))
      (.mk f' (if f'.returns.isSome then none else some t')) := by
  have hreturns : f'.returns.isSome = f.returns.isSome := by
    obtain ⟨-, -, hreturns⟩ := h
    cases hreturns <;> rfl
  rw [hreturns]
  refine .mk h ?_
  split
  · exact .none
  · exact .some ht

/-- Expressions that show the same at every place. -/
structure ShowsAlike (L : Likeness) (e e' : Expr) : Prop where
  infer : ∀ w, (infer w e).Alike L (infer w e')
  inferConst : (inferConst e).Alike L (inferConst e')

theorem inferAll_alike {xs xs' : List Expr} (h : List.Forall₂ (ShowsAlike L) xs xs') :
    List.Forall₂ (InferredType.Alike L) (inferAll xs) (inferAll xs') ∧
      List.Forall₂ (InferredType.Alike L) (inferConstAll xs) (inferConstAll xs') := by
  induction h with
  | nil => exact ⟨.nil, .nil⟩
  | cons h _ ih => exact ⟨.cons (h.infer .widened) ih.1, .cons h.inferConst ih.2⟩

theorem inferItems_alike (hwritten : ∀ w w', L.written w w' → w = w') {items items' : List ObjectItem}
    (h : List.Forall₂ (ObjectItem.Alike L) items items')
    (hparts : ∀ item ∈ items, ∀ part ∈ item.parts, ∀ e', part.Alike L e' → ShowsAlike L part e') :
    (∀ w, List.Forall₂ (InferredMember.Alike L) (inferItems w items) (inferItems w items')) ∧
      List.Forall₂ (InferredMember.Alike L) (inferConstItems items) (inferConstItems items') := by
  induction h with
  | nil => exact ⟨fun _ => .nil, .nil⟩
  | cons hitem _ ih =>
    obtain ⟨hfirst, hrest⟩ := List.forall_mem_cons.mp hparts
    obtain ⟨ih, ihconst⟩ := ih hrest
    cases hitem with
    | property hname hvalue =>
      have hshows := hfirst _ List.mem_cons_self _ hvalue
      simp only [inferItems, inferConstItems, propertyText_alike hwritten hname]
      exact ⟨fun w => .cons (.property _ (hshows.infer w)) (ih w),
        .cons (.property _ hshows.inferConst) ihconst⟩
    | shorthand hname =>
      simp only [inferItems, inferConstItems, hname.text]
      exact ⟨fun w => .cons (.property _ (.query _)) (ih w), .cons (.property _ (.query _)) ihconst⟩
    | method hname hsignature =>
      have hmember := signature_alike hsignature (.intrinsic "any")
      simp only [inferItems, inferConstItems, propertyText_alike hwritten hname]
      exact ⟨fun w => .cons (.method _ hmember) (ih w), .cons (.method _ hmember) ihconst⟩
    | spread => exact ⟨ih, ihconst⟩

theorem inferOption_alike {x x' : Option Expr} (h : Option.Rel (Expr.Alike L) x x')
    (hparts : ∀ part ∈ x, ∀ e', part.Alike L e' → ShowsAlike L part e') :
    Option.Rel (InferredType.Alike L) (inferOption x) (inferOption x') := by
  cases h with
  | none => exact .none
  | some h => exact .some ((hparts _ rfl _ h).infer .widened)

/-- Expressions that are alike show the same. -/
theorem showsAlike (hwritten : ∀ w w', L.written w w' → w = w') {e e' : Expr} (h : e.Alike L e') :
    ShowsAlike L e e' := by
  induction e using Expr.by_parts generalizing e' with
  | step e ih =>
    obtain ⟨-, hshape⟩ := h
    -- where nothing is special about constants, the place decides
    have hplain {shape shape' : ExprShape} {span span' : Span}
        (h : ∀ w, (inferShape w shape).Alike L (inferShape w shape'))
        (hconst : inferConst ⟨span, shape⟩ = inferShape .literal shape)
        (hconst' : inferConst ⟨span', shape'⟩ = inferShape .literal shape') :
        ShowsAlike L ⟨span, shape⟩ ⟨span', shape'⟩ :=
      ⟨h, by rw [hconst, hconst']; exact h .literal⟩
    have hliteral {t : InferredType} (ht : t.Alike L t) (name : String) (w : Widening) :
        (if w = .literal then t else intrinsic name).Alike L
          (if w = .literal then t else intrinsic name) := by
      split
      · exact ht
      · exact .intrinsic name
    cases hshape with
    | string value => exact hplain (hliteral (.string value) "string") rfl rfl
    | number value => exact hplain (hliteral (.number value) "number") rfl rfl
    | bigInt digits => exact hplain (hliteral (.bigInt digits) "bigint") rfl rfl
    | template => exact hplain (fun _ => .intrinsic "string") rfl rfl
    | true => exact hplain (hliteral (.boolean true) "boolean") rfl rfl
    | false => exact hplain (hliteral (.boolean false) "boolean") rfl rfl
    | null => exact hplain (fun _ => .intrinsic "null") rfl rfl
    | entity hname => exact hplain (fun _ => named_alike hname) rfl rfl
    | array hitems =>
      have hshows := (List.forall₂_and_left ..).mpr ⟨ih, hitems⟩
      obtain ⟨hall, hconst⟩ := inferAll_alike (hshows.imp fun _ _ h => h.1 h.2)
      exact ⟨fun _ => .array (unionOf_alike hall), .tuple true hconst⟩
    | object hitems =>
      obtain ⟨hall, hconst⟩ := inferItems_alike hwritten hitems fun item hitem part hpart _ h =>
        ih part (List.mem_flatMap.mpr ⟨item, hitem, hpart⟩) h
      exact ⟨fun _ => .object false (hall .widened), .object true hconst⟩
    | new hcallee =>
      refine hplain (fun _ => ?_) rfl rfl
      cases hcallee with
      | none => exact .intrinsic "any"
      | some hname =>
        unfold inferShape
        rw [texts_alike hname]
        exact .instance _
    | asserted _ htype => exact hplain (fun _ => .written htype) rfl rfl
    | asConst hvalue =>
      have hshows := ih _ List.mem_cons_self hvalue
      exact hplain (fun _ => hshows.inferConst) rfl rfl
    | function isAsync hsignature hbody hresult =>
      have hreturned := returned_alike hbody (inferOption_alike hresult fun part hpart _ h =>
        ih part (List.mem_append_right _ (Option.mem_toList.mpr hpart)) h) isAsync
      exact hplain (fun _ => .function (signature_alike hsignature hreturned)) rfl rfl
    | unary op hvalue => exact hplain (operated_alike op hvalue) rfl rfl
    | unknown => exact hplain (fun _ => .intrinsic "any") rfl rfl

end Expr

/-- The types of variables that are initialized with what is alike are alike. -/
theorem inferVariable_alike {L : Likeness} (hwritten : ∀ w w', L.written w w' → w = w')
    {e e' : Expr} (h : e.Alike L e') (kind : VariableKind) :
    (inferVariable kind none (some e)).Alike L (inferVariable kind none (some e')) :=
  (Expr.showsAlike hwritten h).infer _

end ApiSurface
