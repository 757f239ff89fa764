import ApiSurface.Proofs.Scopes
/-!
Where inferred types keep literals.

An initializer at a place that widens shows a literal type only inside what an `as const` assertion
in it shows. Going down from such a type, its parts are followed together with the parts of the
expression that show them, until an assertion is met. At a place that keeps literals only the
literal that is the whole type differs. Under `as const` every array and object literal that is
reached through such literals alone becomes read-only, at the same place, and the literals there
are kept.
-/
namespace ApiSurface

/-! ### Parts of expressions -/

/-- The initializers of parameters. -/
def Signature.initials (s : Signature) : List Expr := s.params.filterMap (·.initial)

/-- The expressions that stand directly in an entry of an object literal. -/
def ObjectItem.parts : ObjectItem → List Expr
  | .property _ value => [value]
  | .method _ signature => signature.initials
  | .shorthand _ | .spread _ => []

/-- The expressions that stand directly in an expression. -/
def Expr.parts (e : Expr) : List Expr :=
  match e.shape with
  | .array items => items
  | .object items => items.flatMap (·.parts)
  | .asserted value _ => [value]
  | .asConst value => [value]
  | .function signature _ result _ => signature.initials ++ result.toList
  | .unary _ operand => [operand]
  | _ => []

theorem Signature.sizeOf_initials {s : Signature} {e : Expr} (h : e ∈ s.initials) :
    sizeOf e < sizeOf s := by
  obtain ⟨p, hp, hinitial⟩ := List.mem_filterMap.mp h
  have hparam : sizeOf p < sizeOf s.params := List.sizeOf_lt_of_mem hp
  cases s
  cases p
  simp only [Signature.mk.sizeOf_spec, Param.mk.sizeOf_spec] at *
  subst hinitial
  simp only [Option.some.sizeOf_spec] at hparam
  omega

theorem ObjectItem.sizeOf_parts {item : ObjectItem} {e : Expr} (h : e ∈ item.parts) :
    sizeOf e < sizeOf item := by
  cases item with
  | property name value =>
    obtain rfl := List.mem_singleton.mp h
    simp only [property.sizeOf_spec]
    omega
  | method name signature =>
    have hinitial := Signature.sizeOf_initials h
    simp only [method.sizeOf_spec]
    omega
  | shorthand name => cases h
  | spread span => cases h

theorem Expr.sizeOf_parts {e part : Expr} (h : part ∈ e.parts) : sizeOf part < sizeOf e := by
  obtain ⟨span, shape⟩ := e
  have hshape : sizeOf shape < sizeOf (Expr.mk span shape) := by
    simp only [mk.sizeOf_spec]
    omega
  refine Nat.lt_trans ?_ hshape
  cases shape with
  | array items =>
    have hitem := List.sizeOf_lt_of_mem (show part ∈ items from h)
    simp only [ExprShape.array.sizeOf_spec]
    omega
  | object items =>
    obtain ⟨item, hitem, hpart⟩ := List.mem_flatMap.mp h
    have hitem := List.sizeOf_lt_of_mem hitem
    have hpart := ObjectItem.sizeOf_parts hpart
    simp only [ExprShape.object.sizeOf_spec]
    omega
  | asserted value type =>
    obtain rfl := List.mem_singleton.mp h
    simp only [ExprShape.asserted.sizeOf_spec]
    omega
  | asConst value =>
    obtain rfl := List.mem_singleton.mp h
    simp only [ExprShape.asConst.sizeOf_spec]
    omega
  | function signature body result isAsync =>
    simp only [ExprShape.function.sizeOf_spec]
    rcases List.mem_append.mp h with h | h
    · have hinitial := Signature.sizeOf_initials h
      omega
    · obtain rfl := Option.mem_toList.mp h
      simp only [Option.some.sizeOf_spec]
      omega
  | unary op operand =>
    obtain rfl := List.mem_singleton.mp h
    simp only [ExprShape.unary.sizeOf_spec]
    omega
  | _ => cases h

/-- What holds of an expression when it holds of its parts holds of all expressions. -/
theorem Expr.by_parts {motive : Expr → Prop}
    (step : ∀ e, (∀ part ∈ e.parts, motive part) → motive e) (e : Expr) : motive e :=
  step e fun part _ => by_parts step part
termination_by sizeOf e
decreasing_by exact Expr.sizeOf_parts ‹_›

/-! ### Inferred types -/

namespace InferredType

/-- Whether a type is that of one literal. -/
def isLiteral : InferredType → Bool
  | string _ | number _ | bigInt _ | boolean _ => true
  | _ => false

/-- The type of all literals of a literal's kind; other types as they are. -/
def widen : InferredType → InferredType
  | string _ => intrinsic "string"
  | number _ => intrinsic "number"
  | bigInt _ => intrinsic "bigint"
  | boolean _ => intrinsic "boolean"
  | t => t

theorem distinct_subset (types : List InferredType) : distinct types ⊆ types := by
  suffices ∀ kept, types.foldl (fun kept t => if kept.any (sameAs · t) then kept else kept ++ [t])
      kept ⊆ kept ++ types from this []
  induction types with
  | nil => simp
  | cons t types ih =>
    intro kept s hs
    rw [List.foldl_cons] at hs
    have hmem := ih _ hs
    split at hmem
    · rcases List.mem_append.mp hmem with h | h
      · exact List.mem_append_left _ h
      · exact List.mem_append_right _ (List.mem_cons_of_mem _ h)
    · simpa using hmem

end InferredType

/-! ### Places that widen -/

namespace Expr

open InferredType

/-- Every literal type in `t` lies inside what an `as const` assertion in `e` shows: `t` is what
such an assertion shows, or it is no literal type and the same holds of the types shown in it. Going
down from `t`, it is enough to look at a part of `e`. What is written in the source is not
inferred. -/
inductive AssertsLiterals : Expr → InferredType → Prop
  | asserted (span : Span) (value : Expr) :
    AssertsLiterals ⟨span, .asConst value⟩ (inferConst value)
  | within {e part : Expr} {t : InferredType} : part ∈ e.parts → AssertsLiterals part t →
    AssertsLiterals e t
  | plain {e : Expr} {t : InferredType} : t.isLiteral = false →
    (∀ s, .shown s ∈ t.parts.map Prod.snd → AssertsLiterals e s) → AssertsLiterals e t

theorem mem_partsUnder {names : List String} {a : TypePart} {parts : List TypePart} :
    a ∈ (partsUnder names parts).map Prod.snd ↔ a ∈ parts := by
  simp [partsUnder]

namespace AssertsLiterals

variable {e : Expr}

theorem intrinsic (name : String) : AssertsLiterals e (.intrinsic name) :=
  .plain rfl (by simp [InferredType.parts])

theorem query (path : List String) : AssertsLiterals e (.query path) :=
  .plain rfl (by simp [InferredType.parts])

theorem written (type : TypeExpr) : AssertsLiterals e (.written type) :=
  .plain rfl (by simp [InferredType.parts, partsUnder])

theorem instanceOf (path : List String) : AssertsLiterals e (InferredType.instance path) :=
  .plain rfl (by simp [InferredType.parts])

theorem single {t : InferredType} (h : AssertsLiterals e t) :
    ∀ s, .shown s ∈ (partsUnder [] [.shown t]).map Prod.snd → AssertsLiterals e s := by
  intro s hs
  rw [mem_partsUnder, List.mem_singleton, TypePart.shown.injEq] at hs
  exact hs ▸ h

theorem several {types : List InferredType} (h : ∀ t ∈ types, AssertsLiterals e t) :
    ∀ s, .shown s ∈ (partsUnder [] (types.map .shown)).map Prod.snd → AssertsLiterals e s := by
  intro s hs
  rw [mem_partsUnder] at hs
  obtain ⟨t, ht, heq⟩ := List.mem_map.mp hs
  exact TypePart.shown.inj heq ▸ h t ht

theorem unionOf {types : List InferredType} (h : ∀ t ∈ types, AssertsLiterals e t) :
    AssertsLiterals e (unionOf types) := by
  have hdistinct : ∀ t ∈ distinct types, AssertsLiterals e t := fun t ht =>
    h t (distinct_subset types ht)
  unfold InferredType.unionOf
  split
  · exact intrinsic "any"
  · next t heq => exact hdistinct t (by simp [heq])
  · exact .plain rfl (several hdistinct)

theorem returned (body : Option FunctionBody) {result : Option InferredType} (isAsync : Bool)
    (h : ∀ t ∈ result, AssertsLiterals e t) :
    AssertsLiterals e (Expr.returned body result isAsync) := by
  have htype : AssertsLiterals e (Expr.returned body result false) := by
    simp only [Expr.returned, Bool.false_eq_true, if_false]
    split
    · exact h _ rfl
    · split <;> exact intrinsic _
    · exact intrinsic _
  cases isAsync with
  | false => exact htype
  | true => exact .plain rfl (several fun t ht => List.mem_singleton.mp ht ▸ htype)

/-- A parameter's type is written or that of its initializer. -/
theorem param {s : Signature} (h : ∀ i ∈ s.initials, AssertsLiterals e (infer .widened i))
    {p : Param} (hp : p ∈ s.params) : AssertsLiterals e p.infer := by
  unfold Param.infer
  split
  · exact written _
  · split
    · exact .plain rfl (single (intrinsic "any"))
    · cases hinitial : p.initial with
      | none => exact intrinsic "any"
      | some i => exact h i (List.mem_filterMap.mpr ⟨p, hp, hinitial⟩)

theorem signature {s : Signature} {returns : Option InferredType}
    (h : ∀ i ∈ s.initials, AssertsLiterals e (infer .widened i))
    (hreturns : ∀ t ∈ returns, AssertsLiterals e t) :
    ∀ t, .shown t ∈ (partsUnder s.names (s.parts returns)).map Prod.snd → AssertsLiterals e t := by
  intro t ht
  rw [mem_partsUnder] at ht
  rcases List.mem_append.mp ht with ht | ht
  · rcases List.mem_append.mp ht with ht | ht
    · obtain ⟨q, -, hq⟩ := List.mem_flatMap.mp ht
      simp at hq
    · obtain ⟨p, hp, hpart⟩ := List.mem_map.mp ht
      have hparam := param h hp
      unfold Param.part at hpart
      split at hpart
      · contradiction
      · exact TypePart.shown.inj hpart ▸ hparam
  · split at ht
    · simp at ht
    · obtain ⟨r, hr, hpart⟩ := List.mem_map.mp ht
      exact TypePart.shown.inj hpart ▸ hreturns r (Option.mem_toList.mp hr)

theorem member {item : ObjectItem} {m : InferredMember}
    (h : ∀ part ∈ item.parts, AssertsLiterals e (infer .widened part))
    (hm : m ∈ inferItems .widened [item]) :
    ∀ t, .shown t ∈ m.parts.map Prod.snd → AssertsLiterals e t := by
  cases item with
  | property name value =>
    obtain rfl := List.mem_singleton.mp hm
    exact single (h value List.mem_cons_self)
  | shorthand name =>
    obtain rfl := List.mem_singleton.mp hm
    exact single (query _)
  | method name signature =>
    obtain rfl := List.mem_singleton.mp hm
    apply AssertsLiterals.signature h
    intro t ht
    split at ht
    · cases ht
    · cases ht
      exact intrinsic "any"
  | spread span => cases hm

end AssertsLiterals

theorem inferItems_eq (w : Widening) (items : List ObjectItem) :
    inferItems w items = items.flatMap fun item => inferItems w [item] := by
  induction items with
  | nil => rfl
  | cons item items ih => rw [List.flatMap_cons, ← ih]; cases item <;> rfl

theorem inferAll_eq (items : List Expr) : inferAll items = items.map (infer .widened) := by
  induction items with
  | nil => rfl
  | cons e items ih => rw [inferAll, ih, List.map_cons]

theorem inferOption_eq (result : Option Expr) :
    inferOption result = result.map (infer .widened) := by
  cases result <;> rfl

theorem operated_widened (op : String) (operand : Expr) :
    ∃ name, operated op operand .widened = intrinsic name := by
  unfold operated
  split
  · contradiction
  · split
    · split <;> exact ⟨_, rfl⟩
    all_goals exact ⟨_, rfl⟩

theorem operated_widened_of_signed {op : String} {operand : Expr} {v : Float}
    (h : signedLiteral? op operand = some v) :
    operated op operand .widened = intrinsic "number" := by
  unfold signedLiteral? at h
  split at h
  · next hshape => simp [operated, hshape]
  · rfl
  · contradiction

/-- A sign before a literal number is part of the literal. -/
theorem operated_widened_eq (op : String) (operand : Expr) :
    operated op operand .widened = (operated op operand .literal).widen := by
  -- The two places differ only where the sign stands before a literal number.
  cases hsigned : signedLiteral? op operand with
  | some v =>
    have hliteral : operated op operand .literal = number v := by simp only [operated, hsigned]
    rw [operated_widened_of_signed hsigned, hliteral, widen]
  | none =>
    have hliteral : operated op operand .literal = operated op operand .widened := by
      simp only [operated, hsigned]
    obtain ⟨name, heq⟩ := operated_widened op operand
    rw [hliteral, heq]
    rfl

theorem AssertsLiterals.named (e : Expr) (name : EntityName) :
    AssertsLiterals e (named name) := by
  unfold Expr.named
  split
  · exact .intrinsic _
  · exact .intrinsic _
  · exact .intrinsic _
  · exact .query _

/-- The literal types at a place that widens are those of `as const` assertions. -/
theorem infer_widened_asserts (e : Expr) : AssertsLiterals e (infer .widened e) := by
  -- By induction on the parts, so that every part is met at its own widened type.
  induction e using Expr.by_parts with
  | step e ih =>
    have hparts : ∀ part ∈ e.parts, AssertsLiterals e (infer .widened part) := fun part hpart =>
      .within hpart (ih part hpart)
    obtain ⟨span, shape⟩ := e
    cases shape with
    | string value => exact .intrinsic "string"
    | number value => exact .intrinsic "number"
    | bigInt digits => exact .intrinsic "bigint"
    | template substitutes => exact .intrinsic "string"
    | true => exact .intrinsic "boolean"
    | false => exact .intrinsic "boolean"
    | null => exact .intrinsic "null"
    | entity name => exact .named _ name
    | array items =>
      refine .plain rfl (AssertsLiterals.single (.unionOf fun t ht => ?_))
      rw [inferAll_eq] at ht
      obtain ⟨item, hitem, rfl⟩ := List.mem_map.mp ht
      exact hparts item hitem
    | object items =>
      refine .plain rfl fun t ht => ?_
      obtain ⟨a, ha, hat⟩ := List.mem_map.mp ht
      obtain ⟨m, hm, ham⟩ := List.mem_flatMap.mp ha
      rw [inferItems_eq] at hm
      obtain ⟨item, hitem, hm⟩ := List.mem_flatMap.mp hm
      exact AssertsLiterals.member
        (fun part hpart => hparts part (List.mem_flatMap.mpr ⟨item, hitem, hpart⟩)) hm t
        (List.mem_map.mpr ⟨a, ham, hat⟩)
    | new callee =>
      cases callee with
      | none => exact .intrinsic "any"
      | some callee => exact .instanceOf callee.texts
    | asserted value type => exact .written type
    -- The only form that keeps literals here is the one that `asserted` allows for.
    | asConst value => exact .asserted span value
    | function signature body result isAsync =>
      refine .plain rfl (AssertsLiterals.signature
        (fun i hi => hparts i (List.mem_append_left _ hi)) fun t ht => ?_)
      split at ht
      · cases ht
      · cases ht
        refine .returned body isAsync fun s hs => ?_
        rw [inferOption_eq] at hs
        obtain ⟨r, hr, rfl⟩ := Option.map_eq_some_iff.mp hs
        exact hparts r (List.mem_append_right _ (Option.mem_toList.mpr hr))
    | unary op operand =>
      obtain ⟨name, heq⟩ := operated_widened op operand
      simp only [infer, inferShape, heq]
      exact .intrinsic name
    | unknown => exact .intrinsic "any"

/-- Only the literal that is a whole type widens. -/
theorem infer_widened_eq {e : Expr} (h : ∀ value, e.shape ≠ .asConst value) :
    infer .widened e = (infer .literal e).widen := by
  obtain ⟨span, shape⟩ := e
  cases shape with
  | asConst value => exact absurd rfl (h value)
  | entity name =>
    simp only [infer, inferShape, named]
    split <;> rfl
  | new callee => cases callee <;> rfl
  | unary op operand => exact operated_widened_eq op operand
  | _ => rfl

/-! ### Constant assertions -/

/-- A step into an array literal, to an item, or into an object literal, to an entry. Spread entries
show nothing and are not counted. -/
inductive Step where
  | item (i : Nat)
  | entry (i : Nat)
  deriving DecidableEq, Repr

end Expr

/-- The name of the member that an entry of an object literal shows. -/
def ObjectItem.name? : ObjectItem → Option String
  | .property name _ | .method name _ => some name.text
  | .shorthand name => some name.text
  | .spread _ => none

/-- The entries of an object literal that show members. -/
def ObjectItem.shown (items : List ObjectItem) : List ObjectItem := items.filter (·.name?.isSome)

/-- The name of a member. -/
def InferredMember.name : InferredMember → String
  | .property name _ | .method name _ => name

/-- The expression one step into an array or object literal. -/
def Expr.child? (e : Expr) : Step → Option Expr
  | .item i => match e.shape with
    | .array items => items[i]?
    | _ => none
  | .entry i => match e.shape with
    | .object items => (ObjectItem.shown items)[i]?.bind fun
      | .property _ value => some value
      | _ => none
    | _ => none

/-- The type one step into a tuple or object type. -/
def InferredType.child? (t : InferredType) : Expr.Step → Option InferredType
  | .item i => match t with
    | .tuple _ items => items[i]?
    | _ => none
  | .entry i => match t with
    | .object _ members => members[i]?.bind fun
      | .property _ type => some type
      | _ => none
    | _ => none

namespace Expr

open InferredType

/-- What a constant assertion keeps: an array literal is a read-only tuple of as many items, an
object literal a read-only object with the names of its entries, and a literal its own type. -/
def KeptAs (e : Expr) (t : InferredType) : Prop :=
  match e.shape with
  | .array items => ∃ parts, t = tuple true parts ∧ parts.length = items.length
  | .object items => ∃ members, t = object true members ∧
    members.map (·.name) = items.filterMap (·.name?)
  | .string value => t = string value
  | .number value => t = number value
  | .bigInt digits => t = bigInt digits
  | .true => t = boolean Bool.true
  | .false => t = boolean Bool.false
  | _ => True

theorem inferConstAll_eq (items : List Expr) : inferConstAll items = items.map inferConst := by
  induction items with
  | nil => rfl
  | cons e items ih => rw [inferConstAll, ih, List.map_cons]

/-- The member that an entry of a constant object literal shows. -/
def constMember (item : ObjectItem) : Option InferredMember := (inferConstItems [item]).head?

theorem inferConstItems_eq (items : List ObjectItem) :
    inferConstItems items = items.filterMap constMember := by
  induction items with
  | nil => rfl
  | cons item items ih =>
    cases item <;> simp [inferConstItems, constMember, ih, List.filterMap_cons]

theorem constMember_name (item : ObjectItem) : (constMember item).map (·.name) = item.name? := by
  cases item <;> rfl

theorem inferConst_kept (e : Expr) : e.KeptAs (inferConst e) := by
  obtain ⟨span, shape⟩ := e
  cases shape with
  | array items => exact ⟨_, rfl, by rw [inferConstAll_eq, List.length_map]⟩
  | object items =>
    refine ⟨_, rfl, ?_⟩
    simp only [inferConstItems_eq, List.map_filterMap, constMember_name]
  | string value => rfl
  | number value => rfl
  | bigInt digits => rfl
  | true => rfl
  | false => rfl
  | _ => trivial

/-- The members of a constant object are those of the entries that are not spread. -/
theorem inferConstItems_getElem? (items : List ObjectItem) (i : Nat) :
    (inferConstItems items)[i]? = (ObjectItem.shown items)[i]?.bind constMember := by
  induction items generalizing i with
  | nil => rfl
  | cons item items ih =>
    cases item with
    -- A spread entry is left out on both sides, so the count goes on with the same index.
    | spread span => exact ih i
    | _ =>
      cases i with
      | zero => rfl
      | succ i => exact ih i

theorem inferConst_child {e part : Expr} {step : Step} (h : e.child? step = some part) :
    (inferConst e).child? step = some (inferConst part) := by
  obtain ⟨span, shape⟩ := e
  cases step with
  | item i =>
    cases shape with
    | array items =>
      have hitem : items[i]? = some part := h
      simp only [inferConst, InferredType.child?, inferConstAll_eq, List.getElem?_map, hitem,
        Option.map_some]
    | _ => cases h
  | entry i =>
    cases shape with
    | object items =>
      obtain ⟨item, hitem, hpart⟩ := Option.bind_eq_some_iff.mp h
      split at hpart
      · cases hpart
        simp only [inferConst, InferredType.child?, inferConstItems_getElem?, hitem]
        rfl
      · cases hpart
    | _ => cases h

/-- What stands at the end of a path through array and object literals shows its own constant type
there. -/
theorem inferConst_reached {e part : Expr} {path : List Step}
    (h : path.foldlM child? e = some part) :
    path.foldlM InferredType.child? (inferConst e) = some (inferConst part) := by
  induction path generalizing e with
  | nil => cases h; rfl
  | cons step path ih =>
    obtain ⟨next, hnext, hpath⟩ := Option.bind_eq_some_iff.mp h
    exact Option.bind_eq_some_iff.mpr ⟨inferConst next, inferConst_child hnext, ih hpath⟩

/-- **Widening is uniform.** At a place that widens, an expression shows a literal type only inside
what an `as const` assertion in it shows. Unless it is such an assertion, it shows there what it
shows at a place that keeps literals, with a literal type that is the whole type replaced by its
primitive. And at the end of every path through array and object literals from an asserted
expression, the shown type has at the same place a read-only tuple for an array literal, a
read-only object for an object literal and a literal type for a literal. -/
theorem widening_uniform (e : Expr) :
    e.AssertsLiterals (infer .widened e) ∧
    ((∀ value, e.shape ≠ .asConst value) → infer .widened e = (infer .literal e).widen) ∧
    ∀ (w : Widening) (value part : Expr) (path : List Step),
      e.shape = .asConst value → path.foldlM child? value = some part →
      ∃ t, path.foldlM InferredType.child? (infer w e) = some t ∧ part.KeptAs t := by
  refine ⟨infer_widened_asserts e, infer_widened_eq, ?_⟩
  intro w value part path hshape hpath
  obtain ⟨span, shape⟩ := e
  subst hshape
  exact ⟨inferConst part, inferConst_reached hpath, inferConst_kept part⟩

/-- An array of a string and an asserted string shows both, the first one widened. -/
example (at_ : Span) : infer .literal
    ⟨at_, .array [⟨at_, .string "a"⟩, ⟨at_, .asConst ⟨at_, .string "a"⟩⟩]⟩ =
      .array (.union [.intrinsic "string", .string "a"]) := by
  cbv

end Expr

end ApiSurface
