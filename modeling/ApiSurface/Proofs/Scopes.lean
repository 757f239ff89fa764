import ApiSurface.Extraction.Types
import Mathlib.Data.Set.Basic
/-!
The lexical scopes of type parameters. A type has parts; a signature and a mapped type bind names
for theirs, and what a conditional type infers in its extends clause is known in its first outcome.
-/
namespace ApiSurface

/-- What can be described as a type: a written type, or what an initializer shows. -/
inductive TypePart where
  | written (t : TypeExpr)
  | shown (t : InferredType)

/-- Where a part of a type stands in it. -/
inductive Position where
  /-- Where some names are bound, perhaps none. -/
  | under (names : List String)
  /-- In the extends clause of a conditional type. -/
  | clause
  /-- In the first outcome of a conditional type with an extends clause. -/
  | outcome (clause : TypeExpr)

/-- The names of the type parameters of a signature. -/
def Signature.names (s : Signature) : List String := s.typeParams.map (·.name.text)

/-- The types in type parameters. -/
def typeParamParts (params : List TypeParam) : List TypePart :=
  params.flatMap fun q => (q.bound.toList ++ q.fallback.toList).map .written

/-- The type of a parameter, or what its initializer shows. -/
def Param.part (p : Param) : TypePart :=
  match p.type with
  | some t => .written t
  | none => .shown p.infer

/-- The types in a signature that returns `returned` if nothing else is written. All of them know
its type parameters. -/
def Signature.parts (s : Signature) (returned : Option InferredType) : List TypePart :=
  typeParamParts s.typeParams ++ s.params.map Param.part ++
    match s.returns with
    | some t => [.written t]
    | none => returned.toList.map .shown

namespace TypeMember

/-- The names that a member binds for its types. -/
def names (m : TypeMember) : List String :=
  match m.shape with
  | .method _ _ s | .call s | .construct s => s.names
  | _ => []

/-- The types in a member. -/
def parts (m : TypeMember) : List TypePart :=
  match m.shape with
  | .property _ _ _ t | .getter _ t => t.toList.map .written
  | .method _ _ s | .call s | .construct s => s.parts none
  | .index params t _ => params.map Param.part ++ t.toList.map .written
  | .setter _ p => p.toList.map Param.part

end TypeMember

/-- Some parts where names are bound. -/
def partsUnder (names : List String) (parts : List TypePart) : List (Position × TypePart) :=
  parts.map (.under names, ·)

/-- The parts of a written type. -/
def TypeExpr.parts (t : TypeExpr) : List (Position × TypePart) :=
  match t.shape with
  | .reference _ ts | .query _ ts | .moduleType _ _ ts _ | .union ts | .intersection ts =>
    partsUnder [] (ts.map .written)
  | .array u | .parenthesized u | .operator _ u => partsUnder [] [.written u]
  | .infer _ u | .predicate _ _ u => partsUnder [] (u.toList.map .written)
  | .tuple items => partsUnder [] (items.map fun i => .written i.type)
  | .object ms => ms.flatMap fun m => partsUnder m.names m.parts
  | .indexed object index => partsUnder [] [.written object, .written index]
  | .conditional check bound whenTrue whenFalse =>
    (.clause, .written bound) :: (whenTrue.toList.map fun u => (.outcome bound, .written u)) ++
      partsUnder [] (.written check :: whenFalse.toList.map .written)
  | .mapped _ param keys rename _ value =>
    partsUnder [] [.written keys] ++
      partsUnder [param.text] ((rename.toList ++ value.toList).map .written)
  | .function s | .constructor s _ => partsUnder s.names (s.parts none)
  | .keyword _ | .literal _ | .template | .unsupported => []

/-- The parts of a member of a type that an initializer shows. -/
def InferredMember.parts : InferredMember → List (Position × TypePart)
  | .property _ t => partsUnder [] [.shown t]
  | .method _ (.mk s returned) => partsUnder s.names (s.parts returned)

/-- The parts of a type that an initializer shows. -/
def InferredType.parts : InferredType → List (Position × TypePart)
  | .array t => partsUnder [] [.shown t]
  | .tuple _ ts | .union ts | .global _ ts => partsUnder [] (ts.map .shown)
  | .object _ ms => ms.flatMap InferredMember.parts
  | .written t => partsUnder [] [.written t]
  | .function (.mk s returned) => partsUnder s.names (s.parts returned)
  | .intrinsic _ | .string _ | .number _ | .bigInt _ | .boolean _ | .query _ | .instance _ => []

namespace TypePart

/-- The parts of a part. -/
def parts : TypePart → List (Position × TypePart)
  | written t => t.parts
  | shown t => t.parts

/-- A name is inferred in an extends clause, or a part of one. What is inferred in the extends
clause of a conditional type inside belongs to that type alone. -/
inductive Infers (x : String) : TypePart → Prop
  | here {t : TypeExpr} {name : Ident} {bound : Option TypeExpr} :
      t.shape = .infer name bound → name.text = x → Infers x (written t)
  | inside {a u : TypePart} {pos : Position} :
      (pos, u) ∈ a.parts → pos ≠ .clause → Infers x u → Infers x a

end TypePart

/-- The names that are bound for a part, beside those that are known already. -/
@[simp] def Position.names : Position → Set String
  | under names => {x | x ∈ names}
  | clause => ∅
  | outcome t => {x | TypePart.Infers x (.written t)}

namespace TypePart

/-- A type mentions a simple name that it does not bind itself. -/
inductive Mentions (x : String) : TypePart → Prop
  | here {t : TypeExpr} {name : EntityName} {args : List TypeExpr} :
      t.shape = .reference name args → name.isSimple = true → name.head.text = x →
        Mentions x (written t)
  | inside {a u : TypePart} {pos : Position} :
      (pos, u) ∈ a.parts → x ∉ pos.names → Mentions x u → Mentions x a

/-- A part stands inside another one, with the names that are known there. -/
inductive Inside : Set String → TypePart → Set String → TypePart → Prop
  | here {known : Set String} {a : TypePart} : Inside known a known a
  | part {known known' : Set String} {a u v : TypePart} {pos : Position} :
      (pos, u) ∈ a.parts → Inside (known ∪ pos.names) u known' v → Inside known a known' v

/-- No conditional type inside mentions in its extends clause what is inferred there, and in its
first outcome it mentions of the names inferred anywhere inside the extends clause just those that
belong to it: those in the extends clauses of other conditional types are not meant, and none stands
in the key of an index signature or in an initializer. -/
def WellInferred (known : Set String) (a : TypePart) : Prop :=
  ∀ known' t check bound whenTrue whenFalse, Inside known a known' (written t) →
    t.shape = .conditional check bound (some whenTrue) whenFalse →
      (∀ x ∈ bound.inferredNames, Mentions x (written bound) → x ∈ known') ∧
      ∀ x, Mentions x (written whenTrue) →
        (Infers x (written bound) → x ∈ bound.inferredNames) ∧
        (x ∈ bound.inferredNames → Infers x (written bound) ∨ x ∈ known')

theorem WellInferred.part {known : Set String} {a u : TypePart} {pos : Position}
    (h : a.WellInferred known) (hu : (pos, u) ∈ a.parts) : u.WellInferred (known ∪ pos.names) :=
  fun known' t check bound whenTrue whenFalse hinside =>
    h known' t check bound whenTrue whenFalse (.part hu hinside)

/-- A part is well inferred if its own parts are and it is no conditional type. -/
theorem WellInferred.of_parts {known : Set String} {a : TypePart}
    (hparts : ∀ pos u, (pos, u) ∈ a.parts → u.WellInferred (known ∪ pos.names))
    (hself : ∀ t check bound whenTrue whenFalse, a = written t →
      t.shape ≠ .conditional check bound (some whenTrue) whenFalse) :
    a.WellInferred known := by
  intro known' t check bound whenTrue whenFalse hinside hshape
  cases hinside with
  | here => exact absurd hshape (hself _ _ _ _ _ rfl)
  | part hu hinside => exact hparts _ _ hu known' t check bound whenTrue whenFalse hinside hshape

/-- Names that are in use where a part is described do for it what its lexical scope does. -/
structure Fits (names : List String) (known : Set String) (a : TypePart) : Prop where
  agree : ∀ x, a.Mentions x → (x ∈ names ↔ x ∈ known)
  inferred : a.WellInferred known

variable {names : List String} {known : Set String} {a u : TypePart}

theorem fits_self (h : a.WellInferred {x | x ∈ names}) : a.Fits names {x | x ∈ names} :=
  ⟨fun _ _ => Iff.rfl, h⟩

theorem Fits.under (h : a.Fits names known) {more : List String}
    (hu : (.under more, u) ∈ a.parts) : u.Fits (names ++ more) (known ∪ {x | x ∈ more}) where
  agree x hx := by
    rw [List.mem_append, Set.mem_union]
    by_cases hmore : x ∈ more
    · exact iff_of_true (Or.inr hmore) (Or.inr hmore)
    · exact or_congr (h.agree x (.inside hu (by simpa using hmore) hx)) Iff.rfl
  inferred := by simpa using h.inferred.part hu

theorem Fits.plain (h : a.Fits names known) (hu : (.under [], u) ∈ a.parts) :
    u.Fits names known := by
  have hunder := h.under hu
  have hempty : {x : String | x ∈ ([] : List String)} = ∅ := by simp
  rwa [List.append_nil, hempty, Set.union_empty] at hunder

variable {t check bound whenTrue : TypeExpr} {whenFalse : Option TypeExpr}

/-- In the extends clause the names that are inferred there are in use already. -/
theorem Fits.clause (h : (written t).Fits names known)
    (ht : t.shape = .conditional check bound (some whenTrue) whenFalse) :
    (written bound).Fits (names ++ bound.inferredNames) known where
  agree x hx := by
    have hpart : (.clause, written bound) ∈ (written t).parts := by
      simp [parts, TypeExpr.parts, ht]
    have hagree := h.agree x (.inside hpart (Set.notMem_empty x) hx)
    obtain ⟨hbound, -⟩ := h.inferred known t check bound whenTrue whenFalse .here ht
    rw [List.mem_append]
    exact ⟨fun hin => hin.elim hagree.mp fun hi => hbound x hi hx, fun hk => Or.inl (hagree.mpr hk)⟩
  inferred := by
    have hpart : (.clause, written bound) ∈ (written t).parts := by
      simp [parts, TypeExpr.parts, ht]
    simpa [Position.names] using h.inferred.part hpart

theorem Fits.outcome (h : (written t).Fits names known)
    (ht : t.shape = .conditional check bound (some whenTrue) whenFalse) :
    (written whenTrue).Fits (names ++ bound.inferredNames)
      (known ∪ {x | Infers x (written bound)}) where
  agree x hx := by
    have hpart : (.outcome bound, written whenTrue) ∈ (written t).parts := by
      simp [parts, TypeExpr.parts, ht]
    obtain ⟨-, htrue⟩ := h.inferred known t check bound whenTrue whenFalse .here ht
    obtain ⟨hown, hstray⟩ := htrue x hx
    rw [List.mem_append, Set.mem_union]
    by_cases hi : Infers x (written bound)
    · exact iff_of_true (Or.inr (hown hi)) (Or.inr hi)
    · -- the clause does not infer the name, so it is free in the conditional type as well
      have hagree := h.agree x (.inside hpart hi hx)
      constructor
      · rintro (hn | hn)
        · exact Or.inl (hagree.mp hn)
        · exact (hstray hn).symm
      · rintro (hk | hk)
        · exact Or.inl (hagree.mpr hk)
        · exact absurd hk hi
  inferred := by
    have hpart : (.outcome bound, written whenTrue) ∈ (written t).parts := by
      simp [parts, TypeExpr.parts, ht]
    exact h.inferred.part hpart

end TypePart

end ApiSurface
