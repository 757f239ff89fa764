import ApiSurface.Proofs.OptionalTypes
import ApiSurface.Proofs.Scopes
/-!
How far types stand inside other types: in what is described, and in what it is described as.
-/
namespace ApiSurface

/-! ### Levels of documented types -/

/-- The types of a type parameter. -/
def DocTypeParam.parts : DocTypeParam → List DocType
  | mk _ bound fallback => bound.toList ++ fallback.toList

/-- The type of a parameter. -/
def DocParam.type : DocParam → DocType
  | mk _ t _ _ => t

/-- The types that stand directly in a signature. -/
def DocSignature.parts : DocSignature → List DocType
  | mk _ typeParams params returns _ =>
    typeParams.flatMap DocTypeParam.parts ++ params.map DocParam.type ++ [returns]

/-- The type of an element of a tuple. -/
def DocTupleItem.type : DocTupleItem → DocType
  | mk _ _ t => t

/-- The types that stand directly in a member. -/
def DocMember.parts : DocMember → List DocType
  | property _ _ _ _ t => [t]
  | index _ _ key _ t => [key, t]
  | method _ _ _ s | call _ s | constructor _ s => s.parts
  | unknown _ => []

namespace DocType

/-- The types that stand directly in a type. -/
def parts : DocType → List DocType
  | .reference _ _ ts | .union ts | .intersection ts => ts
  | .array _ t | .paren t | .keyof t => [t]
  | .infer _ t | .predicate _ _ t => t.toList
  | .tuple _ items => items.map DocTupleItem.type
  | .object ms => ms.flatMap DocMember.parts
  | .indexed t index => [t, index]
  | .conditional check bound whenTrue whenFalse => [check, bound, whenTrue, whenFalse]
  | .mapped _ keys rename _ _ value => keys :: (rename.toList ++ value.toList)
  | .signature s => s.parts
  | .intrinsic _ | .typeof _ _ | .typeParameter _ | .string _ | .number _ | .bigInt _ | .raw _ => []

/-- A type stands some levels inside another one. -/
inductive Holds : ℕ → DocType → DocType → Prop
  | here {t : DocType} : Holds 0 t t
  | inside {k : ℕ} {t p v : DocType} : p ∈ t.parts → Holds k p v → Holds (k + 1) t v

end DocType

/-! ### Levels of types -/

/-- The parts of a written type that are one level further in it. `readonly` and the array or tuple
behind it are one level. -/
def TypeExpr.next (t : TypeExpr) : List TypePart :=
  match t.shape with
  | .operator .readonly u =>
    match u.shape with
    | .array item => [.written item]
    | .tuple items => items.map fun i => .written i.type
    | _ => [.written u]
  | _ => t.parts.map Prod.snd

namespace TypePart

/-- The parts of a part that are one level further in it. -/
def next : TypePart → List TypePart
  | written t => t.next
  | shown t => t.parts.map Prod.snd

/-- A part stands some levels inside another one. -/
inductive Reaches : ℕ → TypePart → TypePart → Prop
  | here {a : TypePart} : Reaches 0 a a
  | inside {k : ℕ} {a u v : TypePart} : u ∈ a.next → Reaches k u v → Reaches (k + 1) a v

end TypePart

theorem forall_mem_partsUnder {names : List String} {parts : List TypePart} {P : TypePart → Prop} :
    (∀ u ∈ (partsUnder names parts).map Prod.snd, P u) ↔ ∀ u ∈ parts, P u := by
  simp [partsUnder]

/-- A form of type that is only shown as written. -/
def TypeExpr.IsShownAsWritten (t : TypeExpr) : Prop :=
  match t.shape with
  | .template | .unsupported | .operator .unique _ => True
  | .operator .readonly u =>
    match u.shape with
    | .array _ | .tuple _ => False
    | _ => True
  | _ => False

theorem TypeExpr.isShownAsWritten_of_operator {t operand : TypeExpr} {op : TypeOperator}
    (hshape : t.shape = .operator op operand) (hkeyof : op = .keyof → False)
    (harray : ∀ item, op = .readonly → operand.shape = .array item → False)
    (htuple : ∀ items, op = .readonly → operand.shape = .tuple items → False) :
    t.IsShownAsWritten := by
  unfold IsShownAsWritten
  rw [hshape]
  cases op with
  | keyof => exact (hkeyof rfl).elim
  | unique => trivial
  | readonly =>
    dsimp only
    split
    · next item hitem => exact harray item rfl hitem
    · next items hitems => exact htuple items rfl hitems
    · trivial

/-- The text of a range, without blanks around it. -/
def Context.textOf (ctx : Context) (span : Span) : String :=
  String.ofList (trim ((ctx.program.source ctx.scope.fileIndex).textOf span).toList)

/-- What is shown as written for want of another form. -/
def TypeExpr.IsTextOf (ctx : Context) (t : TypeExpr) (s : String) : Prop :=
  t.IsShownAsWritten ∧ s = ctx.textOf t.span

/-! ### Properties of all types inside -/

/-- A property that the types inside a type have too. `any` has it, and a union keeps it when
alternatives are taken away. -/
structure Inherited (Q : DocType → Prop) : Prop where
  any : Q .any
  part : ∀ {t p}, Q t → p ∈ t.parts → Q p
  fewer : ∀ {ts ts'}, Q (.union ts) → ts' ⊆ ts → Q (.union ts')

theorem Inherited.ofProperty {Q : DocType → Prop} (hQ : Inherited Q) (optional : Bool)
    {t : DocType} (ht : Q t) : Q (t.ofProperty optional) := by
  cases optional with
  | false => exact ht
  | true =>
    show Q t.withoutUndefined
    rcases t.withoutUndefined_cases with ⟨heq, -⟩ | ⟨ts, rfl, -, hkept | ⟨-, heq⟩⟩
    · rwa [heq]
    · have hmem : (DocType.union ts).withoutUndefined ∈ DocType.kept ts := by
        rw [hkept]
        exact List.mem_singleton_self _
      exact hQ.part ht (DocType.mem_kept.mp hmem).1
    · rw [heq]
      exact hQ.fewer ht fun t ht => (DocType.mem_kept.mp ht).1

/-- Whether a type is only shown as a text. -/
def DocType.isRaw : DocType → Bool
  | .raw _ => true
  | _ => false

/-- All types that stand directly in a type have a property, and if the type is only a text, the
text has another one. -/
structure Level (Q : DocType → Prop) (R : String → Prop) (t : DocType) : Prop where
  parts : ∀ p ∈ t.parts, Q p
  text : ∀ s, t = .raw s → R s

theorem Level.of_parts {Q : DocType → Prop} {R : String → Prop} {t : DocType}
    (h : ∀ p ∈ t.parts, Q p) (ht : t.isRaw = false) : Level Q R t where
  parts := h
  text s hs := by
    subst hs
    cases ht

theorem Level.of_leaf {Q : DocType → Prop} {R : String → Prop} {t : DocType} (hp : t.parts = [])
    (ht : t.isRaw = false) : Level Q R t := by
  refine .of_parts ?_ ht
  rw [hp]
  exact List.forall_mem_nil Q

end ApiSurface
