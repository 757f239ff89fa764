import ApiSurface.Syntax.WrittenTypes
/-!
All types in a declaration, wherever they stand, and which of them count as written: those that
stand neither in the key of an index signature nor in an initializer.
-/
namespace ApiSurface

/-- Where a type stands in a declaration. -/
inductive Standing where
  | outer
  /-- In the key of an index signature. -/
  | key
  | initializer
  deriving DecidableEq

mutual

/-- A type that stands somewhere and the types inside it. -/
def TypeExpr.occurrences (s : Standing) : TypeExpr → List (Standing × TypeExpr)
  | ⟨span, shape⟩ => (s, ⟨span, shape⟩) :: shape.occurrences s

/-- The types inside a type. -/
def TypeShape.occurrences (s : Standing) : TypeShape → List (Standing × TypeExpr)
  | .reference _ args | .query _ args | .moduleType _ _ args _ => occurrencesInAll s args
  | .array inner | .parenthesized inner | .operator _ inner => inner.occurrences s
  | .union parts | .intersection parts => occurrencesInAll s parts
  | .infer _ bound => occurrencesInOption s bound
  | .tuple items => occurrencesInItems s items
  | .object members => occurrencesInMembers s members
  | .indexed object index => object.occurrences s ++ index.occurrences s
  | .conditional check bound whenTrue whenFalse =>
    check.occurrences s ++ bound.occurrences s ++ occurrencesInOption s whenTrue ++
      occurrencesInOption s whenFalse
  | .mapped _ _ keys rename _ value =>
    keys.occurrences s ++ occurrencesInOption s rename ++ occurrencesInOption s value
  | .function signature | .constructor signature _ => signature.occurrences s
  | .predicate _ _ type => occurrencesInOption s type
  | .keyword _ | .literal _ | .template | .unsupported => []

/-- The types in a list of types. -/
def occurrencesInAll (s : Standing) : List TypeExpr → List (Standing × TypeExpr)
  | [] => []
  | t :: ts => t.occurrences s ++ occurrencesInAll s ts

/-- The types in a type that may be missing. -/
def occurrencesInOption (s : Standing) : Option TypeExpr → List (Standing × TypeExpr)
  | none => []
  | some t => t.occurrences s

/-- The types in the elements of a tuple. -/
def occurrencesInItems (s : Standing) : List TupleItem → List (Standing × TypeExpr)
  | [] => []
  | ⟨_, _, _, _, type⟩ :: items => type.occurrences s ++ occurrencesInItems s items

/-- The types in members. -/
def occurrencesInMembers (s : Standing) : List TypeMember → List (Standing × TypeExpr)
  | [] => []
  | ⟨_, _, shape⟩ :: members => shape.occurrences s ++ occurrencesInMembers s members

/-- The types in a member. -/
def TypeMemberShape.occurrences (s : Standing) : TypeMemberShape → List (Standing × TypeExpr)
  | .property _ _ _ type | .getter _ type => occurrencesInOption s type
  | .index params type _ => occurrencesInParams .key params ++ occurrencesInOption s type
  | .method _ _ signature | .call signature | .construct signature => signature.occurrences s
  | .setter _ none => []
  | .setter _ (some ⟨_, _, _, _, _, type, initial⟩) =>
    occurrencesInOption s type ++ occurrencesInInitial initial

/-- The types in a signature. -/
def Signature.occurrences (s : Standing) : Signature → List (Standing × TypeExpr)
  | ⟨typeParams, params, returns⟩ =>
    occurrencesInTypeParams s typeParams ++ occurrencesInParams s params ++
      occurrencesInOption s returns

/-- The types in type parameters. -/
def occurrencesInTypeParams (s : Standing) : List TypeParam → List (Standing × TypeExpr)
  | [] => []
  | ⟨_, bound, fallback⟩ :: params =>
    occurrencesInOption s bound ++ occurrencesInOption s fallback ++
      occurrencesInTypeParams s params

/-- The types in parameters. -/
def occurrencesInParams (s : Standing) : List Param → List (Standing × TypeExpr)
  | [] => []
  | ⟨_, _, _, _, _, type, initial⟩ :: params =>
    occurrencesInOption s type ++ occurrencesInInitial initial ++ occurrencesInParams s params

/-- The types in an initializer that may be missing. -/
def occurrencesInInitial : Option Expr → List (Standing × TypeExpr)
  | none => []
  | some e => e.occurrences

/-- The types in an expression. -/
def Expr.occurrences : Expr → List (Standing × TypeExpr)
  | ⟨_, shape⟩ => shape.occurrences

/-- The types in a form of expression. -/
def ExprShape.occurrences : ExprShape → List (Standing × TypeExpr)
  | .array items => occurrencesInExprs items
  | .object items => occurrencesInObjectItems items
  | .asserted value type => value.occurrences ++ type.occurrences .initializer
  | .asConst value | .unary _ value => value.occurrences
  | .function signature _ result _ =>
    signature.occurrences .initializer ++ occurrencesInInitial result
  | .string _ | .number _ | .bigInt _ | .template _ | .true | .false | .null | .entity _ | .new _ |
    .unknown => []

/-- The types in some expressions. -/
def occurrencesInExprs : List Expr → List (Standing × TypeExpr)
  | [] => []
  | e :: es => e.occurrences ++ occurrencesInExprs es

/-- The types in the entries of an object literal. -/
def occurrencesInObjectItems : List ObjectItem → List (Standing × TypeExpr)
  | [] => []
  | .property _ value :: items => value.occurrences ++ occurrencesInObjectItems items
  | .method _ signature :: items =>
    signature.occurrences .initializer ++ occurrencesInObjectItems items
  | .shorthand _ :: items | .spread _ :: items => occurrencesInObjectItems items

end

/-- The types in a member of a class. -/
def ClassMemberShape.occurrences : ClassMemberShape → List (Standing × TypeExpr)
  | .property _ _ type initial => occurrencesInOption .outer type ++ occurrencesInInitial initial
  | .getter _ type _ => occurrencesInOption .outer type
  | .index params type => occurrencesInParams .key params ++ occurrencesInOption .outer type
  | .method _ _ signature _ | .constructor signature _ => signature.occurrences .outer
  | .setter _ param => occurrencesInParams .outer param.toList
  | .unknown => []

/-- The types in a declaration, each with where it stands. Modules and enums have none of their own:
what they hold is declared by itself. -/
def Declaration.occurrences (d : Declaration) : List (Standing × TypeExpr) :=
  match d.shape with
  | .function signature _ => signature.occurrences .outer
  | .variable _ type initial => occurrencesInOption .outer type ++ occurrencesInInitial initial
  | .typeAlias typeParams type => occurrencesInTypeParams .outer typeParams ++ type.occurrences .outer
  | .interface typeParams extends_ members =>
    occurrencesInTypeParams .outer typeParams ++ occurrencesInAll .outer extends_ ++
      occurrencesInMembers .outer members
  | .class typeParams extends_ implements members =>
    occurrencesInTypeParams .outer typeParams ++ occurrencesInOption .outer extends_ ++
      occurrencesInAll .outer implements ++ members.flatMap (·.shape.occurrences)
  | .enumMember initial => occurrencesInInitial initial
  | .enum _ | .module .. => []

section

variable (e : TypeExpr)

-- one case for each form: outside, both list the types inside; in a key or an initializer, none of
-- the types inside stands outside
mutual

theorem TypeExpr.mem_occurrences (s : Standing) : (t : TypeExpr) →
    ((.outer, e) ∈ t.occurrences s ↔ s = .outer ∧ e ∈ t.written)
  | ⟨_, shape⟩ => by
    rw [TypeExpr.occurrences, TypeExpr.written, List.mem_cons, List.mem_cons, Prod.mk.injEq,
      and_or_left, shape.mem_occurrences s, @eq_comm _ Standing.outer]

theorem TypeShape.mem_occurrences (s : Standing) : (t : TypeShape) →
    ((.outer, e) ∈ t.occurrences s ↔ s = .outer ∧ e ∈ t.written)
  | .reference _ args | .query _ args | .moduleType _ _ args _ | .union args | .intersection args =>
    mem_occurrencesInAll s args
  | .array inner | .parenthesized inner | .operator _ inner => inner.mem_occurrences s
  | .infer _ bound | .predicate _ _ bound => mem_occurrencesInOption s bound
  | .tuple items => mem_occurrencesInItems s items
  | .object members => mem_occurrencesInMembers s members
  | .indexed object index => by
    simp only [TypeShape.occurrences, TypeShape.written, List.mem_append, and_or_left,
      object.mem_occurrences s, index.mem_occurrences s]
  | .conditional check bound whenTrue whenFalse => by
    simp only [TypeShape.occurrences, TypeShape.written, List.mem_append, and_or_left,
      check.mem_occurrences s, bound.mem_occurrences s, mem_occurrencesInOption s whenTrue,
      mem_occurrencesInOption s whenFalse]
  | .mapped _ _ keys rename _ value => by
    simp only [TypeShape.occurrences, TypeShape.written, List.mem_append, and_or_left,
      keys.mem_occurrences s, mem_occurrencesInOption s rename, mem_occurrencesInOption s value]
  | .function signature | .constructor signature _ => signature.mem_occurrences s
  | .keyword _ | .literal _ | .template | .unsupported => by
    simp [TypeShape.occurrences, TypeShape.written]

theorem mem_occurrencesInAll (s : Standing) : (ts : List TypeExpr) →
    ((.outer, e) ∈ occurrencesInAll s ts ↔ s = .outer ∧ e ∈ writtenInAll ts)
  | [] => by simp [occurrencesInAll, writtenInAll]
  | t :: ts => by
    simp only [occurrencesInAll, writtenInAll, List.mem_append, and_or_left, t.mem_occurrences s,
      mem_occurrencesInAll s ts]

theorem mem_occurrencesInOption (s : Standing) : (t : Option TypeExpr) →
    ((.outer, e) ∈ occurrencesInOption s t ↔ s = .outer ∧ e ∈ writtenInOption t)
  | none => by simp [occurrencesInOption, writtenInOption]
  | some t => t.mem_occurrences s

theorem mem_occurrencesInItems (s : Standing) : (items : List TupleItem) →
    ((.outer, e) ∈ occurrencesInItems s items ↔ s = .outer ∧ e ∈ writtenInItems items)
  | [] => by simp [occurrencesInItems, writtenInItems]
  | ⟨_, _, _, _, type⟩ :: items => by
    simp only [occurrencesInItems, writtenInItems, List.mem_append, and_or_left,
      type.mem_occurrences s, mem_occurrencesInItems s items]

theorem mem_occurrencesInMembers (s : Standing) : (members : List TypeMember) →
    ((.outer, e) ∈ occurrencesInMembers s members ↔ s = .outer ∧ e ∈ writtenInMembers members)
  | [] => by simp [occurrencesInMembers, writtenInMembers]
  | ⟨_, _, shape⟩ :: members => by
    simp only [occurrencesInMembers, writtenInMembers, List.mem_append, and_or_left,
      shape.mem_occurrences s, mem_occurrencesInMembers s members]

theorem TypeMemberShape.mem_occurrences (s : Standing) : (m : TypeMemberShape) →
    ((.outer, e) ∈ m.occurrences s ↔ s = .outer ∧ e ∈ m.written)
  | .property _ _ _ type | .getter _ type => mem_occurrencesInOption s type
  | .index params type _ => by
    have hkeys := mem_occurrencesInParams .key params
    simp only [TypeMemberShape.occurrences, TypeMemberShape.written, List.mem_append, hkeys,
      reduceCtorEq, false_and, false_or, mem_occurrencesInOption s type]
  | .method _ _ signature | .call signature | .construct signature => signature.mem_occurrences s
  | .setter _ none => by simp [TypeMemberShape.occurrences, TypeMemberShape.written]
  | .setter _ (some ⟨_, _, _, _, _, type, initial⟩) => by
    simp only [TypeMemberShape.occurrences, TypeMemberShape.written, List.mem_append,
      not_mem_occurrencesInInitial initial, or_false, mem_occurrencesInOption s type]

theorem Signature.mem_occurrences (s : Standing) : (signature : Signature) →
    ((.outer, e) ∈ signature.occurrences s ↔ s = .outer ∧ e ∈ signature.written)
  | ⟨typeParams, params, returns⟩ => by
    simp only [Signature.occurrences, Signature.written, List.mem_append, and_or_left,
      mem_occurrencesInTypeParams s typeParams, mem_occurrencesInParams s params,
      mem_occurrencesInOption s returns]

theorem mem_occurrencesInTypeParams (s : Standing) : (params : List TypeParam) →
    ((.outer, e) ∈ occurrencesInTypeParams s params ↔ s = .outer ∧ e ∈ writtenInTypeParams params)
  | [] => by simp [occurrencesInTypeParams, writtenInTypeParams]
  | ⟨_, bound, fallback⟩ :: params => by
    simp only [occurrencesInTypeParams, writtenInTypeParams, List.mem_append, and_or_left,
      mem_occurrencesInOption s bound, mem_occurrencesInOption s fallback,
      mem_occurrencesInTypeParams s params]

theorem mem_occurrencesInParams (s : Standing) : (params : List Param) →
    ((.outer, e) ∈ occurrencesInParams s params ↔ s = .outer ∧ e ∈ writtenInParams params)
  | [] => by simp [occurrencesInParams, writtenInParams]
  | ⟨_, _, _, _, _, type, initial⟩ :: params => by
    simp only [occurrencesInParams, writtenInParams, List.mem_append, and_or_left,
      not_mem_occurrencesInInitial initial, or_false, mem_occurrencesInOption s type,
      mem_occurrencesInParams s params]

theorem not_mem_occurrencesInInitial : (x : Option Expr) → (.outer, e) ∉ occurrencesInInitial x
  | none => List.not_mem_nil
  | some x => x.not_mem_occurrences

theorem Expr.not_mem_occurrences : (x : Expr) → (.outer, e) ∉ x.occurrences
  | ⟨_, shape⟩ => shape.not_mem_occurrences

theorem ExprShape.not_mem_occurrences : (x : ExprShape) → (.outer, e) ∉ x.occurrences
  | .array items => not_mem_occurrencesInExprs items
  | .object items => not_mem_occurrencesInObjectItems items
  | .asserted value type => by
    simp [ExprShape.occurrences, value.not_mem_occurrences, type.mem_occurrences .initializer]
  | .asConst value | .unary _ value => value.not_mem_occurrences
  | .function signature _ result _ => by
    simp [ExprShape.occurrences, signature.mem_occurrences .initializer,
      not_mem_occurrencesInInitial result]
  | .string _ | .number _ | .bigInt _ | .template _ | .true | .false | .null | .entity _ | .new _ |
    .unknown => List.not_mem_nil

theorem not_mem_occurrencesInExprs : (xs : List Expr) → (.outer, e) ∉ occurrencesInExprs xs
  | [] => List.not_mem_nil
  | x :: xs => by
    simp [occurrencesInExprs, x.not_mem_occurrences, not_mem_occurrencesInExprs xs]

theorem not_mem_occurrencesInObjectItems : (items : List ObjectItem) →
    (.outer, e) ∉ occurrencesInObjectItems items
  | [] => List.not_mem_nil
  | .property _ value :: items => by
    simp [occurrencesInObjectItems, value.not_mem_occurrences,
      not_mem_occurrencesInObjectItems items]
  | .method _ signature :: items => by
    simp [occurrencesInObjectItems, signature.mem_occurrences .initializer,
      not_mem_occurrencesInObjectItems items]
  | .shorthand _ :: items | .spread _ :: items => not_mem_occurrencesInObjectItems items

end

theorem ClassMemberShape.mem_occurrences (m : ClassMemberShape) :
    (.outer, e) ∈ m.occurrences ↔ e ∈ m.written := by
  cases m with
  | property name optional type initial =>
    simp [occurrences, written, mem_occurrencesInOption, not_mem_occurrencesInInitial]
  | method name optional signature body | constructor signature body =>
    simp [occurrences, written, signature.mem_occurrences]
  | getter name type body => simp [occurrences, written, mem_occurrencesInOption]
  | setter name param =>
    simp only [occurrences, written, mem_occurrencesInParams, true_and]
    rcases param with _ | ⟨_, _, _, _, _, type, _⟩
    · rfl
    · simp [writtenInParams]
  | index params type =>
    simp [occurrences, written, mem_occurrencesInOption, mem_occurrencesInParams]
  | unknown => simp [occurrences, written]

/-- The types that stand outside in a declaration are the written ones. -/
theorem Declaration.mem_occurrences : (d : Declaration) →
    ((.outer, e) ∈ d.occurrences ↔ e ∈ d.written)
  | ⟨_, _, _, _, .function signature _, _⟩ => by
    simp [occurrences, written, signature.mem_occurrences]
  | ⟨_, _, _, _, .variable _ type initial, _⟩ => by
    simp [occurrences, written, mem_occurrencesInOption, not_mem_occurrencesInInitial]
  | ⟨_, _, _, _, .typeAlias typeParams type, _⟩ => by
    simp [occurrences, written, mem_occurrencesInTypeParams, TypeExpr.mem_occurrences]
  | ⟨_, _, _, _, .interface typeParams extends_ members, _⟩ => by
    simp [occurrences, written, mem_occurrencesInTypeParams, mem_occurrencesInAll,
      mem_occurrencesInMembers]
  | ⟨_, _, _, _, .class typeParams extends_ implements members, _⟩ => by
    simp [occurrences, written, mem_occurrencesInTypeParams, mem_occurrencesInOption,
      mem_occurrencesInAll, ClassMemberShape.mem_occurrences]
  | ⟨_, _, _, _, .enumMember initial, _⟩ => by
    simp [occurrences, written, not_mem_occurrencesInInitial]
  | ⟨_, _, _, _, .enum _, _⟩ | ⟨_, _, _, _, .module .., _⟩ => by simp [occurrences, written]

end

end ApiSurface
