import ApiSurface.Proofs.NestedTrees
import ApiSurface.Proofs.QuietProductions
/-!
How deeply nested the trees are that parsers make. Where a whole type or expression is entered, a level
more is open, and beyond the last level nothing is entered. That what a parser makes fits into the levels
that are left follows from its parts, so instances find it.
-/
namespace ApiSurface

/-! ### Trees that fit -/

/-- All trees in something fit. -/
def AllFit (n : ℕ) {α : Type} [Bears α] (a : α) : Prop := ∀ x ∈ subtrees a, x.Fits n

/-- A type that fits, and whose form binds its parts at least as tightly as some forms. -/
structure TypeExpr.Binds (n k : ℕ) (t : TypeExpr) : Prop where
  fits : (Subtree.type t).Fits n
  rank : k ≤ (Subtree.type t).rank

/-- An expression that fits. -/
def Expr.FitsIn (n : ℕ) (e : Expr) : Prop := (Subtree.expr e).Fits n

/-- Something is as said. -/
class Meets {α : Type} (P : α → Prop) (a : α) : Prop where
  meets : P a

section Meets

variable {α β : Type} [Bears α] [Bears β] {n k : ℕ}

instance {P : α → Prop} (a : { a : α // P a }) : Meets P a.1 := ⟨a.2⟩

theorem allFit_type {t : TypeExpr} : AllFit n t ↔ (Subtree.type t).Fits n :=
  List.forall_mem_singleton

theorem allFit_expr {e : Expr} : AllFit n e ↔ e.FitsIn n := List.forall_mem_singleton

theorem allFit_list {l : List α} : AllFit n l ↔ ∀ a ∈ l, AllFit n a := List.forall_mem_flatMap

theorem allFit_pair {a : α} {b : β} : AllFit n (a, b) ↔ AllFit n a ∧ AllFit n b :=
  List.forall_mem_append

instance (b : Bool) : Meets (AllFit n) b := ⟨List.forall_mem_nil _⟩

instance : Meets (AllFit n) (none : Option α) := ⟨List.forall_mem_nil _⟩

instance (a : α) [h : Meets (AllFit n) a] : Meets (AllFit n) (some a) := ⟨h.meets⟩

instance : Meets (AllFit n) ([] : List α) := ⟨List.forall_mem_nil _⟩

instance (a : α) (l : List α) [h : Meets (AllFit n) a] [hl : Meets (AllFit n) l] :
    Meets (AllFit n) (a :: l) :=
  ⟨allFit_list.mpr (List.forall_mem_cons.mpr ⟨h.meets, allFit_list.mp hl.meets⟩)⟩

instance (l l' : List α) [h : Meets (AllFit n) l] [h' : Meets (AllFit n) l'] :
    Meets (AllFit n) (l ++ l') :=
  ⟨allFit_list.mpr (List.forall_mem_append.mpr ⟨allFit_list.mp h.meets, allFit_list.mp h'.meets⟩)⟩

instance (l : List (List α)) [h : Meets (AllFit n) l] : Meets (AllFit n) l.flatten := by
  refine ⟨allFit_list.mpr fun a ha => ?_⟩
  obtain ⟨m, hm, ha⟩ := List.mem_flatten.mp ha
  exact allFit_list.mp (allFit_list.mp h.meets m hm) a ha

instance (l : List α) [h : Meets (AllFit n) l] : Meets (AllFit n) l.head? := by
  refine ⟨?_⟩
  cases l with
  | nil => exact List.forall_mem_nil _
  | cons a l => exact allFit_list.mp h.meets a List.mem_cons_self

instance (x : Option α) (a : α) [h : Meets (AllFit n) x] [h' : Meets (AllFit n) a] :
    Meets (AllFit n) (x.getD a) := by
  refine ⟨?_⟩
  cases x with
  | none => exact h'.meets
  | some b => exact h.meets

instance (xs : Array α) [h : Meets (AllFit n) xs] : Meets (AllFit n) xs.toList := ⟨h.meets⟩

instance (a : α) (b : β) [h : Meets (AllFit n) a] [h' : Meets (AllFit n) b] :
    Meets (AllFit n) (a, b) := ⟨allFit_pair.mpr ⟨h.meets, h'.meets⟩⟩

instance (b : Prop) [Decidable b] (P : α → Prop) (x y : α) [hx : Meets P x] [hy : Meets P y] :
    Meets P (if b then x else y) := by split <;> assumption

/-! ### Signatures and members -/

instance (name : Ident) (bound fallback : Option TypeExpr) [h : Meets (AllFit n) bound]
    [h' : Meets (AllFit n) fallback] : Meets (AllFit n) (TypeParam.mk name bound fallback) :=
  ⟨List.forall_mem_append.mpr ⟨h.meets, h'.meets⟩⟩

instance (name : Ident) (span : Span) (modifiers : Modifiers) (rest optional : Bool)
    (type : Option TypeExpr) (initial : Option Expr) [h : Meets (AllFit n) type]
    [h' : Meets (AllFit n) initial] :
    Meets (AllFit n) (Param.mk name span modifiers rest optional type initial) :=
  ⟨List.forall_mem_append.mpr ⟨h.meets, h'.meets⟩⟩

theorem allFit_signature {s : Signature} :
    AllFit n s ↔ (AllFit n s.typeParams ∧ AllFit n s.params) ∧ AllFit n s.returns := by
  unfold AllFit
  rw [← List.forall_mem_append, ← List.forall_mem_append]
  rfl

instance (typeParams : List TypeParam) (params : List Param) (returns : Option TypeExpr)
    [h : Meets (AllFit n) typeParams] [h' : Meets (AllFit n) params] [h'' : Meets (AllFit n) returns] :
    Meets (AllFit n) (Signature.mk typeParams params returns) :=
  ⟨allFit_signature.mpr ⟨⟨h.meets, h'.meets⟩, h''.meets⟩⟩

instance (s : Signature) [h : Meets (AllFit n) s] : Meets (AllFit n) s.params :=
  ⟨(allFit_signature.mp h.meets).1.2⟩

instance (s : Signature) [h : Meets (AllFit n) s] : Meets (AllFit n) s.returns :=
  ⟨(allFit_signature.mp h.meets).2⟩

instance (span : Span) (label : Option Ident) (optional rest : Bool) (type : TypeExpr)
    [h : Meets (AllFit n) type] : Meets (AllFit n) (TupleItem.mk span label optional rest type) :=
  ⟨h.meets⟩

instance (name : PropertyName) (optional readonly : Bool) (type : Option TypeExpr)
    [h : Meets (AllFit n) type] :
    Meets (AllFit n) (TypeMemberShape.property name optional readonly type) := ⟨h.meets⟩

instance (name : PropertyName) (optional : Bool) (s : Signature) [h : Meets (AllFit n) s] :
    Meets (AllFit n) (TypeMemberShape.method name optional s) := ⟨h.meets⟩

instance (s : Signature) [h : Meets (AllFit n) s] : Meets (AllFit n) (TypeMemberShape.call s) :=
  ⟨h.meets⟩

instance (s : Signature) [h : Meets (AllFit n) s] :
    Meets (AllFit n) (TypeMemberShape.construct s) := ⟨h.meets⟩

instance (params : List Param) (type : Option TypeExpr) (readonly : Bool)
    [h : Meets (AllFit n) params] [h' : Meets (AllFit n) type] :
    Meets (AllFit n) (TypeMemberShape.index params type readonly) :=
  ⟨List.forall_mem_append.mpr ⟨h.meets, h'.meets⟩⟩

instance (name : PropertyName) (type : Option TypeExpr) [h : Meets (AllFit n) type] :
    Meets (AllFit n) (TypeMemberShape.getter name type) := ⟨h.meets⟩

instance (name : PropertyName) (param : Option Param) [h : Meets (AllFit n) param] :
    Meets (AllFit n) (TypeMemberShape.setter name param) := ⟨h.meets⟩

instance (span : Span) (doc : Option String) (shape : TypeMemberShape)
    [h : Meets (AllFit n) shape] : Meets (AllFit n) (TypeMember.mk span doc shape) := ⟨h.meets⟩

instance (name : PropertyName) (value : Expr) [h : Meets (AllFit n) value] :
    Meets (AllFit n) (ObjectItem.property name value) := ⟨h.meets⟩

instance (name : PropertyName) (s : Signature) [h : Meets (AllFit n) s] :
    Meets (AllFit n) (ObjectItem.method name s) := ⟨h.meets⟩

instance (name : Ident) : Meets (AllFit n) (ObjectItem.shorthand name) := ⟨List.forall_mem_nil _⟩

instance (span : Span) : Meets (AllFit n) (ObjectItem.spread span) := ⟨List.forall_mem_nil _⟩

end Meets

/-! ### Types and expressions -/

namespace Subtree

variable {a : Subtree} {n : ℕ}

/-- What stands directly in a tree fits: whole types and expressions have a level of their own. -/
theorem Fits.of_insides {x : Insides} (hx : a.insides = x)
    (hoperands : ∀ b ∈ x.operands, b.Fits (n + 1) ∧ a.rank ≤ b.rank)
    (hparts : ∀ b ∈ x.parts, b.Fits (n + 1) ∧ a.rank < b.rank)
    (hwholes : ∀ b ∈ x.wholes, b.Fits n) : a.Fits (n + 1) := by
  subst hx
  exact .intro ⟨fun b hb => (hoperands b hb).2, fun b hb => (hparts b hb).2⟩
    (fun b hb => (hoperands b hb).1) (fun b hb => (hparts b hb).1)
    fun b hb => ⟨n, Nat.lt_succ_self n, hwholes b hb⟩

end Subtree

section Forms

variable {n k : ℕ} {span : Span}

theorem TypeExpr.Binds.mono {t : TypeExpr} {k' : ℕ} (h : t.Binds n k) (hk : k' ≤ k) :
    t.Binds n k' := ⟨h.fits, hk.trans h.rank⟩

/-- The range of a type does not matter. -/
theorem TypeExpr.Binds.shape {t : TypeExpr} (h : t.Binds n k) : TypeExpr.Binds n k ⟨span, t.shape⟩ :=
  ⟨h.fits.of_same rfl rfl, h.rank⟩

theorem TypeExpr.Binds.of_wholes {t : TypeExpr} {l : List Subtree} (hinsides : t.insides = ⟨[], [], l⟩)
    (hrank : (Subtree.type t).rank = 4) (hl : ∀ b ∈ l, b.Fits n) : t.Binds (n + 1) 4 :=
  ⟨.of_insides (a := .type t) hinsides (List.forall_mem_nil _) (List.forall_mem_nil _) hl, hrank.ge⟩

theorem Subtree.Fits.of_predicate {asserts : Bool} {param : Ident} {type : Option TypeExpr}
    (h : ∀ t ∈ type.toList, t.Binds n 1) :
    (Subtree.type ⟨span, .predicate asserts param type⟩).Fits n := by
  have hparts : ∀ b ∈ (subtrees type : List Subtree), b.Fits n ∧ 0 < b.rank := by
    cases type with
    | none => exact List.forall_mem_nil _
    | some t =>
      have ht := h t List.mem_cons_self
      exact List.forall_mem_singleton.mpr ⟨ht.fits, ht.rank⟩
  exact .intro ⟨List.forall_mem_nil _, fun b hb => (hparts b hb).2⟩ (List.forall_mem_nil _)
    (fun b hb => (hparts b hb).1) (List.forall_mem_nil _)

theorem Expr.FitsIn.of_wholes {e : Expr} {l : List Subtree} (hinsides : e.insides = ⟨[], [], l⟩)
    (hl : ∀ b ∈ l, b.Fits n) : e.FitsIn (n + 1) :=
  Subtree.Fits.of_insides (a := .expr e) hinsides (List.forall_mem_nil _) (List.forall_mem_nil _) hl

theorem TypeExpr.Binds.of_operand {t operand : TypeExpr} {l : List Subtree}
    (hinsides : t.insides = ⟨subtrees operand, [], l⟩) (hrank : (Subtree.type t).rank = 4)
    (hoperand : operand.Binds (n + 1) 4) (hl : ∀ b ∈ l, b.Fits n) : t.Binds (n + 1) 4 := by
  refine ⟨.of_insides (a := .type t) hinsides ?_ (List.forall_mem_nil _) hl, hrank.ge⟩
  exact List.forall_mem_singleton.mpr ⟨hoperand.fits, hrank.trans_le hoperand.rank⟩

/-- A form of which all parts bind more tightly. -/
theorem TypeExpr.Binds.of_parts {t : TypeExpr} {parts : List TypeExpr} {l : List Subtree}
    (hinsides : t.insides = ⟨[], subtrees parts, l⟩) (hrank : (Subtree.type t).rank = k)
    (hparts : ∀ u ∈ parts, u.Binds (n + 1) (k + 1)) (hl : ∀ b ∈ l, b.Fits n) :
    t.Binds (n + 1) k := by
  refine ⟨.of_insides (a := .type t) hinsides (List.forall_mem_nil _) ?_ hl, hrank.ge⟩
  refine List.forall_mem_flatMap.mpr fun u hu => List.forall_mem_singleton.mpr ?_
  exact ⟨(hparts u hu).fits, hrank.trans_lt (hparts u hu).rank⟩

theorem Expr.FitsIn.of_operand {e value : Expr} {l : List Subtree}
    (hinsides : e.insides = ⟨subtrees value, [], l⟩) (hvalue : value.FitsIn (n + 1))
    (hl : ∀ b ∈ l, b.Fits n) : e.FitsIn (n + 1) :=
  Subtree.Fits.of_insides (a := .expr e) hinsides
    (List.forall_mem_singleton.mpr ⟨hvalue, Nat.le_refl 4⟩) (List.forall_mem_nil _) hl

/-- A form that binds its parts tightly is one that a loose form may have for a part. -/
instance (priority := low) (t : TypeExpr) [h : Meets (TypeExpr.Binds n 4) t] :
    Meets (TypeExpr.Binds n 1) t := ⟨h.meets.mono (by decide)⟩

instance (word : String) : Meets (TypeExpr.Binds (n + 1) 4) ⟨span, .keyword word⟩ :=
  ⟨.of_wholes rfl rfl (List.forall_mem_nil _)⟩

instance (value : LiteralType) : Meets (TypeExpr.Binds (n + 1) 4) ⟨span, .literal value⟩ :=
  ⟨.of_wholes rfl rfl (List.forall_mem_nil _)⟩

instance : Meets (TypeExpr.Binds (n + 1) 4) ⟨span, .template⟩ :=
  ⟨.of_wholes rfl rfl (List.forall_mem_nil _)⟩

instance : Meets (TypeExpr.Binds n 4) ⟨span, .unsupported⟩ :=
  ⟨⟨.of_empty rfl, Nat.le_refl 4⟩⟩

instance (name : EntityName) (args : List TypeExpr) [h : Meets (AllFit n) args] :
    Meets (TypeExpr.Binds (n + 1) 4) ⟨span, .reference name args⟩ := ⟨.of_wholes rfl rfl h.meets⟩

instance (name : EntityName) (args : List TypeExpr) [h : Meets (AllFit n) args] :
    Meets (TypeExpr.Binds (n + 1) 4) ⟨span, .query name args⟩ := ⟨.of_wholes rfl rfl h.meets⟩

instance (specifier : String) (qualifier : Option EntityName) (args : List TypeExpr)
    (isTypeof : Bool) [h : Meets (AllFit n) args] :
    Meets (TypeExpr.Binds (n + 1) 4) ⟨span, .moduleType specifier qualifier args isTypeof⟩ :=
  ⟨.of_wholes rfl rfl h.meets⟩

instance (name : Ident) (bound : Option TypeExpr) [h : Meets (AllFit n) bound] :
    Meets (TypeExpr.Binds (n + 1) 4) ⟨span, .infer name bound⟩ := ⟨.of_wholes rfl rfl h.meets⟩

instance (inner : TypeExpr) [h : Meets (AllFit n) inner] :
    Meets (TypeExpr.Binds (n + 1) 4) ⟨span, .parenthesized inner⟩ := ⟨.of_wholes rfl rfl h.meets⟩

instance (items : List TupleItem) [h : Meets (AllFit n) items] :
    Meets (TypeExpr.Binds (n + 1) 4) ⟨span, .tuple items⟩ := ⟨.of_wholes rfl rfl h.meets⟩

instance (members : List TypeMember) [h : Meets (AllFit n) members] :
    Meets (TypeExpr.Binds (n + 1) 4) ⟨span, .object members⟩ := ⟨.of_wholes rfl rfl h.meets⟩

instance (readonly : Option MappedModifier) (param : Ident) (keys : TypeExpr)
    (rename : Option TypeExpr) (optional : Option MappedModifier) (value : Option TypeExpr)
    [h : Meets (AllFit n) keys] [h' : Meets (AllFit n) rename] [h'' : Meets (AllFit n) value] :
    Meets (TypeExpr.Binds (n + 1) 4) ⟨span, .mapped readonly param keys rename optional value⟩ :=
  ⟨.of_wholes rfl rfl (List.forall_mem_append.mpr
    ⟨List.forall_mem_append.mpr ⟨h.meets, h'.meets⟩, h''.meets⟩)⟩

instance (s : Signature) [h : Meets (AllFit n) s] :
    Meets (TypeExpr.Binds (n + 1) 4) ⟨span, .function s⟩ := ⟨.of_wholes rfl rfl h.meets⟩

instance (s : Signature) (isAbstract : Bool) [h : Meets (AllFit n) s] :
    Meets (TypeExpr.Binds (n + 1) 4) ⟨span, .constructor s isAbstract⟩ :=
  ⟨.of_wholes rfl rfl h.meets⟩

instance (item : TypeExpr) [h : Meets (TypeExpr.Binds (n + 1) 4) item] :
    Meets (TypeExpr.Binds (n + 1) 4) ⟨span, .array item⟩ :=
  ⟨.of_operand rfl rfl h.meets (List.forall_mem_nil _)⟩

instance (object index : TypeExpr) [h : Meets (TypeExpr.Binds (n + 1) 4) object]
    [h' : Meets (AllFit n) index] : Meets (TypeExpr.Binds (n + 1) 4) ⟨span, .indexed object index⟩ :=
  ⟨.of_operand rfl rfl h.meets h'.meets⟩

instance (op : TypeOperator) (operand : TypeExpr) [h : Meets (TypeExpr.Binds (n + 1) 4) operand] :
    Meets (TypeExpr.Binds (n + 1) 4) ⟨span, .operator op operand⟩ :=
  ⟨.of_operand rfl rfl h.meets (List.forall_mem_nil _)⟩

/-- A whole expression in parentheses is what stands in them. -/
instance (priority := low) (e : Expr) [h : Meets (AllFit n) e] : Meets (Expr.FitsIn (n + 1)) e :=
  ⟨(allFit_expr.mp h.meets).mono (Nat.le_succ n)⟩

instance (value : String) : Meets (Expr.FitsIn (n + 1)) ⟨span, .string value⟩ :=
  ⟨.of_wholes rfl (List.forall_mem_nil _)⟩

instance (value : Float) : Meets (Expr.FitsIn (n + 1)) ⟨span, .number value⟩ :=
  ⟨.of_wholes rfl (List.forall_mem_nil _)⟩

instance (digits : String) : Meets (Expr.FitsIn (n + 1)) ⟨span, .bigInt digits⟩ :=
  ⟨.of_wholes rfl (List.forall_mem_nil _)⟩

instance (substitutes : Bool) : Meets (Expr.FitsIn (n + 1)) ⟨span, .template substitutes⟩ :=
  ⟨.of_wholes rfl (List.forall_mem_nil _)⟩

instance : Meets (Expr.FitsIn (n + 1)) ⟨span, .true⟩ := ⟨.of_wholes rfl (List.forall_mem_nil _)⟩

instance : Meets (Expr.FitsIn (n + 1)) ⟨span, .false⟩ := ⟨.of_wholes rfl (List.forall_mem_nil _)⟩

instance : Meets (Expr.FitsIn (n + 1)) ⟨span, .null⟩ := ⟨.of_wholes rfl (List.forall_mem_nil _)⟩

instance : Meets (Expr.FitsIn n) ⟨span, .unknown⟩ := ⟨Subtree.Fits.of_empty rfl⟩

instance (name : EntityName) : Meets (Expr.FitsIn (n + 1)) ⟨span, .entity name⟩ :=
  ⟨.of_wholes rfl (List.forall_mem_nil _)⟩

instance (callee : Option EntityName) : Meets (Expr.FitsIn (n + 1)) ⟨span, .new callee⟩ :=
  ⟨.of_wholes rfl (List.forall_mem_nil _)⟩

instance (items : List Expr) [h : Meets (AllFit n) items] :
    Meets (Expr.FitsIn (n + 1)) ⟨span, .array items⟩ := ⟨.of_wholes rfl h.meets⟩

instance (items : List ObjectItem) [h : Meets (AllFit n) items] :
    Meets (Expr.FitsIn (n + 1)) ⟨span, .object items⟩ := ⟨.of_wholes rfl h.meets⟩

instance (s : Signature) (body : Option FunctionBody) (result : Option Expr) (isAsync : Bool)
    [h : Meets (AllFit n) s] [h' : Meets (AllFit n) result] :
    Meets (Expr.FitsIn (n + 1)) ⟨span, .function s body result isAsync⟩ :=
  ⟨.of_wholes rfl (List.forall_mem_append.mpr ⟨h.meets, h'.meets⟩)⟩

instance (op : String) (value : Expr) [h : Meets (Expr.FitsIn (n + 1)) value] :
    Meets (Expr.FitsIn (n + 1)) ⟨span, .unary op value⟩ :=
  ⟨.of_operand rfl h.meets (List.forall_mem_nil _)⟩

instance (value : Expr) [h : Meets (Expr.FitsIn (n + 1)) value] :
    Meets (Expr.FitsIn (n + 1)) ⟨span, .asConst value⟩ :=
  ⟨.of_operand rfl h.meets (List.forall_mem_nil _)⟩

instance (value : Expr) (type : TypeExpr) [h : Meets (Expr.FitsIn (n + 1)) value]
    [h' : Meets (AllFit n) type] : Meets (Expr.FitsIn (n + 1)) ⟨span, .asserted value type⟩ :=
  ⟨.of_operand rfl h.meets h'.meets⟩

end Forms

/-! ### Parsers -/

/-- How many types and expressions may still be entered where some are open. -/
def room (depth : ℕ) : ℕ := Parse.maxDepth - depth

namespace Parse

variable {α β σ : Type} {d : ℕ} {P : α → Prop} {Q : β → Prop}

/-- Where `d` types and expressions are open, the result of a parser is as said. -/
class Makes (d : ℕ) (P : α → Prop) (p : Parse α) : Prop where
  makes : ∀ (c : Setting) (s : ParseState), s.context.depth = d → P (p c s).1

/-- What a step of a repetition comes to is as said. -/
def Stepped {σ : Type} (S : σ → Prop) (r : σ × Bool) : Prop := S r.1

instance {S : σ → Prop} (x : σ) (more : Bool) [h : Meets S x] : Meets (Stepped S) (x, more) :=
  ⟨h.meets⟩

namespace Makes

theorem mono {p : Parse α} {P' : α → Prop} (h : Makes d P p) (hP : ∀ a, P a → P' a) :
    Makes d P' p := ⟨fun c s hs => hP _ (h.makes c s hs)⟩

theorem pure {a : α} (h : P a) : Makes d P (Pure.pure a) := ⟨fun _ _ _ => h⟩

/-- One parser after another that declares nothing, and so leaves as much open. -/
theorem bind {p : Parse α} {f : α → Parse β} [hquiet : Quiet p] (hp : Makes d P p)
    (hf : ∀ a, P a → Makes d Q (f a)) : Makes d Q (p >>= f) where
  makes c s hs := by
    have hdepth : (p c s).2.context.depth = d := by
      rw [(hquiet.walks c s).extends.context, hs]
    exact (hf _ (hp.makes c s hs)).makes c _ hdepth

/-- A parser of whose result nothing is said. -/
theorem skip {p : Parse α} {f : α → Parse β} [Quiet p] (hf : ∀ a, Makes d Q (f a)) :
    Makes d Q (p >>= f) :=
  bind (P := fun _ => True) ⟨fun _ _ _ => trivial⟩ fun a _ => hf a

theorem get {f : ParseState → Parse β} (hf : ∀ s, s.context.depth = d → Makes d Q (f s)) :
    Makes d Q (MonadState.get >>= f) := ⟨fun c s hs => (hf s hs).makes c s hs⟩

instance (a : α) [h : Meets P a] : Makes d P (Pure.pure a) := pure h.meets

instance [Bears α] (p : Parse α) (f : α → Parse β) [Quiet p] [hp : Makes d (AllFit (room d)) p]
    [hf : ∀ a : { a : α // AllFit (room d) a }, Makes d Q (f a.1)] : Makes d Q (p >>= f) :=
  bind hp fun a ha => hf ⟨a, ha⟩

instance [Bears α] [Bears β] {γ : Type} {R : γ → Prop} (p : Parse (α × β)) (f : α × β → Parse γ)
    [Quiet p] [hp : Makes d (AllFit (room d)) p]
    [hf : ∀ (a : { a : α // AllFit (room d) a }) (b : { b : β // AllFit (room d) b }),
      Makes d R (f (a.1, b.1))] : Makes d R (p >>= f) :=
  bind hp fun x hx => hf ⟨x.1, (allFit_pair.mp hx).1⟩ ⟨x.2, (allFit_pair.mp hx).2⟩

instance (p : Parse TypeExpr) (f : TypeExpr → Parse β) [Quiet p]
    [hp : Makes d (TypeExpr.Binds (room d + 1) 4) p]
    [hf : ∀ t : { t : TypeExpr // t.Binds (room d + 1) 4 }, Makes d Q (f t.1)] :
    Makes d Q (p >>= f) := bind hp fun t ht => hf ⟨t, ht⟩

instance (p : Parse Expr) (f : Expr → Parse β) [Quiet p] [hp : Makes d (Expr.FitsIn (room d + 1)) p]
    [hf : ∀ e : { e : Expr // e.FitsIn (room d + 1) }, Makes d Q (f e.1)] :
    Makes d Q (p >>= f) := bind hp fun e he => hf ⟨e, he⟩

instance (priority := low) (p : Parse α) (f : α → Parse β) [Quiet p] [hf : ∀ a, Makes d Q (f a)] :
    Makes d Q (p >>= f) := skip hf

instance (b : Prop) [Decidable b] (p q : Parse α) [hp : Makes d P p] [hq : Makes d P q] :
    Makes d P (if b then p else q) := by split <;> assumption

theorem stepOn {step : σ → Parse (σ × Bool)} {S : σ → Prop} {x : σ} [Quiet (step x)]
    (h : Makes d (Stepped S) (step x)) : Makes d (Stepped S) (stepOn step x) := by
  unfold Parse.stepOn
  refine skip fun s => bind h fun r hr => skip fun s' => ?_
  dsimp only
  split
  · exact skip fun _ => pure hr
  · exact pure hr

theorem iterate {step : σ → Parse (σ × Bool)} {S : σ → Prop} [hquiet : ∀ x, Quiet (step x)]
    (hstep : ∀ x, S x → Makes d (Stepped S) (step x)) {x : σ} (hx : S x) :
    Makes d S (iterate step x) := by
  have hfrom (cs : List Char) (x : σ) (hx : S x) : Makes d S (iterateFrom step cs x) := by
    induction cs generalizing x with
    | nil =>
      unfold iterateFrom
      refine bind (stepOn (hstep x hx)) fun r hr => ?_
      dsimp only
      split
      · exact skip fun _ => pure hr
      · exact pure hr
    | cons c cs ih =>
      unfold iterateFrom
      refine bind (stepOn (hstep x hx)) fun r hr => ?_
      dsimp only
      split
      · exact ih _ hr
      · exact pure hr
  unfold Parse.iterate
  exact skip fun s => hfrom _ x hx

theorem collect {step : Parse (List α × Bool)} [Quiet step]
    (h : Makes d (Stepped fun l => ∀ a ∈ l, P a) step) :
    Makes d (fun l => ∀ a ∈ l, P a) (collect step) := by
  have hgather (found : Array α) (hfound : ∀ a ∈ found.toList, P a) :
      Makes d (Stepped fun found => ∀ a ∈ found.toList, P a) (gather step found) := by
    unfold gather
    refine bind h fun r hr => pure ?_
    show ∀ a ∈ (found ++ r.1.toArray).toList, P a
    rw [Array.toList_append]
    exact List.forall_mem_append.mpr ⟨hfound, hr⟩
  have hquiet (found : Array α) : Quiet (gather step found) := by
    unfold gather
    infer_instance
  unfold Parse.collect
  exact bind (iterate hgather (List.forall_mem_nil _)) fun found hfound => pure hfound

instance [Bears α] {n : ℕ} (step : Parse (List α × Bool)) [Quiet step]
    [h : Makes d (AllFit n) step] : Makes d (AllFit n) (Parse.collect step) :=
  (collect (h.mono fun _ hr => allFit_list.mp (allFit_pair.mp hr).1)).mono fun _ => allFit_list.mpr

theorem whenever {condition : Parse Bool} {p : Parse α} [Quiet condition] [Quiet p]
    (h : Makes d P p) : Makes d (fun x => ∀ a ∈ x.toList, P a) (whenever condition p) := by
  unfold Parse.whenever
  refine skip fun holds => ?_
  split
  · exact bind h fun a ha => pure (List.forall_mem_singleton.mpr ha)
  · exact pure (List.forall_mem_nil _)

instance [Bears α] {n : ℕ} (condition : Parse Bool) (p : Parse α) [Quiet condition]
    [Quiet p] [h : Makes d (AllFit n) p] : Makes d (AllFit n) (Parse.whenever condition p) := by
  unfold Parse.whenever
  refine skip fun holds => ?_
  split
  · exact bind h fun a ha => pure (P := AllFit n) ha
  · infer_instance

instance [Bears α] (close : TokenKind) (item : Parse α) [Quiet item]
    [h : Makes d (AllFit (room d)) item] : Makes d (AllFit (room d)) (listUntil close item) := by
  unfold listUntil
  infer_instance

instance [Bears α] (p : Parse α) [Quiet p] [h : Makes d (AllFit (room d)) p] :
    Makes d (AllFit (room d)) (orAdvance p) := by
  unfold orAdvance
  infer_instance

instance {P : Option α → Prop} (p : Parse (Option α)) [h : Makes d P p] :
    Makes d P (attempt p) where
  makes c s hs := by
    have hp := h.makes c s hs
    unfold attempt
    split
    · next heq => rwa [heq] at hp
    · next heq => rwa [heq] at hp

theorem within {p : Parse α} {enter leave : ParseContext → ParseContext} {e : ℕ}
    (henter : ∀ k : ParseContext, k.depth = d → (enter k).depth = e) (h : Makes e P p) :
    Makes d P (within enter leave p) :=
  ⟨fun c s hs => h.makes c { s with context := enter s.context } (henter _ hs)⟩

instance (without : Bool) (p : Parse α) [h : Makes d P p] :
    Makes d P (settingConditionals without p) := by
  unfold settingConditionals
  exact get fun s _ => within (fun k hk => hk) h

instance (p : Parse α) [h : Makes d P p] : Makes d P (withConditionals p) :=
  inferInstanceAs (Makes d P (settingConditionals false p))

instance (p : Parse α) [h : Makes d P p] : Makes d P (withoutConditionals p) :=
  inferInstanceAs (Makes d P (settingConditionals true p))

/-- One level deeper a level more is open, if there is one left. -/
theorem nested {tooDeep p : Parse α} (htooDeep : Makes d P tooDeep)
    (h : d < maxDepth → Makes (d + 1) P p) : Makes d P (nested tooDeep p) := by
  unfold Parse.nested
  refine get fun s hs => ?_
  rw [hs]
  split
  · exact skip fun _ => htooDeep
  · next hlt => exact within (fun k hk => by rw [hk]) (h (Nat.lt_of_not_le hlt))

end Makes

end Parse

namespace Productions

open Parse

/-- Productions whose trees fit into the levels that are left. -/
class Shallow (g : Productions) : Prop where
  type : ∀ d, Makes d (TypeExpr.Binds (room d) 1) g.type
  operandType : ∀ d, Makes d (TypeExpr.Binds (room d + 1) 4) g.operandType
  expression : ∀ d, Makes d (Expr.FitsIn (room d)) g.expression
  operand : ∀ d, Makes d (Expr.FitsIn (room d + 1)) g.operand

namespace Shallow

variable {g : Productions} [Quiet g] [hg : Shallow g] {d : ℕ}

-- a production of many parts has an instance of many parts
set_option synthInstance.maxSize 10000

omit [Quiet g] in
theorem freeType : Makes d (TypeExpr.Binds (room d) 1) g.freeType := by
  have htype : Makes d (TypeExpr.Binds (room d) 1) g.type := hg.type d
  unfold Productions.freeType
  infer_instance

instance : Makes d (AllFit (room d)) g.type :=
  (hg.type d).mono fun _ h => allFit_type.mpr h.fits

instance : Makes d (AllFit (room d)) g.freeType :=
  freeType.mono fun _ h => allFit_type.mpr h.fits

instance : Makes d (TypeExpr.Binds (room d + 1) 4) g.operandType := hg.operandType d

instance : Makes d (AllFit (room d)) g.expression :=
  (hg.expression d).mono fun _ h => allFit_expr.mpr h

instance (kind : TokenKind) : Makes d (AllFit (room d)) (g.typeAfter kind) := by
  unfold typeAfter
  infer_instance

instance : Makes d (AllFit (room d)) g.initializer := by
  unfold initializer
  infer_instance

/-! ### Signatures -/

instance : Makes d (AllFit (room d)) g.typeArguments := by
  unfold typeArguments
  infer_instance

instance : Makes d (AllFit (room d)) g.typeArgumentsOnLine := by
  unfold typeArgumentsOnLine
  infer_instance

instance : Makes d (AllFit (room d)) g.typeParameter := by
  unfold typeParameter
  infer_instance

instance : Makes d (AllFit (room d)) g.typeParameters := by
  unfold typeParameters
  infer_instance

instance : Makes d (AllFit (room d)) g.parameter := by
  unfold parameter
  infer_instance

instance : Makes d (AllFit (room d)) g.parameters := by
  unfold parameters
  infer_instance

instance : Makes d (AllFit (room d)) g.resultType := by
  unfold resultType
  refine .skip fun start => .skip fun atWord => .skip fun onLine => ?_
  extract_lets asserts tail
  -- the rest, behind the word `asserts` or without it
  have htail : Makes d (AllFit (room d)) (tail ()) := by
    refine .skip fun after => .skip fun atIdentifier => ?_
    extract_lets predicates
    split
    · exact .skip fun param => .bind (.whenever freeType) fun type htype => .skip fun span =>
        .pure (allFit_type.mpr (.of_predicate htype))
    · infer_instance
  split
  · exact .skip fun _ => htail
  · exact htail

instance : Makes d (AllFit (room d)) g.signature := by
  unfold signature
  infer_instance

instance : Makes d (AllFit (room d)) g.arrowSignature := by
  unfold arrowSignature
  infer_instance

instance : Makes d (AllFit (room d)) g.indexSignature := by
  unfold indexSignature
  infer_instance

/-! ### Types -/

instance : Makes d (AllFit (room d)) g.accessorMember := by
  unfold accessorMember
  infer_instance

instance : Makes d (AllFit (room d)) g.typeMemberShape := by
  unfold typeMemberShape
  infer_instance

instance : Makes d (AllFit (room d)) g.typeMember := by
  unfold typeMember
  infer_instance

instance : Makes d (AllFit (room d)) g.typeMembers := by
  unfold typeMembers
  infer_instance

instance (start : ℕ) (value : LiteralType) :
    Makes d (TypeExpr.Binds (room d + 1) 4) (literalType start value) := by
  unfold literalType
  infer_instance

instance (start : ℕ) (isTypeof : Bool) :
    Makes d (TypeExpr.Binds (room d + 1) 4) (g.moduleType start isTypeof) := by
  unfold moduleType
  infer_instance

instance : Makes d (TypeExpr.Binds (room d + 1) 4) g.wordType := by
  unfold wordType
  infer_instance

instance : Makes d (AllFit (room d)) g.tupleItem := by
  unfold tupleItem
  infer_instance

instance : Makes d (TypeExpr.Binds (room d + 1) 4) g.tupleType := by
  unfold tupleType
  infer_instance

instance : Makes d (TypeExpr.Binds (room d + 1) 4) g.mappedType := by
  unfold mappedType
  infer_instance

instance : Makes d (TypeExpr.Binds (room d + 1) 4) g.standingType := by
  unfold standingType
  refine .skip fun t => ?_
  dsimp only
  split <;> infer_instance

instance : Makes d (TypeExpr.Binds (room d + 1) 4) g.suffixedType := by
  unfold suffixedType
  refine .skip fun start => .bind inferInstance fun type htype => .iterate (fun t ht => ?_) htype
  have hmeets : Meets (TypeExpr.Binds (room d + 1) 4) t := ⟨ht⟩
  infer_instance

instance : Makes d (AllFit (room d)) g.inferBound := by
  unfold inferBound
  infer_instance

instance : Makes d (TypeExpr.Binds (room d + 1) 4) g.operatedType := by
  unfold operatedType
  refine .skip fun start => .skip fun found? => ?_
  extract_lets tail
  have htail (operator? : Option TypeOperator) :
      Makes d (TypeExpr.Binds (room d + 1) 4) (tail operator?) := by
    cases operator? with
    | none => infer_instance
    | some op => infer_instance
  split
  · exact .skip fun follows => .skip fun operator? => htail operator?
  · exact .skip fun operator? => htail operator?

/-- What is made of several parts needs them to bind more tightly; a single part stays as it is. -/
theorem signedList {sign : TokenKind} {part : Parse TypeExpr} {make : List TypeExpr → TypeShape}
    {k : ℕ} [Parse.Quiet part] (hpart : Makes d (TypeExpr.Binds (room d + 1) (k + 1)) part)
    (hmake : ∀ span ts, (∀ t ∈ ts, TypeExpr.Binds (room d + 1) (k + 1) t) →
      TypeExpr.Binds (room d + 1) k ⟨span, make ts⟩) :
    Makes d (TypeExpr.Binds (room d + 1) k) (signedList sign part make) := by
  unfold Productions.signedList
  refine .skip fun start => .skip fun leading => .bind hpart fun first hfirst => .skip fun more => ?_
  split
  · refine .bind (.collect (P := TypeExpr.Binds (room d + 1) (k + 1)) (.skip fun again => ?_))
      fun others hothers => .skip fun span =>
        .pure (hmake span _ (List.forall_mem_cons.mpr ⟨hfirst, hothers⟩))
    split
    · exact .bind hpart fun next hnext => .pure (List.forall_mem_singleton.mpr hnext)
    · exact .pure (List.forall_mem_nil _)
  · split
    · exact .skip fun span => .pure (hfirst.shape.mono (Nat.le_succ k))
    · exact .pure (hfirst.mono (Nat.le_succ k))

theorem intersectionType : Makes d (TypeExpr.Binds (room d + 1) 3) g.intersectionType :=
  signedList (k := 3) (inferInstanceAs (Makes d (TypeExpr.Binds (room d + 1) 4) g.operatedType))
    fun _ _ hts => .of_parts rfl rfl hts (List.forall_mem_nil _)

theorem unionType : Makes d (TypeExpr.Binds (room d + 1) 2) g.unionType :=
  signedList (k := 2) intersectionType fun _ _ hts => .of_parts rfl rfl hts (List.forall_mem_nil _)

instance : Makes d (AllFit (room d)) g.branches := by
  unfold branches
  infer_instance

instance : Makes d (TypeExpr.Binds (room d + 1) 1) g.typeForm := by
  unfold typeForm
  refine .skip fun start => .skip fun isFunction => ?_
  split
  · infer_instance
  refine .skip fun isNew => .skip fun isAbstract => .skip fun isAbstractNew => ?_
  split
  · infer_instance
  refine .bind unionType fun check hcheck => .skip fun s => .skip fun afterBreak =>
    .skip fun isConditional => ?_
  split
  · exact .pure (hcheck.mono (by decide))
  refine .skip fun _ => .bind (P := AllFit (room d)) inferInstance fun bound hbound =>
    .bind (P := AllFit (room d)) inferInstance fun x hx => .skip fun span => ?_
  obtain ⟨htrue, hfalse⟩ := allFit_pair.mp hx
  have hparts : ∀ t ∈ [check], t.Binds (room d + 1) 2 := List.forall_mem_singleton.mpr hcheck
  refine .pure (.of_parts rfl rfl hparts ?_)
  exact List.forall_mem_append.mpr ⟨List.forall_mem_append.mpr ⟨hbound, htrue⟩, hfalse⟩

theorem room_of_lt (h : d < maxDepth) : room d = room (d + 1) + 1 := by
  unfold room
  omega

theorem typeProduction : Makes d (TypeExpr.Binds (room d) 1) g.typeProduction := by
  unfold Productions.typeProduction
  refine .skip fun start => .nested inferInstance fun hlt => ?_
  rw [room_of_lt hlt]
  infer_instance

/-! ### Expressions -/

instance : Makes d (Expr.FitsIn (room d + 1)) g.operand := hg.operand d

instance (start : ℕ) (shape : ExprShape)
    [h : ∀ span, Meets (Expr.FitsIn (room d + 1)) ⟨span, shape⟩] :
    Makes d (Expr.FitsIn (room d + 1)) (exprFrom start shape) := by
  unfold exprFrom
  infer_instance

instance : Makes d (AllFit (room d)) g.arrowHead := by
  unfold arrowHead
  infer_instance

/-- What is unknown has nothing in it. -/
instance (start : ℕ) : Makes d (Expr.FitsIn (room d)) (exprFrom start .unknown) := by
  unfold exprFrom
  infer_instance

instance (start : ℕ) : Makes d (AllFit (room d)) (exprFrom start .unknown) :=
  Makes.mono (P := Expr.FitsIn (room d)) inferInstance fun _ => allFit_expr.mpr

instance : Makes d (Expr.FitsIn (room d + 1)) g.arrayLiteral := by
  unfold arrayLiteral
  infer_instance

instance : Makes d (AllFit (room d)) g.method := by
  unfold method
  infer_instance

instance : Makes d (AllFit (room d)) g.objectItem := by
  unfold objectItem
  infer_instance

instance : Makes d (Expr.FitsIn (room d + 1)) g.objectLiteral := by
  unfold objectLiteral
  infer_instance

instance : Makes d (Expr.FitsIn (room d + 1)) g.wordExpression := by
  unfold wordExpression
  refine .skip fun start => .skip fun t => ?_
  dsimp only
  split <;> infer_instance

instance : Makes d (Expr.FitsIn (room d + 1)) g.primary := by
  unfold primary
  refine .skip fun t => ?_
  dsimp only
  split <;> infer_instance

instance (start : ℕ) (e : Expr) (optional : Bool) :
    Makes d (Expr.FitsIn (room d + 1)) (memberAccess start e optional) := by
  unfold memberAccess
  refine .skip fun named => ?_
  split
  · refine .skip fun name => ?_
    split <;> infer_instance
  · infer_instance

instance (start : ℕ) (e : Expr) [h : Meets (Expr.FitsIn (room d + 1)) e] :
    Makes d (Stepped (Expr.FitsIn (room d + 1))) (g.suffixStep start e) := by
  unfold suffixStep
  refine .skip fun t => ?_
  split <;> infer_instance

instance : Makes d (Expr.FitsIn (room d + 1)) g.suffixed := by
  unfold suffixed
  refine .skip fun start => .bind inferInstance fun e he => .iterate (fun e he => ?_) he
  have hmeets : Meets (Expr.FitsIn (room d + 1)) e := ⟨he⟩
  infer_instance

instance : Makes d (Expr.FitsIn (room d + 1)) g.operandProduction := by
  unfold operandProduction
  refine .skip fun start => .skip fun t => ?_
  split <;> infer_instance

instance (start : ℕ) (e : Expr) [h : Meets (Expr.FitsIn (room d + 1)) e] :
    Makes d (Expr.FitsIn (room d + 1)) (g.assertions start e) := by
  unfold assertions
  refine .iterate (fun e he => ?_) h.meets
  have hmeets : Meets (Expr.FitsIn (room d + 1)) e := ⟨he⟩
  infer_instance

theorem arrowForm :
    Makes d (fun x => ∀ e ∈ x.toList, Expr.FitsIn (room d + 1) e) g.arrowForm := by
  have hfound (start : ℕ) (shape : ExprShape)
      (h : ∀ span, Meets (Expr.FitsIn (room d + 1)) ⟨span, shape⟩) :
      Makes d (fun x => ∀ e ∈ x.toList, Expr.FitsIn (room d + 1) e)
        (exprFrom start shape >>= fun e => pure (some e)) :=
    .bind (P := Expr.FitsIn (room d + 1)) inferInstance fun e he =>
      .pure (List.forall_mem_singleton.mpr he)
  unfold Productions.arrowForm
  refine .skip fun start => .skip fun atAsync => .skip fun ahead => ?_
  extract_lets isAsync tail
  -- the rest, behind the word `async` or without it
  have htail : Makes d (fun x => ∀ e ∈ x.toList, Expr.FitsIn (room d + 1) e) (tail ()) := by
    refine .bind (P := AllFit (room d)) inferInstance fun found hfits => ?_
    cases found with
    | none => exact .pure (List.forall_mem_nil _)
    | some signature =>
      have hmeets : Meets (AllFit (room d)) signature := ⟨hfits⟩
      refine .skip fun _ => .skip fun braced => ?_
      split
      · exact .skip fun body => hfound start _ inferInstance
      · refine .bind (P := AllFit (room d)) inferInstance fun result hresult => ?_
        have hresult : Meets (AllFit (room d)) result := ⟨hresult⟩
        exact hfound start _ inferInstance
  split
  · refine .skip fun _ => .skip fun afterBreak => ?_
    split
    · exact .pure (List.forall_mem_nil _)
    · exact htail
  · exact htail

theorem arrowFunction :
    Makes d (fun x => ∀ e ∈ x.toList, Expr.FitsIn (room d + 1) e) g.arrowFunction := by
  have hform := arrowForm (g := g) (d := d)
  unfold Productions.arrowFunction
  infer_instance

instance : Makes d (Expr.FitsIn (room d + 1)) g.expressionForm := by
  unfold expressionForm
  refine .skip fun start => .bind arrowFunction fun x hx => ?_
  split
  · exact .pure (hx _ List.mem_cons_self)
  · infer_instance

theorem expressionProduction : Makes d (Expr.FitsIn (room d)) g.expressionProduction := by
  unfold Productions.expressionProduction
  refine .skip fun start => .nested ?_ fun hlt => ?_
  · exact .skip fun _ => inferInstance
  · rw [room_of_lt hlt]
    infer_instance

end Shallow

instance {α : Type} {d : ℕ} {P : α → Prop} (p : Parse α) [h : Makes d P p] : Makes d P (beyond p) := by
  unfold beyond
  exact .skip fun _ => h

instance : Shallow exhausted where
  type d := by
    unfold exhausted
    infer_instance
  operandType d := by
    unfold exhausted
    infer_instance
  expression d := by
    unfold exhausted
    infer_instance
  operand d := by
    unfold exhausted
    infer_instance

instance (g : Productions) [Quiet g] [Shallow g] : Shallow (around g) where
  type _ := Shallow.typeProduction
  operandType d := inferInstanceAs (Makes d (TypeExpr.Binds (room d + 1) 4) g.operatedType)
  expression _ := Shallow.expressionProduction
  operand d := inferInstanceAs (Makes d (Expr.FitsIn (room d + 1)) g.operandProduction)

instance (n : ℕ) : Shallow (ofDepth n) := by
  induction n with
  | zero => exact inferInstanceAs (Shallow exhausted)
  | succ n ih => exact inferInstanceAs (Shallow (around (ofDepth n)))

end Productions

end ApiSurface
