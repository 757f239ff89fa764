import ApiSurface.Syntax.SourceFile
import Mathlib.Data.List.Infix
import Mathlib.Tactic.Common
/-!
How deeply types and initializers are nested. On the way into a tree each step leads to a place where
any type or expression may stand, or to what an operator, a suffix or an assertion is written around, or
to a part of a looser form. The last are few in a row, as each form binds its parts more tightly.
-/
namespace ApiSurface

/-! ### Trees -/

/-- A type or an initializer. -/
inductive Subtree where
  | type (t : TypeExpr)
  | expr (e : Expr)

/-- What has types and initializers in it. -/
class Bears (α : Type) where
  subtrees : α → List Subtree

export Bears (subtrees)

section Bears

variable {α β : Type} [Bears α] [Bears β]

instance : Bears TypeExpr := ⟨fun t => [.type t]⟩

instance : Bears Expr := ⟨fun e => [.expr e]⟩

instance : Bears Bool := ⟨fun _ => []⟩

instance : Bears (Option α) := ⟨fun x => x.elim [] subtrees⟩

instance : Bears (List α) := ⟨fun xs => xs.flatMap subtrees⟩

instance : Bears (Array α) := ⟨fun xs => subtrees xs.toList⟩

instance : Bears (α × β) := ⟨fun x => subtrees x.1 ++ subtrees x.2⟩

instance : Bears TypeParam := ⟨fun q => subtrees q.bound ++ subtrees q.fallback⟩

instance : Bears Param := ⟨fun p => subtrees p.type ++ subtrees p.initial⟩

instance : Bears Signature :=
  ⟨fun s => subtrees s.typeParams ++ subtrees s.params ++ subtrees s.returns⟩

instance : Bears TupleItem := ⟨fun i => subtrees i.type⟩

instance : Bears TypeMemberShape := ⟨fun
  | .property _ _ _ t | .getter _ t => subtrees t
  | .method _ _ s | .call s | .construct s => subtrees s
  | .index params t _ => subtrees params ++ subtrees t
  | .setter _ p => subtrees p⟩

instance : Bears TypeMember := ⟨fun m => subtrees m.shape⟩

instance : Bears ObjectItem := ⟨fun
  | .property _ value => subtrees value
  | .method _ s => subtrees s
  | .shorthand _ | .spread _ => []⟩

instance : Bears ClassMemberShape := ⟨fun
  | .property _ _ t initial => subtrees t ++ subtrees initial
  | .method _ _ s _ | .constructor s _ => subtrees s
  | .getter _ t _ => subtrees t
  | .setter _ p => subtrees p
  | .index params t => subtrees params ++ subtrees t
  | .unknown => []⟩

instance : Bears ClassMember := ⟨fun m => subtrees m.shape⟩

instance : Bears DeclarationShape := ⟨fun
  | .function s _ => subtrees s
  | .variable _ t initial => subtrees t ++ subtrees initial
  | .typeAlias params t => subtrees params ++ subtrees t
  | .interface params bases members => subtrees params ++ subtrees bases ++ subtrees members
  | .class params base implemented members =>
    subtrees params ++ subtrees base ++ subtrees implemented ++ subtrees members
  | .enumMember initial => subtrees initial
  | .enum _ | .module .. => []⟩

end Bears

/-- What stands directly in a tree. -/
structure Insides where
  /-- What an operator, a suffix or an assertion is written around. -/
  operands : List Subtree := []
  /-- The parts of a looser form: of a statement about a parameter, of a union or an intersection, and
  what a conditional type tests. -/
  parts : List Subtree := []
  /-- What stands where any type or any expression may stand. -/
  wholes : List Subtree := []

/-- What stands directly in a type. -/
def TypeExpr.insides (t : TypeExpr) : Insides :=
  match t.shape with
  | .array u | .operator _ u => { operands := subtrees u }
  | .indexed object index => { operands := subtrees object, wholes := subtrees index }
  | .predicate _ _ u => { parts := subtrees u }
  | .union ts | .intersection ts => { parts := subtrees ts }
  | .conditional check bound whenTrue whenFalse =>
    { parts := subtrees check
      wholes := subtrees bound ++ subtrees whenTrue ++ subtrees whenFalse }
  | .reference _ ts | .query _ ts | .moduleType _ _ ts _ => { wholes := subtrees ts }
  | .infer _ u => { wholes := subtrees u }
  | .parenthesized u => { wholes := subtrees u }
  | .tuple items => { wholes := subtrees items }
  | .object members => { wholes := subtrees members }
  | .mapped _ _ keys rename _ value =>
    { wholes := subtrees keys ++ subtrees rename ++ subtrees value }
  | .function s | .constructor s _ => { wholes := subtrees s }
  | .keyword _ | .literal _ | .template | .unsupported => {}

/-- What stands directly in an initializer. -/
def Expr.insides (e : Expr) : Insides :=
  match e.shape with
  | .unary _ value | .asConst value => { operands := subtrees value }
  | .asserted value t => { operands := subtrees value, wholes := subtrees t }
  | .array items => { wholes := subtrees items }
  | .object items => { wholes := subtrees items }
  | .function s _ result _ => { wholes := subtrees s ++ subtrees result }
  | .string _ | .number _ | .bigInt _ | .template _ | .true | .false | .null | .entity _ | .new _
  | .unknown => {}

/-- How tightly a form of type binds its parts. -/
def TypeShape.binding : TypeShape → ℕ
  | .predicate .. => 0
  | .conditional .. => 1
  | .union _ => 2
  | .intersection _ => 3
  | _ => 4

namespace Subtree

/-- What stands directly in a tree. -/
def insides : Subtree → Insides
  | type t => t.insides
  | expr e => e.insides

/-- How tightly a form binds its parts. -/
def rank : Subtree → ℕ
  | type t => t.shape.binding
  | expr _ => 4

theorem rank_le (a : Subtree) : a.rank ≤ 4 := by
  cases a with
  | type t =>
    show t.shape.binding ≤ 4
    unfold TypeShape.binding
    split <;> decide
  | expr e => exact Nat.le_refl 4

end Subtree

/-! ### Ways into a tree -/

/-- A step on the way into a file: into the body of a module or an enum, or into a tree. -/
inductive Inset where
  | body
  | operand
  | part
  | whole
  deriving DecidableEq

/-- Steps into bodies and to operands lead to what is of the same kind again. -/
def Inset.isLoose : Inset → Bool
  | body | operand => true
  | part | whole => false

/-- Some steps into a tree lead to another one. -/
inductive Subtree.Reaches : Subtree → List Inset → Subtree → Prop where
  | here (a : Subtree) : a.Reaches [] a
  | operand {a b c : Subtree} {is : List Inset} : b ∈ a.insides.operands → b.Reaches is c →
      a.Reaches (.operand :: is) c
  | part {a b c : Subtree} {is : List Inset} : b ∈ a.insides.parts → b.Reaches is c →
      a.Reaches (.part :: is) c
  | whole {a b c : Subtree} {is : List Inset} : b ∈ a.insides.wholes → b.Reaches is c →
      a.Reaches (.whole :: is) c

namespace Subtree

variable {a b c : Subtree} {is js : List Inset} {n : ℕ}

theorem Reaches.split (h : a.Reaches (is ++ js) c) : ∃ b, a.Reaches is b ∧ b.Reaches js c := by
  induction is generalizing a with
  | nil => exact ⟨a, .here a, h⟩
  | cons i is ih =>
    cases h with
    | operand hb h =>
      obtain ⟨d, hd, hrest⟩ := ih h
      exact ⟨d, .operand hb hd, hrest⟩
    | part hb h =>
      obtain ⟨d, hd, hrest⟩ := ih h
      exact ⟨d, .part hb hd, hrest⟩
    | whole hb h =>
      obtain ⟨d, hd, hrest⟩ := ih h
      exact ⟨d, .whole hb hd, hrest⟩

/-- In a tree there are no bodies. -/
theorem Reaches.body_notMem (h : a.Reaches is b) : .body ∉ is := by
  induction h with
  | here => exact List.not_mem_nil
  | operand _ _ ih => simpa using ih
  | part _ _ ih => simpa using ih
  | whole _ _ ih => simpa using ih

theorem Reaches.append (h : a.Reaches is b) (h' : b.Reaches js c) : a.Reaches (is ++ js) c := by
  induction h with
  | here => exact h'
  | operand hb _ ih => exact .operand hb (ih h')
  | part hb _ ih => exact .part hb (ih h')
  | whole hb _ ih => exact .whole hb (ih h')

/-- Each form stands only where it needs no brackets: parts bind more tightly than the form that they
are parts of, and operands at least as tightly. -/
structure Ordered (a : Subtree) : Prop where
  operands : ∀ b ∈ a.insides.operands, a.rank ≤ b.rank
  parts : ∀ b ∈ a.insides.parts, a.rank < b.rank

/-- On every way into a tree at most `n` steps lead to a whole type or expression, and the forms on it
need no brackets. -/
def Fits (n : ℕ) (a : Subtree) : Prop :=
  ∀ is b, a.Reaches is b → is.count .whole ≤ n ∧ b.Ordered

theorem Fits.intro (hordered : a.Ordered) (hoperands : ∀ b ∈ a.insides.operands, b.Fits n)
    (hparts : ∀ b ∈ a.insides.parts, b.Fits n)
    (hwholes : ∀ b ∈ a.insides.wholes, ∃ m, m < n ∧ b.Fits m) : a.Fits n := by
  intro is c h
  cases h with
  | here => exact ⟨Nat.zero_le n, hordered⟩
  | operand hb h =>
    obtain ⟨hcount, hc⟩ := hoperands _ hb _ _ h
    exact ⟨by simpa using hcount, hc⟩
  | part hb h =>
    obtain ⟨hcount, hc⟩ := hparts _ hb _ _ h
    exact ⟨by simpa using hcount, hc⟩
  | whole hb h =>
    obtain ⟨m, hm, hfits⟩ := hwholes _ hb
    obtain ⟨hcount, hc⟩ := hfits _ _ h
    rw [List.count_cons_self]
    exact ⟨by omega, hc⟩

/-- A tree in which nothing stands. -/
theorem Fits.of_empty (h : a.insides = {}) : a.Fits n := by
  have hnone {P : Subtree → Prop} : ∀ b ∈ ([] : List Subtree), P b := List.forall_mem_nil P
  exact .intro ⟨by rw [h]; exact hnone, by rw [h]; exact hnone⟩ (by rw [h]; exact hnone)
    (by rw [h]; exact hnone) (by rw [h]; exact hnone)

/-- Two trees with the same in them. -/
theorem Fits.of_same (h : a.Fits n) (hinsides : b.insides = a.insides) (hrank : b.rank = a.rank) :
    b.Fits n := by
  intro is c hc
  cases hc with
  | here =>
    have hordered := (h [] a (.here a)).2
    exact ⟨Nat.zero_le n, by rw [hinsides, hrank]; exact hordered.operands,
      by rw [hinsides, hrank]; exact hordered.parts⟩
  | operand hb hrest => exact h _ c (.operand (hinsides ▸ hb) hrest)
  | part hb hrest => exact h _ c (.part (hinsides ▸ hb) hrest)
  | whole hb hrest => exact h _ c (.whole (hinsides ▸ hb) hrest)

theorem Fits.mono {m : ℕ} (h : a.Fits m) (hmn : m ≤ n) : a.Fits n :=
  fun is b hb => ⟨(h is b hb).1.trans hmn, (h is b hb).2⟩

theorem Fits.of_reaches (hfits : a.Fits n) (h : a.Reaches is b) : b.Fits n := by
  intro js c hc
  obtain ⟨hcount, hordered⟩ := hfits _ c (h.append hc)
  rw [List.count_append] at hcount
  exact ⟨(Nat.le_add_left _ _).trans hcount, hordered⟩

/-- Without a step to a whole type or expression, each step to a part leads to a form that binds more
tightly. -/
theorem Fits.rank_add_le (hfits : a.Fits n) (h : a.Reaches is b) (hwhole : .whole ∉ is) :
    a.rank + is.count .part ≤ b.rank := by
  induction h with
  | here a => exact Nat.le_refl _
  | @operand a b c is hb h ih =>
    have hstep : a.rank ≤ b.rank := (hfits [] a (.here a)).2.operands b hb
    have hrest := ih (hfits.of_reaches (.operand hb (.here b)))
      fun hmem => hwhole (List.mem_cons_of_mem _ hmem)
    rw [List.count_cons_of_ne (by decide)]
    omega
  | @part a b c is hb h ih =>
    have hstep : a.rank < b.rank := (hfits [] a (.here a)).2.parts b hb
    have hrest := ih (hfits.of_reaches (.part hb (.here b)))
      fun hmem => hwhole (List.mem_cons_of_mem _ hmem)
    rw [List.count_cons_self]
    omega
  | whole => exact absurd List.mem_cons_self hwhole

theorem Fits.count_part_le (hfits : a.Fits n) (h : a.Reaches is b) {run : List Inset}
    (hrun : run <:+: is) (hwhole : .whole ∉ run) : run.count .part ≤ 4 := by
  obtain ⟨before, behind, rfl⟩ := hrun
  -- from the tree where the row begins to the one where it ends, the forms bind ever more tightly
  obtain ⟨c, hc, -⟩ := h.split
  obtain ⟨d, hd, hrest⟩ := hc.split
  have hrank := (hfits.of_reaches hd).rank_add_le hrest hwhole
  exact (Nat.le_add_left _ _).trans (hrank.trans c.rank_le)

end Subtree

/-! ### The length of a way -/

theorem length_eq_counts (is : List Inset) :
    is.length = is.count .whole + is.count .part + is.countP Inset.isLoose := by
  induction is with
  | nil => rfl
  | cons i is ih =>
    rw [List.length_cons, ih]
    cases i <;> simp [List.countP_cons, Inset.isLoose] <;> omega

/-- A list in which no `k + 1` steps in a row are free of steps to something whole is not much longer
than there are such steps. -/
theorem length_lt_of_runs {k : ℕ} {is : List Inset}
    (h : ∀ run, run <:+: is → .whole ∉ run → run.length ≤ k) :
    is.length < (is.count .whole + 1) * (k + 1) := by
  -- the steps before, behind the last one of that kind
  have hbehind (pre is : List Inset) (hpre : .whole ∉ pre)
      (h : ∀ run, run <:+: pre ++ is → .whole ∉ run → run.length ≤ k) :
      (pre ++ is).length < (is.count .whole + 1) * (k + 1) := by
    induction is generalizing pre with
    | nil =>
      have hle := h pre (by rw [List.append_nil]) hpre
      simp
      omega
    | cons i is ih =>
      by_cases hi : i = .whole
      · subst hi
        have hle := h pre (List.prefix_append pre _).isInfix hpre
        have hrest := ih [] List.not_mem_nil fun run hrun =>
          h run (hrun.trans ((List.suffix_cons _ is).trans (List.suffix_append pre _)).isInfix)
        rw [List.nil_append] at hrest
        rw [List.length_append, List.length_cons, List.count_cons_self, Nat.succ_mul]
        omega
      · rw [List.append_cons] at h ⊢
        rw [List.count_cons_of_ne hi]
        exact ih _ (by simpa [hpre] using fun heq => hi heq.symm) h
  exact hbehind [] is List.not_mem_nil h

/-- A way is short if few of its steps lead to something whole, and few steps in a row lead to parts,
into bodies and to operands. -/
theorem length_lt_of_counts {n r : ℕ} {is : List Inset} (hwhole : is.count .whole ≤ n)
    (hparts : ∀ run, run <:+: is → .whole ∉ run → run.count .part ≤ 4)
    (hloose : ∀ run, run <:+: is → .whole ∉ run → run.countP Inset.isLoose ≤ r) :
    is.length < (n + 1) * (r + 5) := by
  have hrun (run : List Inset) (hin : run <:+: is) (hno : .whole ∉ run) :
      run.length ≤ r + 4 := by
    have hnone : run.count .whole = 0 := List.count_eq_zero.mpr hno
    have hfew := hparts run hin hno
    have hshort := hloose run hin hno
    rw [length_eq_counts, hnone]
    omega
  calc is.length < (is.count .whole + 1) * (r + 4 + 1) := length_lt_of_runs hrun
    _ ≤ (n + 1) * (r + 5) := Nat.mul_le_mul_right _ (Nat.succ_le_succ hwhole)

end ApiSurface
