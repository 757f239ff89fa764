import ApiSurface.Syntax.SourceFile
import Mathlib.Data.List.Forall2
import Mathlib.Data.Nat.Notation
/-!
Syntax trees of two texts that are alike: the same forms with the same names, words and values in
them. What may differ is where things stand, the documentation of what stands there, and parts that
are kept as written; a likeness says which of those go together.
-/
namespace ApiSurface

/-- What goes together in two texts. -/
structure Likeness where
  /-- Places where tokens start. -/
  start : ℕ → ℕ → Prop
  /-- Places where tokens end. -/
  stop : ℕ → ℕ → Prop
  /-- The documentation of what starts at two places. -/
  doc : ℕ → ℕ → Option String → Option String → Prop
  /-- Parts of the texts. -/
  written : String → String → Prop

/-! ### Values and trees that are alike -/

section

variable (L : Likeness)

/-- Ranges from places where tokens start to places where tokens end. -/
structure Span.Alike (s s' : Span) : Prop where
  start : L.start s.start s'.start
  stop : L.stop s.stop s'.stop
  le : s.start ≤ s.stop

/-- The same name. -/
structure Ident.Alike (n n' : Ident) : Prop where
  text : n.text = n'.text
  span : n.span.Alike L n'.span

/-- The name of a parameter: a name, or a pattern as written. -/
structure Ident.AlikeAsWritten (n n' : Ident) : Prop where
  text : n.text = n'.text ∨ L.written n.text n'.text
  span : n.span.Alike L n'.span

structure EntityName.Alike (n n' : EntityName) : Prop where
  head : n.head.Alike L n'.head
  tail : List.Forall₂ (Ident.Alike L) n.tail n'.tail
  span : n.span.Alike L n'.span

inductive PropertyName.Alike : PropertyName → PropertyName → Prop
  | ident {n n' : Ident} : n.Alike L n' → Alike (.ident n) (.ident n')
  | string (text : String) {s s' : Span} : s.Alike L s' → Alike (.string text s) (.string text s')
  | number (text : String) {s s' : Span} : s.Alike L s' → Alike (.number text s) (.number text s')
  | hidden {n n' : Ident} : n.Alike L n' → Alike (.hidden n) (.hidden n')
  | computed {text text' : String} {s s' : Span} : L.written text text' → s.Alike L s' →
      Alike (.computed text s) (.computed text' s')

/-- A body that says the same about what it returns. -/
structure FunctionBody.Alike (b b' : FunctionBody) : Prop where
  span : b.span.Alike L b'.span
  returnsValue : b.returnsValue = b'.returnsValue

mutual

inductive TypeExpr.Alike : TypeExpr → TypeExpr → Prop
  | mk {s s' : Span} {shape shape' : TypeShape} : s.Alike L s' → TypeShape.Alike shape shape' →
      TypeExpr.Alike ⟨s, shape⟩ ⟨s', shape'⟩

inductive TypeShape.Alike : TypeShape → TypeShape → Prop
  | keyword (word : String) : TypeShape.Alike (.keyword word) (.keyword word)
  | reference {n n' : EntityName} {args args' : List TypeExpr} : n.Alike L n' →
      List.Forall₂ TypeExpr.Alike args args' →
      TypeShape.Alike (.reference n args) (.reference n' args')
  | query {n n' : EntityName} {args args' : List TypeExpr} : n.Alike L n' →
      List.Forall₂ TypeExpr.Alike args args' → TypeShape.Alike (.query n args) (.query n' args')
  | array {t t' : TypeExpr} : TypeExpr.Alike t t' → TypeShape.Alike (.array t) (.array t')
  | operator (op : TypeOperator) {t t' : TypeExpr} : TypeExpr.Alike t t' →
      TypeShape.Alike (.operator op t) (.operator op t')
  | union {ts ts' : List TypeExpr} : List.Forall₂ TypeExpr.Alike ts ts' →
      TypeShape.Alike (.union ts) (.union ts')
  | intersection {ts ts' : List TypeExpr} : List.Forall₂ TypeExpr.Alike ts ts' →
      TypeShape.Alike (.intersection ts) (.intersection ts')
  | infer {n n' : Ident} {bound bound' : Option TypeExpr} : n.Alike L n' →
      Option.Rel TypeExpr.Alike bound bound' → TypeShape.Alike (.infer n bound) (.infer n' bound')
  | parenthesized {t t' : TypeExpr} : TypeExpr.Alike t t' →
      TypeShape.Alike (.parenthesized t) (.parenthesized t')
  | tuple {items items' : List TupleItem} : List.Forall₂ TupleItem.Alike items items' →
      TypeShape.Alike (.tuple items) (.tuple items')
  | object {members members' : List TypeMember} : List.Forall₂ TypeMember.Alike members members' →
      TypeShape.Alike (.object members) (.object members')
  | indexed {t t' u u' : TypeExpr} : TypeExpr.Alike t t' → TypeExpr.Alike u u' →
      TypeShape.Alike (.indexed t u) (.indexed t' u')
  | conditional {t t' u u' : TypeExpr} {v v' w w' : Option TypeExpr} : TypeExpr.Alike t t' →
      TypeExpr.Alike u u' → Option.Rel TypeExpr.Alike v v' → Option.Rel TypeExpr.Alike w w' →
      TypeShape.Alike (.conditional t u v w) (.conditional t' u' v' w')
  | literal (value : LiteralType) : TypeShape.Alike (.literal value) (.literal value)
  | mapped (readonly optional : Option MappedModifier) {n n' : Ident} {keys keys' : TypeExpr}
      {rename rename' value value' : Option TypeExpr} : n.Alike L n' → TypeExpr.Alike keys keys' →
      Option.Rel TypeExpr.Alike rename rename' → Option.Rel TypeExpr.Alike value value' →
      TypeShape.Alike (.mapped readonly n keys rename optional value)
        (.mapped readonly n' keys' rename' optional value')
  | function {x x' : Signature} : Signature.Alike x x' →
      TypeShape.Alike (.function x) (.function x')
  | constructor {x x' : Signature} (isAbstract : Bool) : Signature.Alike x x' →
      TypeShape.Alike (.constructor x isAbstract) (.constructor x' isAbstract)
  | predicate (asserts : Bool) {n n' : Ident} {t t' : Option TypeExpr} : n.Alike L n' →
      Option.Rel TypeExpr.Alike t t' →
      TypeShape.Alike (.predicate asserts n t) (.predicate asserts n' t')
  | moduleType (specifier : String) (isTypeof : Bool) {n n' : Option EntityName}
      {args args' : List TypeExpr} : Option.Rel (EntityName.Alike L) n n' →
      List.Forall₂ TypeExpr.Alike args args' →
      TypeShape.Alike (.moduleType specifier n args isTypeof)
        (.moduleType specifier n' args' isTypeof)
  | template : TypeShape.Alike .template .template
  | unsupported : TypeShape.Alike .unsupported .unsupported

inductive TupleItem.Alike : TupleItem → TupleItem → Prop
  | mk {s s' : Span} {label label' : Option Ident} (optional rest : Bool) {t t' : TypeExpr} :
      s.Alike L s' → Option.Rel (Ident.Alike L) label label' → TypeExpr.Alike t t' →
      TupleItem.Alike ⟨s, label, optional, rest, t⟩ ⟨s', label', optional, rest, t'⟩

inductive TypeMember.Alike : TypeMember → TypeMember → Prop
  | mk {s s' : Span} {doc doc' : Option String} {shape shape' : TypeMemberShape} : s.Alike L s' →
      L.doc s.start s'.start doc doc' → TypeMemberShape.Alike shape shape' →
      TypeMember.Alike ⟨s, doc, shape⟩ ⟨s', doc', shape'⟩

inductive TypeMemberShape.Alike : TypeMemberShape → TypeMemberShape → Prop
  | property {n n' : PropertyName} (optional readonly : Bool) {t t' : Option TypeExpr} :
      n.Alike L n' → Option.Rel TypeExpr.Alike t t' →
      TypeMemberShape.Alike (.property n optional readonly t) (.property n' optional readonly t')
  | method {n n' : PropertyName} (optional : Bool) {x x' : Signature} : n.Alike L n' →
      Signature.Alike x x' → TypeMemberShape.Alike (.method n optional x) (.method n' optional x')
  | call {x x' : Signature} : Signature.Alike x x' → TypeMemberShape.Alike (.call x) (.call x')
  | construct {x x' : Signature} : Signature.Alike x x' →
      TypeMemberShape.Alike (.construct x) (.construct x')
  | index {params params' : List Param} {t t' : Option TypeExpr} (readonly : Bool) :
      List.Forall₂ Param.Alike params params' → Option.Rel TypeExpr.Alike t t' →
      TypeMemberShape.Alike (.index params t readonly) (.index params' t' readonly)
  | getter {n n' : PropertyName} {t t' : Option TypeExpr} : n.Alike L n' →
      Option.Rel TypeExpr.Alike t t' → TypeMemberShape.Alike (.getter n t) (.getter n' t')
  | setter {n n' : PropertyName} {param param' : Option Param} : n.Alike L n' →
      Option.Rel Param.Alike param param' →
      TypeMemberShape.Alike (.setter n param) (.setter n' param')

inductive Signature.Alike : Signature → Signature → Prop
  | mk {typeParams typeParams' : List TypeParam} {params params' : List Param}
      {returns returns' : Option TypeExpr} : List.Forall₂ TypeParam.Alike typeParams typeParams' →
      List.Forall₂ Param.Alike params params' → Option.Rel TypeExpr.Alike returns returns' →
      Signature.Alike ⟨typeParams, params, returns⟩ ⟨typeParams', params', returns'⟩

inductive TypeParam.Alike : TypeParam → TypeParam → Prop
  | mk {n n' : Ident} {bound bound' fallback fallback' : Option TypeExpr} : n.Alike L n' →
      Option.Rel TypeExpr.Alike bound bound' → Option.Rel TypeExpr.Alike fallback fallback' →
      TypeParam.Alike ⟨n, bound, fallback⟩ ⟨n', bound', fallback'⟩

inductive Param.Alike : Param → Param → Prop
  | mk {n n' : Ident} {s s' : Span} (modifiers : Modifiers) (rest optional : Bool)
      {t t' : Option TypeExpr} {x x' : Option Expr} : n.AlikeAsWritten L n' → s.Alike L s' →
      Option.Rel TypeExpr.Alike t t' → Option.Rel Expr.Alike x x' →
      Param.Alike ⟨n, s, modifiers, rest, optional, t, x⟩
        ⟨n', s', modifiers, rest, optional, t', x'⟩

inductive Expr.Alike : Expr → Expr → Prop
  | mk {s s' : Span} {shape shape' : ExprShape} : s.Alike L s' → ExprShape.Alike shape shape' →
      Expr.Alike ⟨s, shape⟩ ⟨s', shape'⟩

inductive ExprShape.Alike : ExprShape → ExprShape → Prop
  | string (value : String) : ExprShape.Alike (.string value) (.string value)
  | number (value : Float) : ExprShape.Alike (.number value) (.number value)
  | bigInt (digits : String) : ExprShape.Alike (.bigInt digits) (.bigInt digits)
  | template (substitutes : Bool) : ExprShape.Alike (.template substitutes) (.template substitutes)
  | true : ExprShape.Alike .true .true
  | false : ExprShape.Alike .false .false
  | null : ExprShape.Alike .null .null
  | entity {n n' : EntityName} : n.Alike L n' → ExprShape.Alike (.entity n) (.entity n')
  | array {xs xs' : List Expr} : List.Forall₂ Expr.Alike xs xs' →
      ExprShape.Alike (.array xs) (.array xs')
  | object {items items' : List ObjectItem} : List.Forall₂ ObjectItem.Alike items items' →
      ExprShape.Alike (.object items) (.object items')
  | new {n n' : Option EntityName} : Option.Rel (EntityName.Alike L) n n' →
      ExprShape.Alike (.new n) (.new n')
  | asserted {x x' : Expr} {t t' : TypeExpr} : Expr.Alike x x' → TypeExpr.Alike t t' →
      ExprShape.Alike (.asserted x t) (.asserted x' t')
  | asConst {x x' : Expr} : Expr.Alike x x' → ExprShape.Alike (.asConst x) (.asConst x')
  | function {f f' : Signature} {body body' : Option FunctionBody} {x x' : Option Expr}
      (isAsync : Bool) : Signature.Alike f f' → Option.Rel (FunctionBody.Alike L) body body' →
      Option.Rel Expr.Alike x x' →
      ExprShape.Alike (.function f body x isAsync) (.function f' body' x' isAsync)
  | unary (op : String) {x x' : Expr} : Expr.Alike x x' →
      ExprShape.Alike (.unary op x) (.unary op x')
  | unknown : ExprShape.Alike .unknown .unknown

inductive ObjectItem.Alike : ObjectItem → ObjectItem → Prop
  | property {n n' : PropertyName} {x x' : Expr} : n.Alike L n' → Expr.Alike x x' →
      ObjectItem.Alike (.property n x) (.property n' x')
  | shorthand {n n' : Ident} : n.Alike L n' → ObjectItem.Alike (.shorthand n) (.shorthand n')
  | method {n n' : PropertyName} {x x' : Signature} : n.Alike L n' → Signature.Alike x x' →
      ObjectItem.Alike (.method n x) (.method n' x')
  | spread {s s' : Span} : s.Alike L s' → ObjectItem.Alike (.spread s) (.spread s')

end

inductive ClassMemberShape.Alike : ClassMemberShape → ClassMemberShape → Prop
  | property {n n' : PropertyName} (optional : Bool) {t t' : Option TypeExpr}
      {x x' : Option Expr} : n.Alike L n' → Option.Rel (TypeExpr.Alike L) t t' →
      Option.Rel (Expr.Alike L) x x' → Alike (.property n optional t x) (.property n' optional t' x')
  | method {n n' : PropertyName} (optional : Bool) {f f' : Signature}
      {body body' : Option FunctionBody} : n.Alike L n' → f.Alike L f' →
      Option.Rel (FunctionBody.Alike L) body body' →
      Alike (.method n optional f body) (.method n' optional f' body')
  | constructor {f f' : Signature} {body body' : Option FunctionBody} : f.Alike L f' →
      Option.Rel (FunctionBody.Alike L) body body' →
      Alike (.constructor f body) (.constructor f' body')
  | getter {n n' : PropertyName} {t t' : Option TypeExpr} {body body' : Option FunctionBody} :
      n.Alike L n' → Option.Rel (TypeExpr.Alike L) t t' →
      Option.Rel (FunctionBody.Alike L) body body' → Alike (.getter n t body) (.getter n' t' body')
  | setter {n n' : PropertyName} {param param' : Option Param} : n.Alike L n' →
      Option.Rel (Param.Alike L) param param' → Alike (.setter n param) (.setter n' param')
  | index {params params' : List Param} {t t' : Option TypeExpr} :
      List.Forall₂ (Param.Alike L) params params' → Option.Rel (TypeExpr.Alike L) t t' →
      Alike (.index params t) (.index params' t')
  | unknown : Alike .unknown .unknown

structure ClassMember.Alike (m m' : ClassMember) : Prop where
  span : m.span.Alike L m'.span
  doc : L.doc m.span.start m'.span.start m.doc m'.doc
  modifiers : m.modifiers = m'.modifiers
  shape : m.shape.Alike L m'.shape

structure ImportSpecifier.Alike (x x' : ImportSpecifier) : Prop where
  imported : x.imported.Alike L x'.imported
  bound : x.bound.Alike L x'.bound
  typeOnly : x.typeOnly = x'.typeOnly

inductive ImportTarget.Alike : ImportTarget → ImportTarget → Prop
  | external (specifier : String) : Alike (.external specifier) (.external specifier)
  | entity {n n' : EntityName} : n.Alike L n' → Alike (.entity n) (.entity n')

structure ExportSpecifier.Alike (x x' : ExportSpecifier) : Prop where
  source : x.source.Alike L x'.source
  exported : x.exported.Alike L x'.exported

inductive Statement.Alike : Statement → Statement → Prop
  | declaration (i : DeclIndex) : Alike (.declaration i) (.declaration i)
  | importFrom {s s' : Span} (typeOnly : Bool) {n n' m m' : Option Ident}
      {named named' : List ImportSpecifier} (specifier : String) : s.Alike L s' →
      Option.Rel (Ident.Alike L) n n' → Option.Rel (Ident.Alike L) m m' →
      List.Forall₂ (ImportSpecifier.Alike L) named named' →
      Alike (.importFrom s typeOnly n m named specifier)
        (.importFrom s' typeOnly n' m' named' specifier)
  | importEquals {s s' : Span} {n n' : Ident} (isExport : Bool) {target target' : ImportTarget} :
      s.Alike L s' → n.Alike L n' → target.Alike L target' →
      Alike (.importEquals s n isExport target) (.importEquals s' n' isExport target')
  | exportNamed {s s' : Span} (typeOnly : Bool) {named named' : List ExportSpecifier}
      (specifier : Option String) : s.Alike L s' →
      List.Forall₂ (ExportSpecifier.Alike L) named named' →
      Alike (.exportNamed s typeOnly named specifier) (.exportNamed s' typeOnly named' specifier)
  | exportAll {s s' : Span} {n n' : Option Ident} (specifier : String) : s.Alike L s' →
      Option.Rel (Ident.Alike L) n n' →
      Alike (.exportAll s n specifier) (.exportAll s' n' specifier)
  | exportAssignment {s s' : Span} (isEquals : Bool) {n n' : EntityName} : s.Alike L s' →
      n.Alike L n' → Alike (.exportAssignment s isEquals n) (.exportAssignment s' isEquals n')
  | unknown {s s' : Span} : s.Alike L s' → Alike (.unknown s) (.unknown s')

inductive DeclarationShape.Alike : DeclarationShape → DeclarationShape → Prop
  | function {f f' : Signature} {body body' : Option FunctionBody} : f.Alike L f' →
      Option.Rel (FunctionBody.Alike L) body body' →
      Alike (.function f body) (.function f' body')
  | variable (kind : VariableKind) {t t' : Option TypeExpr} {x x' : Option Expr} :
      Option.Rel (TypeExpr.Alike L) t t' → Option.Rel (Expr.Alike L) x x' →
      Alike (.variable kind t x) (.variable kind t' x')
  | typeAlias {typeParams typeParams' : List TypeParam} {t t' : TypeExpr} :
      List.Forall₂ (TypeParam.Alike L) typeParams typeParams' → t.Alike L t' →
      Alike (.typeAlias typeParams t) (.typeAlias typeParams' t')
  | interface {typeParams typeParams' : List TypeParam} {ts ts' : List TypeExpr}
      {members members' : List TypeMember} :
      List.Forall₂ (TypeParam.Alike L) typeParams typeParams' →
      List.Forall₂ (TypeExpr.Alike L) ts ts' →
      List.Forall₂ (TypeMember.Alike L) members members' →
      Alike (.interface typeParams ts members) (.interface typeParams' ts' members')
  | class {typeParams typeParams' : List TypeParam} {t t' : Option TypeExpr}
      {ts ts' : List TypeExpr} {members members' : List ClassMember} :
      List.Forall₂ (TypeParam.Alike L) typeParams typeParams' →
      Option.Rel (TypeExpr.Alike L) t t' → List.Forall₂ (TypeExpr.Alike L) ts ts' →
      List.Forall₂ (ClassMember.Alike L) members members' →
      Alike (.class typeParams t ts members) (.class typeParams' t' ts' members')
  | enum (members : List DeclIndex) : Alike (.enum members) (.enum members)
  | enumMember {x x' : Option Expr} : Option.Rel (Expr.Alike L) x x' →
      Alike (.enumMember x) (.enumMember x')
  | module (naming : ModuleNaming) {body body' : Option (List Statement)} :
      Option.Rel (List.Forall₂ (Statement.Alike L)) body body' →
      Alike (.module naming body) (.module naming body')

/-- Documentation that was found before a token, or that is missing on both sides. -/
def Likeness.Documented (doc doc' : Option String) : Prop :=
  (∃ p p', L.start p p' ∧ L.doc p p' doc doc') ∨ doc = none ∧ doc' = none

/-- The same declaration. The documentation of a member of an enum was found where it starts. -/
structure Declaration.Alike (d d' : Declaration) : Prop where
  name : d.name.Alike L d'.name
  span : d.span.Alike L d'.span
  modifiers : d.modifiers = d'.modifiers
  documented : L.Documented d.doc d'.doc
  doc : ∀ x, d.shape = .enumMember x → L.doc d.span.start d'.span.start d.doc d'.doc
  shape : d.shape.Alike L d'.shape
  parent : d.parent = d'.parent

end

/-! ### Parsed values -/

/-- Values of which it is said when they are alike. -/
class Comparable (α : Type) where
  alike : Likeness → α → α → Prop

/-- Values that are alike only if they are equal. -/
class Plain (α : Type) [Comparable α] : Prop where
  alike_iff : ∀ (L : Likeness) (a a' : α), Comparable.alike L a a' ↔ a = a'

/-- Two values are alike. -/
class Agree (L : Likeness) {α : Type} [Comparable α] (a a' : α) : Prop where
  alike : Comparable.alike L a a'

namespace Agree

instance : Comparable Unit := ⟨fun _ => Eq⟩
instance : Comparable Bool := ⟨fun _ => Eq⟩
instance : Comparable ℕ := ⟨fun _ => Eq⟩
instance : Comparable String := ⟨fun _ => Eq⟩
instance : Comparable TokenKind := ⟨fun _ => Eq⟩
instance : Comparable Modifier := ⟨fun _ => Eq⟩
instance : Comparable TypeOperator := ⟨fun _ => Eq⟩
instance : Comparable MappedModifier := ⟨fun _ => Eq⟩

instance : Plain Unit := ⟨fun _ _ _ => .rfl⟩
instance : Plain Bool := ⟨fun _ _ _ => .rfl⟩
instance : Plain ℕ := ⟨fun _ _ _ => .rfl⟩
instance : Plain String := ⟨fun _ _ _ => .rfl⟩
instance : Plain TokenKind := ⟨fun _ _ _ => .rfl⟩
instance : Plain Modifier := ⟨fun _ _ _ => .rfl⟩
instance : Plain TypeOperator := ⟨fun _ _ _ => .rfl⟩
instance : Plain MappedModifier := ⟨fun _ _ _ => .rfl⟩

instance : Comparable Span := ⟨Span.Alike⟩
instance : Comparable Ident := ⟨Ident.Alike⟩
instance : Comparable EntityName := ⟨EntityName.Alike⟩
instance : Comparable PropertyName := ⟨PropertyName.Alike⟩
instance : Comparable FunctionBody := ⟨FunctionBody.Alike⟩
instance : Comparable TypeExpr := ⟨TypeExpr.Alike⟩
instance : Comparable TypeShape := ⟨TypeShape.Alike⟩
instance : Comparable TupleItem := ⟨TupleItem.Alike⟩
instance : Comparable TypeMember := ⟨TypeMember.Alike⟩
instance : Comparable TypeMemberShape := ⟨TypeMemberShape.Alike⟩
instance : Comparable Signature := ⟨Signature.Alike⟩
instance : Comparable TypeParam := ⟨TypeParam.Alike⟩
instance : Comparable Param := ⟨Param.Alike⟩
instance : Comparable Expr := ⟨Expr.Alike⟩
instance : Comparable ExprShape := ⟨ExprShape.Alike⟩
instance : Comparable ObjectItem := ⟨ObjectItem.Alike⟩
instance : Comparable ClassMemberShape := ⟨ClassMemberShape.Alike⟩
instance : Comparable ClassMember := ⟨ClassMember.Alike⟩
instance : Comparable ImportSpecifier := ⟨ImportSpecifier.Alike⟩
instance : Comparable ImportTarget := ⟨ImportTarget.Alike⟩
instance : Comparable ExportSpecifier := ⟨ExportSpecifier.Alike⟩
instance : Comparable Statement := ⟨Statement.Alike⟩
instance : Comparable DeclarationShape := ⟨DeclarationShape.Alike⟩

variable {α β : Type} [Comparable α] [Comparable β]

instance : Comparable (Option α) := ⟨fun L => Option.Rel (Comparable.alike L)⟩

instance : Comparable (List α) := ⟨fun L => List.Forall₂ (Comparable.alike L)⟩

instance : Comparable (α × β) :=
  ⟨fun L x x' => Comparable.alike L x.1 x'.1 ∧ Comparable.alike L x.2 x'.2⟩

instance [h : Plain α] : Plain (Option α) where
  alike_iff L a a' := by
    constructor
    · rintro (⟨h'⟩ | _)
      · rw [(h.alike_iff L _ _).mp h']
      · rfl
    · rintro rfl
      cases a with
      | none => exact .none
      | some a => exact .some ((h.alike_iff L a a).mpr rfl)

instance [h : Plain α] : Plain (List α) where
  alike_iff L a a' := by
    have heq : (Comparable.alike L : α → α → Prop) = Eq := funext₂ fun x y =>
      propext (h.alike_iff L x y)
    show List.Forall₂ (Comparable.alike L) a a' ↔ a = a'
    rw [heq, List.forall₂_eq_eq_eq]

instance [h : Plain α] [h' : Plain β] : Plain (α × β) where
  alike_iff L a a' := by
    show Comparable.alike L a.1 a'.1 ∧ Comparable.alike L a.2 a'.2 ↔ a = a'
    rw [h.alike_iff, h'.alike_iff, Prod.ext_iff]

variable {L : Likeness}

/-! ### Options, lists and pairs -/

instance (priority := low) (a : α) [h : Plain α] : Agree L a a := ⟨(h.alike_iff L a a).mpr rfl⟩

instance : Agree L (none : Option α) none := ⟨.none⟩

instance (a a' : α) [h : Agree L a a'] : Agree L (some a) (some a') := ⟨.some h.alike⟩

instance : Agree L ([] : List α) [] := ⟨.nil⟩

instance (a a' : α) (as as' : List α) [h : Agree L a a'] [hs : Agree L as as'] :
    Agree L (a :: as) (a' :: as') := ⟨.cons h.alike hs.alike⟩

instance (a a' : α) (b b' : β) [ha : Agree L a a'] [hb : Agree L b b'] :
    Agree L (a, b) (a', b') := ⟨ha.alike, hb.alike⟩

instance (x x' : α × β) [h : Agree L x x'] : Agree L x.1 x'.1 := ⟨h.alike.1⟩

instance (x x' : α × β) [h : Agree L x x'] : Agree L x.2 x'.2 := ⟨h.alike.2⟩

instance (b : Prop) [Decidable b] (x x' y y' : α) [hx : Agree L x x'] [hy : Agree L y y'] :
    Agree L (if b then x else y) (if b then x' else y') := by
  split <;> assumption

theorem append {as as' bs bs' : List α} (ha : Agree L as as') (hb : Agree L bs bs') :
    Agree L (as ++ bs) (as' ++ bs') := ⟨List.rel_append ha.alike hb.alike⟩

instance (as as' bs bs' : List α) [ha : Agree L as as'] [hb : Agree L bs bs'] :
    Agree L (as ++ bs) (as' ++ bs') := append ha hb

instance (xs xs' : List (List α)) [h : Agree L xs xs'] : Agree L xs.flatten xs'.flatten :=
  ⟨List.rel_flatten h.alike⟩

instance (as as' : List α) [h : Agree L as as'] : Agree L as.head? as'.head? := by
  obtain ⟨h⟩ := h
  cases h with
  | nil => exact ⟨.none⟩
  | cons h _ => exact ⟨.some h⟩

instance (x x' : Option α) (a a' : α) [hx : Agree L x x'] [ha : Agree L a a'] :
    Agree L (x.getD a) (x'.getD a') := by
  obtain ⟨hx⟩ := hx
  cases hx with
  | none => exact ha
  | some h => exact ⟨h⟩

section

variable (b b' d d' : Bool) [h : Agree L b b'] [h' : Agree L d d']

instance : Agree L (!b) (!b') := ⟨congrArg Bool.not h.alike⟩

instance : Agree L (b && d) (b' && d') := ⟨congrArg₂ Bool.and h.alike h'.alike⟩

instance : Agree L (b || d) (b' || d') := ⟨congrArg₂ Bool.or h.alike h'.alike⟩

end

/-! ### Names -/

instance (text : String) (s s' : Span) [h : Agree L s s'] :
    Agree L (Ident.mk text s) (Ident.mk text s') := ⟨rfl, h.alike⟩

instance (n n' : Ident) [h : Agree L n n'] : Agree L n.text n'.text := ⟨h.alike.text⟩

instance (n n' : Ident) [h : Agree L n n'] : Agree L n.span n'.span := ⟨h.alike.span⟩

instance (n n' : Ident) (tail tail' : List Ident) (s s' : Span) [h : Agree L n n']
    [htail : Agree L tail tail'] [hs : Agree L s s'] :
    Agree L (EntityName.mk n tail s) (EntityName.mk n' tail' s') :=
  ⟨h.alike, htail.alike, hs.alike⟩

instance (e e' : EntityName) [h : Agree L e e'] : Agree L e.head e'.head := ⟨h.alike.head⟩

instance (e e' : EntityName) [h : Agree L e e'] : Agree L e.tail e'.tail := ⟨h.alike.tail⟩

instance (n n' : Ident) [h : Agree L n n'] :
    Agree L (EntityName.ofIdent n) (EntityName.ofIdent n') := ⟨h.alike, .nil, h.alike.span⟩

instance (n n' : Ident) [h : Agree L n n'] : Agree L (PropertyName.ident n) (.ident n') :=
  ⟨.ident h.alike⟩

instance (n n' : Ident) [h : Agree L n n'] : Agree L (PropertyName.hidden n) (.hidden n') :=
  ⟨.hidden h.alike⟩

instance (text : String) (s s' : Span) [h : Agree L s s'] :
    Agree L (PropertyName.string text s) (.string text s') := ⟨.string text h.alike⟩

instance (text : String) (s s' : Span) [h : Agree L s s'] :
    Agree L (PropertyName.number text s) (.number text s') := ⟨.number text h.alike⟩

/-! ### Types -/

section

variable (n n' : Ident) (e e' : EntityName) (t t' u u' : TypeExpr) (ts ts' : List TypeExpr)
  (o o' q q' : Option TypeExpr) (s s' : Span) (x x' : Signature)

instance (shape shape' : TypeShape) [hs : Agree L s s'] [h : Agree L shape shape'] :
    Agree L (TypeExpr.mk s shape) (TypeExpr.mk s' shape') := ⟨.mk hs.alike h.alike⟩

instance [h : Agree L t t'] : Agree L t.shape t'.shape := by
  obtain ⟨⟨-, h⟩⟩ := h
  exact ⟨h⟩

instance (word word' : String) [h : Agree L word word'] :
    Agree L (TypeShape.keyword word) (.keyword word') := by
  obtain rfl : word = word' := h.alike
  exact ⟨.keyword word⟩

instance [h : Agree L e e'] [hs : Agree L ts ts'] :
    Agree L (TypeShape.reference e ts) (.reference e' ts') := ⟨.reference h.alike hs.alike⟩

instance [h : Agree L e e'] [hs : Agree L ts ts'] :
    Agree L (TypeShape.query e ts) (.query e' ts') := ⟨.query h.alike hs.alike⟩

instance [h : Agree L t t'] : Agree L (TypeShape.array t) (.array t') := ⟨.array h.alike⟩

instance (op : TypeOperator) [h : Agree L t t'] :
    Agree L (TypeShape.operator op t) (.operator op t') := ⟨.operator op h.alike⟩

instance [h : Agree L ts ts'] : Agree L (TypeShape.union ts) (.union ts') := ⟨.union h.alike⟩

instance [h : Agree L ts ts'] : Agree L (TypeShape.intersection ts) (.intersection ts') :=
  ⟨.intersection h.alike⟩

instance [h : Agree L n n'] [ho : Agree L o o'] : Agree L (TypeShape.infer n o) (.infer n' o') :=
  ⟨.infer h.alike ho.alike⟩

instance [h : Agree L t t'] : Agree L (TypeShape.parenthesized t) (.parenthesized t') :=
  ⟨.parenthesized h.alike⟩

instance (items items' : List TupleItem) [h : Agree L items items'] :
    Agree L (TypeShape.tuple items) (.tuple items') := ⟨.tuple h.alike⟩

instance (members members' : List TypeMember) [h : Agree L members members'] :
    Agree L (TypeShape.object members) (.object members') := ⟨.object h.alike⟩

instance [h : Agree L t t'] [hu : Agree L u u'] :
    Agree L (TypeShape.indexed t u) (.indexed t' u') := ⟨.indexed h.alike hu.alike⟩

instance [h : Agree L t t'] [hu : Agree L u u'] [ho : Agree L o o'] [hq : Agree L q q'] :
    Agree L (TypeShape.conditional t u o q) (.conditional t' u' o' q') :=
  ⟨.conditional h.alike hu.alike ho.alike hq.alike⟩

instance (value : LiteralType) : Agree L (TypeShape.literal value) (.literal value) :=
  ⟨.literal value⟩

instance (readonly optional : Option MappedModifier) [h : Agree L n n'] [ht : Agree L t t']
    [ho : Agree L o o'] [hq : Agree L q q'] :
    Agree L (TypeShape.mapped readonly n t o optional q) (.mapped readonly n' t' o' optional q') :=
  ⟨.mapped readonly optional h.alike ht.alike ho.alike hq.alike⟩

instance [h : Agree L x x'] : Agree L (TypeShape.function x) (.function x') := ⟨.function h.alike⟩

instance (isAbstract : Bool) [h : Agree L x x'] :
    Agree L (TypeShape.constructor x isAbstract) (.constructor x' isAbstract) :=
  ⟨.constructor isAbstract h.alike⟩

instance (asserts : Bool) [h : Agree L n n'] [ho : Agree L o o'] :
    Agree L (TypeShape.predicate asserts n o) (.predicate asserts n' o') :=
  ⟨.predicate asserts h.alike ho.alike⟩

instance (specifier : String) (isTypeof : Bool) (m m' : Option EntityName) [h : Agree L m m']
    [hs : Agree L ts ts'] :
    Agree L (TypeShape.moduleType specifier m ts isTypeof) (.moduleType specifier m' ts' isTypeof) :=
  ⟨.moduleType specifier isTypeof h.alike hs.alike⟩

instance : Agree L TypeShape.template .template := ⟨.template⟩

instance : Agree L TypeShape.unsupported .unsupported := ⟨.unsupported⟩

instance (label label' : Option Ident) (optional rest : Bool) [hs : Agree L s s']
    [h : Agree L label label'] [ht : Agree L t t'] :
    Agree L (TupleItem.mk s label optional rest t) (TupleItem.mk s' label' optional rest t') :=
  ⟨.mk optional rest hs.alike h.alike ht.alike⟩

/-! ### Members and signatures -/

variable (p p' : PropertyName) (params params' : List Param)

instance (optional readonly : Bool) [h : Agree L p p'] [ho : Agree L o o'] :
    Agree L (TypeMemberShape.property p optional readonly o) (.property p' optional readonly o') :=
  ⟨.property optional readonly h.alike ho.alike⟩

instance (optional : Bool) [h : Agree L p p'] [hx : Agree L x x'] :
    Agree L (TypeMemberShape.method p optional x) (.method p' optional x') :=
  ⟨.method optional h.alike hx.alike⟩

instance [h : Agree L x x'] : Agree L (TypeMemberShape.call x) (.call x') := ⟨.call h.alike⟩

instance [h : Agree L x x'] : Agree L (TypeMemberShape.construct x) (.construct x') :=
  ⟨.construct h.alike⟩

instance (readonly : Bool) [h : Agree L params params'] [ho : Agree L o o'] :
    Agree L (TypeMemberShape.index params o readonly) (.index params' o' readonly) :=
  ⟨.index readonly h.alike ho.alike⟩

instance [h : Agree L p p'] [ho : Agree L o o'] :
    Agree L (TypeMemberShape.getter p o) (.getter p' o') := ⟨.getter h.alike ho.alike⟩

instance (param param' : Option Param) [h : Agree L p p'] [ho : Agree L param param'] :
    Agree L (TypeMemberShape.setter p param) (.setter p' param') := ⟨.setter h.alike ho.alike⟩

instance (typeParams typeParams' : List TypeParam) [h : Agree L typeParams typeParams']
    [hp : Agree L params params'] [ho : Agree L o o'] :
    Agree L (Signature.mk typeParams params o) (Signature.mk typeParams' params' o') :=
  ⟨.mk h.alike hp.alike ho.alike⟩

instance [h : Agree L x x'] : Agree L x.params x'.params := by
  obtain ⟨⟨-, h, -⟩⟩ := h
  exact ⟨h⟩

instance [h : Agree L x x'] : Agree L x.returns x'.returns := by
  obtain ⟨⟨-, -, h⟩⟩ := h
  exact ⟨h⟩

instance [h : Agree L n n'] [ho : Agree L o o'] [hq : Agree L q q'] :
    Agree L (TypeParam.mk n o q) (TypeParam.mk n' o' q') := ⟨.mk h.alike ho.alike hq.alike⟩

/-- Two names that are alike as written. -/
class AgreeAsWritten (L : Likeness) (n n' : Ident) : Prop where
  alike : n.AlikeAsWritten L n'

instance (priority := low) [h : Agree L n n'] : AgreeAsWritten L n n' :=
  ⟨.inl h.alike.text, h.alike.span⟩

instance (modifiers : Modifiers) (rest optional : Bool) (x x' : Option Expr)
    [h : AgreeAsWritten L n n'] [hs : Agree L s s'] [ho : Agree L o o'] [hx : Agree L x x'] :
    Agree L (Param.mk n s modifiers rest optional o x)
      (Param.mk n' s' modifiers rest optional o' x') :=
  ⟨.mk modifiers rest optional h.alike hs.alike ho.alike hx.alike⟩

/-! ### Initializers -/

variable (i i' j j' : Expr) (b b' : Option FunctionBody) (r r' : Option Expr)

instance (returnsValue : Bool) [h : Agree L s s'] :
    Agree L (FunctionBody.mk s returnsValue) (FunctionBody.mk s' returnsValue) := ⟨h.alike, rfl⟩

instance (shape shape' : ExprShape) [hs : Agree L s s'] [h : Agree L shape shape'] :
    Agree L (Expr.mk s shape) (Expr.mk s' shape') := ⟨.mk hs.alike h.alike⟩

instance (value : String) : Agree L (ExprShape.string value) (.string value) := ⟨.string value⟩

instance (value : Float) : Agree L (ExprShape.number value) (.number value) := ⟨.number value⟩

instance (digits : String) : Agree L (ExprShape.bigInt digits) (.bigInt digits) := ⟨.bigInt digits⟩

instance (substitutes : Bool) : Agree L (ExprShape.template substitutes) (.template substitutes) :=
  ⟨.template substitutes⟩

instance : Agree L ExprShape.true .true := ⟨.true⟩

instance : Agree L ExprShape.false .false := ⟨.false⟩

instance : Agree L ExprShape.null .null := ⟨.null⟩

instance : Agree L ExprShape.unknown .unknown := ⟨.unknown⟩

instance [h : Agree L e e'] : Agree L (ExprShape.entity e) (.entity e') := ⟨.entity h.alike⟩

instance (xs xs' : List Expr) [h : Agree L xs xs'] : Agree L (ExprShape.array xs) (.array xs') :=
  ⟨.array h.alike⟩

instance (items items' : List ObjectItem) [h : Agree L items items'] :
    Agree L (ExprShape.object items) (.object items') := ⟨.object h.alike⟩

instance (m m' : Option EntityName) [h : Agree L m m'] : Agree L (ExprShape.new m) (.new m') :=
  ⟨.new h.alike⟩

instance [h : Agree L i i'] [ht : Agree L t t'] :
    Agree L (ExprShape.asserted i t) (.asserted i' t') := ⟨.asserted h.alike ht.alike⟩

instance [h : Agree L i i'] : Agree L (ExprShape.asConst i) (.asConst i') := ⟨.asConst h.alike⟩

instance (isAsync : Bool) [h : Agree L x x'] [hb : Agree L b b'] [hr : Agree L r r'] :
    Agree L (ExprShape.function x b r isAsync) (.function x' b' r' isAsync) :=
  ⟨.function isAsync h.alike hb.alike hr.alike⟩

instance (op : String) [h : Agree L i i'] : Agree L (ExprShape.unary op i) (.unary op i') :=
  ⟨.unary op h.alike⟩

instance [h : Agree L p p'] [hi : Agree L i i'] :
    Agree L (ObjectItem.property p i) (.property p' i') := ⟨.property h.alike hi.alike⟩

instance [h : Agree L n n'] : Agree L (ObjectItem.shorthand n) (.shorthand n') :=
  ⟨.shorthand h.alike⟩

instance [h : Agree L p p'] [hx : Agree L x x'] :
    Agree L (ObjectItem.method p x) (.method p' x') := ⟨.method h.alike hx.alike⟩

instance [h : Agree L s s'] : Agree L (ObjectItem.spread s) (.spread s') := ⟨.spread h.alike⟩

/-! ### Members of classes -/

instance (optional : Bool) [h : Agree L p p'] [ho : Agree L o o'] [hr : Agree L r r'] :
    Agree L (ClassMemberShape.property p optional o r) (.property p' optional o' r') :=
  ⟨.property optional h.alike ho.alike hr.alike⟩

instance (optional : Bool) [h : Agree L p p'] [hx : Agree L x x'] [hb : Agree L b b'] :
    Agree L (ClassMemberShape.method p optional x b) (.method p' optional x' b') :=
  ⟨.method optional h.alike hx.alike hb.alike⟩

instance [hx : Agree L x x'] [hb : Agree L b b'] :
    Agree L (ClassMemberShape.constructor x b) (.constructor x' b') :=
  ⟨.constructor hx.alike hb.alike⟩

instance [h : Agree L p p'] [ho : Agree L o o'] [hb : Agree L b b'] :
    Agree L (ClassMemberShape.getter p o b) (.getter p' o' b') :=
  ⟨.getter h.alike ho.alike hb.alike⟩

instance (param param' : Option Param) [h : Agree L p p'] [ho : Agree L param param'] :
    Agree L (ClassMemberShape.setter p param) (.setter p' param') := ⟨.setter h.alike ho.alike⟩

instance [h : Agree L params params'] [ho : Agree L o o'] :
    Agree L (ClassMemberShape.index params o) (.index params' o') := ⟨.index h.alike ho.alike⟩

instance : Agree L ClassMemberShape.unknown .unknown := ⟨.unknown⟩

/-! ### Statements and declarations -/

variable (k k' l l' : Option Ident)

instance (m m' : Ident) (typeOnly : Bool) [h : Agree L n n'] [hm : Agree L m m'] :
    Agree L (ImportSpecifier.mk n m typeOnly) (ImportSpecifier.mk n' m' typeOnly) :=
  ⟨h.alike, hm.alike, rfl⟩

instance (specifier : String) : Agree L (ImportTarget.external specifier) (.external specifier) :=
  ⟨.external specifier⟩

instance [h : Agree L e e'] : Agree L (ImportTarget.entity e) (.entity e') := ⟨.entity h.alike⟩

instance (m m' : Ident) [h : Agree L n n'] [hm : Agree L m m'] :
    Agree L (ExportSpecifier.mk n m) (ExportSpecifier.mk n' m') := ⟨h.alike, hm.alike⟩

instance (index : DeclIndex) : Agree L (Statement.declaration index) (.declaration index) :=
  ⟨.declaration index⟩

instance (indices : List DeclIndex) :
    Agree L (indices.map Statement.declaration) (indices.map Statement.declaration) :=
  ⟨List.forall₂_map_left_iff.mpr (List.forall₂_map_right_iff.mpr
    (List.forall₂_same.mpr fun index _ => .declaration index))⟩

instance (typeOnly : Bool) (named named' : List ImportSpecifier) (specifier : String)
    [hs : Agree L s s'] [hk : Agree L k k'] [hl : Agree L l l'] [h : Agree L named named'] :
    Agree L (Statement.importFrom s typeOnly k l named specifier)
      (.importFrom s' typeOnly k' l' named' specifier) :=
  ⟨.importFrom typeOnly specifier hs.alike hk.alike hl.alike h.alike⟩

instance (isExport : Bool) (target target' : ImportTarget) [hs : Agree L s s'] [h : Agree L n n']
    [ht : Agree L target target'] : Agree L (Statement.importEquals s n isExport target)
      (.importEquals s' n' isExport target') :=
  ⟨.importEquals isExport hs.alike h.alike ht.alike⟩

instance (typeOnly : Bool) (named named' : List ExportSpecifier) (specifier : Option String)
    [hs : Agree L s s'] [h : Agree L named named'] :
    Agree L (Statement.exportNamed s typeOnly named specifier)
      (.exportNamed s' typeOnly named' specifier) :=
  ⟨.exportNamed typeOnly specifier hs.alike h.alike⟩

instance (specifier : String) [hs : Agree L s s'] [hk : Agree L k k'] :
    Agree L (Statement.exportAll s k specifier) (.exportAll s' k' specifier) :=
  ⟨.exportAll specifier hs.alike hk.alike⟩

instance (isEquals : Bool) [hs : Agree L s s'] [h : Agree L e e'] :
    Agree L (Statement.exportAssignment s isEquals e) (.exportAssignment s' isEquals e') :=
  ⟨.exportAssignment isEquals hs.alike h.alike⟩

instance [hs : Agree L s s'] : Agree L (Statement.unknown s) (.unknown s') := ⟨.unknown hs.alike⟩

variable (typeParams typeParams' : List TypeParam)

instance [h : Agree L x x'] [hb : Agree L b b'] :
    Agree L (DeclarationShape.function x b) (.function x' b') := ⟨.function h.alike hb.alike⟩

instance (kind : VariableKind) [ho : Agree L o o'] [hr : Agree L r r'] :
    Agree L (DeclarationShape.variable kind o r) (.variable kind o' r') :=
  ⟨.variable kind ho.alike hr.alike⟩

instance [h : Agree L typeParams typeParams'] [ht : Agree L t t'] :
    Agree L (DeclarationShape.typeAlias typeParams t) (.typeAlias typeParams' t') :=
  ⟨.typeAlias h.alike ht.alike⟩

instance (members members' : List TypeMember) [h : Agree L typeParams typeParams']
    [ht : Agree L ts ts'] [hm : Agree L members members'] :
    Agree L (DeclarationShape.interface typeParams ts members)
      (.interface typeParams' ts' members') := ⟨.interface h.alike ht.alike hm.alike⟩

instance (members members' : List ClassMember) [h : Agree L typeParams typeParams']
    [ho : Agree L o o'] [ht : Agree L ts ts'] [hm : Agree L members members'] :
    Agree L (DeclarationShape.class typeParams o ts members)
      (.class typeParams' o' ts' members') := ⟨.class h.alike ho.alike ht.alike hm.alike⟩

instance (members : List DeclIndex) : Agree L (DeclarationShape.enum members) (.enum members) :=
  ⟨.enum members⟩

instance [h : Agree L r r'] : Agree L (DeclarationShape.enumMember r) (.enumMember r') :=
  ⟨.enumMember h.alike⟩

instance (naming : ModuleNaming) (body body' : Option (List Statement)) [h : Agree L body body'] :
    Agree L (DeclarationShape.module naming body) (.module naming body') :=
  ⟨.module naming h.alike⟩

end

end Agree

end ApiSurface
