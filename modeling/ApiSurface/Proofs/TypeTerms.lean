import ApiSurface.Grammar.Types
import ApiSurface.Proofs.SpelledPieces
/-!
A grammar of types: the terms, how they are written, and when a term needs no further parentheses.
-/
namespace ApiSurface

/-! ### Terms -/

mutual

/-- A type without its place in a text. -/
inductive TypeTerm where
  | keyword (word : String)
  | reference (head : String) (tail : List String) (args : List TypeTerm)
  | literal (value : String)
  | array (item : TypeTerm)
  | indexed (object index : TypeTerm)
  | operator (op : TypeOperator) (operand : TypeTerm)
  | infer (name : String)
  | intersection (parts : List TypeTerm)
  | union (parts : List TypeTerm)
  | parenthesized (inner : TypeTerm)
  | tuple (items : List ItemTerm)
  | conditional (check bound whenTrue whenFalse : TypeTerm)
  | function (typeParams : List TypeParamTerm) (params : List ParamTerm) (result : TypeTerm)

/-- An element of a tuple. -/
structure ItemTerm where
  label : Option String
  optional : Bool
  rest : Bool
  type : TypeTerm

/-- A parameter of a function type. -/
structure ParamTerm where
  name : String
  optional : Bool
  rest : Bool
  type : Option TypeTerm

/-- A type parameter of a function type. -/
structure TypeParamTerm where
  name : String
  bound : Option TypeTerm
  fallback : Option TypeTerm

end

/-- An operator before a type as it is written. -/
def TypeOperator.word : TypeOperator → String
  | keyof => "keyof"
  | readonly => "readonly"
  | unique => "unique"

/-! ### Terms as they are written -/

/-- A list in angle brackets, or nothing at all. -/
def angled (items : List (List Piece)) : List Piece :=
  if items.isEmpty then [] else .sign .less :: parted .comma items ++ [.sign .greater]

/-- A sign that may be written. -/
def marked (sign : TokenKind) (present : Bool) : List Piece :=
  if present then [.sign sign] else []

/-- A dotted name after its first part. -/
def dotted (names : List String) : List Piece := led .dot (names.map fun name => [.word name])

mutual

/-- The tokens of a type. -/
def TypeTerm.pieces : TypeTerm → List Piece
  | .keyword word => [.word word]
  | .reference head tail args => .word head :: dotted tail ++ angled (piecesOfTypes args)
  | .literal value => [.string value]
  | .array item => item.pieces ++ [.sign .openBracket, .sign .closeBracket]
  | .indexed object index =>
    object.pieces ++ .sign .openBracket :: index.pieces ++ [.sign .closeBracket]
  | .operator op operand => .word op.word :: operand.pieces
  | .infer name => [.word "infer", .word name]
  | .intersection parts => parted .ampersand (piecesOfTypes parts)
  | .union parts => parted .bar (piecesOfTypes parts)
  | .parenthesized inner => .sign .openParen :: inner.pieces ++ [.sign .closeParen]
  | .tuple items =>
    .sign .openBracket :: parted .comma (piecesOfItems items) ++ [.sign .closeBracket]
  | .conditional check bound whenTrue whenFalse =>
    check.pieces ++ .word "extends" :: bound.pieces ++ .sign .question :: whenTrue.pieces ++
      .sign .colon :: whenFalse.pieces
  | .function typeParams params result =>
    angled (piecesOfTypeParams typeParams) ++
      .sign .openParen :: parted .comma (piecesOfParams params) ++
      [.sign .closeParen, .sign .arrow] ++ result.pieces

/-- The tokens of each of some types. -/
def piecesOfTypes : List TypeTerm → List (List Piece)
  | [] => []
  | t :: ts => t.pieces :: piecesOfTypes ts

/-- The tokens of a type after a token that introduces it, if there is a type. -/
def piecesOfType? (lead : Piece) : Option TypeTerm → List Piece
  | none => []
  | some t => lead :: t.pieces

/-- The tokens of an element of a tuple. -/
def ItemTerm.pieces : ItemTerm → List Piece
  | ⟨some label, optional, rest, type⟩ =>
    marked .ellipsis rest ++ .word label :: marked .question optional ++ .sign .colon :: type.pieces
  | ⟨none, optional, rest, type⟩ =>
    marked .ellipsis rest ++ type.pieces ++ marked .question optional

/-- The tokens of each of some elements of a tuple. -/
def piecesOfItems : List ItemTerm → List (List Piece)
  | [] => []
  | x :: xs => x.pieces :: piecesOfItems xs

/-- The tokens of a parameter. -/
def ParamTerm.pieces : ParamTerm → List Piece
  | ⟨name, optional, rest, type⟩ =>
    marked .ellipsis rest ++ .word name :: marked .question optional ++
      piecesOfType? (.sign .colon) type

/-- The tokens of each of some parameters. -/
def piecesOfParams : List ParamTerm → List (List Piece)
  | [] => []
  | x :: xs => x.pieces :: piecesOfParams xs

/-- The tokens of a type parameter. -/
def TypeParamTerm.pieces : TypeParamTerm → List Piece
  | ⟨name, bound, fallback⟩ =>
    .word name :: piecesOfType? (.word "extends") bound ++ piecesOfType? (.sign .equals) fallback

/-- The tokens of each of some type parameters. -/
def piecesOfTypeParams : List TypeParamTerm → List (List Piece)
  | [] => []
  | x :: xs => x.pieces :: piecesOfTypeParams xs

end

theorem piecesOfTypes_eq (ts : List TypeTerm) : piecesOfTypes ts = ts.map TypeTerm.pieces := by
  induction ts with
  | nil => rw [piecesOfTypes, List.map_nil]
  | cons t ts ih => rw [piecesOfTypes, List.map_cons, ih]

theorem piecesOfItems_eq (xs : List ItemTerm) : piecesOfItems xs = xs.map ItemTerm.pieces := by
  induction xs with
  | nil => rw [piecesOfItems, List.map_nil]
  | cons x xs ih => rw [piecesOfItems, List.map_cons, ih]

theorem piecesOfParams_eq (xs : List ParamTerm) : piecesOfParams xs = xs.map ParamTerm.pieces := by
  induction xs with
  | nil => rw [piecesOfParams, List.map_nil]
  | cons x xs ih => rw [piecesOfParams, List.map_cons, ih]

theorem piecesOfTypeParams_eq (xs : List TypeParamTerm) :
    piecesOfTypeParams xs = xs.map TypeParamTerm.pieces := by
  induction xs with
  | nil => rw [piecesOfTypeParams, List.map_nil]
  | cons x xs ih => rw [piecesOfTypeParams, List.map_cons, ih]

/-! ### Precedence -/

/-- Words that mean something else than a name where a type starts or right behind its first
word. -/
def typeWords : List String :=
  ["abstract", "asserts", "extends", "import", "infer", "is", "keyof", "new", "readonly", "typeof",
    "unique"]

/-- A name that refers to a type. -/
structure IsTypeName (name : String) : Prop where
  isName : IsName name
  notKeyword : name ∉ Productions.keywordTypes
  notWord : name ∉ typeWords

/-- How tightly the parts of a term are bound: conditional and function types are the loosest, then
unions, intersections, operators and suffixes. -/
def TypeTerm.rank : TypeTerm → ℕ
  | .conditional .. => 0
  | .function .. => 1
  | .union .. => 2
  | .intersection .. => 3
  | .operator .. | .infer .. => 4
  | .array .. | .indexed .. => 5
  | .keyword .. | .reference .. | .literal .. | .parenthesized .. | .tuple .. => 6

/-- The types in a parameter. -/
def ParamTerm.types (x : ParamTerm) : List TypeTerm := x.type.toList

/-- The types in a type parameter. -/
def TypeParamTerm.types (x : TypeParamTerm) : List TypeTerm := x.bound.toList ++ x.fallback.toList

/-- The parts of a term that stand in it without brackets or a sign in front of them that would
admit any type. -/
def TypeTerm.operands : TypeTerm → List TypeTerm
  | .array item => [item]
  | .indexed object _ => [object]
  | .operator _ operand => [operand]
  | .intersection parts => parts
  | .union parts => parts
  | .conditional check .. => [check]
  | _ => []

/-- The parts of a term that are whole types. -/
def TypeTerm.enclosed : TypeTerm → List TypeTerm
  | .reference _ _ args => args
  | .indexed _ index => [index]
  | .parenthesized inner => [inner]
  | .tuple items => items.map ItemTerm.type
  | .conditional _ bound whenTrue whenFalse => [bound, whenTrue, whenFalse]
  | .function typeParams params result =>
    typeParams.flatMap TypeParamTerm.types ++ params.flatMap ParamTerm.types ++ [result]
  | _ => []

/-- What a term demands of its names and of how tightly its parts are bound. A part that is bound
too loosely has to be put in parentheses. -/
def TypeTerm.Proper : TypeTerm → Prop
  | .keyword word => word ∈ Productions.keywordTypes
  | .reference head tail _ => IsTypeName head ∧ ∀ name ∈ tail, IsName name
  | .literal _ => True
  | .array item => 5 ≤ item.rank
  | .indexed object _ => 5 ≤ object.rank
  | .operator op operand => op ≠ .unique ∧ 4 ≤ operand.rank
  | .infer name => IsTypeName name
  | .intersection parts => 2 ≤ parts.length ∧ ∀ t ∈ parts, 4 ≤ t.rank
  | .union parts => 2 ≤ parts.length ∧ ∀ t ∈ parts, 3 ≤ t.rank
  | .parenthesized _ => True
  | .tuple items => ∀ x ∈ items, ∀ label ∈ x.label, IsName label
  | .conditional check bound _ _ => 2 ≤ check.rank ∧ 1 ≤ bound.rank
  | .function typeParams params _ =>
    (∀ x ∈ typeParams, IsName x.name ∧ x.name ∉ ["const", "in", "out"]) ∧
      ∀ x ∈ params, IsName x.name

/-- A term that is written with parentheses where they are needed, and in which whole types are
nested at most `n` deep. -/
inductive TypeTerm.Fits : ℕ → TypeTerm → Prop
  | flat {n : ℕ} {t : TypeTerm} : t.Proper → (∀ u ∈ t.operands, Fits n u) → t.enclosed = [] →
      Fits n t
  | nested {n : ℕ} {t : TypeTerm} : t.Proper → (∀ u ∈ t.operands, Fits (n + 1) u) →
      (∀ u ∈ t.enclosed, Fits n u) → Fits (n + 1) t

/-! ### Terms and trees -/

mutual

/-- A tree that is a term with places in a text. -/
inductive TypeTerm.Shows : TypeTerm → TypeExpr → Prop
  | keyword {word : String} {span : Span} :
      TypeTerm.Shows (.keyword word) ⟨span, .keyword word⟩
  | reference {head : String} {tail : List String} {args : List TypeTerm} {span : Span}
      {name : EntityName} {types : List TypeExpr} : name.texts = head :: tail →
      List.Forall₂ TypeTerm.Shows args types →
      TypeTerm.Shows (.reference head tail args) ⟨span, .reference name types⟩
  | literal {value : String} {span : Span} :
      TypeTerm.Shows (.literal value) ⟨span, .literal (.string value)⟩
  | array {item : TypeTerm} {span : Span} {type : TypeExpr} : TypeTerm.Shows item type →
      TypeTerm.Shows (.array item) ⟨span, .array type⟩
  | indexed {object index : TypeTerm} {span : Span} {type key : TypeExpr} :
      TypeTerm.Shows object type → TypeTerm.Shows index key →
      TypeTerm.Shows (.indexed object index) ⟨span, .indexed type key⟩
  | operator {op : TypeOperator} {operand : TypeTerm} {span : Span} {type : TypeExpr} :
      TypeTerm.Shows operand type →
      TypeTerm.Shows (.operator op operand) ⟨span, .operator op type⟩
  | infer {name : Ident} {span : Span} :
      TypeTerm.Shows (.infer name.text) ⟨span, .infer name none⟩
  | intersection {parts : List TypeTerm} {span : Span} {types : List TypeExpr} :
      List.Forall₂ TypeTerm.Shows parts types →
      TypeTerm.Shows (.intersection parts) ⟨span, .intersection types⟩
  | union {parts : List TypeTerm} {span : Span} {types : List TypeExpr} :
      List.Forall₂ TypeTerm.Shows parts types →
      TypeTerm.Shows (.union parts) ⟨span, .union types⟩
  | parenthesized {inner : TypeTerm} {span : Span} {type : TypeExpr} :
      TypeTerm.Shows inner type →
      TypeTerm.Shows (.parenthesized inner) ⟨span, .parenthesized type⟩
  | tuple {items : List ItemTerm} {span : Span} {found : List TupleItem} :
      List.Forall₂ ItemTerm.Shows items found →
      TypeTerm.Shows (.tuple items) ⟨span, .tuple found⟩
  | conditional {check bound whenTrue whenFalse : TypeTerm} {span : Span}
      {checked limit yes no : TypeExpr} : TypeTerm.Shows check checked →
      TypeTerm.Shows bound limit → TypeTerm.Shows whenTrue yes → TypeTerm.Shows whenFalse no →
      TypeTerm.Shows (.conditional check bound whenTrue whenFalse)
        ⟨span, .conditional checked limit (some yes) (some no)⟩
  | function {typeParams : List TypeParamTerm} {params : List ParamTerm} {result : TypeTerm}
      {span : Span} {generics : List TypeParam} {inputs : List Param} {type : TypeExpr} :
      List.Forall₂ TypeParamTerm.Shows typeParams generics →
      List.Forall₂ ParamTerm.Shows params inputs → TypeTerm.Shows result type →
      TypeTerm.Shows (.function typeParams params result)
        ⟨span, .function ⟨generics, inputs, some type⟩⟩

/-- An element of a tuple that is a term with places in a text. -/
inductive ItemTerm.Shows : ItemTerm → TupleItem → Prop
  | intro {label : Option Ident} {optional rest : Bool} {term : TypeTerm} {span : Span}
      {type : TypeExpr} : TypeTerm.Shows term type →
      ItemTerm.Shows ⟨label.map Ident.text, optional, rest, term⟩
        ⟨span, label, optional, rest, type⟩

/-- A parameter that is a term with places in a text. -/
inductive ParamTerm.Shows : ParamTerm → Param → Prop
  | intro {name : Ident} {optional rest : Bool} {term : Option TypeTerm} {span : Span}
      {type : Option TypeExpr} : Option.Rel TypeTerm.Shows term type →
      ParamTerm.Shows ⟨name.text, optional, rest, term⟩
        ⟨name, span, [], rest, optional, type, none⟩

/-- A type parameter that is a term with places in a text. -/
inductive TypeParamTerm.Shows : TypeParamTerm → TypeParam → Prop
  | intro {name : Ident} {bound fallback : Option TypeTerm} {limit type : Option TypeExpr} :
      Option.Rel TypeTerm.Shows bound limit → Option.Rel TypeTerm.Shows fallback type →
      TypeParamTerm.Shows ⟨name.text, bound, fallback⟩ ⟨name, limit, type⟩

end

end ApiSurface
