import ApiSurface.Grammar.Parse
/-!
The productions of the grammar that occur inside themselves. Every other production is a plain
function of these five, and each of them takes at least one token before it enters one again.
-/
namespace ApiSurface

/-- Parsers for the productions that occur inside themselves. -/
structure Productions where
  /-- A whole type. -/
  type : Parse TypeExpr
  /-- A type behind its operators. -/
  operandType : Parse TypeExpr
  /-- An initializer. -/
  expression : Parse Expr
  /-- An expression behind its operators. -/
  operand : Parse Expr
  /-- The statements of a body in braces, up to the closing one. -/
  statements : Parse (List Statement)
  /-- A module from its name on. -/
  module : Nat → Option String → Modifiers → Parse DeclIndex

namespace Productions

/-- A whole type where conditional types are allowed again. -/
def freeType (g : Productions) : Parse TypeExpr := Parse.withConditionals g.type

/-- A whole type after a token that introduces it. -/
def typeAfter (g : Productions) (kind : TokenKind) : Parse (Option TypeExpr) :=
  Parse.whenever (Parse.accept kind) g.freeType

/-- An initializer after an equals sign. -/
def initializer (g : Productions) : Parse (Option Expr) :=
  Parse.whenever (Parse.accept .equals) g.expression

end Productions

end ApiSurface
