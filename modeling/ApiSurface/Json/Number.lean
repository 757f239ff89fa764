import ApiSurface.Json
import ApiSurface.Number.Literal
/-!
The values of JSON numbers. A number is read as a whole number of 64 bits times a power of ten: the
first digits that fit make the whole number, and one product or quotient of doubles gives the value.
It may miss the nearest double by a little; a whole number that fits is exact up to rounding.
-/
namespace ApiSurface.Json

/-- A whole number times a power of ten. -/
structure Scaled where
  whole : Nat
  exponent : Int
  deriving DecidableEq, Repr, Inhabited

namespace Scaled

/-- One more digit, if the whole number then still fits 64 bits. -/
def push? (whole : Nat) (c : Char) : Option Nat :=
  let next := whole * 10 + (c.toNat - 48)
  if next < Nat.pow 2 64 then some next else none

/-- The digits before the point: those that do not fit only scale. -/
def addWhole (s : Scaled) : List Char → Scaled
  | [] => s
  | c :: cs =>
    match push? s.whole c with
    | some whole => addWhole { s with whole } cs
    | none => { s with exponent := s.exponent + (cs.length + 1) }

/-- The digits after the point: those from the first on that does not fit are dropped. -/
def addFraction (s : Scaled) : List Char → Scaled
  | [] => s
  | c :: cs =>
    match push? s.whole c with
    | some whole => addFraction ⟨whole, s.exponent - 1⟩ cs
    | none => s

/-- The power of ten as a double. -/
def power (n : Nat) : Float := nearestDouble (Nat.pow 10 n) 1

/-- The greatest power of ten that is a double. -/
def greatestPower : Nat := 308

/-- A double divided by a power of ten, by at most `steps` powers that are doubles. -/
def divided (x : Float) (n : Nat) : Nat → Float
  | 0 => x
  | steps + 1 =>
    if n ≤ greatestPower then x / power n
    else divided (x / power greatestPower) (n - greatestPower) steps

/-- The value, if it is not too great for a double. -/
def value? (s : Scaled) : Option Float :=
  let x := nearestDouble s.whole 1
  if s.whole = 0 then some x
  else if s.exponent < 0 then
    -- three powers are more than enough to come to zero
    some (divided x (min (-s.exponent).toNat (3 * greatestPower)) 3)
  else if s.exponent ≤ greatestPower then
    let product := x * power s.exponent.toNat
    if product.isInf then none else some product
  else none

end Scaled

/-- The number that the digits of a written number make together, without the sign. -/
def scaledOf (cs : List Char) : Scaled :=
  let whole := cs.takeWhile Char.isDigit
  let rest := cs.dropWhile Char.isDigit
  let fraction := match rest with
    | '.' :: r => r.takeWhile Char.isDigit
    | _ => []
  let s := (Scaled.addWhole ⟨0, 0⟩ whole).addFraction fraction
  match rest.dropWhile fun c => c != 'e' && c != 'E' with
  | _ :: written => { s with exponent := s.exponent + (exponent? written).getD 0 }
  | [] => s

/-- The value of a written number, if it is not too great for a double. -/
def numberValue? (text : String) : Option Float :=
  match text.toList with
  | '-' :: cs => ((scaledOf cs).value?).map (- ·)
  | cs => (scaledOf cs).value?

/-- The value of a number. -/
def float? : Json → Option Float
  | num text => numberValue? text
  | _ => none

/-- A number; one that is not finite is written as `null`. -/
def ofFloat (text : Float → String) (x : Float) : Json :=
  if x.isFinite then num (text x) else null

end ApiSurface.Json
