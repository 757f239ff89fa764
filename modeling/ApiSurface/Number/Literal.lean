import ApiSurface.Number.Rounding
/-!
The value of a number from its text: decimal text with an optional fraction and exponent, the
names of the infinities and of the undefined number, and digits in base sixteen, eight or two.
-/
namespace ApiSurface

/-- The undefined number. -/
def undefinedNumber : Float := Float.ofBits 0x7FF8000000000000

/-- The positive infinite number. -/
def infiniteNumber : Float := Float.ofBits 0x7FF0000000000000

/-- The value of a digit in base sixteen or less. -/
def digitValue? (radix : Nat) (c : Char) : Option Nat :=
  let n := c.toNat
  let v? :=
    if 48 ≤ n ∧ n ≤ 57 then some (n - 48)
    else if 97 ≤ n ∧ n ≤ 102 then some (n - 87)
    else if 65 ≤ n ∧ n ≤ 70 then some (n - 55)
    else none
  v?.filter (· < radix)

/-- The number that a list of digits writes, if each is a digit and its value stays below
`limit`. -/
def digitsValue? (radix limit : Nat) (cs : List Char) : Option Nat :=
  cs.foldl (fun acc c => do
    let v ← acc
    let d ← digitValue? radix c
    let v := v * radix + d
    if v < limit then some v else none) (some 0)

/-- An unsigned number below `limit`: at least one digit, perhaps after a plus sign. -/
def unsignedValue? (radix limit : Nat) (cs : List Char) : Option Nat :=
  match cs with
  | '+' :: rest => if rest.isEmpty then none else digitsValue? radix limit rest
  | [] => none
  | _ => digitsValue? radix limit cs

/-- What decimal text can stand for, without its sign. -/
inductive Magnitude where
  | infinite
  | undefined
  /-- The number `digits · 10 ^ exponent`. -/
  | finite (digits : Nat) (exponent : Int)
  deriving DecidableEq, Repr

/-- The value of a run of decimal digits. -/
def decimalValue (cs : List Char) : Nat :=
  cs.foldl (fun v c => v * 10 + (c.toNat - 48)) 0

/-- A written exponent: perhaps a sign, then at least one digit and nothing else. -/
def exponent? (cs : List Char) : Option Int :=
  let (negative, digits) := match cs with
    | '-' :: rest => (true, rest)
    | '+' :: rest => (false, rest)
    | _ => (false, cs)
  if digits.isEmpty || !digits.all Char.isDigit then none
  else
    let v : Int := decimalValue digits
    some (if negative then -v else v)

/-- Digits with at most one point among or beside them and an optional exponent. -/
def finiteMagnitude? (cs : List Char) : Option Magnitude :=
  let whole := cs.takeWhile Char.isDigit
  let rest := cs.dropWhile Char.isDigit
  let (fraction, rest) := match rest with
    | '.' :: r => (r.takeWhile Char.isDigit, r.dropWhile Char.isDigit)
    | _ => ([], rest)
  if whole.isEmpty && fraction.isEmpty then none
  else
    let value (e : Int) : Magnitude := .finite (decimalValue (whole ++ fraction)) (e - fraction.length)
    match rest with
    | [] => some (value 0)
    | 'e' :: r => (exponent? r).map value
    | _ => none

/-- Lower-case decimal text without a sign. -/
def magnitude? (cs : List Char) : Option Magnitude :=
  if cs = "inf".toList ∨ cs = "infinity".toList then some .infinite
  else if cs = "nan".toList then some .undefined
  else finiteMagnitude? cs

/-- The double nearest to a magnitude. Exponents far outside the range of doubles are not
computed with. -/
def Magnitude.toFloat : Magnitude → Float
  | .infinite => infiniteNumber
  | .undefined => undefinedNumber
  | .finite digits exponent =>
    if digits = 0 then Float.ofBits 0
    else
      -- the value lies in `[2 ^ log2, 2 ^ (log2 + 1)) · 10 ^ exponent`
      let size : Int := (digits.log2 : Int) + exponent * 3
      if 0 < exponent ∧ 1100 < size then infiniteNumber
      else if exponent < 0 ∧ size < -1200 then Float.ofBits 0
      else if 0 ≤ exponent then nearestDouble (digits * Nat.pow 10 exponent.toNat) 1
      else nearestDouble digits (Nat.pow 10 (-exponent).toNat)

/-- The value of lower-case decimal text with an optional sign. -/
def decimalNumber? (cs : List Char) : Option Float :=
  match cs with
  | '-' :: rest => (magnitude? rest).map fun m => -m.toFloat
  | '+' :: rest => (magnitude? rest).map Magnitude.toFloat
  | _ => (magnitude? cs).map Magnitude.toFloat

/-- The value of a numeric literal's text. Text after a base prefix is read as an unsigned number
of 64 bits; text that is no number gives the undefined number. -/
def numericValue (text : String) : Float :=
  let inRadix (radix : Nat) (digits : List Char) : Option Float :=
    (unsignedValue? radix (Nat.pow 2 64) digits).map (nearestDouble · 1)
  let value? := match text.toList.map Char.toLower with
    | '0' :: 'x' :: digits => inRadix 16 digits
    | '0' :: 'o' :: digits => inRadix 8 digits
    | '0' :: 'b' :: digits => inRadix 2 digits
    | cs => decimalNumber? cs
  value?.getD undefinedNumber

end ApiSurface
