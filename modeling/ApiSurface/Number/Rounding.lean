/-!
The double nearest to a fraction, computed in exact integer arithmetic, and the fraction that a
double stands for.
-/
namespace ApiSurface

/-- The integer nearest to `num / den`; a half goes to the even neighbour. -/
def divHalfEven (num den : Nat) : Nat :=
  let q := num / den
  let twice := 2 * (num % den)
  if twice < den then q
  else if den < twice then q + 1
  else if q % 2 = 0 then q else q + 1

/-- The fraction `num / den · 2 ^ -e` as a numerator and a denominator. -/
def scaleDown (num den : Nat) (e : Int) : Nat × Nat :=
  if 0 ≤ e then (num, den * Nat.pow 2 e.toNat) else (num * Nat.pow 2 (-e).toNat, den)

/-- The exponent `e` for which `num / den` lies in `[2 ^ 52, 2 ^ 53) · 2 ^ e`, but no less than
the exponent of the smallest double. -/
def binaryExponent (num den : Nat) : Int :=
  let guess : Int := (num.log2 : Int) - (den.log2 : Int) - 52
  let (n, d) := scaleDown num den guess
  max (if n < Nat.pow 2 52 * d then guess - 1 else guess) (-1074)

/-- The bits of the double nearest to `num / den`; a tie goes to the even one, and a value past
the largest double is infinite. -/
def nearestBits (num den : Nat) : UInt64 :=
  if num = 0 then 0
  else
    let e := binaryExponent num den
    if 971 < e then 0x7FF0000000000000
    else
      let (n, d) := scaleDown num den e
      let m := divHalfEven n d
      if m < Nat.pow 2 52 then m.toUInt64
      else
        let bits := (e + 1075).toNat * Nat.pow 2 52 + (m - Nat.pow 2 52)
        if 0x7FF0000000000000 ≤ bits then 0x7FF0000000000000 else bits.toUInt64

/-- The double nearest to `num / den`. -/
def nearestDouble (num den : Nat) : Float := Float.ofBits (nearestBits num den)

/-- A finite double without its sign: `mantissa · 2 ^ exponent`. -/
structure Binary where
  mantissa : Nat
  exponent : Int
  /-- The next smaller double is only half as far away as the next larger one. -/
  narrowBelow : Bool
  deriving DecidableEq, Repr

/-- What the bits of a finite double stand for, without the sign. -/
def Binary.ofBits (bits : UInt64) : Binary :=
  let fraction : Nat := bits.toNat % Nat.pow 2 52
  let field : Nat := bits.toNat / Nat.pow 2 52 % Nat.pow 2 11
  if field = 0 then ⟨fraction, -1074, false⟩
  else ⟨Nat.pow 2 52 + fraction, (field : Int) - 1075, fraction = 0 && 1 < field⟩

end ApiSurface
