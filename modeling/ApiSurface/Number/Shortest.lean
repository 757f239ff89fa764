import ApiSurface.Number.Rounding
/-!
The shortest decimal that reads back to the same double, and the text in which numbers are
written.
-/
namespace ApiSurface

/-- The interval of numbers that round to a double, as bounds and value over one denominator. -/
structure RoundingInterval where
  low : Nat
  value : Nat
  high : Nat
  den : Nat
  /-- The bounds themselves round to the double too. -/
  closed : Bool
  deriving DecidableEq, Repr

/-- The numbers nearer to `b` than to its neighbours; a bound counts if the mantissa is even. -/
def Binary.interval (b : Binary) : RoundingInterval :=
  let low := 4 * b.mantissa - (if b.narrowBelow then 1 else 2)
  let value := 4 * b.mantissa
  let high := 4 * b.mantissa + 2
  let e := b.exponent - 2
  let scale := Nat.pow 2 e.natAbs
  if 0 ≤ e then ⟨low * scale, value * scale, high * scale, 1, b.mantissa % 2 = 0⟩
  else ⟨low, value, high, scale, b.mantissa % 2 = 0⟩

/-- Whether `num / den`, over the denominator of the interval, lies in it. -/
def RoundingInterval.holds (i : RoundingInterval) (num den : Nat) : Bool :=
  if i.closed then i.low * den ≤ num && num ≤ i.high * den
  else i.low * den < num && num < i.high * den

/-- A positive decimal `digits · 10 ^ exponent`. -/
structure Decimal where
  digits : Nat
  exponent : Int
  deriving DecidableEq, Repr

/-- The least `k` with `value / den < 10 ^ k`, searched upwards from `k` for at most `steps`
steps. -/
def magnitudeFrom (value den : Nat) : Nat → Int → Int
  | 0, k => k
  | steps + 1, k =>
    let below :=
      if 0 ≤ k then value < den * Nat.pow 10 k.toNat else value * Nat.pow 10 (-k).toNat < den
    if below then k else magnitudeFrom value den steps (k + 1)

/-- The decimal of the grid `10 ^ exponent` that lies in the interval and is nearest to its value;
of two equally near ones the even one. -/
def RoundingInterval.onGrid? (i : RoundingInterval) (exponent : Int) : Option Decimal :=
  -- the value is `num / den` grid steps, and so are the bounds after the same scaling
  let up := Nat.pow 10 (-exponent).toNat
  let down := Nat.pow 10 exponent.toNat
  let num := i.value * up
  let den := i.den * down
  let below := num / den
  let fits (n : Nat) : Bool := i.holds (n * den) up
  match fits below, fits (below + 1) with
  | true, true => some ⟨divHalfEven num den, exponent⟩
  | true, false => some ⟨below, exponent⟩
  | false, true => some ⟨below + 1, exponent⟩
  | false, false => none

/-- The first grid that has a decimal in the interval, from the coarsest one on. -/
def RoundingInterval.shortest (i : RoundingInterval) (magnitude : Int) : Nat → Nat → Decimal
  | 0, n => (i.onGrid? (magnitude - n)).getD ⟨0, 0⟩
  | steps + 1, n =>
    match i.onGrid? (magnitude - n) with
    | some d => d
    | none => i.shortest magnitude steps (n + 1)

/-- The shortest decimal that reads back to a positive double, and of those the nearest. -/
def Binary.shortest (b : Binary) : Decimal :=
  let i := b.interval
  let guess : Int := ((i.value.log2 : Int) - (i.den.log2 : Int)) * 30103 / 100000 - 2
  let magnitude := magnitudeFrom i.value i.den 8 guess
  i.shortest magnitude 17 1

/-- Trailing zeros moved into the exponent; `steps` bounds how many. -/
def Decimal.trimZeros : Nat → Decimal → Decimal
  | 0, d => d
  | steps + 1, d =>
    if d.digits ≠ 0 ∧ d.digits % 10 = 0 then trimZeros steps ⟨d.digits / 10, d.exponent + 1⟩ else d

/-- A number is written positionally and with a fraction from `10 ^ -5` up to but not including
`10 ^ 16`, and with one digit before the point and a signed exponent outside. -/
def Decimal.text (d : Decimal) : String :=
  let d := d.trimZeros 20
  let digits := toString d.digits
  let count : Int := digits.length
  let point := count + d.exponent
  let zeros (n : Int) : String := String.ofList (List.replicate n.toNat '0')
  if 0 ≤ d.exponent ∧ point ≤ 16 then digits ++ zeros d.exponent ++ ".0"
  else if 0 < point ∧ point ≤ 16 then
    String.ofList (digits.toList.take point.toNat) ++ "." ++
      String.ofList (digits.toList.drop point.toNat)
  else if -5 < point ∧ point ≤ 0 then "0." ++ zeros (-point) ++ digits
  else
    let e := point - 1
    let fraction := String.ofList (digits.toList.drop 1)
    String.ofList (digits.toList.take 1) ++ (if fraction.isEmpty then "" else "." ++ fraction) ++
      "e" ++ (if e < 0 then "-" else "+") ++ toString e.natAbs

/-- The text of a finite double: its shortest decimal, zero as `0.0`, and a sign if it has one. -/
def numberText (x : Float) : String :=
  let bits := x.toBits
  let sign := if Nat.pow 2 63 ≤ bits.toNat then "-" else ""
  let b := Binary.ofBits bits
  if b.mantissa = 0 then sign ++ "0.0" else sign ++ b.shortest.text

end ApiSurface
