/-!
# Doubles as exact numbers

`Double.read` says which number a double stands for, and `Double.ofRatio` finds the double nearest
to a quotient of two naturals, a tie going to the even neighbour. Both are exact integer arithmetic
on the bits, so an order or an equality of doubles is one of rationals.
-/

namespace QuadScript.Double

def nan : Float := 0.0 / 0.0

def infinity : Float := 1.0 / 0.0

/-- What a double stands for: `finite negative m e` is `m * 2 ^ e`, or its opposite. -/
inductive Reading
  | nan
  | infinite (negative : Bool)
  | finite (negative : Bool) (mantissa : Nat) (exponent : Int)
deriving DecidableEq, Repr

/-- The sign is the top bit, the next eleven are the exponent, the rest the fraction. The largest
exponent marks infinities and NaN, the smallest the numbers without an implicit leading bit. -/
def read (x : Float) : Reading :=
  let bits := x.toBits.toNat
  let negative : Bool := Nat.pow 2 63 ≤ bits
  let exponent : Nat := bits / Nat.pow 2 52 % Nat.pow 2 11
  let fraction := bits % Nat.pow 2 52
  if exponent = 2047 then
    if fraction = 0 then .infinite negative else .nan
  else if exponent = 0 then .finite negative fraction (-1074)
  else .finite negative (Nat.pow 2 52 + fraction) ((exponent : Int) - 1075)

/-- Whether the sign bit is set; of a zero, it is the only thing that tells. -/
def isNegative (x : Float) : Bool := Nat.pow 2 63 ≤ x.toBits.toNat

/-- `n / d` to the nearest natural, a tie going to the even one. -/
def roundDiv (n d : Nat) : Nat :=
  let q := n / d
  let r := n % d
  if 2 * r < d then q else if d < 2 * r then q + 1 else q + q % 2

/-- The exponent `e` for which `n / d` is a multiple of `2 ^ e` between `2 ^ 52` and `2 ^ 53`, or
the least exponent that a double has. -/
def ratioExponent (n d : Nat) : Int :=
  let e : Int := n.log2 - d.log2 - 52
  let e := if n * Nat.pow 2 (-e).toNat < d * Nat.pow 2 52 * Nat.pow 2 e.toNat then e - 1 else e
  max e (-1074)

/-- The bits of the double nearest to `n / d`, without a sign. A mantissa that rounding carries over
moves on to the next exponent, as the bits are one number; they pass the bits of infinity where the
quotient is too large. -/
def ratioBits (n d : Nat) : Nat :=
  if n = 0 then 0
  else
    let e := ratioExponent n d
    (e + 1074).toNat * Nat.pow 2 52 + roundDiv (n * Nat.pow 2 (-e).toNat) (d * Nat.pow 2 e.toNat)

def infinityBits : Nat := 2047 * Nat.pow 2 52

/-- The double nearest to `n / d`, or its opposite; infinite where that is too large. -/
def ofRatio (negative : Bool) (n d : Nat) : Float :=
  let bits := min (ratioBits n d) infinityBits
  Float.ofBits (UInt64.ofNat (if negative then Nat.pow 2 63 + bits else bits))

/-- The double nearest to an integer, infinite where that is too large. -/
def ofInt (n : Int) : Float := ofRatio (n < 0) n.natAbs 1

/-- `digits * 10 ^ exponent` to the nearest double. The two tests keep hopeless powers of ten from
being computed. -/
def ofDecimal (negative : Bool) (digits : Nat) (exponent : Int) : Float :=
  let size := (Nat.toDigits 10 digits).length
  if digits = 0 then ofRatio negative 0 1
  else if 400 < size + exponent then ofRatio negative (Nat.pow 2 1024) 1
  else if size + exponent < -400 then ofRatio negative 0 1
  else ofRatio negative (digits * Nat.pow 10 exponent.toNat) (Nat.pow 10 (-exponent).toNat)

/-- The rational a finite double stands for. -/
def value? (x : Float) : Option Rat :=
  match read x with
  | .finite negative m e =>
    let q := mkRat (m * Nat.pow 2 e.toNat) (Nat.pow 2 (-e).toNat)
    some (if negative then -q else q)
  | _ => none

/-- The integer part of a finite double, rounded toward zero. -/
def truncate? (x : Float) : Option Int :=
  match read x with
  | .finite negative m e =>
    let n : Nat := m * Nat.pow 2 e.toNat / Nat.pow 2 (-e).toNat
    some (if negative then -n else n)
  | _ => none

/-- Whether a double is a whole number. -/
def isIntegral (x : Float) : Bool :=
  match read x with
  | .finite _ m e => m % Nat.pow 2 (-e).toNat == 0
  | _ => false

/-- Whether a double is an odd whole number. -/
def isOdd (x : Float) : Bool :=
  match read x with
  | .finite _ m e =>
    m % Nat.pow 2 (-e).toNat == 0 && m * Nat.pow 2 e.toNat / Nat.pow 2 (-e).toNat % 2 == 1
  | _ => false

/-- The remainder of the division that rounds toward zero; it has the sign of the dividend, also
where it is zero. Both are brought to the smaller exponent, where the remainder is exact. -/
def rem (x y : Float) : Float :=
  match read x, read y with
  | .finite negative m e, .finite _ m' e' =>
    if m' = 0 then nan
    else
      let least := min e e'
      let r := m * Nat.pow 2 (e - least).toNat % (m' * Nat.pow 2 (e' - least).toNat)
      ofRatio negative (r * Nat.pow 2 least.toNat) (Nat.pow 2 (-least).toNat)
  | .finite .., .infinite _ => x
  | _, _ => nan

/-- `x` to the power `y`. An exponent of zero always gives one. A power too large is infinite, and
so is zero to a negative power, always with a positive sign. A negative base with a fractional
exponent gives NaN, unless the absolute value of the power is too large already. -/
def pow (x y : Float) : Float :=
  if y == 0.0 then 1.0
  else if x.isNaN then nan
  else if y.isNaN then (if x == 1.0 then 1.0 else nan)
  else if y.isInf then
    if x.abs == 1.0 then 1.0 else if decide (y > 0.0) == decide (x.abs > 1.0) then infinity else 0.0
  else if x.isInf then
    if y > 0.0 then (if isOdd y then x else infinity)
    else if isOdd y && isNegative x then -0.0 else 0.0
  else if x == 0.0 then
    if y < 0.0 then infinity else if isOdd y then x else 0.0
  else if x < 0.0 && !isIntegral y then
    if (Float.pow x.abs y).isInf then infinity else nan
  else
    let r := if x.abs == 1.0 then 1.0 else Float.pow x.abs y
    if x < 0.0 && isOdd y then -r else r

end QuadScript.Double
