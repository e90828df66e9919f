import QuadScript.Number.Double

/-!
# The shortest decimal of a double

`shortest? x` is the decimal with the fewest digits among those that round to `x`, and of these the
one nearest to `x`. A decimal rounds to `m * 2 ^ e` if it lies between the midpoints to the two
neighbouring doubles; the midpoints count if `m` is even. All tests are exact: both the value and
the midpoints are naturals over one common denominator.
-/

namespace QuadScript

/-- `digits * 10 ^ exponent`; the digits do not end in zero, unless they are zero. -/
structure Decimal where
  digits : Nat
  exponent : Int
deriving DecidableEq, Repr

namespace Decimal

/-- The numbers that round to a double, as naturals over `den`: the double itself is `mid`, the
midpoints to its neighbours are `low` and `high`. -/
structure Interval where
  low : Nat
  mid : Nat
  high : Nat
  den : Nat
  closed : Bool
deriving Repr

/-- The interval of `m * 2 ^ e` in units of a quarter of the last place. Below a power of two, the
doubles are twice as dense. -/
def Interval.ofFinite (m : Nat) (e : Int) : Interval :=
  let scale := Nat.pow 2 (e - 2).toNat
  let below := if m = Nat.pow 2 52 && -1074 < e then 1 else 2
  { low := (4 * m - below) * scale
    mid := 4 * m * scale
    high := (4 * m + 2) * scale
    den := Nat.pow 2 (2 - e).toNat
    closed := m % 2 == 0 }

/-- Whether `n / d` lies in the interval. -/
def Interval.holds (i : Interval) (n d : Nat) : Bool :=
  let n := n * i.den
  if i.closed then i.low * d ≤ n && n ≤ i.high * d else i.low * d < n && n < i.high * d

/-- The least `p` for which `n / d` is below `10 ^ p`. -/
def magnitude (n d : Nat) : Int :=
  if d ≤ n then (Nat.toDigits 10 (n / d)).length
  else 1 - ((Nat.toDigits 10 ((d - 1) / n)).length : Int)

/-- The same decimal without zeros at the end of its digits; `fuel` bounds how many there are. -/
def trim : Nat → Decimal → Decimal
  | 0, d => d
  | fuel + 1, d =>
    if d.digits % 10 = 0 && d.digits ≠ 0 then trim fuel ⟨d.digits / 10, d.exponent + 1⟩ else d

/-- Of the multiples of `10 ^ exponent` next to the interval's middle, the nearest one inside. -/
def onGrid? (i : Interval) (exponent : Int) : Option Decimal :=
  let up := Nat.pow 10 exponent.toNat
  let down := Nat.pow 10 (-exponent).toNat
  let q := i.mid * down / (i.den * up)
  let r := i.mid * down % (i.den * up)
  let below := i.holds (q * up) down
  let above := i.holds ((q + 1) * up) down
  if below && above then
    let nearest := if 2 * r < i.den * up then q
      else if i.den * up < 2 * r then q + 1 else q + q % 2
    some ⟨nearest, exponent⟩
  else if below then some ⟨q, exponent⟩
  else if above then some ⟨q + 1, exponent⟩
  else none

/-- The first hit on the grids of one digit, two digits, and so on; seventeen digits always do. -/
def shortestIn (i : Interval) : Decimal :=
  let p := magnitude i.mid i.den
  let hit := (List.range 17).findSome? fun (k : Nat) => onGrid? i (p - (k + 1 : Nat))
  trim 20 (hit.getD ⟨0, 0⟩)

/-- The shortest decimal of the absolute value of a finite double. -/
def shortest? (x : Float) : Option Decimal :=
  match Double.read x with
  | .finite _ m e => some (if m = 0 then ⟨0, 0⟩ else shortestIn (Interval.ofFinite m e))
  | _ => none

end Decimal

end QuadScript
