import QuadScript.Number.Shortest

/-!
# Doubles as text

`Layout.write` lays the shortest decimal of a double out as text. A `Layout` holds the decisions of
one format; `Layout.script` is the format in which programs see their numbers, `Layout.datum` the
one of raw data.
-/

namespace QuadScript

structure Layout where
  /-- The least and the greatest decimal exponent that is written without an exponent mark. -/
  least : Int
  greatest : Int
  /-- Whether a whole number is written with the fraction `.0`. -/
  fraction : Bool
  /-- The least number of digits in an exponent. -/
  exponentWidth : Nat
  /-- Whether a negative zero keeps its sign. -/
  signedZero : Bool
  nan : String
  infinity : String

namespace Layout

/-- The format of a program's numbers: no exponent from `1e-6` up to below `1e21`, no fraction on
whole numbers, no sign on zero. -/
def script : Layout :=
  { least := -6, greatest := 20, fraction := false, exponentWidth := 1, signedZero := false
    nan := "NaN", infinity := "Infinity" }

/-- The format of raw data: no exponent from `1e-4` up to below `1e16`, and every number shows that
it is a double. -/
def datum : Layout :=
  { least := -4, greatest := 15, fraction := true, exponentWidth := 2, signedZero := true
    nan := "nan", infinity := "inf" }

def zeroes (n : Nat) : List Char := List.replicate n '0'

/-- The digits with the point after the first `point` of them, filled with zeros on either side. -/
def positional (l : Layout) (digits : List Char) (point : Int) : List Char :=
  if point ≤ 0 then '0' :: '.' :: zeroes (-point).toNat ++ digits
  else if digits.length ≤ point.toNat then
    digits ++ zeroes (point.toNat - digits.length) ++ (if l.fraction then ['.', '0'] else [])
  else digits.take point.toNat ++ '.' :: digits.drop point.toNat

/-- The first digit, a point before the others if there are any, and the exponent with its sign. -/
def scientific (l : Layout) (digits : List Char) (exponent : Int) : List Char :=
  let size := Nat.toDigits 10 exponent.natAbs
  let mantissa := match digits with
    | first :: second :: rest => first :: '.' :: second :: rest
    | _ => digits
  mantissa ++ 'e' :: (if exponent < 0 then '-' else '+') ::
    zeroes (l.exponentWidth - size.length) ++ size

/-- A positive decimal. -/
def decimal (l : Layout) (d : Decimal) : List Char :=
  let digits := Nat.toDigits 10 d.digits
  let exponent := digits.length + d.exponent - 1
  if l.least ≤ exponent && exponent ≤ l.greatest then l.positional digits (exponent + 1)
  else l.scientific digits exponent

def write (l : Layout) (x : Float) : String :=
  let sign := if Double.isNegative x then "-" else ""
  match Double.read x with
  | .nan => l.nan
  | .infinite _ => sign ++ l.infinity
  | .finite _ m _ =>
    if m = 0 then
      (if l.signedZero then sign else "") ++ (if l.fraction then "0.0" else "0")
    else
      match Decimal.shortest? x with
      | some d => sign ++ String.ofList (l.decimal d)
      | none => l.nan

end Layout

end QuadScript
