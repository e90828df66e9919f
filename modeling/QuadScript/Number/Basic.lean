import QuadScript.Fault
import QuadScript.Number.Double

/-!
# Numbers

A number is an exact integer or a double. Integers of at most `2 ^ 53` stay exact; `collapse` turns
larger ones into the doubles they stand for. Order and equality are exact, also between an integer
and a double; arithmetic between the two first rounds the integer to a double, which is a fault
where no double is near enough.
-/

namespace QuadScript

inductive Number
  | int (n : Int)
  | float (x : Float)
deriving DecidableEq

namespace Number

def nan : Number := .float Double.nan

def infinity (negative : Bool) : Number :=
  .float (if negative then -Double.infinity else Double.infinity)

/-- The greatest magnitude up to which every integer is a double. -/
def exactLimit : Nat := Nat.pow 2 53

def isNaN : Number → Bool
  | .int _ => false
  | .float x => x.isNaN

/-- An integer beyond the exact ones as the double it stands for. -/
def collapse : Number → Number
  | .int n => if n.natAbs ≤ exactLimit then .int n else .float (Double.ofInt n)
  | .float x => .float x

def toFloat : Number → Except Fault Float
  | .int n =>
    let x := Double.ofInt n
    if x.isInf then .error .integerTooLarge else .ok x
  | .float x => .ok x

/-! ### Order -/

/-- A point on the line of the rationals with both infinities. -/
inductive Extended
  | lowest
  | rational (q : Rat)
  | highest
deriving DecidableEq

def Extended.compare : Extended → Extended → Ordering
  | .lowest, .lowest => .eq
  | .lowest, _ => .lt
  | _, .lowest => .gt
  | .highest, .highest => .eq
  | .highest, _ => .gt
  | _, .highest => .lt
  | .rational p, .rational q => if p < q then .lt else if p = q then .eq else .gt

/-- Where a number lies; NaN lies nowhere. -/
def extended? : Number → Option Extended
  | .int n => some (.rational n)
  | .float x =>
    match Double.read x with
    | .nan => none
    | .infinite negative => some (if negative then .lowest else .highest)
    | .finite .. => (Double.value? x).map .rational

/-- The order of two numbers, unless one of them is NaN. -/
def compare? : Number → Number → Option Ordering
  | .int a, .int b => some (compare a b)
  | a, b =>
    match a.extended?, b.extended? with
    | some p, some q => some (p.compare q)
    | _, _ => none

def eq (a b : Number) : Bool := compare? a b == some .eq
def lt (a b : Number) : Bool := compare? a b == some .lt
def gt (a b : Number) : Bool := compare? a b == some .gt
def le (a b : Number) : Bool := lt a b || eq a b
def ge (a b : Number) : Bool := gt a b || eq a b

def isZero (a : Number) : Bool := eq a (.int 0)

/-- Whether a number is infinite; asking that of an integer beyond the doubles is a fault. -/
def isInfinite (a : Number) : Except Fault Bool := return (← a.toFloat).isInf

/-- Whether a number is finite; asking that of an integer beyond the doubles is a fault. -/
def isFinite (a : Number) : Except Fault Bool := return (← a.toFloat).isFinite

/-! ### Arithmetic -/

def neg : Number → Number
  | .int n => .int (-n)
  | .float x => .float (-x)

def add : Number → Number → Except Fault Number
  | .int a, .int b => .ok (.int (a + b))
  | a, b => return .float ((← a.toFloat) + (← b.toFloat))

def sub : Number → Number → Except Fault Number
  | .int a, .int b => .ok (.int (a - b))
  | a, b => return .float ((← a.toFloat) - (← b.toFloat))

def mul : Number → Number → Except Fault Number
  | .int a, .int b => .ok (.int (a * b))
  | a, b => return .float ((← a.toFloat) * (← b.toFloat))

/-- The double nearest to the quotient of two integers. A zero takes the sign of the divisor. -/
def quotient (a b : Int) : Except Fault Number :=
  let x := Double.ofRatio (decide (a < 0) != decide (b < 0)) a.natAbs b.natAbs
  if x.isInf then .error .quotientTooLarge else .ok (.float x)

/-- Whether a number has a minus sign, a negative zero included. -/
def isNegative (a : Number) : Except Fault Bool := return Double.isNegative (← a.toFloat)

/-- Division. A zero divisor gives NaN for zero and NaN, otherwise an infinity with the sign of
the two signs together. -/
def div (a b : Number) : Except Fault Number := do
  if b.isZero then
    if a.isZero || a.isNaN then return nan
    else return infinity ((← a.isNegative) != (← b.isNegative))
  else
    match a, b with
    | .int m, .int n => quotient m n
    | _, _ => return .float ((← a.toFloat) / (← b.toFloat))

/-- The remainder of the division that rounds toward zero, found on doubles. That of two integers
is an integer. -/
def rem (a b : Number) : Except Fault Number := do
  if b.isZero || a.isNaN || b.isNaN then return nan
  else if ← a.isInfinite then return nan
  else if ← b.isInfinite then return a
  else
    let r := Double.rem (← a.toFloat) (← b.toFloat)
    match a, b with
    | .int _, .int _ => return .int ((Double.truncate? r).getD 0)
    | _, _ => return .float r

/-- Whether a number is an odd integer; a fault for an integer beyond the doubles. -/
def isOdd (a : Number) : Except Fault Bool := do
  let x ← a.toFloat
  match a with
  | .int n => return n % 2 = 1
  | .float _ => return Double.isOdd x

/-- A power beyond the doubles: negative if the base is negative and the exponent odd, which the
exact exponent decides and not the double it was rounded to. -/
def powTooLarge (a b : Number) : Except Fault Number :=
  return infinity (a.lt (.int 0) && (← b.isOdd))

/-- A power found on doubles. A base beyond the doubles has a power beyond them. -/
def powFloat (a b : Number) : Except Fault Number := do
  let y ← b.toFloat
  match a.toFloat with
  | .error _ => powTooLarge a b
  | .ok x =>
    let r := Double.pow x y
    if r.isInf && x.isFinite && x != 0.0 && y.isFinite then powTooLarge a b else return .float r

/-- An exponent of this magnitude is the last that an integer is raised to exactly. -/
def exactExponent : Nat := 1100

/-- Powers. An integer to a natural exponent is exact, unless the exponent is very large. -/
def pow (a b : Number) : Except Fault Number := do
  match a, b with
  | .int m, .int n =>
    if exactExponent < n.natAbs then powFloat (.float (← a.toFloat)) b
    else if 0 ≤ n then return .int (Int.pow m n.toNat)
    else powFloat a b
  | _, _ => powFloat a b

/-- The integer part of a number, toward zero; NaN and the infinities have none and count as
zero. -/
def truncate (a : Number) : Except Fault Int := do
  let x ← a.toFloat
  match a with
  | .int n => return n
  | .float _ => return (Double.truncate? x).getD 0

end Number

end QuadScript
