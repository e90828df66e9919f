import QuadScript.Text.Blank
import QuadScript.Text.Digit
import QuadScript.Number.Double

/-!
# Numerals

Reading numbers from text. A whole text is read by `integer?`, `hexadecimal?` and `decimal?`, which
allow single underscores between digits; the number at the start of a text is read by
`leadingInteger?` and `leadingDecimal?`, which ignore what follows it. Digits may be of any script.
-/

namespace QuadScript.Numeral

/-- An integer numeral has at most this many digits, leading zeros included. -/
def digitLimit : Nat := 4300

/-- The values of digits that single underscores may separate; all of the text has to be read, and
there is at least one digit. -/
def separated? (value? : Char → Option Nat) : List Char → Option (List Nat)
  | [] => none
  | [c] => (value? c).map fun d => [d]
  | c :: '_' :: cs => do return (← value? c) :: (← separated? value? cs)
  | c :: cs => do return (← value? c) :: (← separated? value? cs)

/-- Whether the text starts with a minus sign, and the text after its sign if it has one. -/
def sign : List Char → Bool × List Char
  | '-' :: cs => (true, cs)
  | '+' :: cs => (false, cs)
  | cs => (false, cs)

/-- A sign and the values of some digits. -/
structure Integer where
  negative : Bool
  digits : List Nat
deriving DecidableEq, Repr

def Integer.value (i : Integer) : Int :=
  let n : Int := Text.ofDigits 10 i.digits
  if i.negative then -n else n

/-- A text that is an integer, with an optional sign. -/
def integer? (cs : List Char) : Option Integer :=
  let (negative, cs) := sign cs
  (separated? Text.decimal? cs).map fun digits => ⟨negative, digits⟩

/-- The number that hexadecimal digits denote; one underscore may stand before them. -/
def hexadecimal? (cs : List Char) : Option Nat :=
  let cs := match cs with
    | '_' :: rest => rest
    | _ => cs
  (separated? Text.hexadecimal? cs).map (Text.ofDigits 16)

/-- The decimal of the given whole and fractional digits with an exponent. -/
def assemble (negative : Bool) (whole fraction : List Nat) (exponent : Int) : Float :=
  Double.ofDecimal negative (Text.ofDigits 10 (whole ++ fraction)) (exponent - fraction.length)

/-- Digits, or nothing at all. -/
def digits? : List Char → Option (List Nat)
  | [] => some []
  | cs => separated? Text.decimal? cs

def isExponentMark (c : Char) : Bool := c = 'e' || c = 'E'

/-- The exponent that the text after the digits gives: zero if there is no text, otherwise a mark
and an integer. -/
def exponent? : List Char → Option Int
  | [] => some 0
  | _ :: cs => (integer? cs).map Integer.value

/-- The fraction that the text after the whole digits gives: none if there is no text, otherwise a
point and digits. -/
def fraction? : List Char → Option (List Nat)
  | [] => some []
  | _ :: cs => digits? cs

/-- A text that is a decimal: a sign, digits with a point somewhere, and an exponent; only the
digits may not be missing. -/
def decimal? (cs : List Char) : Option Float := do
  let (negative, cs) := sign cs
  let mantissa := cs.takeWhile (!isExponentMark ·)
  let whole ← digits? (mantissa.takeWhile (· ≠ '.'))
  let fraction ← fraction? (mantissa.dropWhile (· ≠ '.'))
  let exponent ← exponent? (cs.dropWhile (!isExponentMark ·))
  if whole = [] ∧ fraction = [] then none
  else some (assemble negative whole fraction exponent)

/-- The digits at the start of a text. -/
def leadingDigits (cs : List Char) : List Nat :=
  (cs.takeWhile Text.isDecimal).filterMap Text.decimal?

/-- The integer that a text starts with, after white space. -/
def leadingInteger? (cs : List Char) : Option Integer :=
  let (negative, cs) := sign (Text.stripLeft cs)
  match leadingDigits cs with
  | [] => none
  | digits => some ⟨negative, digits⟩

/-- The exponent that a text starts with; a mark without digits after it is no exponent. -/
def leadingExponent : List Char → Int
  | [] => 0
  | c :: cs =>
    if isExponentMark c then
      let (negative, cs) := sign cs
      Integer.value ⟨negative, leadingDigits cs⟩
    else 0

/-- The decimal that a text starts with, after white space. A point counts if there are digits
before it or after it. -/
def leadingDecimal? (cs : List Char) : Option Float :=
  let (negative, cs) := sign (Text.stripLeft cs)
  let whole := leadingDigits cs
  let rest := cs.dropWhile Text.isDecimal
  let (fraction, rest) := match rest with
    | '.' :: after => (leadingDigits after, after.dropWhile Text.isDecimal)
    | _ => ([], rest)
  if whole = [] ∧ fraction = [] then none
  else some (assemble negative whole fraction (leadingExponent rest))

end QuadScript.Numeral
