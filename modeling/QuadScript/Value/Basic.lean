import QuadScript.Number.Numeral
import QuadScript.Tree.Text

/-!
# Values

The values that programs compute with, and the conversions between them. Besides the scalars there
are objects, which only come in as inputs: a program can hold and print them but not look inside, so
an object is its identity and the raw data it was made from.
-/

namespace QuadScript

inductive Value
  | undefined
  | null
  | bool (b : Bool)
  | num (n : Number)
  | str (s : String)
  | object (id : Nat) (data : Tree)

namespace Value

def isNumber : Value → Bool
  | .num _ => true
  | _ => false

def isNaN : Value → Bool
  | .num n => n.isNaN
  | _ => false

def isNullish : Value → Bool
  | .undefined => true
  | .null => true
  | _ => false

/-- A number beyond the exact integers as the double it stands for; any other value as it is. -/
def collapse : Value → Value
  | .num n => .num n.collapse
  | v => v

/-- Whether a value counts as true: undefined, null, false, zero, NaN and the empty text do not. -/
def truthy : Value → Bool
  | .undefined => false
  | .null => false
  | .bool b => b
  | .num n => !(n.isNaN || n.isZero)
  | .str s => s ≠ ""
  | .object .. => true

/-- The number after `0x`, in base sixteen. -/
def hexNumber (cs : List Char) : Number :=
  match Numeral.hexadecimal? cs with
  | some n => Number.collapse (.int n)
  | none => Number.nan

/-- A number in base ten; one with too many digits is NaN. -/
def intNumber (cs : List Char) : Number :=
  match Numeral.integer? cs with
  | some i => if Numeral.digitLimit < i.digits.length then .nan else Number.collapse (.int i.value)
  | none => Number.nan

def floatNumber (cs : List Char) : Number :=
  match Numeral.decimal? cs with
  | some x => .float x
  | none => Number.nan

/-- The number that a text without white space at its ends denotes. A point or the letter `e`
anywhere makes it a decimal, so that a hexadecimal numeral with that digit is none. -/
def plainNumber (cs : List Char) : Number :=
  if cs = [] then .int 0
  else if cs = "Infinity".toList || cs = "+Infinity".toList then Number.infinity false
  else if cs = "-Infinity".toList then Number.infinity true
  else if cs.any fun c => c = '.' || Numeral.isExponentMark c then floatNumber cs
  else
    match cs with
    | '0' :: 'x' :: rest => hexNumber rest
    | '0' :: 'X' :: rest => hexNumber rest
    | _ => intNumber cs

/-- The number that a value stands for; NaN where it stands for none. -/
def toNumber : Value → Number
  | .undefined => Number.nan
  | .null => .int 0
  | .bool b => .int b.toNat
  | .num n => n
  | .str s => plainNumber (Text.strip s.toList)
  | .object .. => Number.nan

/-- A number as programs see it. -/
def numberText (n : Number) : String :=
  match n.collapse with
  | .int n => toString n
  | .float x => Layout.script.write x

def toText : Value → String
  | .undefined => "undefined"
  | .null => "null"
  | .bool b => if b then "true" else "false"
  | .num n => numberText n
  | .str s => s
  | .object _ data => data.text

def typeName : Value → String
  | .undefined => "undefined"
  | .null => "object"
  | .bool _ => "boolean"
  | .num _ => "number"
  | .str _ => "string"
  | .object .. => "object"

/-! ### Equality -/

/-- Equality after conversion, of values that are neither nullish nor truth values. -/
def plainEq : Value → Value → Bool
  | .str s, .str t => s = t
  | .num m, b => m.eq b.toNumber
  | a, .num n => a.toNumber.eq n
  | .object i _, .object j _ => i = j
  | _, _ => false

/-- A truth value as its number; any other value as it is. -/
def unbool : Value → Value
  | .bool b => .num (.int b.toNat)
  | v => v

/-- Equality after conversion: nullish values equal each other and nothing else, and truth values
and texts are compared with numbers as numbers. -/
def looseEq (a b : Value) : Bool :=
  if a.isNullish || b.isNullish then a.isNullish && b.isNullish
  else plainEq a.unbool b.unbool

/-- Equality without conversion. -/
def strictEq : Value → Value → Bool
  | .undefined, .undefined => true
  | .null, .null => true
  | .bool a, .bool b => a = b
  | .num m, .num n => m.eq n
  | .str s, .str t => s = t
  | .object i _, .object j _ => i = j
  | _, _ => false

/-! ### 32-bit integers -/

/-- The number of 32-bit words. -/
def wordCount : Nat := Nat.pow 2 32

/-- The signed 32-bit integer a value stands for. -/
def toInt32 (v : Value) : Except Fault Int := return (← v.toNumber.truncate).bmod wordCount

/-- The unsigned 32-bit integer a value stands for. -/
def toUInt32 (v : Value) : Except Fault Nat := return ((← v.toInt32) % wordCount).toNat

/-- How far a shift moves: the value modulo 32. -/
def shiftCount (v : Value) : Except Fault Nat := return (← v.toUInt32) % 32

/-! ### Raw data -/

/-- The value of raw data; a list or a record becomes an object of identity `id`. -/
def ofTree (id : Nat) : Tree → Value
  | .null => .null
  | .undefined => .undefined
  | .bool b => .bool b
  | .num n => .num n
  | .str s => .str s
  | t => .object id t

def toTree : Value → Tree
  | .undefined => .undefined
  | .null => .null
  | .bool b => .bool b
  | .num n => .num n
  | .str s => .str s
  | .object _ data => data

end Value

end QuadScript
