import QuadScript.Value.Basic

/-!
# Operands

The operand of an instruction is a literal, a name, or nothing. In rows a literal text stands
between double quotes, so that it is never taken for a name; `Operand.ofTree` and `Operand.toTree`
go from that spelling to operands and back.

Names come from the program, except for temporaries `t0`, `t1`, …, which hold intermediate results.
A name of the program that looks like a temporary is mangled.
-/

namespace QuadScript

inductive Operand
  | none
  | bool (b : Bool)
  | num (n : Number)
  /-- A literal text. -/
  | text (s : String)
  /-- A name, of a variable, a temporary, a label or a function. -/
  | name (s : String)
  /-- Any other raw data; no value can be read from a list or a record. -/
  | raw (data : Tree)

/-- Whether a name is that of a temporary: the letter `t` and then decimal digits. -/
def isTempName (s : String) : Bool :=
  match s.toList with
  | 't' :: c :: cs => (c :: cs).all Text.isDecimal
  | _ => false

/-- The name in generated code of a variable of the program. -/
def mangle (s : String) : String := if isTempName s then "@" ++ s else s

/-- A text between double quotes. -/
def quoteSymbol (s : String) : String := "\"" ++ s ++ "\""

/-- The text between two double quotes, if both are there. -/
def unquoteSymbol? (s : String) : Option String :=
  match s.toList with
  | '"' :: c :: cs => if (c :: cs).getLast? = some '"' then some (String.ofList (c :: cs).dropLast)
    else Option.none
  | _ => Option.none

namespace Operand

instance : Inhabited Operand := ⟨.none⟩

/-- The operand that a text in a row stands for. -/
def ofSymbol (s : String) : Operand :=
  match unquoteSymbol? s with
  | some t => .text t
  | Option.none => .name s

/-- The operand of raw data. -/
def ofTree : Tree → Operand
  | .null => .none
  | .bool b => .bool b
  | .num n => .num n
  | .str s => ofSymbol s
  | t => .raw t

/-- How a row spells an operand. -/
def toTree : Operand → Tree
  | .none => .null
  | .bool b => .bool b
  | .num n => .num n
  | .text s => .str (quoteSymbol s)
  | .name s => .str s
  | .raw t => t

/-- Whether an operand is a constant: a number, a truth value or a literal text. -/
def isLiteral : Operand → Bool
  | .bool _ => true
  | .num _ => true
  | .text _ => true
  | _ => false

/-- The value of a constant. -/
def literal? : Operand → Option Value
  | .bool b => some (.bool b)
  | .num n => some (.num n)
  | .text s => some (.str s)
  | _ => Option.none

/-- The constant of a value, if it has one: a text, a truth value or a finite number. -/
def ofValue? : Value → Except Fault (Option Operand)
  | .str s => .ok (some (.text s))
  | .bool b => .ok (some (.bool b))
  | .num n => return if ← n.isFinite then some (.num n) else Option.none
  | _ => .ok Option.none

/-- The temporary that an operand names. -/
def temp? : Operand → Option String
  | .name s => if isTempName s then some s else Option.none
  | _ => Option.none

/-- Whether an operand is a number equal to this one. -/
def isConst (n : Number) : Operand → Bool
  | .num m => m.eq n
  | _ => false

/-- How listings show an operand. -/
def display : Operand → String
  | .none => ""
  | .bool b => (Value.bool b).toText
  | .num n => (Value.num n).toText
  | .text s => quoteSymbol s
  | .name s => s
  | .raw t => t.text

end Operand

end QuadScript
