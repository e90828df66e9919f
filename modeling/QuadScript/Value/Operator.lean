import QuadScript.Value.Basic

/-!
# Operators

The operators of the instruction set and what they do to values. An operator is known by its code,
the word that stands for it in an instruction.
-/

namespace QuadScript

inductive BinaryOp
  | add | sub | mul | div | rem | pow
  | bitAnd | bitOr | bitXor | shiftLeft | shiftRight | shiftRightZero
  | lt | gt | le | ge
  | looseEq | looseNe | strictEq | strictNe
deriving DecidableEq, Repr

inductive UnaryOp
  | neg | pos | not | bitNot | typeOf
deriving DecidableEq, Repr

inductive Operator
  | unary (op : UnaryOp)
  | binary (op : BinaryOp)
deriving DecidableEq, Repr

namespace BinaryOp

def code : BinaryOp → String
  | .add => "+"
  | .sub => "-"
  | .mul => "*"
  | .div => "/"
  | .rem => "%"
  | .pow => "**"
  | .bitAnd => "&"
  | .bitOr => "|"
  | .bitXor => "^"
  | .shiftLeft => "<<"
  | .shiftRight => ">>"
  | .shiftRightZero => ">>>"
  | .lt => "<"
  | .gt => ">"
  | .le => "<="
  | .ge => ">="
  | .looseEq => "EQ"
  | .looseNe => "NEQ"
  | .strictEq => "EQ_STRICT"
  | .strictNe => "NEQ_STRICT"

def all : List BinaryOp :=
  [.add, .sub, .mul, .div, .rem, .pow, .bitAnd, .bitOr, .bitXor, .shiftLeft, .shiftRight,
    .shiftRightZero, .lt, .gt, .le, .ge, .looseEq, .looseNe, .strictEq, .strictNe]

def ofCode? (s : String) : Option BinaryOp := all.find? fun op => op.code = s

/-- The code of a source operator: the equalities have codes of their own. -/
def codeOfSource (s : String) : String :=
  match s with
  | "==" => "EQ"
  | "!=" => "NEQ"
  | "===" => "EQ_STRICT"
  | "!==" => "NEQ_STRICT"
  | _ => s

def ofSource? (s : String) : Option BinaryOp := ofCode? (codeOfSource s)

/-- Two texts are ordered as texts, anything else as numbers; NaN is in no order. -/
def compare (a b : Value) (ofText : String → String → Bool) (ofNumber : Number → Number → Bool) :
    Bool :=
  match a, b with
  | .str s, .str t => ofText s t
  | _, _ => ofNumber a.toNumber b.toNumber

/-- A sum of numbers; with a text on either side, the two texts one after the other. -/
def evalAdd (a b : Value) : Except Fault Value :=
  match a, b with
  | .str s, _ => .ok (.str (s ++ b.toText))
  | _, .str t => .ok (.str (a.toText ++ t))
  | _, _ => return .num (← a.toNumber.add b.toNumber).collapse

/-- An operation on the signed 32-bit integers of two values. -/
def bitwise (f : Int → Int → Int) (a b : Value) : Except Fault Value :=
  return .num (.int (f (← a.toInt32) (← b.toInt32)))

/-- A bit operation on 32-bit vectors, on their signed readings. -/
def onBits (f : BitVec 32 → BitVec 32 → BitVec 32) (m n : Int) : Int :=
  (f (BitVec.ofInt 32 m) (BitVec.ofInt 32 n)).toInt

def eval (op : BinaryOp) (a b : Value) : Except Fault Value :=
  match op with
  | .add => evalAdd a b
  | .sub => return .num (← a.toNumber.sub b.toNumber).collapse
  | .mul => return .num (← a.toNumber.mul b.toNumber).collapse
  | .div => return .num (← a.toNumber.div b.toNumber)
  | .rem => return .num (← a.toNumber.rem b.toNumber)
  | .pow => return .num (← a.toNumber.pow b.toNumber).collapse
  | .bitAnd => bitwise (onBits (· &&& ·)) a b
  | .bitOr => bitwise (onBits (· ||| ·)) a b
  | .bitXor => bitwise (onBits (· ^^^ ·)) a b
  | .shiftLeft =>
    return .num (.int (((← a.toInt32) * Nat.pow 2 (← b.shiftCount)).bmod Value.wordCount))
  | .shiftRight => return .num (.int ((← a.toInt32) / Nat.pow 2 (← b.shiftCount)))
  | .shiftRightZero => return .num (.int ((← a.toUInt32) / Nat.pow 2 (← b.shiftCount) : Nat))
  | .lt => .ok (.bool (compare a b (· < ·) Number.lt))
  | .gt => .ok (.bool (compare a b (· > ·) Number.gt))
  | .le => .ok (.bool (compare a b (fun s t => !(t < s)) Number.le))
  | .ge => .ok (.bool (compare a b (fun s t => !(s < t)) Number.ge))
  | .looseEq => .ok (.bool (a.looseEq b))
  | .looseNe => .ok (.bool (!a.looseEq b))
  | .strictEq => .ok (.bool (a.strictEq b))
  | .strictNe => .ok (.bool (!a.strictEq b))

@[simp] theorem ofCode?_code (op : BinaryOp) : ofCode? op.code = some op := by
  cases op <;> decide

end BinaryOp

namespace UnaryOp

def code : UnaryOp → String
  | .neg => "NEG"
  | .pos => "POS"
  | .not => "NOT"
  | .bitNot => "BITNOT"
  | .typeOf => "TYPEOF"

def all : List UnaryOp := [.neg, .pos, .not, .bitNot, .typeOf]

def ofCode? (s : String) : Option UnaryOp := all.find? fun op => op.code = s

/-- The operator that a source operator stands for. -/
def ofSource? (s : String) : Option UnaryOp :=
  match s with
  | "-" => some .neg
  | "+" => some .pos
  | "!" => some .not
  | "~" => some .bitNot
  | "typeof" => some .typeOf
  | _ => none

def eval (op : UnaryOp) (a : Value) : Except Fault Value :=
  match op with
  | .neg => .ok (.num a.toNumber.neg)
  | .pos => .ok (.num a.toNumber)
  | .not => .ok (.bool (!a.truthy))
  | .bitNot => return .num (.int (-(← a.toInt32) - 1))
  | .typeOf => .ok (.str a.typeName)

@[simp] theorem ofCode?_code (op : UnaryOp) : ofCode? op.code = some op := by
  cases op <;> decide

end UnaryOp

namespace Operator

def code : Operator → String
  | .unary op => op.code
  | .binary op => op.code

def ofCode? (s : String) : Option Operator :=
  match UnaryOp.ofCode? s with
  | some op => some (.unary op)
  | none => (BinaryOp.ofCode? s).map .binary

/-- The value of an operator on its operands; a unary operator ignores the second. -/
def eval (op : Operator) (a b : Value) : Except Fault Value :=
  match op with
  | .unary op => op.eval a
  | .binary op => op.eval a b

/-- The value of the operator of that code; there being none is a fault. -/
def evalCode (s : String) (a b : Value) : Except Fault Value :=
  match ofCode? s with
  | some op => op.eval a b
  | none => .error (.missingKey s)

@[simp] theorem ofCode?_code (op : Operator) : ofCode? op.code = some op := by
  rcases op with op | op <;> cases op <;> decide

theorem code_of_ofCode? {s : String} {op : Operator} (h : ofCode? s = some op) : op.code = s := by
  unfold ofCode? at h
  split at h
  · next op' h' =>
    obtain rfl := Option.some.inj h
    simpa [code] using List.find?_some h'
  · obtain ⟨op', h', rfl⟩ := Option.map_eq_some_iff.1 h
    simpa [code] using List.find?_some h'

end Operator

end QuadScript
