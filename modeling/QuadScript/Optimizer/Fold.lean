import QuadScript.Quad.Basic

/-!
# Constant folding

An operator instruction becomes an assignment where its result is known beforehand: an operator on
constants is evaluated, unless it divides by zero or the result has no constant, and adding zero or
multiplying by one or zero is simplified whatever the other operand is.
-/

namespace QuadScript

namespace BinaryOp

def divides : BinaryOp → Bool
  | .div => true
  | .rem => true
  | _ => false

end BinaryOp

namespace Operator

/-- The constant that an operator gives on constant operands. -/
def constant? (op : Operator) (a b : Operand) : Except Fault (Option Operand) :=
  match op, a.literal?, b.literal? with
  | .unary op, some x, _ => do Operand.ofValue? (← op.eval x)
  | .binary op, some x, some y =>
    if op.divides && y.toNumber.isZero then .ok none
    else do Operand.ofValue? (← op.eval x y)
  | _, _, _ => .ok none

/-- The operand that an operator gives by its second operand alone. -/
def simplified? (op : Operator) (a b : Operand) : Option Operand :=
  match op with
  | .binary .add => if b.isConst (.int 0) then some a else none
  | .binary .mul =>
    if b.isConst (.int 1) then some a
    else if b.isConst (.int 0) then some (.num (.int 0))
    else none
  | _ => none

/-- The operand that an operator's result is known to be. -/
def folded? (op : Operator) (a b : Operand) : Except Fault (Option Operand) := do
  match ← op.constant? a b with
  | some c => return some c
  | none => return op.simplified? a b

end Operator

namespace Quad

/-- `fold`: the assignment that an instruction becomes, if its result is known. -/
def fold? (q : Quad) : Except Fault (Option Quad) :=
  match q.op with
  | .operator op =>
    return (← op.folded? q.arg1 q.arg2).map fun a =>
      { op := .assign, arg1 := a, result := q.result, index := q.index }
  | _ => .ok none

end Quad

namespace Code

/-- `fold_constants`: the code with every known result folded, and whether anything changed. -/
def fold : Code → Except Fault (Code × Bool)
  | [] => .ok ([], false)
  | q :: rest => do
    let q' ← q.fold?
    let (rest, changed) ← fold rest
    return (q'.getD q :: rest, q'.isSome || changed)

end Code

end QuadScript
