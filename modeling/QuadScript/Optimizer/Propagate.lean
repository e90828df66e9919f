import QuadScript.Quad.Basic

/-!
# Constant propagation

One scan over the code replaces the names that are known to hold a constant. What is known of a
temporary lasts, since a temporary is assigned once. What is known of any other name is forgotten
where control may come from elsewhere or go to unknown code, and where the name is written again.
-/

namespace QuadScript

namespace Op

/-- One of the `BARRIERS`: a known value of a variable does not survive the instruction. -/
def isBarrier : Op → Bool
  | .label => true
  | .goto => true
  | .call => true
  | .ret => true
  | _ => false

/-- Whether the name in the result field is one that the instruction writes to. -/
def writes : Op → Bool
  | .label => false
  | .goto => false
  | .jumpIfFalse => false
  | _ => true

end Op

/-- The names that are known to hold a constant. -/
structure Facts where
  temps : Table String Operand := ∅
  names : Table Key Operand := ∅

namespace Facts

def known? (facts : Facts) (s : String) : Option Operand :=
  match facts.temps.get? s with
  | some a => some a
  | none => facts.names.get? (.text s)

/-- The constant that an operand is known to hold, and whether there is one. -/
def replace (facts : Facts) : Operand → Operand × Bool
  | .name s =>
    match facts.known? s with
    | some a => (a, true)
    | none => (.name s, false)
  | a => (a, false)

/-- The facts without those that do not survive an instruction. -/
def surviving (facts : Facts) (q : Quad) : Facts :=
  if q.op.isBarrier then { facts with names := ∅ } else facts

/-- The facts with one more: the target at this place holds a constant. -/
def learn (facts : Facts) (place : Nat) (target : Target) (a : Operand) : Except Fault Facts :=
  match target.temp? with
  | some s => .ok { facts with temps := facts.temps.set s a }
  | none => return { facts with names := facts.names.setKey (← target.key place) a }

/-- The facts without what is known of a target. Where nothing is known there is nothing to look
for, and the target may be anything. -/
def forget (facts : Facts) (place : Nat) (target : Target) : Except Fault Facts :=
  if target.isNone || facts.names.entries.isEmpty then .ok facts
  else return { facts with names := facts.names.eraseKey (← target.key place) }

/-- The facts after the instruction at this place, in which the known names are replaced already. -/
def after (facts : Facts) (place : Nat) (q : Quad) : Except Fault Facts :=
  let facts := facts.surviving q
  if q.op = .assign && q.arg1.isLiteral then facts.learn place q.result q.arg1
  else if q.op.writes then facts.forget place q.result
  else .ok facts

end Facts

namespace Quad

/-- An instruction with its known names replaced, and whether any was. The operands of a call are
its target and the number of its arguments, and stay. -/
def propagate (facts : Facts) (q : Quad) : Quad × Bool :=
  if q.op = .call then (q, false)
  else
    let (a, changed) := facts.replace q.arg1
    let (b, changed') := facts.replace q.arg2
    ({ q with arg1 := a, arg2 := b }, changed || changed')

end Quad

namespace Code

/-- Places are told by how many instructions follow. -/
def propagateFrom (facts : Facts) : Code → Except Fault (Code × Bool)
  | [] => .ok ([], false)
  | q :: rest => do
    let (q, changed) := q.propagate facts
    let (rest, changed') ← propagateFrom (← facts.after rest.length q) rest
    return (q :: rest, changed || changed')

/-- `propagate_constants`: the code with known names replaced by their constants, and whether anything changed. -/
def propagate (code : Code) : Except Fault (Code × Bool) := propagateFrom {} code

end Code

end QuadScript
