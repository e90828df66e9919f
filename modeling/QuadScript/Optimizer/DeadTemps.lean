import QuadScript.Quad.Basic

/-!
# Dead temporaries

An instruction whose result is a temporary that no operand mentions is dropped. A call stays, since
it does more than give a result.
-/

namespace QuadScript

namespace Quad

/-- The temporaries among the operands of an instruction. -/
def usedTemps (q : Quad) : List String := q.arg1.temp?.toList ++ q.arg2.temp?.toList

/-- Whether an instruction is needed in code that uses these temporaries. -/
def isLive (used : List String) (q : Quad) : Bool :=
  q.op = .call ||
    match q.result.temp? with
    | some s => used.contains s
    | none => true

end Quad

namespace Code

def usedTemps (code : Code) : List String := code.flatMap Quad.usedTemps

/-- `dead_code_elimination`: the code without unused temporaries, and whether anything was dropped. -/
def dropDead (code : Code) : Code × Bool :=
  let kept := code.filter (Quad.isLive code.usedTemps)
  (kept, kept.length ≠ code.length)

end Code

end QuadScript
