import QuadScript.Optimizer.DeadTemps
import QuadScript.Optimizer.Fold
import QuadScript.Optimizer.Propagate

/-!
# The optimizer

A pass propagates constants, folds, and drops dead temporaries. Passes are repeated until one
changes nothing or the allowed number is used up.
-/

namespace QuadScript.Code

/-- One pass, and whether it changed anything. -/
def pass (code : Code) : Except Fault (Code × Bool) := do
  let (code, propagated) ← code.propagate
  let (code, folded) ← code.fold
  let (code, dropped) := code.dropDead
  return (code, propagated || folded || dropped)

/-- The loop of `optimize_tac`: at most this many passes. -/
def passes : Nat → Code → Except Fault Code
  | 0, code => .ok code
  | n + 1, code => do
    let (code, changed) ← code.pass
    if changed then passes n code else return code

/-- The number of passes unless another is asked for. -/
def defaultPasses : Int := 10

def optimize (code : Code) (maxPasses : Int) : Except Fault Code :=
  return (← passes maxPasses.toNat code).renumber

end QuadScript.Code
