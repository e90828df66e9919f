import QuadScript.Machine.Step

/-!
# Runs

A run executes code until the end, a fault, or the ceiling on the number of executed instructions.
Before it starts, every jump has to go to some label. A fault is reported as a last line of output.
-/

namespace QuadScript

namespace Machine

/-- Executes the instruction at the current position; there is nothing to do at the end. -/
def advance (m : Machine) (code : Code) (labels : Labels) : Option (Except Failure Machine) :=
  code[m.pc]?.map (m.step code labels)

/-- How a run ended. -/
structure Outcome where
  machine : Machine
  fault : Option Fault := none

/-- The loop of `run`. It executes at most `fuel` instructions; needing one more is a fault that names the ceiling. -/
def runFor (code : Code) (labels : Labels) (ceiling : Int) : Nat → Machine → Outcome
  | fuel, m =>
    match m.advance code labels with
    | none => { machine := m }
    | some result =>
      match fuel with
      | 0 => { machine := m, fault := some (.stepLimit ceiling) }
      | fuel + 1 =>
        match result with
        | .ok m => runFor code labels ceiling fuel m
        | .error failure => { machine := failure.machine, fault := some failure.fault }

/-- The number of instructions unless another is asked for. -/
def defaultSteps : Int := 20000

/-- What stands before the text of a fault in the output. -/
def errorMark : String := "Execution error: "

def execute (code : Code) (maxSteps : Int) (answers : Answers) : Outcome :=
  let start : Machine := { answers := answers }
  match code.linkFault? with
  | some fault => { machine := start, fault := some fault }
  | none => runFor code code.labels maxSteps maxSteps.toNat start

/-- The machine after a run, with a fault as its last line of output. -/
def Outcome.report (o : Outcome) : Machine :=
  match o.fault with
  | none => o.machine
  | some fault =>
    { o.machine with output := o.machine.output ++ [errorMark ++ fault.message] }

def run (code : Code) (maxSteps : Int) (answers : Answers) : Machine :=
  (execute code maxSteps answers).report

end Machine

end QuadScript
