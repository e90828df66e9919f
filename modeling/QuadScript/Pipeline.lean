import QuadScript.Analysis.Report
import QuadScript.Lower.Basic
import QuadScript.Machine.Run
import QuadScript.Node.OfTree
import QuadScript.Optimizer.Basic

/-!
# The pipeline

A program is analysed, lowered, optimized and run. What the analysis finds is advice and stops
nothing, unless the analysis itself failed.
-/

namespace QuadScript

structure Options where
  /-- The inputs that prompts are answered with, in any form that can be looped over; with null
  they are answered by whoever is asked. -/
  inputs : Tree := .null
  /-- The answers of someone who is asked. -/
  provider : Option (List Tree) := none
  optimize : Bool := true
  maxSteps : Int := Machine.defaultSteps
  maxPasses : Int := Code.defaultPasses

/-- The values of a list of inputs; each list or record among them is an object of its own. -/
def inputValues (inputs : List Tree) : List Value := inputs.mapIdx Value.ofTree

def Options.answers (o : Options) : Except Fault Answers :=
  match o.inputs, o.provider with
  | .null, some answers => .ok (.asking (inputValues answers) [])
  | .null, none => .ok .nobody
  | inputs, _ => return .scripted (inputValues (← inputs.items))

structure Compilation where
  analysis : Analysis
  report : String
  code : Code := []
  optimized : Code := []
  warnings : List String := []
  output : List String := []
  /-- The messages that were asked. -/
  asked : List String := []

/-- A program through the whole pipeline. -/
def compile (tree : Tree) (o : Options) : Except Fault Compilation := do
  let program := Node.ofTree tree
  let analysis := program.analyze
  let report ← analysis.report
  if analysis.isFatal then return { analysis := analysis, report := report }
  let lowered ← program.lower
  let code := lowered.code
  let optimized ← if o.optimize then code.optimize o.maxPasses else pure code
  let machine := Machine.run optimized o.maxSteps (← o.answers)
  return { analysis := analysis, report := report, code := code, optimized := optimized
           warnings := lowered.supply.warnings, output := machine.output
           asked := machine.answers.asked }

/-! ### What is shown of a compilation -/

/-- A diagnostic in one line. -/
def Diagnostic.line (d : Diagnostic) : String :=
  let line := d.place.position.line.text
  let column := d.place.position.column.text
  s!"{d.severity.word} [{line}:{column}] " ++ d.message

/-- An instruction with its position, which is filled with blanks up to four places. -/
def Quad.line (q : Quad) : String :=
  let index := toString q.index
  String.ofList (List.replicate (4 - index.length) ' ') ++ index ++ "  " ++ q.display

/-- The errors, the warnings, the optimized code and the output. -/
def Compilation.lines (c : Compilation) : List String :=
  (c.analysis.errors ++ c.analysis.warnings).map Diagnostic.line ++ c.optimized.map Quad.line ++
    c.output

end QuadScript
