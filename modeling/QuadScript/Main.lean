import QuadScript.Pipeline
import QuadScript.Tree.Json

/-!
# Command line

Compiles and runs the program tree in a file, with the lines of standard input as the answers to its
prompts; without a file the tree itself is read from standard input, and nobody is asked.
-/

open QuadScript

/-- What the command line prints for the text of a tree. -/
def commandOutput (text : String) (answers : Option (List String)) : Except String (List String) :=
  match Tree.ofJson? text with
  | none => .error "the input is no program tree"
  | some tree =>
    match compile tree { provider := answers.map fun lines => lines.map .str } with
    | .ok c => .ok c.lines
    | .error f => .error f.message

def main (args : List String) : IO UInt32 := do
  let input ← (← IO.getStdin).readToEnd
  let output ← match args with
    | path :: _ => pure (commandOutput (← IO.FS.readFile path) (some (input.splitOn "\n")))
    | [] => pure (commandOutput input none)
  match output with
  | .ok lines =>
    for line in lines do IO.println line
    return 0
  | .error message =>
    IO.eprintln message
    return 1
