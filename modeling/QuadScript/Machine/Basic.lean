import QuadScript.Quad.Basic

/-!
# The machine

The machine executes code on one flat memory that all calls share: a called function that writes a
name of its caller overwrites it. A call keeps a snapshot of the memory in its frame, which is never
restored. Arguments wait in one queue until they are received.
-/

namespace QuadScript

/-- The memory; results may also be stored under no name. -/
abbrev Memory := Table Key Value

/-- Where the answers to prompts come from. -/
inductive Answers
  /-- A list of inputs that are used up in order. -/
  | scripted (pending : List Value)
  /-- Someone who is asked and gives these answers, and the messages asked so far. -/
  | asking (answers : List Value) (asked : List String)
  /-- Nobody. -/
  | nobody

namespace Answers

/-- The answer to a message, null if there is none, and the answers that are left. -/
def next (message : String) : Answers → Value × Answers
  | .scripted [] => (.null, .scripted [])
  | .scripted (v :: rest) => (v, .scripted rest)
  | .asking [] asked => (.null, .asking [] (asked ++ [message]))
  | .asking (v :: rest) asked => (v, .asking rest (asked ++ [message]))
  | .nobody => (.null, .nobody)

def pending : Answers → List Value
  | .scripted pending => pending
  | _ => []

def asked : Answers → List String
  | .asking _ asked => asked
  | _ => []

end Answers

structure Frame where
  returnIndex : Nat
  target : Target
  snapshot : Memory

structure Machine where
  pc : Nat := 0
  memory : Memory := ∅
  /-- The frames of the calls under way, the innermost first. -/
  stack : List Frame := []
  /-- The arguments that wait to be received, in order. -/
  params : List Value := []
  output : List String := []
  answers : Answers := .nobody

/-- The positions of labels. -/
abbrev Labels := Table Key Nat

namespace Code

/-- `map_labels`: the labels of code that starts at a position, and the fault of the first that is no key. Of
several labels of one name the last counts. -/
def labelsFrom (position : Nat) (labels : Labels) : Code → Labels × Option Fault
  | [] => (labels, none)
  | q :: rest =>
    if q.op = .label then
      match q.result.key position with
      | .ok k => labelsFrom (position + 1) (labels.setKey k position) rest
      | .error fault => (labels, some fault)
    else labelsFrom (position + 1) labels rest

/-- The positions of the labels. -/
def labels (code : Code) : Labels := (code.labelsFrom 0 ∅).1

/-- `check_jumps`: the fault of an instruction that jumps to none of the labels. -/
def jumpFault? (labels : Labels) (q : Quad) (position : Nat) : Option Fault :=
  if q.op = .goto || q.op = .jumpIfFalse then
    match q.result.key position with
    | .ok k =>
      if (labels.getKey? k).isSome then none else some (.undefinedLabel q.result.display)
    | .error fault => some fault
  else none

/-- What keeps code from being started: a label that is no key, else a jump to none of the
labels. -/
def linkFault? (code : Code) : Option Fault :=
  let (labels, fault) := code.labelsFrom 0 ∅
  fault.or (code.zipIdx.findSome? fun (q, position) => jumpFault? labels q position)

end Code

/-- `NAMED_CONSTANTS`: the values of the names that a program need not declare. -/
def namedConstant? (s : String) : Option Value :=
  match s with
  | "true" => some (.bool true)
  | "false" => some (.bool false)
  | "null" => some .null
  | "undefined" => some .undefined
  | "NaN" => some (.num Number.nan)
  | "Infinity" => some (.num (Number.infinity false))
  | _ => none

/-- The value of a name: what the memory holds, else what the name always stands for. -/
def Memory.read (memory : Memory) (s : String) : Value :=
  match memory.get? (.text s) with
  | some v => v
  | none => (namedConstant? s).getD .undefined

/-- `resolve`: the value of an operand. -/
def Memory.resolve (memory : Memory) : Operand → Except Fault Value
  | .none => .ok .undefined
  | .bool b => .ok (.bool b)
  | .num n => .ok (.num n)
  | .text s => .ok (.str s)
  | .name s => .ok (memory.read s)
  | .raw t => return (memory.getKey? (← Key.ofTree 0 t)).getD .undefined

end QuadScript
