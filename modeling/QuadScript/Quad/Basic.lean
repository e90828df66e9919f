import QuadScript.Quad.Target
import QuadScript.Value.Operator

/-!
# Quadruples

The instructions of the intermediate code: a code word, two operands, and the name that the result
goes to or that a label or a jump refers to. Every instruction knows its position in the listing.
-/

namespace QuadScript

/-- What an instruction does. A code word without a meaning does nothing. -/
inductive Op
  | assign
  | label
  | goto
  | jumpIfFalse
  | param
  | receive
  | call
  | ret
  | operator (op : Operator)
  | unknown (word : String)
deriving DecidableEq, Repr

namespace Op

def word : Op → String
  | .assign => "ASSIGN"
  | .label => "LABEL"
  | .goto => "GOTO"
  | .jumpIfFalse => "JUMP_IF_FALSE"
  | .param => "PARAM"
  | .receive => "PARAM_RECEIVE"
  | .call => "CALL"
  | .ret => "RETURN"
  | .operator op => op.code
  | .unknown word => word

def ofWord (s : String) : Op :=
  match s with
  | "ASSIGN" => .assign
  | "LABEL" => .label
  | "GOTO" => .goto
  | "JUMP_IF_FALSE" => .jumpIfFalse
  | "PARAM" => .param
  | "PARAM_RECEIVE" => .receive
  | "CALL" => .call
  | "RETURN" => .ret
  | _ =>
    match Operator.ofCode? s with
    | some op => .operator op
    | none => .unknown s

@[simp] theorem word_ofWord (s : String) : (ofWord s).word = s := by
  unfold ofWord
  split
  case h_9 =>
    split
    · next op h => exact Operator.code_of_ofCode? h
    · rfl
  all_goals rfl

end Op

structure Quad where
  op : Op
  arg1 : Operand := .none
  arg2 : Operand := .none
  result : Target := .none
  index : Int := 0

namespace Quad

/-- The line of a listing that shows an instruction. -/
def display (q : Quad) : String :=
  let a := q.arg1.display
  let b := q.arg2.display
  let r := q.result.display
  match q.op with
  | .label => s!"{r}:"
  | .goto => s!"goto {r}"
  | .jumpIfFalse => s!"ifFalse {a} goto {r}"
  | .assign => s!"{r} = {a}"
  | .param => s!"param {a}"
  | .receive => s!"receive {r}"
  | .call => if q.result.truthy then s!"{r} = call {a}, {b}" else s!"call {a}, {b}"
  | .ret => s!"return {a}"
  | .operator (.unary op) => s!"{r} = {op.code} {a}"
  | .operator (.binary op) => s!"{r} = {a} {op.code} {b}"
  | .unknown word => s!"{r} = {a} {word} {b}"

/-- An instruction as a record. -/
def toTree (q : Quad) : Tree :=
  .record [("index", .int q.index), ("op", .str q.op.word), ("arg1", q.arg1.toTree),
    ("arg2", q.arg2.toTree), ("result", q.result.toTree)]

end Quad

/-! ### Names that calls and functions use -/

/-- What stands before a function's name in the label of its code. -/
def functionMark : String := "FUNC_"

/-- What stands before a function's name in the label after its code. -/
def endMark : String := "END_FUNC_"

/-- What stands before a method of the console in the target of a call. -/
def consoleMark : String := "console_"

/-- A listing. -/
abbrev Code := List Quad

namespace Code

/-- The same instructions, each with its position as its index. -/
def renumber (code : Code) : Code := code.mapIdx fun i q => { q with index := i }

def display (code : Code) : List String := code.map Quad.display

end Code

end QuadScript
