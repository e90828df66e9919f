import QuadScript.Machine.Basic

/-!
# Intrinsic functions

The functions that the machine supplies: asking for an input, and reading a number from the start
of a text.
-/

namespace QuadScript

/-- The functions that the machine supplies. -/
inductive Intrinsic
  | prompt
  | parseInt
  | parseFloat
deriving DecidableEq, Repr

namespace Intrinsic

def ofTarget? (target : String) : Option Intrinsic :=
  match target with
  | "FUNC_prompt" => some .prompt
  | "FUNC_parseInt" => some .parseInt
  | "FUNC_parseFloat" => some .parseFloat
  | _ => none

/-- The integer that a text starts with, zero if there is none. -/
def readInt (text : String) : Except Fault Number :=
  match Numeral.leadingInteger? text.toList with
  | none => .ok (.int 0)
  | some i =>
    if Numeral.digitLimit < i.digits.length then .error (.tooManyDigits i.digits.length)
    else .ok (.int i.value)

/-- The decimal that a text starts with, NaN if there is none. -/
def readFloat (text : String) : Number :=
  let cs := text.toList
  if "Infinity".toList.isPrefixOf (Text.strip cs) then Number.infinity false
  else
    match Numeral.leadingDecimal? cs with
    | some x => .float x
    | none => Number.nan

/-- The result on the given arguments, and the answers that are left. -/
def eval (f : Intrinsic) (args : List Value) (answers : Answers) :
    Except Fault (Value × Answers) :=
  match f with
  | .prompt =>
    let message := match args with
      | v :: _ => v.toText
      | [] => "Enter a value:"
    match answers.next message with
    | (.null, answers) => .ok (.str "null", answers)
    | (v, answers) => .ok (v, answers)
  | .parseInt =>
    match args with
    | v :: _ => return (.num (← readInt v.toText), answers)
    | [] => .ok (.num (.int 0), answers)
  | .parseFloat =>
    match args with
    | v :: _ => .ok (.num (readFloat v.toText), answers)
    | [] => .ok (.num Number.nan, answers)

end Intrinsic

/-- How many of the waiting arguments an intrinsic call takes: as many as its count says, and no
more than there are. A missing or empty count is zero. -/
def argumentCount (waiting : Nat) : Operand → Except Fault Nat
  | .none => .ok 0
  | .bool b => .ok (min b.toNat waiting)
  | .num (.int n) => .ok (min n.toNat waiting)
  | .num (.float x) =>
    let n := Number.float x
    if n.isZero then .ok 0
    else if n.gt (.int waiting) then .ok waiting
    else .error (.notACount .float)
  | .text _ => .error (.notOrdered .text)
  | .name s => if s = "" then .ok 0 else .error (.notOrdered .text)
  | .raw t => if t.truthy then .error (.notOrdered t.shape) else .ok 0

end QuadScript
