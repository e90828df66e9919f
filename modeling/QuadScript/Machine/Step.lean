import QuadScript.Machine.Intrinsic

/-!
# One step of the machine

`Machine.step` executes one instruction. A failing instruction gives its fault and the machine as it
left it: what it did before it failed stays done.
-/

namespace QuadScript

/-- `CONSOLE_PREFIXES`: the text before a line of the console, for the calls that print one. -/
def consoleLead? (target : String) : Option String :=
  match target with
  | "console_log" => some ""
  | "console_info" => some ""
  | "console_debug" => some ""
  | "console_warn" => some "[WARN] "
  | "console_error" => some "[ERROR] "
  | _ => none

/-- A fault in an instruction, and the machine as the instruction left it. -/
structure Failure where
  fault : Fault
  machine : Machine

namespace Machine

def next (m : Machine) : Machine := { m with pc := m.pc + 1 }

/-- A fault with the machine as it is. -/
def fail {α : Type} (m : Machine) (fault : Fault) : Except Failure α := .error ⟨fault, m⟩

/-- A value written to the target of the instruction at this place. -/
def write (m : Machine) (place : Nat) (target : Target) (v : Value) : Except Failure Machine :=
  match target.key place with
  | .ok k => .ok { m with memory := m.memory.setKey k v }
  | .error fault => m.fail fault

/-- The result of a call is kept only if there is a name for it. -/
def store (m : Machine) (place : Nat) (target : Target) (v : Value) : Except Failure Machine :=
  if target.truthy then m.write place target v else .ok m

/-- `resolve`, in the memory of the machine. -/
def resolve (m : Machine) (a : Operand) : Except Failure Value :=
  match m.memory.resolve a with
  | .ok v => .ok v
  | .error fault => m.fail fault

/-- `call`, of an intrinsic. The arguments are taken before it runs. -/
def callIntrinsic (m : Machine) (f : Intrinsic) (q : Quad) : Except Failure Machine :=
  match argumentCount m.params.length q.arg2 with
  | .error fault => m.fail fault
  | .ok count =>
    let args := m.params.take count
    let m := { m with params := m.params.drop count }
    match f.eval args m.answers with
    | .error fault => m.fail fault
    | .ok (v, answers) => return (← ({ m with answers := answers }).store m.pc q.result v).next

/-- `call`, of code: the frame remembers where to go on. -/
def enter (m : Machine) (q : Quad) (position : Nat) : Machine :=
  { m with pc := position, stack := ⟨m.pc + 1, q.result, m.memory⟩ :: m.stack }

/-- `call`, of the console: a line with all waiting arguments. -/
def printLine (m : Machine) (lead : String) : Machine :=
  let line := lead ++ " ".intercalate (m.params.map Value.toText)
  { m with params := [], output := m.output ++ [line] }

/-- A call of the target of that spelling: the console comes first, then code, then intrinsics. -/
def callNamed (m : Machine) (labels : Labels) (q : Quad) (target : String) :
    Except Failure Machine :=
  match consoleLead? target with
  | some lead => .ok (m.printLine lead).next
  | none =>
    match labels.get? (.text target) with
    | some position => .ok (m.enter q position)
    | none =>
      match Intrinsic.ofTarget? target with
      | some f => m.callIntrinsic f q
      | none =>
        let name := if functionMark.toList.isPrefixOf target.toList
          then String.ofList (target.toList.drop functionMark.length) else target
        m.fail (.undefinedFunction name)

/-- `call`. A target that is no text can only be a label. -/
def call (m : Machine) (labels : Labels) (q : Quad) : Except Failure Machine :=
  match q.arg1 with
  | .name s => m.callNamed labels q s
  | .text s => m.callNamed labels q (quoteSymbol s)
  | a =>
    match Key.ofTree m.pc a.toTree with
    | .error fault => m.fail fault
    | .ok k =>
      match labels.getKey? k with
      | some position => .ok (m.enter q position)
      | none => m.fail (.notCallable a.toTree.shape)

/-- `do_return`. Arguments that were not received are dropped, and a return outside of a call ends
the run. The target of the call stands right before the place that is returned to. -/
def leave (m : Machine) (code : Code) (v : Value) : Except Failure Machine :=
  let m := { m with params := [] }
  match m.stack with
  | [] => .ok { m with pc := code.length }
  | frame :: rest =>
    ({ m with stack := rest, pc := frame.returnIndex }).store (frame.returnIndex - 1) frame.target v

/-- A jump. Code that is run has a label for every jump. -/
def jump (m : Machine) (labels : Labels) (target : Target) : Except Failure Machine :=
  match target.key m.pc with
  | .error fault => m.fail fault
  | .ok k =>
    match labels.getKey? k with
    | some position => .ok { m with pc := position }
    | none => m.fail (.undefinedLabel target.display)

/-- `step`: executes an instruction of the code with these labels. -/
def step (m : Machine) (code : Code) (labels : Labels) (q : Quad) :
    Except Failure Machine :=
  match q.op with
  | .assign => do
    let v ← m.resolve q.arg1
    return (← m.write m.pc q.result v).next
  | .operator op => do
    let a ← m.resolve q.arg1
    let b ← m.resolve q.arg2
    match op.eval a b with
    | .ok v => return (← m.write m.pc q.result v).next
    | .error fault => m.fail fault
  | .goto => m.jump labels q.result
  | .jumpIfFalse => do
    let v ← m.resolve q.arg1
    if v.truthy then return m.next else m.jump labels q.result
  | .param => do
    let v ← m.resolve q.arg1
    return ({ m with params := m.params ++ [v] }).next
  | .receive => do
    let v := m.params.head?.getD .undefined
    return (← ({ m with params := m.params.tail }).write m.pc q.result v).next
  | .call => m.call labels q
  | .ret => do
    let v ← m.resolve q.arg1
    m.leave code v
  | .label => .ok m.next
  | .unknown _ => .ok m.next

end Machine

end QuadScript
