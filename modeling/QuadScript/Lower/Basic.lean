import QuadScript.Lower.Monad
import QuadScript.Node.Basic

/-!
# Lowering programs

`Node.lower` turns a program into code. A statement is code (`Lower.stmt`, the cases of `gen`); an expression
is code and the operand that then holds its value (`Lower.expr`, the cases of `gen_expr`). What has no code is
skipped with a warning.

The code of a function stands where the function is declared, between its two labels, and is jumped
over there. Inside it no loop of the surroundings can be left.
-/

namespace QuadScript

/-- The operand of what has no value. -/
def void : Operand := .name "undefined"

/-- The labels that the innermost loop continues and ends at. -/
structure Loop where
  next : String
  exit : String

namespace Lower

/-- The operand of a name of the program. What is no text stands for itself. -/
def nameOperand : Tree → Operand
  | .str s => .ofSymbol (mangle s)
  | t => .ofTree t

/-- Where a result with a name of the program goes. -/
def nameTarget : Tree → Target
  | .str s => .name (mangle s)
  | t => .ofTree t

def unsupportedText (kind : String) : String :=
  s!"Code generation for '{kind}' is not supported; skipped"

/-- `unsupported`: a node that is skipped. -/
def unsupported (mark : Mark) : Lower Unit := warn (unsupportedText mark.kindText)

/-- A warning on what may be no node at all. -/
def unsupportedNode (n : Node) : Lower Unit := do
  match ← lift n.mark? with
  | some mark => unsupported mark
  | none => warn (unsupportedText "None")

/-- `binary_op`; a list or a record cannot be an operator. -/
def binaryOp? : Tree → Except Fault (Option BinaryOp)
  | .str s => .ok (BinaryOp.ofSource? s)
  | t => if t.isName then .ok none else .error (.unhashable t.shape)

def unaryOp? : Tree → Except Fault (Option UnaryOp)
  | .str s => .ok (UnaryOp.ofSource? s)
  | t => if t.isName then .ok none else .error (.unhashable t.shape)

/-- `binary_op` of an assignment operator without its last character, which is the equals sign. -/
def compoundOp? : Tree → Except Fault (Option BinaryOp)
  | .str s => .ok (BinaryOp.ofSource? (String.ofList s.toList.dropLast))
  | .list _ => .error (.unhashable .list)
  | .record _ => .error .rangeOfRecord
  | t => .error (.notSliceable t.shape)

/-- The value that a literal stands for. -/
def literalOperand : Tree → Operand
  | .null => .name "null"
  | .str s => .text s
  | t => .ofTree t

/-- What is called. -/
inductive Callee
  /-- The console, by the method of that name. -/
  | console (method : String)
  | function (name : String)
  /-- Nothing that can be called. -/
  | unsupported

def Callee.name : Callee → String
  | .console method => consoleMark ++ method
  | .function name => functionMark ++ name
  | .unsupported => ""

/-- The method that a property names. -/
def methodName (property : Node) : Except Fault String := do
  match (← property.mark?).bind (·.name) with
  | none => return ""
  | some t => Tree.append "" t

/-- What `gen_call` takes the callee of a call for. -/
def callee : Node → Except Fault Callee
  | .absent => .ok .unsupported
  | .fault f => .error f
  | .mk mark form =>
    match form with
    | .identifier => do return .function (← Tree.append "" (← mark.requireName))
    | .member false object property => do
      if (← object.nameTree).isText "console" then return .console (← methodName property)
      else return .unsupported
    | _ => .ok .unsupported

/-- The variable that the target of an assignment or an update names, if it names one. -/
def assignee? : Node → Except Fault (Option Tree)
  | .absent => .ok none
  | .fault f => .error f
  | .mk mark form =>
    match form with
    | .identifier => do return some (← mark.requireName)
    | _ => .ok none

def emitParam (value : Operand) : Lower Unit := emit { op := .param, arg1 := value }

def emitParams : List Operand → Lower Unit
  | [] => pure ()
  | a :: rest => do
    emitParam a
    emitParams rest

/-- The end of `gen_call`, after the arguments. The console gives no value. -/
def emitCall (callee : Callee) (count : Nat) : Lower Operand := do
  let count := Operand.num (.int count)
  match callee with
  | .console _ =>
    emit { op := .call, arg1 := .name callee.name, arg2 := count }
    return void
  | _ =>
    let dest ← newTemp
    emit { op := .call, arg1 := .name callee.name, arg2 := count, result := .name dest }
    return .name dest

/-- The name under which the code of `gen_function` receives a parameter. -/
def receivedName : Param → Except Fault Target
  | .fault f => .error f
  | .absent _ => .ok .none
  | .mk _ name _ => return nameTarget (← name)

def receiveParams : List Param → Lower Unit
  | [] => pure ()
  | p :: rest => do
    emit { op := .receive, result := ← lift (receivedName p) }
    receiveParams rest

mutual

/-- `gen`: the code of a statement inside the given loop. The cases of functions and `for` loops are `gen_function`
and `gen_for`; the loop that a body is given is the one that `gen_loop_body` pushes. -/
def stmt (loop : Option Loop) : Node → Lower Unit
  | .absent => pure ()
  | .fault f => fail f
  | .mk mark form =>
    match form with
    | .program body => stmts loop body
    | .block body => stmts loop body
    | .expression e => do
      let _ ← expr e
    | .declaration _ ds => declarators ds
    | .function id params body => do
      let name ← lift id.nameTree
      if !name.truthy then unsupported mark
      else
        let start ← lift (Tree.append functionMark name)
        let finish ← lift (Tree.append endMark name)
        if ← declareFunction name.text then
          warn (s!"Function '{name.text}' is declared more than once; " ++
            "calls reach the last declaration")
        goto finish
        label start
        receiveParams params
        stmt none body
        emit { op := .ret, arg1 := void }
        label finish
    | .if test consequent alternate => do
      let otherwise ← newLabel
      let finish ← newLabel
      jumpIfFalse (← expr test) otherwise
      stmt loop consequent
      goto finish
      label otherwise
      stmt loop alternate
      label finish
    | .while test body => do
      let start ← newLabel
      let finish ← newLabel
      label start
      jumpIfFalse (← expr test) finish
      stmt (some ⟨start, finish⟩) body
      goto start
      label finish
    | .for init test update body => do
      match init with
      | .mk _ (.declaration _ ds) => declarators ds
      | _ =>
        let _ ← expr init
      let start ← newLabel
      let next ← newLabel
      let finish ← newLabel
      label start
      if !test.isAbsent then jumpIfFalse (← expr test) finish
      stmt (some ⟨next, finish⟩) body
      label next
      let _ ← expr update
      goto start
      label finish
    | .return argument => do
      emit { op := .ret, arg1 := ← expr argument }
    | .break labelled =>
      match loop, labelled with
      | some l, false => goto l.exit
      | _, _ => unsupported mark
    | .continue labelled =>
      match loop, labelled with
      | some l, false => goto l.next
      | _, _ => unsupported mark
    | .empty => pure ()
    | _ => unsupported mark

def stmts (loop : Option Loop) : List Node → Lower Unit
  | [] => pure ()
  | n :: rest => do
    stmt loop n
    stmts loop rest

def declarators : List Declarator → Lower Unit
  | [] => pure ()
  | d :: rest => do
    declarator d
    declarators rest

/-- A declaration with an initialiser assigns it; one without does nothing. -/
def declarator : Declarator → Lower Unit
  | .fault f => fail f
  | .mk _ id _ init => do
    match id with
    | .mk mark .identifier =>
      if !init.isAbsent then
        let value ← expr init
        assign value (nameTarget (← lift mark.requireName))
    | _ => unsupportedNode id

/-- `gen_expr`: the code of an expression, and the operand that holds its value. The larger cases are `gen_assignment`,
`gen_update`, `gen_logical`, `gen_conditional` and `gen_call`. -/
def expr : Node → Lower Operand
  | .absent => pure void
  | .fault f => fail f
  | .mk mark form =>
    match form with
    | .literal true _ => do
      unsupported mark
      return void
    | .literal false value => pure (literalOperand value)
    | .template text _ => do return .text (← lift text)
    | .identifier => pure (nameOperand mark.nameTree)
    | .assignment operator left right => do
      match ← lift (assignee? left) with
      | none =>
        unsupportedNode left
        return void
      | some name =>
        if operator.isText "=" then
          assign (← expr right) (nameTarget name)
          return nameOperand name
        else
          match ← lift (compoundOp? operator) with
          | none =>
            unsupported mark
            return void
          | some op =>
            let value ← expr right
            let dest ← Lower.operator (.binary op) (nameOperand name) value
            assign dest (nameTarget name)
            return nameOperand name
    | .binary operator left right => do
      match ← lift (binaryOp? operator) with
      | none =>
        unsupported mark
        return void
      | some op =>
        let a ← expr left
        let b ← expr right
        Lower.operator (.binary op) a b
    | .unary operator argument => do
      if operator.isText "void" then
        let _ ← expr argument
        return void
      else
        match ← lift (unaryOp? operator) with
        | none =>
          unsupported mark
          return void
        | some op => Lower.operator (.unary op) (← expr argument) .none
    | .update operator leading argument => do
      match ← lift (assignee? argument) with
      | none =>
        unsupportedNode argument
        return void
      | some name =>
        let op := if operator.isText "++" then BinaryOp.add else BinaryOp.sub
        let operand := nameOperand name
        if leading then
          assign (← Lower.operator (.binary op) operand (.num (.int 1))) (nameTarget name)
          return operand
        else
          let previous ← Lower.operator (.unary .pos) operand .none
          assign (← Lower.operator (.binary op) operand (.num (.int 1))) (nameTarget name)
          return previous
    | .logical operator left right => do
      let join ← newJoin
      let finish ← newLabel
      assign (← expr left) (.name join)
      if operator.isText "&&" then jumpIfFalse (.name join) finish
      else if operator.isText "||" then
        jumpIfFalse (← Lower.operator (.unary .not) (.name join) .none) finish
      else
        jumpIfFalse (← Lower.operator (.binary .looseEq) (.name join) (.name "null")) finish
      assign (← expr right) (.name join)
      label finish
      return .name join
    | .conditional test consequent alternate => do
      let join ← newJoin
      let otherwise ← newLabel
      let finish ← newLabel
      jumpIfFalse (← expr test) otherwise
      assign (← expr consequent) (.name join)
      goto finish
      label otherwise
      assign (← expr alternate) (.name join)
      label finish
      return .name join
    | .call called arguments => do
      match ← lift (callee called) with
      | .unsupported =>
        unsupportedNode called
        return void
      | callee =>
        let operands ← exprs arguments
        emitParams operands
        emitCall callee operands.length
    | .sequence es => do
      let operands ← exprs es
      return operands.getLast?.getD void
    | _ => do
      unsupported mark
      return void

def exprs : List Node → Lower (List Operand)
  | [] => pure []
  | n :: rest => do
    let a ← expr n
    let as ← exprs rest
    return a :: as

end

end Lower

/-- `generate`: the code of a program, and the supply that its names were drawn from. -/
def Node.lower (n : Node) : Except Fault (Lowered Unit) := do
  let l ← Lower.stmt none n {}
  return { l with code := l.code.renumber }

end QuadScript
