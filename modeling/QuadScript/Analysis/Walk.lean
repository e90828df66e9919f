import QuadScript.Analysis.Builtins
import QuadScript.Analysis.Monad

/-!
# Walking a program

`Analyze.visit` walks a node in the order in which its parts are read, keeps the scopes, and reports
what is wrong or doubtful. An expression has a kind if anything can be said about its value. The cases of
`Analyze.visit` are the handlers `visit_program`, `visit_block`, ..., `visit_this`, one for each form of a node.

The functions of a statement list are declared before the list is walked, so they can refer to each
other.
-/

namespace QuadScript

/-- `literal_kind`: the kind of a literal's value. -/
def literalKind : Tree → Kind
  | .bool _ => .boolean
  | .num _ => .number
  | .str _ => .string
  | _ => .object

def comparisonOps : List String :=
  ["==", "===", "!=", "!==", "<", ">", "<=", ">=", "instanceof", "in"]

def bitwiseOps : List String := ["&", "|", "^", "<<", ">>", ">>>"]

def numericAssignments : List String := ["-=", "*=", "/=", "%="]

def consoleMethods : List String := ["log", "warn", "error", "info", "debug"]

namespace Node

/-- `is_always_truthy`: a literal that counts as true, or the word itself. -/
def isAlwaysTrue : Node → Bool
  | .mk _ (.literal regex value) => regex || value.truthy
  | .mk mark .identifier => mark.nameTree.isText "true"
  | _ => false

/-- `is_always_falsy`: a literal that counts as false, or a word for such a value. -/
def isAlwaysFalse : Node → Bool
  | .mk _ (.literal regex value) => !regex && !value.truthy
  | .mk mark .identifier => mark.nameTree.isOneOf ["false", "undefined", "null"]
  | _ => false

/-- One of the `TERMINATORS`: nothing after the statement in its list is reached. -/
def isTerminator : Node → Bool
  | .mk _ (.return _) => true
  | .mk _ (.break _) => true
  | .mk _ (.continue _) => true
  | .mk _ (.throw _) => true
  | _ => false

/-- The value of a literal. -/
def literalValue? : Node → Option Tree
  | .mk _ (.literal _ value) => some value
  | _ => none

def isTextLiteral (n : Node) : Bool :=
  match n.literalValue? with
  | some (.str _) => true
  | _ => false

end Node

namespace Analyze

/-! ### Declarations -/

/-- `param_name`: the name that a parameter binds, null if it binds none. -/
def paramName : Param → Except Fault Tree
  | .fault f => .error f
  | .absent _ => .ok .null
  | .mk _ name _ => name

/-- `hoist_function`: declares a function in the current scope. -/
def hoistFunction (mark : Mark) (id : Node) (params : List Param) : Analyze Unit := do
  let name ← liftM id.nameTree
  if name.truthy then
    let position ← liftM mark.position
    let names ← liftM (params.mapM paramName)
    let name ← key mark name
    let conflict ← define (← get).current
      { name := name, kind := .function, inferred := .function, initialized := true,
        position := position, params := some ((names.filter (·.truthy)).map (·.text)),
        returns := some .unknown }
    match conflict with
    | some c => error c.message mark.place
    | none => pure ()

/-- `hoist_functions`: the functions of a statement list are declared before it is walked. -/
def hoistFunctions : List Node → Analyze Unit
  | [] => pure ()
  | n :: rest => do
    match n with
    | .fault f => throw f
    | .mk mark (.function id params _) => hoistFunction mark id params
    | _ => pure ()
    hoistFunctions rest

/-- `visit_variable_declaration`, for one declarator whose initialiser has been walked already. -/
def declareVariable (mark : Mark) (name : Tree) (kind : DeclKind) (given : Bool) (inferred : Kind) :
    Analyze Unit := do
  let position ← liftM mark.position
  let uninitialized := kind = .const && !given
  if uninitialized then
    error s!"Missing initializer in const declaration '{name.text}'" mark.place
  let state ← get
  let scope := if kind = .var then state.tree.functionScope state.current else state.current
  let symbolName ← key mark name
  let conflict ← define scope
    { name := symbolName, kind := kind, inferred := inferred, initialized := given,
      position := position, hasError := uninitialized }
  match conflict with
  | none => pure ()
  | some c =>
    let existing := (← get).tree.lookup scope symbolName
    if (existing.map (·.kind)).getD kind ≠ kind then
      error s!"Identifier '{name.text}' has already been declared with a different kind" mark.place
    else error c.message mark.place

/-- What `visit_function` does with the name of a parameter. -/
def declareParam (position : Except Fault Position) (name : Tree) : Analyze Unit := do
  if name.truthy then
    let position ← liftM position
    let name ← paramKey name
    let _ ← define (← get).current
      { name := name, kind := .parameter, inferred := .unknown, initialized := true,
        position := position }

/-- What `visit_class_declaration` does with the name of the class. -/
def declareClass (mark : Mark) (id : Node) : Analyze Unit := do
  let name ← liftM id.nameTree
  if name.truthy then
    let position ← liftM mark.position
    let name ← key mark name
    let conflict ← define (← get).current
      { name := name, kind := .classDecl, inferred := .function, initialized := true,
        position := position }
    match conflict with
    | some c => error c.message mark.place
    | none => pure ()

/-- The symbol that `visit_function_declaration` finds in the scope, or else declares. -/
def functionOwner (mark : Mark) (id : Node) (params : List Param) : Analyze (Option Nat) := do
  let name ← liftM id.nameTree
  if !name.truthy then return none
  let name ← key mark name
  let state ← get
  match state.tree.findLocal? state.current name with
  | some n => return some n
  | none =>
    hoistFunction mark id params
    return (← get).tree.findLocal? state.current name

/-! ### Checks -/

/-- `check_arithmetic`: warns of an addition to a literal text. -/
def checkAddition (left right : Node) (place : Except Fault Place) : Analyze Unit :=
  match left.isTextLiteral, right.literalValue? with
  | true, some (.num _) =>
    warning "Adding a string and a number may produce unexpected results" place
  | _, _ => pure ()

/-- `check_numeric`, for one operand: warns of a literal text where a number is expected. -/
def checkNumeric (operand : Node) (place : Except Fault Place) : Analyze Unit :=
  if operand.isTextLiteral then warning "Numeric operation on a string value" place else pure ()

def isNegation : Node → Bool
  | .mk _ (.unary operator _) => operator.isText "!"
  | _ => false

/-- `visit_unary`, after its operand has been walked. -/
def unaryKind (operator : Tree) (argument : Node) (place : Except Fault Place) : Analyze Kind := do
  if operator.isText "!" then
    if isNegation argument then
      warning "Double negation (!!), consider using Boolean() instead" place
    return .boolean
  else if operator.isText "typeof" then return .string
  else if operator.isOneOf ["+", "-", "~"] then
    checkNumeric argument place
    return .number
  else if operator.isText "delete" then
    match argument with
    | .mk mark .identifier =>
      warning s!"Deleting unqualified identifier '{mark.nameTree.text}' in strict mode" place
    | _ => pure ()
    return .boolean
  else if operator.isText "void" then return .undefined
  else return .unknown

/-- The kind that `visit_binary` gives to an expression of operands of these kinds. -/
def binaryKind (operator : Tree) (left right : Option Kind) : Kind :=
  if operator.isOneOf comparisonOps then .boolean
  else if operator.isOneOf bitwiseOps then .number
  else if left = some .number && right = some .number then .number
  else if operator.isText "+" && (left = some .string || right = some .string) then .string
  else .unknown

/-- The kind that two kinds have in common. -/
def commonKind (a b : Option Kind) : Option Kind := if a = b then a else some .unknown

/-- `visit_identifier`: a name that is read. -/
def visitIdentifier (mark : Mark) : Analyze Kind := do
  let name := mark.nameTree
  match ← lookup mark with
  | none =>
    error s!"'{name.text}' is not defined" mark.place
    return .unknown
  | some (n, symbol) =>
    modifySymbol n fun s => { s with used := true }
    if !symbol.initialized && symbol.kind ≠ .function && !symbol.builtin then
      error s!"Variable '{name.text}' is used before being initialized" mark.place
    return symbol.inferred

/-- `visit_assignment`, for a target that is a variable. -/
def assignVariable (mark : Mark) : Analyze Unit := do
  let name := mark.nameTree
  match ← lookup mark with
  | none => error s!"Cannot assign to undeclared variable '{name.text}'" mark.place
  | some (n, symbol) =>
    if symbol.kind = .const && symbol.initialized then
      error s!"Cannot assign to const variable '{name.text}'" mark.place
    if symbol.kind = .let || symbol.kind = .var || symbol.kind = .const then
      modifySymbol n fun s => { s with initialized := true }

/-- `visit_update`, for a target that is a variable. -/
def updateVariable (mark : Mark) : Analyze Unit := do
  let name := mark.nameTree
  match ← lookup mark with
  | none => error s!"Cannot update undeclared variable '{name.text}'" mark.place
  | some (n, symbol) =>
    if symbol.kind = .const then error s!"Cannot update const variable '{name.text}'" mark.place
    else modifySymbol n fun s => { s with used := true }

/-- The symbol that `visit_call` finds by the name of a function. -/
def namedFunction (mark : Mark) : Analyze (Option Nat) := do
  let name := mark.nameTree
  match ← lookup mark with
  | none =>
    error s!"Function '{name.text}' is not defined" mark.place
    return none
  | some (n, symbol) =>
    modifySymbol n fun s => { s with used := true }
    if !symbol.callable then
      warning s!"'{name.text}' is not a function, its kind is '{symbol.inferred.word}'" mark.place
    return some n

/-- The symbol of what is called, if it is called by its name; anything else is walked. -/
def calledSymbol (callee : Node) (other : Analyze Unit) : Analyze (Option Nat) := do
  match callee with
  | .mk mark .identifier => namedFunction mark
  | _ =>
    other
    return none

/-- Warns of a call with another number of arguments than the function has parameters. -/
def checkCount (symbol : Symbol) (count : Nat) (place : Except Fault Place) : Analyze Unit :=
  match symbol.params with
  | some params =>
    if count = params.length then pure ()
    else
      warning ("Function '" ++ symbol.name.display ++
        s!"' expects {params.length} arguments, but received {count}") place
  | none => pure ()

/-- The kind of a call's result, as far as it is known after the arguments. The arguments may have
bound the name anew; the call still goes to the symbol that was found before them. -/
def callKind (called : Option Nat) (count : Nat) (place : Except Fault Place) : Analyze Kind := do
  match called.bind (← get).tree.symbol? with
  | some symbol =>
    checkCount symbol count place
    return symbol.returns.getD .unknown
  | none => return .unknown

/-- `visit_member`, for a method that the console may not have. -/
def checkConsole (mark : Mark) (object property : Node) : Analyze Unit := do
  match object with
  | .mk objectMark .identifier =>
    if objectMark.nameTree.isText "console" then
      let name ← liftM property.nameTree
      if name.truthy && !name.isOneOf consoleMethods then
        warning s!"Unknown console method: {name.text}" mark.place
  | _ => pure ()

/-- The name under which `visit_object` remembers a property, null if that is not known. -/
def propertyName (computed : Bool) (key : Node) : Except Fault Tree :=
  match key with
  | .fault f => .error f
  | .mk mark .identifier => .ok (if computed then .null else mark.nameTree)
  | .mk _ (.literal _ value) => .ok value
  | _ => .ok .null

/-- Warns of a name that stands in the object already; the names with it. -/
def checkDuplicate (names : List Key) (name : Tree) (place : Except Fault Place) :
    Analyze (List Key) := do
  match name with
  | .null => return names
  | _ =>
    let key ← liftM (Key.ofTree names.length name)
    if names.any (·.same key) then
      warning s!"Duplicate key '{name.text}' in object literal" place
    return key :: names

/-- `visit_return`, after its argument: notes the kind that it gives to the result of its function. -/
def returned (mark : Mark) (kind : Kind) : Analyze Unit := do
  match (← get).functions with
  | [] => error "'return' statement outside of a function" mark.place
  | f :: _ =>
    markReturn
    match f.owner with
    | some n => modifySymbol n fun s => { s with returns := some kind }
    | none => pure ()

/-- A node that is a variable is handled by its name, any other is walked. -/
def variableOr (n : Node) (byName : Mark → Analyze Unit) (other : Analyze Unit) : Analyze Unit :=
  match n with
  | .mk mark .identifier => byName mark
  | _ => other

/-- The value of a property: a function is walked as one and is no expression of its own. -/
def propertyValue (value : Node) (function other : Analyze Unit) : Analyze Unit :=
  match value with
  | .mk _ (.lambda ..) => function
  | _ => other

/-- The body of a function: a block shares the function's scope, anything else is its result. -/
def functionBody (body : Node) (block other : Analyze Unit) : Analyze Unit := do
  match body with
  | .absent => pure ()
  | .mk _ (.block _) => block
  | _ =>
    markReturn
    other

/-! ### The walk -/

mutual

/-- `visit`: the handler for the type of the node, and the kind that is recorded for it. -/
def visit : Node → Analyze (Option Kind)
  | .absent => return none
  | .fault f => throw f
  | .mk mark form => do
    let kind ← match form with
      | .program body => do
        modify fun s => { s with tree := s.tree.setKind s.current .global }
        hoistFunctions body
        visitAll body
        pure none
      | .block body => do
        inScope .block do
          hoistFunctions body
          visitStatements false body
        pure none
      | .expression e => do
        let _ ← visit e
        pure none
      | .declaration kind ds => do
        visitDeclarators kind ds
        pure none
      | .function id params body => do
        let name ← liftM id.nameTree
        let owner ← functionOwner mark id params
        let hasReturn ← inFunction owner do
          visitParams params
          functionBody body (visitBlock body) (do let _ ← visit body)
        if !hasReturn && name.truthy && !name.isText "main" then
          warning s!"Function '{name.text}' has no return statement" mark.place
        pure none
      | .classDecl id parent members => do
        declareClass mark id
        let _ ← visit parent
        inScope .classBody (visitAll members)
        pure none
      | .method computed key params body => do
        if computed then
          let _ ← visit key
        let _ ← inFunction none do
          visitParams params
          functionBody body (visitBlock body) (do let _ ← visit body)
        pure none
      | .if test consequent alternate => do
        let _ ← visit test
        if test.isAlwaysTrue then
          warning "Condition is always true; the else branch is never executed" mark.place
        else if test.isAlwaysFalse then
          warning "Condition is always false; the if branch is never executed" mark.place
        let _ ← visit consequent
        let _ ← visit alternate
        pure none
      | .while test body => do
        let _ ← visit test
        if test.isAlwaysTrue then
          warning "Possible infinite loop: condition is always true" mark.place
        else if test.isAlwaysFalse then
          warning "Loop condition is always false; the body never runs" mark.place
        let _ ← visit body
        pure none
      | .for init test update body => do
        inScope .block do
          let _ ← visit init
          let _ ← visit test
          if test.isAlwaysFalse then
            warning "For loop condition is always false; the loop never runs" mark.place
          let _ ← visit update
          let _ ← visit body
        pure none
      | .return argument => do
        let kind ← visit argument
        returned mark (kind.getD .undefined)
        pure none
      | .break _ => pure none
      | .continue _ => pure none
      | .empty => pure none
      | .throw argument => do
        let _ ← visit argument
        pure none
      | .identifier => do pure (some (← visitIdentifier mark))
      | .literal regex value => pure (some (if regex then .object else literalKind value))
      | .template _ expressions => do
        visitAll expressions
        pure (some .string)
      | .assignment operator left right => do
        let kind ← visit right
        variableOr left assignVariable (do let _ ← visit left)
        if operator.isText "+=" then checkAddition left right mark.place
        else if operator.isOneOf numericAssignments then
          checkNumeric left mark.place
          checkNumeric right mark.place
        pure (if operator.isText "=" then kind else some .unknown)
      | .binary operator left right => do
        let a ← visit left
        let b ← visit right
        pure (some (binaryKind operator a b))
      | .logical operator left right => do
        let a ← visit left
        let b ← visit right
        if operator.isText "&&" && left.isAlwaysFalse then
          warning "Left side of && is always false; the right side is never evaluated" mark.place
        else if operator.isText "||" && left.isAlwaysTrue then
          warning "Left side of || is always true; the right side is never evaluated" mark.place
        pure (commonKind a b)
      | .unary operator argument => do
        let _ ← visit argument
        pure (some (← unaryKind operator argument mark.place))
      | .update _ _ argument => do
        variableOr argument updateVariable (do let _ ← visit argument)
        pure (some .number)
      | .conditional test consequent alternate => do
        let _ ← visit test
        let a ← visit consequent
        let b ← visit alternate
        if test.isAlwaysTrue then
          warning "Condition is always true; the alternate branch is never evaluated" mark.place
        else if test.isAlwaysFalse then
          warning "Condition is always false; the consequent branch is never evaluated" mark.place
        pure (commonKind a b)
      | .call callee arguments => do
        let called ← calledSymbol callee (do let _ ← visit callee)
        visitAll arguments
        pure (some (← callKind called arguments.length mark.place))
      | .new callee arguments => do
        let _ ← visit callee
        visitAll arguments
        pure (some .object)
      | .member computed object property => do
        let _ ← visit object
        if computed then
          let _ ← visit property
        else checkConsole mark object property
        pure (some .unknown)
      | .array elements => do
        visitAll elements
        pure (some .object)
      | .object properties => do
        visitProperties [] properties
        pure (some .object)
      | .lambda params body => do
        let _ ← inFunction none do
          visitParams params
          functionBody body (visitBlock body) (do let _ ← visit body)
        pure (some .function)
      | .sequence expressions => visitLast none expressions
      | .this => pure (some .object)
      | .unknown => do
        let kind := mark.kind.getD .null
        if !kind.isName then throw (.unhashable kind.shape)
        warning s!"Unknown node type: {mark.kindText}" mark.place
        pure none
    record mark kind

/-- Walks nodes in order. -/
def visitAll : List Node → Analyze Unit
  | [] => pure ()
  | n :: rest => do
    let _ ← visit n
    visitAll rest

/-- Walks nodes in order; the kind of the last one. -/
def visitLast (last : Option Kind) : List Node → Analyze (Option Kind)
  | [] => return last
  | n :: rest => do visitLast (← visit n) rest

/-- `visit_statements`; what follows a statement that ends the list is unreachable. -/
def visitStatements (unreachable : Bool) : List Node → Analyze Unit
  | [] => pure ()
  | n :: rest => do
    if unreachable then warning "Unreachable code detected" n.place
    let _ ← visit n
    visitStatements (unreachable || n.isTerminator) rest

/-- The statements of a function body that is a block. -/
def visitBlock : Node → Analyze Unit
  | .mk _ (.block body) => do
    hoistFunctions body
    visitStatements false body
  | _ => pure ()

/-- `visit_function` for a function that is an expression, in a place that takes no note of its kind. -/
def visitLambda : Node → Analyze Unit
  | .mk _ (.lambda params body) => do
    let _ ← inFunction none do
      visitParams params
      functionBody body (visitBlock body) (do let _ ← visit body)
  | _ => pure ()

def visitDeclarators (kind : DeclKind) : List Declarator → Analyze Unit
  | [] => pure ()
  | d :: rest => do
    visitDeclarator kind d
    visitDeclarators kind rest

/-- `visit_variable_declaration`, for one declarator. -/
def visitDeclarator (kind : DeclKind) : Declarator → Analyze Unit
  | .fault f => throw f
  | .mk mark id given init => do
    let name ← liftM id.nameTree
    let inferred ← visit init
    if name.truthy then declareVariable mark name kind given (inferred.getD .undefined)

def visitParams : List Param → Analyze Unit
  | [] => pure ()
  | p :: rest => do
    visitParam p
    visitParams rest

def visitParam : Param → Analyze Unit
  | .fault f => throw f
  | .absent f => throw f
  | .mk position name default => do
    let name ← liftM name
    let _ ← visit default
    declareParam position name

def visitProperties (names : List Key) : List Property → Analyze Unit
  | [] => pure ()
  | p :: rest => do
    let names ← visitProperty names p
    visitProperties names rest

def visitProperty (names : List Key) : Property → Analyze (List Key)
  | .fault f => throw f
  | .mk mark computed key value => do
    let name ← liftM (propertyName computed key)
    let names ← checkDuplicate names name mark.place
    if computed then
      let _ ← visit key
    propertyValue value (visitLambda value) (do let _ ← visit value)
    return names

end

end Analyze

end QuadScript
