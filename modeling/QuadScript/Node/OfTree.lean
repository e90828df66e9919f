import QuadScript.Node.Basic

/-!
# Nodes of raw trees

`Node.ofTree` reads a raw tree as a program. It never fails: what is malformed becomes a fault at
its place. A list of nodes may be given as any tree that can be looped over, so the characters of a
text and the field names of a record stand there as items, each of them a fault unless it is empty.
-/

namespace QuadScript

namespace DeclKind

/-- The kind that a declaration gives. -/
def ofTree : Tree → DeclKind
  | .str s => ofWord s
  | .num n => .number n
  | .bool b => .truth b
  | t => .unnamed t.shape

end DeclKind

namespace OfTree

/-- A path with one more step. -/
def extend (path step : String) : String := if path = "" then step else path ++ "." ++ step

/-- The mark of the record of these fields. -/
def mark (path : String) (fields : List (String × Tree)) : Mark :=
  { path := path
    kind := Tree.field? "type" fields
    name := Tree.field? "name" fields
    position := (Tree.record fields).position }

def fieldD (name : String) (fields : List (String × Tree)) : Tree :=
  (Tree.field? name fields).getD .null

def truthyAt (name : String) (fields : List (String × Tree)) : Bool := (fieldD name fields).truthy

/-- Whether the record of these fields says that it is of that kind. -/
def isKind (kind : String) (fields : List (String × Tree)) : Bool :=
  (fieldD "type" fields).isText kind

/-- What stands for an item that is a text. -/
def textItem (s : String) : Node := if s = "" then .absent else .fault (.notANode .text)

/-- A text that is looped over: a fault for each character. -/
def charFaults {α : Type} (fault : Fault → α) (s : String) : List α :=
  s.toList.map fun _ => fault (.notANode .text)

/-- What stands for a list given as a scalar: nothing if it is empty, otherwise a fault. -/
def scalarList {α : Type} (fault : Fault → α) (t : Tree) : List α :=
  if t.truthy then [fault (.notIterable t.shape)] else []

/-! ### Texts in templates -/

/-- The static text that one part of a template gives. -/
def quasiRaw (t : Tree) : Except Fault Tree := do
  let value := (← t.get? "value").getD (.record [])
  return (← value.get? "raw").getD (.str "")

/-- The parts of a template put together; only texts can be. -/
def joinTexts (index : Nat) : List Tree → Except Fault String
  | [] => .ok ""
  | .str s :: rest => return s ++ (← joinTexts (index + 1) rest)
  | t :: _ => .error (.notJoinable index t.shape)

def templateText (quasis : Tree) : Except Fault String := do
  let parts ← if quasis.truthy then quasis.items else pure []
  joinTexts 0 (← parts.mapM quasiRaw)

/-! ### Names of parameters -/

mutual

/-- The name that a parameter binds, null if it binds none: that of an identifier, of the target of
a default, or of a rest parameter. -/
def paramName : Tree → Except Fault Tree
  | .record fields =>
    if isKind "Identifier" fields then .ok (fieldD "name" fields)
    else if isKind "AssignmentPattern" fields then paramNameAt "left" fields
    else if isKind "RestElement" fields then paramNameAt "argument" fields
    else .ok .null
  | t => if t.truthy then .error (.notANode t.shape) else .ok .null

def paramNameAt (name : String) : List (String × Tree) → Except Fault Tree
  | [] => .ok .null
  | (key, t) :: rest => if key = name then paramName t else paramNameAt name rest

end

/-! ### Nodes -/

mutual

def node (path : String) : Tree → Node
  | .record fields =>
    if fields.isEmpty then .absent
    else
      .mk (mark path fields) (match Tree.field? "type" fields with
      | some (.str "Program") => .program (nodesAt path "body" fields)
      | some (.str "BlockStatement") => .block (nodesAt path "body" fields)
      | some (.str "ExpressionStatement") => .expression (nodeAt path "expression" fields)
      | some (.str "VariableDeclaration") =>
        .declaration (((Tree.field? "kind" fields).map DeclKind.ofTree).getD .var)
          (declaratorsAt path "declarations" fields)
      | some (.str "FunctionDeclaration") =>
        .function (nodeAt path "id" fields) (paramsAt path "params" fields)
          (nodeAt path "body" fields)
      | some (.str "ClassDeclaration") =>
        .classDecl (nodeAt path "id" fields) (nodeAt path "superClass" fields)
          (membersAt path "body" fields)
      | some (.str "MethodDefinition") =>
        .method (truthyAt "computed" fields) (nodeAt path "key" fields)
          (methodParamsAt path "value" fields) (methodBodyAt path "value" fields)
      | some (.str "IfStatement") =>
        .if (nodeAt path "test" fields) (nodeAt path "consequent" fields)
          (nodeAt path "alternate" fields)
      | some (.str "WhileStatement") =>
        .while (nodeAt path "test" fields) (nodeAt path "body" fields)
      | some (.str "ForStatement") =>
        .for (nodeAt path "init" fields) (nodeAt path "test" fields) (nodeAt path "update" fields)
          (nodeAt path "body" fields)
      | some (.str "ReturnStatement") => .return (nodeAt path "argument" fields)
      | some (.str "BreakStatement") => .break (truthyAt "label" fields)
      | some (.str "ContinueStatement") => .continue (truthyAt "label" fields)
      | some (.str "EmptyStatement") => .empty
      | some (.str "ThrowStatement") => .throw (nodeAt path "argument" fields)
      | some (.str "Identifier") => .identifier
      | some (.str "Literal") => .literal (truthyAt "regex" fields) (fieldD "value" fields)
      | some (.str "TemplateLiteral") =>
        .template (templateText (fieldD "quasis" fields)) (nodesAt path "expressions" fields)
      | some (.str "AssignmentExpression") =>
        .assignment ((Tree.field? "operator" fields).getD (.str "=")) (nodeAt path "left" fields)
          (nodeAt path "right" fields)
      | some (.str "BinaryExpression") =>
        .binary (fieldD "operator" fields) (nodeAt path "left" fields) (nodeAt path "right" fields)
      | some (.str "LogicalExpression") =>
        .logical (fieldD "operator" fields) (nodeAt path "left" fields) (nodeAt path "right" fields)
      | some (.str "UnaryExpression") =>
        .unary (fieldD "operator" fields) (nodeAt path "argument" fields)
      | some (.str "UpdateExpression") =>
        .update (fieldD "operator" fields) (truthyAt "prefix" fields)
          (nodeAt path "argument" fields)
      | some (.str "ConditionalExpression") =>
        .conditional (nodeAt path "test" fields) (nodeAt path "consequent" fields)
          (nodeAt path "alternate" fields)
      | some (.str "CallExpression") =>
        .call (nodeAt path "callee" fields) (nodesAt path "arguments" fields)
      | some (.str "NewExpression") =>
        .new (nodeAt path "callee" fields) (nodesAt path "arguments" fields)
      | some (.str "MemberExpression") =>
        .member (truthyAt "computed" fields) (nodeAt path "object" fields)
          (nodeAt path "property" fields)
      | some (.str "ArrayExpression") => .array (nodesAt path "elements" fields)
      | some (.str "ObjectExpression") => .object (propertiesAt path "properties" fields)
      | some (.str "ArrowFunctionExpression") =>
        .lambda (paramsAt path "params" fields) (nodeAt path "body" fields)
      | some (.str "FunctionExpression") =>
        .lambda (paramsAt path "params" fields) (nodeAt path "body" fields)
      | some (.str "SequenceExpression") => .sequence (nodesAt path "expressions" fields)
      | some (.str "ThisExpression") => .this
      | _ => .unknown)
  | t => if t.truthy then .fault (.notANode t.shape) else .absent

def nodeAt (path name : String) : List (String × Tree) → Node
  | [] => .absent
  | (key, t) :: rest => if key = name then node (extend path name) t else nodeAt path name rest

def nodesAt (path name : String) : List (String × Tree) → List Node
  | [] => []
  | (key, t) :: rest =>
    if key = name then nodeList (extend path name) t else nodesAt path name rest

def nodeList (path : String) : Tree → List Node
  | .list items => nodes path 0 items
  | .record fields => fields.map fun (name, _) => textItem name
  | .str s => charFaults .fault s
  | t => scalarList .fault t

def nodes (path : String) (index : Nat) : List Tree → List Node
  | [] => []
  | t :: ts => node (extend path (toString index)) t :: nodes path (index + 1) ts

/-- The members of a class: the body of its body. -/
def membersAt (path name : String) : List (String × Tree) → List Node
  | [] => []
  | (key, t) :: rest =>
    if key = name then members (extend path name) t else membersAt path name rest

def members (path : String) : Tree → List Node
  | .record fields => nodesAt path "body" fields
  | t => if t.truthy then [.fault (.notANode t.shape)] else []

/-- The parameters of the function that a method has as its value. -/
def methodParamsAt (path name : String) : List (String × Tree) → List Param
  | [] => []
  | (key, t) :: rest =>
    if key = name then methodParams (extend path name) t else methodParamsAt path name rest

def methodParams (path : String) : Tree → List Param
  | .record fields => paramsAt path "params" fields
  | t => if t.truthy then [.fault (.notANode t.shape)] else []

/-- The body of the function that a method has as its value. -/
def methodBodyAt (path name : String) : List (String × Tree) → Node
  | [] => .absent
  | (key, t) :: rest =>
    if key = name then methodBody (extend path name) t else methodBodyAt path name rest

def methodBody (path : String) : Tree → Node
  | .record fields => nodeAt path "body" fields
  | _ => .absent

def declaratorsAt (path name : String) : List (String × Tree) → List Declarator
  | [] => []
  | (key, t) :: rest =>
    if key = name then declaratorList (extend path name) t else declaratorsAt path name rest

def declaratorList (path : String) : Tree → List Declarator
  | .list items => declarators path 0 items
  | .record fields => fields.map fun _ => .fault (.notANode .text)
  | .str s => charFaults .fault s
  | t => scalarList .fault t

def declarators (path : String) (index : Nat) : List Tree → List Declarator
  | [] => []
  | t :: ts => declarator (extend path (toString index)) t :: declarators path (index + 1) ts

def declarator (path : String) : Tree → Declarator
  | .record fields =>
    .mk (mark path fields) (nodeAt path "id" fields) ((fieldD "init" fields).shape ≠ .null)
      (nodeAt path "init" fields)
  | t => .fault (.notANode t.shape)

def paramsAt (path name : String) : List (String × Tree) → List Param
  | [] => []
  | (key, t) :: rest =>
    if key = name then paramList (extend path name) t else paramsAt path name rest

def paramList (path : String) : Tree → List Param
  | .list items => params path 0 items
  | .record fields => fields.map fun (name, _) =>
    if name = "" then .absent (.notANode .text) else .fault (.notANode .text)
  | .str s => charFaults .fault s
  | t => scalarList .fault t

def params (path : String) (index : Nat) : List Tree → List Param
  | [] => []
  | t :: ts => param (extend path (toString index)) t :: params path (index + 1) ts

def param (path : String) : Tree → Param
  | .record fields =>
    .mk (Tree.record fields).position (paramName (.record fields))
      (if isKind "AssignmentPattern" fields then nodeAt path "right" fields else .absent)
  | t => if t.truthy then .fault (.notANode t.shape) else .absent (.notANode t.shape)

def propertiesAt (path name : String) : List (String × Tree) → List Property
  | [] => []
  | (key, t) :: rest =>
    if key = name then propertyList (extend path name) t else propertiesAt path name rest

def propertyList (path : String) : Tree → List Property
  | .list items => properties path 0 items
  | .record fields => fields.map fun _ => .fault (.notANode .text)
  | .str s => charFaults .fault s
  | t => scalarList .fault t

def properties (path : String) (index : Nat) : List Tree → List Property
  | [] => []
  | t :: ts => property (extend path (toString index)) t :: properties path (index + 1) ts

def property (path : String) : Tree → Property
  | .record fields =>
    .mk (mark path fields) (truthyAt "computed" fields) (nodeAt path "key" fields)
      (nodeAt path "value" fields)
  | t => .fault (.notANode t.shape)

end

end OfTree

/-- The program that a raw tree is. -/
def Node.ofTree (t : Tree) : Node := OfTree.node "" t

end QuadScript
