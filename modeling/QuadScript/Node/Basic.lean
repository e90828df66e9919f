import QuadScript.Tree.Position
import QuadScript.Tree.Text

/-!
# Program nodes

The syntax of a program. Any node may stand in any place, so statements and expressions are of one
type, and what a node means in its place is decided by whoever reads it. A place may be empty, and
where the tree is malformed there is a fault, which arises when someone looks at that place.
-/

namespace QuadScript

/-- What every node tells about itself, whatever it is. -/
structure Mark where
  /-- The way from the root to the node: field names and list positions, joined by points. -/
  path : String
  /-- What the node says it is. -/
  kind : Option Tree
  name : Option Tree
  position : Except Fault Position

/-- How variables are declared, and what else a symbol can be. -/
inductive DeclKind
  | let
  | const
  | var
  | function
  | parameter
  | classDecl
  | other (word : String)
  /-- A number in the place of a word. -/
  | number (n : Number)
  /-- A truth value in the place of a word. -/
  | truth (b : Bool)
  /-- Nothing that could stand for a word. -/
  | unnamed (shape : Shape)
deriving DecidableEq

mutual

inductive Node
  /-- Nothing stands here. -/
  | absent
  /-- Something stands here that is no node. -/
  | fault (fault : Fault)
  | mk (mark : Mark) (form : Form)

inductive Form
  | program (body : List Node)
  | block (body : List Node)
  | expression (expr : Node)
  | declaration (kind : DeclKind) (declarators : List Declarator)
  | function (id : Node) (params : List Param) (body : Node)
  | classDecl (id : Node) (parent : Node) (members : List Node)
  | method (computed : Bool) (key : Node) (params : List Param) (body : Node)
  | if (test consequent alternate : Node)
  | while (test body : Node)
  | for (init test update body : Node)
  | return (argument : Node)
  | break (labelled : Bool)
  | continue (labelled : Bool)
  | empty
  | throw (argument : Node)
  | identifier
  | literal (regex : Bool) (value : Tree)
  /-- The static text of a template, and the expressions in it. -/
  | template (text : Except Fault String) (expressions : List Node)
  | assignment (operator : Tree) (left right : Node)
  | binary (operator : Tree) (left right : Node)
  | logical (operator : Tree) (left right : Node)
  | unary (operator : Tree) (argument : Node)
  /-- An increment or decrement; a leading operator gives the new value. -/
  | update (operator : Tree) (leading : Bool) (argument : Node)
  | conditional (test consequent alternate : Node)
  | call (callee : Node) (arguments : List Node)
  | new (callee : Node) (arguments : List Node)
  | member (computed : Bool) (object property : Node)
  | array (elements : List Node)
  | object (properties : List Property)
  /-- A function that is an expression. -/
  | lambda (params : List Param) (body : Node)
  | sequence (expressions : List Node)
  | this
  /-- A kind of node that is not known. -/
  | unknown

inductive Declarator
  | fault (fault : Fault)
  /-- An initialiser may be given and still be empty. -/
  | mk (mark : Mark) (id : Node) (given : Bool) (init : Node)

inductive Param
  | fault (fault : Fault)
  /-- An empty place, which has no name but is no node either. -/
  | absent (fault : Fault)
  /-- The name is null if the parameter binds none. -/
  | mk (position : Except Fault Position) (name : Except Fault Tree) (default : Node)

inductive Property
  | fault (fault : Fault)
  | mk (mark : Mark) (computed : Bool) (key value : Node)

end

namespace DeclKind

def word : DeclKind → String
  | .let => "let"
  | .const => "const"
  | .var => "var"
  | .function => "function"
  | .parameter => "parameter"
  | .classDecl => "class"
  | .other word => word
  | .number n => n.text
  | .truth b => if b then "1" else "0"
  | .unnamed shape => shape.word

/-- How a symbol table gives a kind. -/
def toTree : DeclKind → Tree
  | .number n => .num n
  | .truth b => .bool b
  | kind => .str kind.word

def ofWord (s : String) : DeclKind :=
  match s with
  | "let" => .let
  | "const" => .const
  | "var" => .var
  | "function" => .function
  | "parameter" => .parameter
  | "class" => .classDecl
  | _ => .other s

end DeclKind

namespace Mark

/-- What a message says a node is. -/
def kindText (m : Mark) : String := (m.kind.getD .null).text

/-- The name of a node, null if it has none. -/
def nameTree (m : Mark) : Tree := m.name.getD .null

/-- The name of a node that has to have one. -/
def requireName (m : Mark) : Except Fault Tree :=
  match m.name with
  | some t => .ok t
  | none => .error (.missingKey "name")

end Mark

namespace Node

instance : Inhabited Node := ⟨.absent⟩

/-- The mark of a node, if there is a node. -/
def mark? : Node → Except Fault (Option Mark)
  | .absent => .ok none
  | .fault f => .error f
  | .mk mark _ => .ok (some mark)

/-- The name of the node at a place, null if there is no node or it has no name. -/
def nameTree (n : Node) : Except Fault Tree :=
  return ((← n.mark?).bind (·.name)).getD .null

def isAbsent : Node → Bool
  | .absent => true
  | _ => false

end Node

end QuadScript
