import QuadScript.Number.Basic

/-!
# Raw trees

A program arrives as a tree of raw data: records with named fields, lists, and scalars. A tree may
be anything at all; what it means as a program is decided elsewhere. The fields of a record keep
their order, and no name occurs twice.
-/

namespace QuadScript

inductive Tree
  | null
  | undefined
  | bool (b : Bool)
  | num (n : Number)
  | str (s : String)
  | list (items : List Tree)
  | record (fields : List (String × Tree))

namespace Tree

instance : Inhabited Tree := ⟨.null⟩

def int (n : Int) : Tree := .num (.int n)

def shape : Tree → Shape
  | .null => .null
  | .undefined => .undefined
  | .bool _ => .bool
  | .num (.int _) => .int
  | .num (.float _) => .float
  | .str _ => .text
  | .list _ => .list
  | .record _ => .record

/-- Whether a tree counts as something: null, undefined, false, zero and what is empty do not. -/
def truthy : Tree → Bool
  | .null => false
  | .undefined => false
  | .bool b => b
  | .num n => !n.isZero
  | .str s => s ≠ ""
  | .list items => !items.isEmpty
  | .record fields => !fields.isEmpty

/-- The tree itself if it counts as something, otherwise `other`. -/
def orElse (t other : Tree) : Tree := if t.truthy then t else other

/-- The field of that name among `fields`. -/
def field? (name : String) : List (String × Tree) → Option Tree
  | [] => none
  | (key, t) :: rest => if key = name then some t else field? name rest

/-- The same fields with one of that name set: in its place if there is one, else at the end. -/
def setField (name : String) (value : Tree) : List (String × Tree) → List (String × Tree)
  | [] => [(name, value)]
  | (key, t) :: rest =>
    if key = name then (key, value) :: rest else (key, t) :: setField name value rest

/-- A record of the given fields, where the last of several of one name counts. -/
def ofFields (fields : List (String × Tree)) : Tree :=
  .record (fields.foldl (fun fs (name, t) => setField name t fs) [])

/-- The field of a tree that has to be a record; `none` if it has no such field. -/
def get? (t : Tree) (name : String) : Except Fault (Option Tree) :=
  match t with
  | .record fields => .ok (field? name fields)
  | _ => .error (.notANode t.shape)

/-- The field of a tree that has to be a record, null if it has no such field. -/
def get (t : Tree) (name : String) : Except Fault Tree :=
  return (← t.get? name).getD .null

/-- Whether the tree is this text. -/
def isText (s : String) : Tree → Bool
  | .str t => t = s
  | _ => false

/-- Whether the tree is one of these texts. -/
def isOneOf (names : List String) : Tree → Bool
  | .str t => names.contains t
  | _ => false

/-- Lists and records cannot be names. -/
def isName : Tree → Bool
  | .list _ => false
  | .record _ => false
  | _ => true

/-- What a loop over a tree goes through: the items of a list, the characters of a text, the names
of a record. -/
def items (t : Tree) : Except Fault (List Tree) :=
  match t with
  | .list items => .ok items
  | .str s => .ok (s.toList.map fun c => .str (String.singleton c))
  | .record fields => .ok (fields.map fun (name, _) => .str name)
  | _ => .error (.notIterable t.shape)

/-- A text with something after it that has to be text as well. -/
def append (s : String) : Tree → Except Fault String
  | .str t => .ok (s ++ t)
  | t => .error (.notText t.shape)

end Tree

end QuadScript
