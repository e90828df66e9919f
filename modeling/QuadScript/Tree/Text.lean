import QuadScript.Number.Layout
import QuadScript.Tree.Basic

/-!
# Raw trees as text

`Tree.text` is how messages show raw data. A text stands for itself at the top and is quoted inside
lists and records.
-/

namespace QuadScript

def Number.text : Number → String
  | .int n => toString n
  | .float x => Layout.datum.write x

namespace Tree

mutual

/-- The text of a tree inside a list or a record. -/
def inner : Tree → String
  | .null => "None"
  | .undefined => "undefined"
  | .bool b => if b then "True" else "False"
  | .num n => n.text
  | .str s => Text.quoted s
  | .list items => "[" ++ innerItems items ++ "]"
  | .record fields => "\x7b" ++ innerFields fields ++ "\x7d"

def innerItems : List Tree → String
  | [] => ""
  | [t] => inner t
  | t :: ts => inner t ++ ", " ++ innerItems ts

def innerFields : List (String × Tree) → String
  | [] => ""
  | [(name, t)] => Text.quoted name ++ ": " ++ inner t
  | (name, t) :: rest => Text.quoted name ++ ": " ++ inner t ++ ", " ++ innerFields rest

end

def text : Tree → String
  | .str s => s
  | t => inner t

end Tree

end QuadScript
