import QuadScript.Key
import QuadScript.Quad.Operand

/-!
# Targets

Where the result of an instruction goes, and what a label or a jump refers to: a name, nothing, or
whatever stood in a program where a name should stand.
-/

namespace QuadScript

inductive Target
  | none
  | name (s : String)
  /-- Raw data in the place of a name. -/
  | raw (data : Tree)

namespace Target

instance : Inhabited Target := ⟨.none⟩

def ofTree : Tree → Target
  | .null => .none
  | .str s => .name s
  | t => .raw t

def toTree : Target → Tree
  | .none => .null
  | .name s => .str s
  | .raw t => t

/-- How listings show a target; a missing one is spelled out. -/
def display (t : Target) : String := t.toTree.text

/-- Whether there is a target that counts as something. -/
def truthy (t : Target) : Bool := t.toTree.truthy

def isNone : Target → Bool
  | .none => true
  | _ => false

/-- The temporary that a target names. -/
def temp? : Target → Option String
  | .name s => if isTempName s then some s else Option.none
  | _ => Option.none

/-- The key that a target is at the given place. -/
def key (place : Nat) (t : Target) : Except Fault Key := Key.ofTree place t.toTree

@[simp] theorem key_name (place : Nat) (s : String) :
    (Target.name s).key place = .ok (.text s) := rfl

@[simp] theorem key_none (place : Nat) : Target.none.key place = .ok .none := rfl

end Target

end QuadScript
