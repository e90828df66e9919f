import QuadScript.Table
import QuadScript.Tree.Text

/-!
# Keys

What tables are looked up by. A key is nearly always a text, but a tree may have any scalar where a
name should stand. Equal numbers are one key, and the truth values are the numbers zero and one; a
table keeps the spelling that was used first. A NaN equals nothing, so what tells two of them apart
is where they stand. Lists and records are no keys.
-/

namespace QuadScript

inductive Key
  | none
  | undefined
  | bool (b : Bool)
  | number (n : Number)
  /-- The NaN that stands at a place. -/
  | nan (place : Nat)
  | text (s : String)
deriving DecidableEq

namespace Key

/-- The key that a tree is at the given place. -/
def ofTree (place : Nat) : Tree → Except Fault Key
  | .null => .ok .none
  | .undefined => .ok .undefined
  | .bool b => .ok (.bool b)
  | .num n => .ok (if n.isNaN then .nan place else .number n)
  | .str s => .ok (.text s)
  | .list _ => .error (.unhashable .list)
  | .record _ => .error (.unhashable .record)

def toTree : Key → Tree
  | .none => .null
  | .undefined => .undefined
  | .bool b => .bool b
  | .number n => .num n
  | .nan _ => .num Number.nan
  | .text s => .str s

def display (k : Key) : String := k.toTree.text

/-- The number that a key is. -/
def number? : Key → Option Number
  | .bool b => some (.int b.toNat)
  | .number n => some n
  | _ => Option.none

/-- Whether two keys are one. -/
def same (a b : Key) : Bool :=
  match a.number?, b.number? with
  | some m, some n => m.eq n
  | _, _ => a = b

@[simp] theorem ofTree_str (place : Nat) (s : String) : ofTree place (.str s) = .ok (.text s) := rfl

end Key

namespace Table

variable {α : Type}

/-- The spelling under which a table has a key, the key's own if it has none. -/
def spelling (t : Table Key α) (k : Key) : Key :=
  match k.number? with
  | some _ => ((t.entries.find? fun e => e.1.same k).map (·.1)).getD k
  | none => k

def getKey? (t : Table Key α) (k : Key) : Option α := t.get? (t.spelling k)

def setKey (t : Table Key α) (k : Key) (a : α) : Table Key α := t.set (t.spelling k) a

def eraseKey (t : Table Key α) (k : Key) : Table Key α := t.erase (t.spelling k)

@[simp] theorem spelling_text (t : Table Key α) (s : String) : t.spelling (.text s) = .text s := rfl

theorem getKey?_text (t : Table Key α) (s : String) : t.getKey? (.text s) = t.get? (.text s) := rfl

theorem setKey_text (t : Table Key α) (s : String) (a : α) :
    t.setKey (.text s) a = t.set (.text s) a := rfl

end Table

end QuadScript
