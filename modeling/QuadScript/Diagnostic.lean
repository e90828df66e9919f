import QuadScript.Node.Basic

/-!
# Diagnostics

The errors and warnings of an analysis, in the order in which they arise.
-/

namespace QuadScript

inductive Severity
  | error
  | warning
deriving DecidableEq, Repr

def Severity.word : Severity → String
  | .error => "error"
  | .warning => "warning"

/-- Where a diagnostic points to: a position, and what stands there. -/
structure Place where
  position : Position
  node : Tree

namespace Place

/-- The place of what is no node. -/
def nowhere : Place := ⟨Position.none, .str "unknown"⟩

/-- The place of a raw tree. -/
def ofTree (t : Tree) : Except Fault Place := do
  let position ← t.position
  if t.truthy then return ⟨position, (← t.get? "type").getD (.str "unknown")⟩
  else return ⟨position, .str "unknown"⟩

end Place

def Mark.place (m : Mark) : Except Fault Place :=
  return ⟨← m.position, m.kind.getD (.str "unknown")⟩

def Node.place (n : Node) : Except Fault Place := do
  match ← n.mark? with
  | some mark => mark.place
  | none => return Place.nowhere

structure Diagnostic where
  severity : Severity
  message : String
  place : Place
  fatal : Bool := false

namespace Diagnostic

def toTree (d : Diagnostic) : Tree :=
  .record [("type", .str d.severity.word), ("message", .str d.message),
    ("line", d.place.position.line), ("column", d.place.position.column), ("node", d.place.node)]

def display (d : Diagnostic) : String :=
  let line := d.place.position.line.text
  let column := d.place.position.column.text
  s!"{d.severity.word} (line {line}, column {column}): " ++ d.message

def errors (ds : List Diagnostic) : List Diagnostic := ds.filter (·.severity = .error)

def warnings (ds : List Diagnostic) : List Diagnostic := ds.filter (·.severity = .warning)

def fatalCount (ds : List Diagnostic) : Nat := (ds.filter (·.fatal)).length

end Diagnostic

/-- A program text that cannot be read. -/
structure SyntaxError where
  message : String
  line : Int := 0
  column : Int := 0

namespace SyntaxError

/-- The message with the position, if it is known. -/
def display (e : SyntaxError) : String :=
  if 0 < e.line then s!"{e.message} (line {e.line}, column {e.column})" else e.message

def toTree (e : SyntaxError) : Tree :=
  .record [("type", .str Severity.error.word), ("message", .str ("Syntax error: " ++ e.message)),
    ("line", .int e.line), ("column", .int e.column), ("node", .str "unknown")]

end SyntaxError

end QuadScript
