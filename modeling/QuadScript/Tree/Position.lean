import QuadScript.Tree.Basic

/-!
# Positions

Where in the source text a node stands. Lines and columns are passed on as the tree gives them.
-/

namespace QuadScript

structure Position where
  line : Tree
  column : Tree

/-- The position of what carries none. -/
def Position.none : Position := ⟨.int 0, .int 0⟩

namespace Tree

/-- The line and column fields of a record, zero where they are missing or empty. -/
def lineColumn (t : Tree) : Except Fault Position :=
  return ⟨(← t.get "line").orElse (.int 0), (← t.get "column").orElse (.int 0)⟩

/-- The start of the location of a node, if it has a location with a start. -/
def locationStart? (t : Tree) : Except Fault (Option Tree) := do
  let location ← t.get "loc"
  if !location.truthy then return Option.none
  let start ← location.get "start"
  return if start.truthy then some start else Option.none

/-- The position of a node: the start of its location, else its own line and column. -/
def position (t : Tree) : Except Fault Position := do
  if !t.truthy then return Position.none
  match ← t.locationStart? with
  | some start => start.lineColumn
  | Option.none => t.lineColumn

end Tree

end QuadScript
