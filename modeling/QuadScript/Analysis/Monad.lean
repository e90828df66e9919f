import QuadScript.Diagnostic
import QuadScript.Scope.Basic

/-!
# Analysis actions

The state of an analysis: the scopes with the current one, the functions being walked, and what has
been found so far. Scopes and functions are opened by `inScope` and `inFunction` only, which close
them again.
-/

namespace QuadScript

/-- A function that is being walked: the number of its symbol, if it has one. -/
structure Activation where
  owner : Option Nat
  hasReturn : Bool := false

structure AnalysisState where
  tree : ScopeTree
  current : Nat := 0
  /-- The functions being walked, the innermost first. -/
  functions : List Activation := []
  diagnostics : List Diagnostic := []
  /-- The kinds of the expressions walked, by their paths. -/
  kinds : List (String × Kind) := []

/-- An action of the analysis; a fault ends the analysis. -/
abbrev Analyze := StateT AnalysisState (Except Fault)

/-- A number of the path to a node. Paths are numbered from their characters, and all numbers are
even, so no two paths have the same one and there are others for what has no path. -/
def Mark.site (mark : Mark) : Nat :=
  2 * mark.path.toList.foldl (fun n c => 0x110000 * n + c.toNat + 1) 0

namespace Analyze

def report (severity : Severity) (message : String) (place : Except Fault Place) :
    Analyze Unit := do
  let place ← liftM place
  modify fun s => { s with diagnostics := s.diagnostics ++ [⟨severity, message, place, false⟩] }

def error (message : String) (place : Except Fault Place) : Analyze Unit :=
  report .error message place

def warning (message : String) (place : Except Fault Place) : Analyze Unit :=
  report .warning message place

/-- Goes to a new scope inside the current one (`enter_scope`). -/
def enterScope (kind : ScopeKind) : Analyze Unit :=
  modify fun s => { s with tree := s.tree.child s.current kind, current := s.tree.size }

/-- Goes to the scope around the current one, if there is one (`exit_scope`). -/
def exitScope : Analyze Unit :=
  modify fun s => { s with current := (s.tree.parent? s.current).getD s.current }

/-- Runs an action in a new scope inside the current one. -/
def inScope {α : Type} (kind : ScopeKind) (action : Analyze α) : Analyze α := do
  enterScope kind
  let a ← action
  exitScope
  return a

/-- Runs an action as the body of a function, in a scope of its own; whether there was a return
(`visit_function`). -/
def inFunction (owner : Option Nat) (action : Analyze Unit) : Analyze Bool :=
  inScope .function do
    modify fun s => { s with functions := ⟨owner, false⟩ :: s.functions }
    action
    let functions := (← get).functions
    modify fun s => { s with functions := functions.tail }
    return (functions.head?.map (·.hasReturn)).getD false

/-- Notes that the innermost function returns. -/
def markReturn : Analyze Unit :=
  modify fun s =>
    { s with functions :=
        match s.functions with
        | f :: rest => { f with hasReturn := true } :: rest
        | [] => [] }

def modifySymbol (n : Nat) (f : Symbol → Symbol) : Analyze Unit :=
  modify fun s => { s with tree := s.tree.modifySymbol n f }

/-- The key of the name that a node has or gives. A NaN is the same as itself only, so it is told
from others by its node. -/
def key (mark : Mark) (name : Tree) : Analyze Key := liftM (Key.ofTree mark.site name)

/-- The key of the name of a parameter. The name comes without its node, so a NaN is told from others
by the number of symbols there are, at a place that no node has. -/
def paramKey (name : Tree) : Analyze Key := do
  let count := (← get).tree.declared.length
  liftM (Key.ofTree (2 * count + 1) name)

/-- The symbol that the name of a node stands for, with its number. -/
def lookup (mark : Mark) : Analyze (Option (Nat × Symbol)) := do
  let name ← key mark mark.nameTree
  let state ← get
  return do
    let n ← state.tree.find? state.current name
    let symbol ← state.tree.symbol? n
    return (n, symbol)

/-- Declares a symbol in a scope; the conflict, if there is one. -/
def define (scope : Nat) (symbol : Symbol) : Analyze (Option Conflict) := do
  let conflict := (← get).tree.conflict? scope symbol
  modify fun s => { s with tree := s.tree.define scope symbol }
  return conflict

/-- Notes the kind of an expression. -/
def record (mark : Mark) (kind : Option Kind) : Analyze (Option Kind) := do
  match kind with
  | some k =>
    modify fun s => { s with kinds := s.kinds ++ [(mark.path, k)] }
    return kind
  | none => return none

end Analyze

end QuadScript
