import QuadScript.Analysis.Walk

/-!
# Analyses

`Node.analyze` walks a program and then looks for what was declared and never used. A fault on the
way makes the analysis one fatal error, without scopes.
-/

namespace QuadScript

structure Analysis where
  diagnostics : List Diagnostic
  scopes : Option ScopeTree := none
  kinds : List (String × Kind) := []

/-- Whether a symbol is reported if it is never used. -/
def Symbol.isUnused (s : Symbol) : Bool :=
  !s.used && !s.builtin && s.kind ≠ .function && !s.hasError

/-- The warning on a symbol that is never used, which shows the name that its scope has for it. -/
def Symbol.unusedWarning (s : Symbol) (name : Key) : Diagnostic :=
  { severity := .warning
    message := "'" ++ name.display ++ "' is declared but its value is never used"
    place := ⟨s.position, .str "unknown"⟩ }

/-- `check_unused`: the warnings on unused symbols, scope after scope. -/
def ScopeTree.unusedWarnings (t : ScopeTree) : List Diagnostic :=
  (t.walk 0).flatMap fun i =>
    ((t.entries i).filter (·.2.isUnused)).map fun e => e.2.unusedWarning e.1

/-- The error that a fault in an analysis becomes. -/
def Fault.fatalError (f : Fault) : Diagnostic :=
  { severity := .error, message := "Internal error during semantic analysis: " ++ f.message
    place := Place.nowhere, fatal := true }

/-- The state of an analysis before it starts. -/
def AnalysisState.initial : AnalysisState := { tree := ScopeTree.global }

def Node.analyze (n : Node) : Analysis :=
  match (Analyze.visit n).run AnalysisState.initial with
  | .ok (_, s) =>
    { diagnostics := s.diagnostics ++ s.tree.unusedWarnings, scopes := some s.tree
      kinds := s.kinds }
  | .error f => { diagnostics := [f.fatalError] }

namespace Analysis

def errors (a : Analysis) : List Diagnostic := Diagnostic.errors a.diagnostics

def warnings (a : Analysis) : List Diagnostic := Diagnostic.warnings a.diagnostics

def isFatal (a : Analysis) : Bool := Diagnostic.fatalCount a.diagnostics ≠ 0

end Analysis

end QuadScript
