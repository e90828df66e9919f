import QuadScript.Analysis.Basic

/-!
# Symbol tables and reports

The symbols of an analysis as rows, in the order of the scopes, with the path of the scope that each
belongs to; what there is of each sort; and the report that puts it all into text.
-/

namespace QuadScript

/-- A symbol with the path and the depth of its scope. -/
structure SymbolRow where
  symbol : Symbol
  scope : String
  depth : Nat

def SymbolRow.toTree (r : SymbolRow) : Tree :=
  .record [("name", r.symbol.name.toTree), ("kind", r.symbol.kind.toTree),
    ("inferred", .str r.symbol.inferred.word), ("scope", .str r.scope), ("depth", .int r.depth),
    ("used", .bool r.symbol.used), ("initialized", .bool r.symbol.initialized),
    ("line", r.symbol.position.line), ("column", r.symbol.position.column)]

namespace ScopeTree

/-- The symbols of one scope that a program declared. -/
def rowsOf (t : ScopeTree) (i : Nat) (path : String) (depth : Nat) : List SymbolRow :=
  ((t.symbols i).filter (!·.builtin)).map fun s => ⟨s, path, depth⟩

/-- The path of the scope with this number among the scopes directly inside another. -/
def childPath (t : ScopeTree) (path : String) (child index : Nat) : String :=
  let kind := ((t.scopes[child]?).map (·.kind)).getD .block
  path ++ "." ++ kind.word ++ toString index

def rowsFrom (t : ScopeTree) : Nat → Nat → String → Nat → List SymbolRow
  | 0, _, _, _ => []
  | fuel + 1, i, path, depth =>
    t.rowsOf i path depth ++
      (t.children i).zipIdx.flatMap fun (child, index) =>
        rowsFrom t fuel child (t.childPath path child index) (depth + 1)

def rows (t : ScopeTree) : List SymbolRow := t.rowsFrom t.size 0 ScopeKind.global.word 0

end ScopeTree

/-- How many symbols there are of each sort. -/
structure Statistics where
  variableCount : Nat
  constantCount : Nat
  functionCount : Nat
  parameterCount : Nat
  unusedCount : Nat

namespace Statistics

def ofRows (rows : List SymbolRow) : Statistics :=
  let count (p : Symbol → Bool) := (rows.filter fun r => p r.symbol).length
  { variableCount := count fun s => s.kind = .let || s.kind = .var
    constantCount := count fun s => s.kind = .const
    functionCount := count fun s => s.kind = .function || s.kind = .classDecl
    parameterCount := count fun s => s.kind = .parameter
    unusedCount := count fun s => !s.used }

def toTree (s : Statistics) : Tree :=
  .record [("variables", .int s.variableCount), ("constants", .int s.constantCount),
    ("functions", .int s.functionCount), ("parameters", .int s.parameterCount),
    ("unused", .int s.unusedCount)]

end Statistics

/-- A text filled with blanks up to a width. -/
def padRight (width : Nat) (s : String) : String :=
  s ++ String.ofList (List.replicate (width - s.length) ' ')

/-- A declaration kind as a column of a report. -/
def DeclKind.column : DeclKind → Except Fault String
  | .unnamed shape => .error (.noLayout shape)
  | kind => .ok kind.word

namespace SymbolRow

def yesNo (b : Bool) : String := if b then "yes" else "no"

/-- A row of the symbol table, its name indented by the depth of its scope. The name has to be a
text. -/
def line (r : SymbolRow) : Except Fault String := do
  let name ← Tree.append (String.ofList (List.replicate (2 * r.depth) ' ')) r.symbol.name.toTree
  let kind ← r.symbol.kind.column
  return padRight 24 name ++ padRight 12 kind ++ padRight 20 r.scope ++ yesNo r.symbol.used ++
    "\t" ++ yesNo r.symbol.initialized

end SymbolRow

namespace Diagnostic

/-- A diagnostic as an item of a list, with what stands at its place if that is known. -/
def lines (number : Nat) (d : Diagnostic) : List String :=
  let line := d.place.position.line.text
  let column := d.place.position.column.text
  let first := s!"{number}. [Line {line}, Column {column}] " ++ d.message
  if d.place.node.isText "unknown" then [first] else [first, "   Node kind: " ++ d.place.node.text]

/-- A titled list of diagnostics; nothing if there are none. -/
def titled (title : String) (ds : List Diagnostic) : List String :=
  if ds.isEmpty then []
  else title :: (ds.zipIdx 1).flatMap (fun (d, i) => d.lines i) ++ [""]

end Diagnostic

namespace Analysis

def rows (a : Analysis) : List SymbolRow :=
  match a.scopes with
  | some t => t.rows
  | none => []

def statistics (a : Analysis) : Statistics := Statistics.ofRows a.rows

/-- The lines of a report; a row that cannot be laid out is a fault. -/
def reportLines (a : Analysis) : Except Fault (List String) := do
  let symbols ← a.rows.mapM SymbolRow.line
  let stats := a.statistics
  return ["=== SEMANTIC ANALYSIS ===", "", s!"Semantic errors: {a.errors.length}",
      s!"Warnings: {a.warnings.length}", ""] ++
    Diagnostic.titled "ERRORS:" a.errors ++ Diagnostic.titled "WARNINGS:" a.warnings ++
    ["SYMBOL TABLE:",
      padRight 24 "Name" ++ padRight 12 "Kind" ++ padRight 20 "Scope" ++ "Used\tInitialized",
      String.ofList (List.replicate 80 '-')] ++
    symbols ++
    ["", "STATISTICS:", s!"Variables: {stats.variableCount}", s!"Constants: {stats.constantCount}",
      s!"Functions: {stats.functionCount}", s!"Parameters: {stats.parameterCount}",
      s!"Unused symbols: {stats.unusedCount}"]

def report (a : Analysis) : Except Fault String :=
  return "\n".intercalate (← a.reportLines)

end Analysis

end QuadScript
