import QuadScript.Scope.Symbol

/-!
# Scopes

The tree of lexical scopes. Scopes are numbered in the order in which they are opened, so the parent
of a scope has a smaller number. Symbols are numbered in the order in which they are declared. A
scope binds names to symbols, in the order of the names' first declaration; a symbol that is no
longer bound stays what it is for those who found it before.
-/

namespace QuadScript

inductive ScopeKind
  | global
  | function
  | block
  | classBody
deriving DecidableEq, Repr

namespace ScopeKind

def word : ScopeKind → String
  | .global => "global"
  | .function => "function"
  | .block => "block"
  | .classBody => "class"

def ofWord (s : String) : ScopeKind :=
  match s with
  | "global" => .global
  | "function" => .function
  | "class" => .classBody
  | _ => .block

end ScopeKind

structure Scope where
  kind : ScopeKind
  parent : Option Nat := none
  /-- The numbers of the symbols that names are bound to. -/
  bindings : Table Key Nat := ∅

/-- A declaration that conflicts with an earlier one. -/
inductive Conflict
  | blockScoped (name : Key)
  | declared (name : Key)
deriving DecidableEq

def Conflict.message : Conflict → String
  | .blockScoped name => "Cannot redeclare block-scoped variable '" ++ name.display ++ "'"
  | .declared name => "Identifier '" ++ name.display ++ "' has already been declared"

structure ScopeTree where
  scopes : List Scope
  /-- The symbols declared so far. -/
  declared : List Symbol := []

namespace ScopeTree

/-- A tree of one scope, which has the number zero. -/
def root (kind : ScopeKind) : ScopeTree := { scopes := [{ kind := kind }] }

def size (t : ScopeTree) : Nat := t.scopes.length

def parent? (t : ScopeTree) (i : Nat) : Option Nat := t.scopes[i]?.bind (·.parent)

def bindings (t : ScopeTree) (i : Nat) : Table Key Nat :=
  (t.scopes[i]?.map (·.bindings)).getD ∅

/-- The symbol of that number. -/
def symbol? (t : ScopeTree) (n : Nat) : Option Symbol := t.declared[n]?

/-- The symbols that the names of a scope are bound to. -/
def symbols (t : ScopeTree) (i : Nat) : List Symbol := (t.bindings i).values.filterMap t.symbol?

/-- The names of a scope, as it spells them, with their symbols. -/
def entries (t : ScopeTree) (i : Nat) : List (Key × Symbol) :=
  (t.bindings i).entries.filterMap fun e => (t.symbol? e.2).map (e.1, ·)

/-- A new scope inside the given one; its number is the number of scopes before. -/
def child (t : ScopeTree) (i : Nat) (kind : ScopeKind) : ScopeTree :=
  { t with scopes := t.scopes ++ [{ kind := kind, parent := some i }] }

def setKind (t : ScopeTree) (i : Nat) (kind : ScopeKind) : ScopeTree :=
  { t with scopes := t.scopes.modify i fun s => { s with kind := kind } }

/-- The symbol of that number changed by `f`. -/
def modifySymbol (t : ScopeTree) (n : Nat) (f : Symbol → Symbol) : ScopeTree :=
  { t with declared := t.declared.modify n f }

/-- A new symbol, to which its name is bound in a scope from now on. -/
def bind (t : ScopeTree) (i : Nat) (s : Symbol) : ScopeTree :=
  { scopes := t.scopes.modify i fun scope =>
      { scope with bindings := scope.bindings.setKey s.name t.declared.length }
    declared := t.declared ++ [s] }

/-- Whether variables of a function live in a scope of that kind. -/
def holdsVariables (kind : ScopeKind) : Bool := kind = .function || kind = .global

/-- The nearest scope of a function or of the whole program, at most `fuel` parents away. -/
def functionScopeFrom (t : ScopeTree) : Nat → Nat → Nat
  | 0, i => i
  | fuel + 1, i =>
    match t.scopes[i]? with
    | some { kind := kind, parent := some p, .. } =>
      if holdsVariables kind then i else functionScopeFrom t fuel p
    | _ => i

/-- The nearest scope of a function or of the whole program, the given one included. -/
def functionScope (t : ScopeTree) (i : Nat) : Nat := t.functionScopeFrom t.size i

/-- The number of the symbol that a name is bound to in one scope. -/
def findLocal? (t : ScopeTree) (i : Nat) (name : Key) : Option Nat := (t.bindings i).getKey? name

/-- The number of the symbol that a name stands for, at most `fuel` parents away. -/
def findFrom (t : ScopeTree) (name : Key) : Nat → Nat → Option Nat
  | 0, _ => none
  | fuel + 1, i =>
    match t.findLocal? i name with
    | some n => some n
    | none =>
      match t.parent? i with
      | some p => findFrom t name fuel p
      | none => none

/-- The number of the symbol that a name stands for: the one of the innermost scope that has it,
from the given one outward. -/
def find? (t : ScopeTree) (i : Nat) (name : Key) : Option Nat := t.findFrom name t.size i

def lookupLocal (t : ScopeTree) (i : Nat) (name : Key) : Option Symbol :=
  (t.findLocal? i name).bind t.symbol?

def lookup (t : ScopeTree) (i : Nat) (name : Key) : Option Symbol :=
  (t.find? i name).bind t.symbol?

/-- Whether a scope has a name. -/
def binds (t : ScopeTree) (i : Nat) (name : Key) : Bool := (t.findLocal? i name).isSome

/-- The conflict of a declaration in a scope with the symbols that are there already. A `let` or
`const` wants a name that the scope does not have, a `var` one that the scope of its function does
not have; all other declarations replace what was there. -/
def conflict? (t : ScopeTree) (i : Nat) (s : Symbol) : Option Conflict :=
  match s.kind with
  | .let => if t.binds i s.name then some (.blockScoped s.name) else none
  | .const => if t.binds i s.name then some (.blockScoped s.name) else none
  | .var => if t.binds (t.functionScope i) s.name then some (.declared s.name) else none
  | _ => none

/-- Declares a symbol in a scope; a conflicting declaration changes nothing. -/
def define (t : ScopeTree) (i : Nat) (s : Symbol) : ScopeTree :=
  match t.conflict? i s with
  | some _ => t
  | none => t.bind i s

/-- The scopes directly inside a scope, in the order in which they were opened. -/
def children (t : ScopeTree) (i : Nat) : List Nat :=
  (List.range t.size).filter fun j => t.parent? j = some i

def walkFrom (t : ScopeTree) : Nat → Nat → List Nat
  | 0, _ => []
  | fuel + 1, i => i :: (t.children i).flatMap (walkFrom t fuel)

/-- A scope and all scopes inside it, each before the scopes inside it. -/
def walk (t : ScopeTree) (i : Nat) : List Nat := t.walkFrom t.size i

end ScopeTree

end QuadScript
