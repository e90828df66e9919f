import QuadScript.Key
import QuadScript.Node.Basic
import QuadScript.Scope.Kind

/-!
# Symbols

What is known of a declared name.
-/

namespace QuadScript

structure Symbol where
  name : Key
  kind : DeclKind
  inferred : Kind := .undefined
  initialized : Bool := false
  used : Bool := false
  position : Position := Position.none
  /-- The names of the parameters of what can be called. -/
  params : Option (List String) := none
  /-- The kind of the result of what can be called. -/
  returns : Option Kind := none
  builtin : Bool := false
  /-- Whether the declaration itself was reported already. -/
  hasError : Bool := false

namespace Symbol

def callable (s : Symbol) : Bool :=
  s.builtin || s.inferred = .function || s.kind = .function || s.kind = .classDecl

def display (s : Symbol) : String :=
  "Symbol(" ++ s.name.toTree.inner ++ ", " ++ s.kind.word ++ ", " ++ s.inferred.word ++ ")"

end Symbol

end QuadScript
