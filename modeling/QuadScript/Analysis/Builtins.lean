import QuadScript.Scope.Basic

/-!
# Builtin names

The names that every program can use without declaring them.
-/

namespace QuadScript

/-- A builtin value of a kind. -/
def builtin (name : String) (kind : Kind) : Symbol :=
  { name := .text name, kind := .var, inferred := kind, initialized := true, builtin := true }

/-- A builtin function, with the kind of its result if that is known. -/
def builtinFunction (name : String) (returns : Option Kind) : Symbol :=
  { name := .text name, kind := .function, inferred := .function, initialized := true
    builtin := true, returns := returns }

def builtins : List Symbol :=
  [builtin "console" .object, builtin "window" .object, builtin "document" .object,
    builtin "Math" .object, builtin "JSON" .object, builtinFunction "Array" none,
    builtinFunction "Object" none, builtinFunction "String" (some .string),
    builtinFunction "Number" (some .number), builtinFunction "Boolean" (some .boolean),
    builtinFunction "Date" none, builtinFunction "RegExp" none,
    builtinFunction "parseInt" (some .number), builtinFunction "parseFloat" (some .number),
    builtinFunction "prompt" (some .string), builtinFunction "isNaN" (some .boolean),
    builtinFunction "isFinite" (some .boolean), builtinFunction "eval" none,
    builtinFunction "setTimeout" none, builtinFunction "setInterval" none,
    builtinFunction "clearTimeout" none, builtinFunction "clearInterval" none,
    builtin "undefined" .undefined, builtin "NaN" .number, builtin "Infinity" .number]

/-- The scope tree at the start of an analysis: one global scope with the builtins. -/
def ScopeTree.global : ScopeTree :=
  builtins.foldl (fun t s => t.bind 0 s) (ScopeTree.root .global)

end QuadScript
