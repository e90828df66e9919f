/-!
# Kinds of values

What an analysis can say about a value without running the program.
-/

namespace QuadScript

inductive Kind
  | number
  | string
  | boolean
  | function
  | object
  | undefined
  | unknown
  | other (word : String)
deriving DecidableEq, Repr

namespace Kind

def word : Kind → String
  | .number => "number"
  | .string => "string"
  | .boolean => "boolean"
  | .function => "function"
  | .object => "object"
  | .undefined => "undefined"
  | .unknown => "unknown"
  | .other word => word

def ofWord (s : String) : Kind :=
  match s with
  | "number" => .number
  | "string" => .string
  | "boolean" => .boolean
  | "function" => .function
  | "object" => .object
  | "undefined" => .undefined
  | "unknown" => .unknown
  | _ => .other s

@[simp] theorem word_ofWord (s : String) : (ofWord s).word = s := by
  unfold ofWord
  split <;> rfl

end Kind

end QuadScript
