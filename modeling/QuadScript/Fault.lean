import QuadScript.Text.Quoted

/-!
# Faults

A fault stops the part of the work it arises in. `Fault.message` is the one place where the texts
are worded; everything else works with the causes.
-/

namespace QuadScript

/-- The sorts of raw data that program trees, rows and inputs are made of. -/
inductive Shape
  | null
  | undefined
  | bool
  | int
  | float
  | text
  | list
  | record
deriving DecidableEq, Repr

/-- The word that fault texts use for a sort of data. -/
def Shape.word : Shape → String
  | .null => "NoneType"
  | .undefined => "Undefined"
  | .bool => "bool"
  | .int => "int"
  | .float => "float"
  | .text => "str"
  | .list => "list"
  | .record => "dict"

inductive Fault
  /-- An integer beyond the doubles met an operation on doubles. -/
  | integerTooLarge
  /-- The quotient of two integers lies beyond the doubles. -/
  | quotientTooLarge
  /-- A numeral has more digits than a conversion to an integer reads. -/
  | tooManyDigits (count : Nat)
  /-- A text that should be an integer is none. -/
  | notANumeral (text : String)
  /-- Data that should be an integer is neither a number nor a text. -/
  | notNumeric (shape : Shape)
  | nanToInteger
  | infinityToInteger
  /-- A record or a table has no entry of that name. -/
  | missingKey (key : String)
  /-- Something other than a record stands where a node is expected. -/
  | notANode (shape : Shape)
  /-- Something other than a list stands where a list is expected. -/
  | notIterable (shape : Shape)
  /-- A list or a record is used as a name. -/
  | unhashable (shape : Shape)
  /-- Something other than text is to be appended to a text. -/
  | notText (shape : Shape)
  /-- The part at this place of a text that is put together is not text itself. -/
  | notJoinable (index : Nat) (shape : Shape)
  /-- Something other than a text or a list is to be cut. -/
  | notSliceable (shape : Shape)
  /-- A record is to be cut, whose names cannot be ranges. -/
  | rangeOfRecord
  /-- Something other than text or a number is to be laid out in a column. -/
  | noLayout (shape : Shape)
  /-- Something other than a name is called. -/
  | notCallable (shape : Shape)
  /-- An argument count cannot be compared with the number of arguments. -/
  | notOrdered (shape : Shape)
  /-- An argument count is not whole. -/
  | notACount (shape : Shape)
  | undefinedLabel (label : String)
  | undefinedFunction (name : String)
  /-- More instructions were executed than the ceiling allows. -/
  | stepLimit (limit : Int)
deriving DecidableEq, Repr

def Fault.message : Fault → String
  | .integerTooLarge => "int too large to convert to float"
  | .quotientTooLarge => "integer division result too large for a float"
  | .tooManyDigits count =>
    s!"Exceeds the limit (4300 digits) for integer string conversion: value has {count} digits; " ++
      "use sys.set_int_max_str_digits() to increase the limit"
  | .notANumeral text =>
    "invalid literal for int() with base 10: " ++
      String.ofList ((Text.quoted text).toList.take 200)
  | .notNumeric shape =>
    s!"int() argument must be a string, a bytes-like object or a real number, not '{shape.word}'"
  | .nanToInteger => "cannot convert float NaN to integer"
  | .infinityToInteger => "cannot convert float infinity to integer"
  | .missingKey key => Text.quoted key
  | .notANode shape => s!"'{shape.word}' object has no attribute 'get'"
  | .notIterable shape => s!"'{shape.word}' object is not iterable"
  | .unhashable shape => s!"unhashable type: '{shape.word}'"
  | .notText shape => s!"can only concatenate str (not \"{shape.word}\") to str"
  | .notJoinable index shape =>
    s!"sequence item {index}: expected str instance, {shape.word} found"
  | .notSliceable shape => s!"'{shape.word}' object is not subscriptable"
  | .rangeOfRecord => "unhashable type: 'slice'"
  | .noLayout shape => s!"unsupported format string passed to {shape.word}.__format__"
  | .notCallable shape => s!"'{shape.word}' object has no attribute 'startswith'"
  | .notOrdered shape => s!"'<' not supported between instances of 'int' and '{shape.word}'"
  | .notACount shape => s!"'{shape.word}' object cannot be interpreted as an integer"
  | .undefinedLabel label => s!"undefined label '{label}'"
  | .undefinedFunction name => s!"undefined function '{name}'"
  | .stepLimit limit => s!"possible infinite loop: more than {limit} instructions executed"

end QuadScript
