/-!
# Encodings of text

Text that is sent as bytes, without a word on its encoding. Data starts with two ASCII characters,
so the zeros among the first four bytes tell how wide the units are and which end comes first;
`Encoding.detect` reads that off, and `Encoding.decode?` reads the text.
-/

namespace QuadScript.Text

inductive Encoding
  | utf8
  /-- Units of two bytes, the high one first or last. -/
  | utf16 (highFirst : Bool)
  /-- Units of four bytes, the highest first or last. -/
  | utf32 (highFirst : Bool)
deriving DecidableEq, Repr

/-- The bytes of a text. -/
def bytes (s : String) : List Nat := s.toUTF8.toList.map UInt8.toNat

/-- What stands for a character that cannot be read. -/
def replacement : Char := '�'

/-- The character of a code point; half a surrogate pair is none. -/
def charOf (code : Nat) : Char := if code.isValidChar then Char.ofNat code else replacement

/-- The number that bytes make up. -/
def wordOf (highFirst : Bool) (bytes : List Nat) : Nat :=
  (if highFirst then bytes else bytes.reverse).foldl (fun n b => 256 * n + b) 0

/-- The units of two bytes; no byte may be left over. -/
def words16? (highFirst : Bool) : List Nat → Option (List Nat)
  | [] => some []
  | a :: b :: rest => (words16? highFirst rest).map (wordOf highFirst [a, b] :: ·)
  | _ => none

/-- The units of four bytes; no byte may be left over. -/
def words32? (highFirst : Bool) : List Nat → Option (List Nat)
  | [] => some []
  | a :: b :: c :: d :: rest => (words32? highFirst rest).map (wordOf highFirst [a, b, c, d] :: ·)
  | _ => none

def isHighSurrogate (u : Nat) : Bool := 0xD800 ≤ u && u < 0xDC00

def isLowSurrogate (u : Nat) : Bool := 0xDC00 ≤ u && u < 0xE000

/-- The characters of units of two bytes; a high and a low surrogate make up one. -/
def ofWords16 : List Nat → List Char
  | [] => []
  | [u] => [charOf u]
  | u :: v :: rest =>
    if isHighSurrogate u && isLowSurrogate v then
      Char.ofNat (0x10000 + (u - 0xD800) * 0x400 + (v - 0xDC00)) :: ofWords16 rest
    else charOf u :: ofWords16 (v :: rest)

/-- The characters of units of four bytes; each has to be a code point. -/
def ofWords32? (words : List Nat) : Option (List Char) :=
  if words.all (· < 0x110000) then some (words.map charOf) else none

namespace Encoding

def detect : List Nat → Encoding
  | [a, b] => if a = 0 then .utf16 true else if b = 0 then .utf16 false else .utf8
  | a :: b :: c :: d :: _ =>
    if a = 0 then (if b = 0 then .utf32 true else .utf16 true)
    else if b = 0 then (if c = 0 && d = 0 then .utf32 false else .utf16 false)
    else .utf8
  | _ => .utf8

/-- The text that the bytes of another text are in this encoding. -/
def decode? (encoding : Encoding) (s : String) : Option String :=
  match encoding with
  | .utf8 => some s
  | .utf16 highFirst =>
    (words16? highFirst (bytes s)).map fun words => String.ofList (ofWords16 words)
  | .utf32 highFirst => do
    return String.ofList (← ofWords32? (← words32? highFirst (bytes s)))

end Encoding

end QuadScript.Text
