import QuadScript.Number.Numeral
import QuadScript.Tree.Basic

/-!
# Reading JSON

`Tree.ofJson?` reads a JSON text. Integers stay integers, and numbers with a point or an exponent
become doubles. The words `NaN`, `Infinity` and `-Infinity` are numbers too. Of several fields of
one name the last counts, in the place of the first. An integer with too many digits makes the text
unreadable.
-/

namespace QuadScript

namespace Json

def isSpace (c : Char) : Bool := c = ' ' || c = '\t' || c = '\n' || c = '\r'

def skip (cs : List Char) : List Char := cs.dropWhile isSpace

def isDigit (c : Char) : Bool := '0' ≤ c && c ≤ '9'

/-- The number that four hexadecimal digits denote. -/
def unit? (a b c d : Char) : Option Nat := do
  let hex (c : Char) : Option Nat := if c.toNat < 128 then Text.hexadecimal? c else none
  return Text.ofDigits 16 [← hex a, ← hex b, ← hex c, ← hex d]

/-- The character that an escape letter stands for. -/
def escape? (c : Char) : Option Char :=
  match c with
  | '"' => some '"'
  | '\\' => some '\\'
  | '/' => some '/'
  | 'b' => some '\x08'
  | 'f' => some '\x0c'
  | 'n' => some '\n'
  | 'r' => some '\r'
  | 't' => some '\t'
  | _ => none

/-- The character of a code unit; one half of a pair alone has none and is replaced. -/
def ofUnit (u : Nat) : Char := if 0xd800 ≤ u && u < 0xe000 then '\ufffd' else Char.ofNat u

/-- The character of two code units, if they are a pair. -/
def ofPair? (u v : Nat) : Option Char :=
  if 0xd800 ≤ u && u < 0xdc00 && 0xdc00 ≤ v && v < 0xe000 then
    some (Char.ofNat (0x10000 + (u - 0xd800) * 0x400 + (v - 0xdc00)))
  else none

/-- The characters up to the closing quote, and the text after it. -/
def string? : List Char → Option (List Char × List Char)
  | [] => none
  | '"' :: rest => some ([], rest)
  | '\\' :: 'u' :: a :: b :: c :: d :: '\\' :: 'u' :: a' :: b' :: c' :: d' :: rest =>
    match unit? a b c d, unit? a' b' c' d' with
    | some u, some v =>
      match ofPair? u v with
      | some ch => (string? rest).map fun (cs, r) => (ch :: cs, r)
      | none =>
        (string? ('\\' :: 'u' :: a' :: b' :: c' :: d' :: rest)).map fun (cs, r) =>
          (ofUnit u :: cs, r)
    | _, _ => none
  | '\\' :: 'u' :: a :: b :: c :: d :: rest =>
    match unit? a b c d with
    | some u => (string? rest).map fun (cs, r) => (ofUnit u :: cs, r)
    | none => none
  | '\\' :: c :: rest =>
    match escape? c with
    | some ch => (string? rest).map fun (cs, r) => (ch :: cs, r)
    | none => none
  | c :: rest => if c.toNat < 0x20 then none else (string? rest).map fun (cs, r) => (c :: cs, r)

/-- The digits after a point, if there is a point with digits after it; else nothing is taken. -/
def fraction (cs : List Char) : List Char × List Char :=
  match cs with
  | '.' :: rest =>
    if (rest.takeWhile isDigit).isEmpty then ([], cs)
    else ('.' :: rest.takeWhile isDigit, rest.dropWhile isDigit)
  | _ => ([], cs)

/-- The exponent, if there is one with digits; else nothing is taken. -/
def exponent (cs : List Char) : List Char × List Char :=
  match cs with
  | c :: rest =>
    if Numeral.isExponentMark c then
      let (sign, digits) := match rest with
        | '-' :: after => (['-'], after)
        | '+' :: after => (['+'], after)
        | _ => ([], rest)
      if (digits.takeWhile isDigit).isEmpty then ([], cs)
      else (c :: sign ++ digits.takeWhile isDigit, digits.dropWhile isDigit)
    else ([], cs)
  | [] => ([], cs)

/-- The digits before the point: a zero alone, or digits that do not start with one. -/
def whole? : List Char → Option (List Char × List Char)
  | '0' :: rest => some (['0'], rest)
  | c :: rest =>
    if isDigit c then some (c :: rest.takeWhile isDigit, rest.dropWhile isDigit) else none
  | [] => none

/-- A number, its sign given apart. -/
def number? (sign : List Char) (cs : List Char) : Option (Tree × List Char) := do
  let (digits, rest) ← whole? cs
  let (fractional, rest) := fraction rest
  let (power, rest) := exponent rest
  if fractional.isEmpty && power.isEmpty then
    let i ← Numeral.integer? (sign ++ digits)
    if Numeral.digitLimit < i.digits.length then none else some (.num (.int i.value), rest)
  else
    let x ← Numeral.decimal? (sign ++ digits ++ fractional ++ power)
    some (.num (.float x), rest)

/-- A scalar other than a string. -/
def scalar? : List Char → Option (Tree × List Char)
  | 'n' :: 'u' :: 'l' :: 'l' :: rest => some (.null, rest)
  | 't' :: 'r' :: 'u' :: 'e' :: rest => some (.bool true, rest)
  | 'f' :: 'a' :: 'l' :: 's' :: 'e' :: rest => some (.bool false, rest)
  | 'N' :: 'a' :: 'N' :: rest => some (.num Number.nan, rest)
  | 'I' :: 'n' :: 'f' :: 'i' :: 'n' :: 'i' :: 't' :: 'y' :: rest =>
    some (.num (Number.infinity false), rest)
  | '-' :: 'I' :: 'n' :: 'f' :: 'i' :: 'n' :: 'i' :: 't' :: 'y' :: rest =>
    some (.num (Number.infinity true), rest)
  | '-' :: rest => number? ['-'] rest
  | cs => number? [] cs

mutual

/-- A value at the start of a text, and the text after it. The number bounds the depth of calls. -/
def value? : Nat → List Char → Option (Tree × List Char)
  | 0, _ => none
  | n + 1, cs =>
    match skip cs with
    | '"' :: rest => (string? rest).map fun (s, r) => (.str (String.ofList s), r)
    | '[' :: rest =>
      match skip rest with
      | ']' :: rest => some (.list [], rest)
      | rest => (items? n rest).map fun (ts, r) => (.list ts, r)
    | '\x7b' :: rest =>
      match skip rest with
      | '\x7d' :: rest => some (.record [], rest)
      | rest => (fields? n rest).map fun (fs, r) => (Tree.ofFields fs, r)
    | cs => scalar? cs

/-- The items up to the closing bracket. -/
def items? : Nat → List Char → Option (List Tree × List Char)
  | 0, _ => none
  | n + 1, cs =>
    match value? n cs with
    | none => none
    | some (t, rest) =>
      match skip rest with
      | ',' :: rest => (items? n rest).map fun (ts, r) => (t :: ts, r)
      | ']' :: rest => some ([t], rest)
      | _ => none

/-- The fields up to the closing brace. -/
def fields? : Nat → List Char → Option (List (String × Tree) × List Char)
  | 0, _ => none
  | n + 1, cs =>
    match skip cs with
    | '"' :: rest =>
      match string? rest with
      | none => none
      | some (name, rest) =>
        match skip rest with
        | ':' :: rest =>
          match value? n rest with
          | none => none
          | some (t, rest) =>
            match skip rest with
            | ',' :: rest =>
              (fields? n rest).map fun (fs, r) => ((String.ofList name, t) :: fs, r)
            | '\x7d' :: rest => some ([(String.ofList name, t)], rest)
            | _ => none
        | _ => none
    | _ => none

end

end Json

/-- The tree that a JSON text denotes; nothing but white space may stand around it. -/
def Tree.ofJson? (text : String) : Option Tree :=
  let cs := text.toList
  match Json.value? (2 * cs.length + 2) cs with
  | some (t, rest) => if (Json.skip rest).isEmpty then some t else none
  | none => none

end QuadScript
