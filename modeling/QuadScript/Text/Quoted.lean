import QuadScript.Text.Printable

/-!
# Quoted text

`quoted s` is `s` between quotes, as fault texts and the texts of lists and records show it. The
quote is single, unless the text has a single quote and no double one. The quote and the backslash
are escaped, and so is every character that is not printable.
-/

namespace QuadScript.Text

/-- The last `width` hexadecimal digits of `n`, in lower case. -/
def hexDigits (width n : Nat) : List Char :=
  ((List.range width).map fun i => Nat.digitChar (n / Nat.pow 16 i % 16)).reverse

/-- A character that is not printable, by its code point in as few digits as the form allows. -/
def escaped (c : Char) : List Char :=
  if c.toNat ≤ 0xff then '\\' :: 'x' :: hexDigits 2 c.toNat
  else if c.toNat ≤ 0xffff then '\\' :: 'u' :: hexDigits 4 c.toNat
  else '\\' :: 'U' :: hexDigits 8 c.toNat

/-- How one character is written between quotes `q`. -/
def quotedChar (q c : Char) : List Char :=
  if c = q || c = '\\' then ['\\', c]
  else if c = '\n' then ['\\', 'n']
  else if c = '\r' then ['\\', 'r']
  else if c = '\t' then ['\\', 't']
  else if isPrintable c then [c]
  else escaped c

def quoteFor (cs : List Char) : Char :=
  if cs.contains '\'' && !cs.contains '"' then '"' else '\''

def quoted (s : String) : String :=
  let q := quoteFor s.toList
  String.ofList (q :: s.toList.flatMap (quotedChar q) ++ [q])

end QuadScript.Text
