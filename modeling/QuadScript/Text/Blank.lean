/-!
# White space

White space is the set that a program's text conversions skip: the controls that move or separate,
and the characters of the Unicode space categories. The byte order mark U+FEFF and the zero-width
space U+200B do not belong to it.
-/

namespace QuadScript.Text

/-- The runs of white space, first and last code point of each, in increasing order. -/
def blankRuns : List (Nat × Nat) :=
  [(0x9, 0xd), (0x1c, 0x20), (0x85, 0x85), (0xa0, 0xa0), (0x1680, 0x1680), (0x2000, 0x200a),
    (0x2028, 0x2029), (0x202f, 0x202f), (0x205f, 0x205f), (0x3000, 0x3000)]

def isBlank (c : Char) : Bool :=
  blankRuns.any fun (first, last) => first ≤ c.toNat && c.toNat ≤ last

/-- The text without the white space at its start. -/
def stripLeft (cs : List Char) : List Char := cs.dropWhile isBlank

/-- The text without the white space at its start and at its end. -/
def strip (cs : List Char) : List Char := (stripLeft (stripLeft cs).reverse).reverse

end QuadScript.Text
