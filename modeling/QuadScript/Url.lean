import QuadScript.Text.Digit

/-!
# Locations of requests

The location that a request is made to: a path, or a whole URL of which the scheme and the path
matter. `Url.path` is the path that routes are looked up by. Routes are spelled in ASCII, so a byte
beyond it that is written as an escape need not be told from the character of the same number.
-/

namespace QuadScript

structure Url where
  scheme : List Char := []
  path : List Char := []
  query : List Char := []
deriving DecidableEq, Repr

namespace Url

/-- Controls and blanks before a URL do not belong to it. -/
def trim (cs : List Char) : List Char := cs.dropWhile (·.toNat ≤ 0x20)

/-- Tabs and line ends are ignored wherever they stand. -/
def isIgnored (c : Char) : Bool := c = '\t' || c = '\n' || c = '\r'

def isSchemeChar (c : Char) : Bool := c.isAlphanum || c = '+' || c = '-' || c = '.'

/-- The scheme before a colon, in lower case, and the rest. -/
def splitScheme (cs : List Char) : List Char × List Char :=
  let scheme := cs.takeWhile isSchemeChar
  match scheme, cs.dropWhile isSchemeChar with
  | c :: _, ':' :: rest => if c.isAlpha then (scheme.map Char.toLower, rest) else ([], cs)
  | _, _ => ([], cs)

/-- The text without the host that two slashes announce. -/
def dropHost : List Char → List Char
  | '/' :: '/' :: rest => rest.dropWhile fun c => c ≠ '/' && c ≠ '?' && c ≠ '#'
  | cs => cs

/-- The parts of a URL. The fragment after a number sign is dropped. -/
def split (cs : List Char) : Url :=
  let (scheme, rest) := splitScheme ((trim cs).filter (!isIgnored ·))
  let rest := (dropHost rest).takeWhile (· ≠ '#')
  { scheme := scheme, path := rest.takeWhile (· ≠ '?'), query := (rest.dropWhile (· ≠ '?')).tail }

/-- The value of a hexadecimal digit of an escape, which is in ASCII. -/
def digit? (c : Char) : Option Nat := if c.toNat < 0x80 then Text.hexadecimal? c else none

/-- The text with every escape, a percent sign and two hexadecimal digits, replaced by what it
stands for. -/
def unescape : List Char → List Char
  | '%' :: a :: b :: rest =>
    match digit? a, digit? b with
    | some x, some y => Char.ofNat (16 * x + y) :: unescape rest
    | _, _ => '%' :: unescape (a :: b :: rest)
  | c :: rest => c :: unescape rest
  | [] => []

/-- A path with one slash before it. -/
def rooted (cs : List Char) : List Char := '/' :: cs.dropWhile (· = '/')

/-- The URL of a request. What is left of the text after its scheme and host is a location again,
and is split once more. -/
def ofText (s : String) : Url :=
  let outer := split s.toList
  let rest := if outer.query.isEmpty then outer.path else outer.path ++ '?' :: outer.query
  { outer with path := rooted (unescape (trim (split rest).path)) }

/-- A path in which two slashes in a row are made one. -/
def mergeSlashes : List Char → List Char
  | '/' :: '/' :: rest => '/' :: mergeSlashes rest
  | c :: rest => c :: mergeSlashes rest
  | [] => []

/-- Whether a URL asks for a connection that stays open. -/
def isSocket (u : Url) : Bool := u.scheme = "ws".toList || u.scheme = "wss".toList

end Url

end QuadScript
