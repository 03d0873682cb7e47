import Scoped.Error

/-!
# Literals

What the texts of literals denote. A numeral without a point is an integer and has to fit
into 64 bits; one with a point is the double nearest to it. In a string a backslash gives
the character after it another meaning.
-/

namespace Scoped.Literal

/-- The value of a digit. -/
def digitValue (c : Char) : Nat := c.toNat - '0'.toNat

/-- The number that decimal digits denote. -/
def digitsValue (cs : List Char) : Nat := cs.foldl (fun n c => 10 * n + digitValue c) 0

/-- The integer that a numeral without a point denotes. There is none above the greatest one of
64 bits, and none for a text that is not made of digits. -/
def integer? (cs : List Char) : Option Number :=
  if cs.isEmpty || !cs.all Char.isDigit then none else Number.ofInt? (digitsValue cs)

/-- The double that digits around a point denote. -/
def decimal? (cs : List Char) : Option Number :=
  match cs.dropWhile Char.isDigit with
  | '.' :: fraction =>
    let digits := cs.takeWhile Char.isDigit ++ fraction
    if digits.isEmpty || !fraction.all Char.isDigit then none
    else some (.float (Float.ofScientific (digitsValue digits) true fraction.length))
  | _ => none

/-- What a numeral denotes, with a point or without one. -/
def ofNumeral? (cs : List Char) : Option Literal :=
  if cs.contains '.' then (decimal? cs).map number else (integer? cs).map number

/-- The character that a backslash makes of the character after it. -/
def unescapeChar : Char → Char
  | 'n' => '\n'
  | 't' => '\t'
  | 'r' => '\r'
  | '0' => '\x00'
  | c => c

/-- The characters that stand for others are replaced. `read` holds the characters before,
the last one first. A backslash at the end stands for itself. -/
def unescapeFrom (read : List Char) : List Char → List Char
  | [] => read.reverse
  | ['\\'] => ('\\' :: read).reverse
  | '\\' :: c :: cs => unescapeFrom (unescapeChar c :: read) cs
  | c :: cs => unescapeFrom (c :: read) cs

/-- The text that the characters between the quotes of a string denote. -/
def unescape (cs : List Char) : List Char := unescapeFrom [] cs

end Scoped.Literal
