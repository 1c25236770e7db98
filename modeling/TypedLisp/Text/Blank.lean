import TypedLisp.Text.Bytes

/-!
# White space

The characters with the Unicode property `White_Space`, and the trimming of text by them.
The lexer knows fewer blanks (`Token.isSpace`); this wider class decides how far a line is
indented and where the text of a label begins and ends.
-/

namespace TypedLisp
namespace Text

/-- The characters with the property `White_Space`: ten ranges, 25 characters. -/
def isBlank (c : Char) : Bool :=
  let n := c.toNat
  (0x09 ≤ n && n ≤ 0x0D) || n == 0x20 || n == 0x85 || n == 0xA0 || n == 0x1680 ||
    (0x2000 ≤ n && n ≤ 0x200A) || (0x2028 ≤ n && n ≤ 0x2029) || n == 0x202F || n == 0x205F ||
    n == 0x3000

/-- A text without the blanks at its start. -/
def trimStart (cs : List Char) : List Char :=
  cs.dropWhile isBlank

/-- A text without the blanks at its start and at its end. -/
def trim (cs : List Char) : List Char :=
  (trimStart (trimStart cs).reverse).reverse

/-- The indentation of a line: the width of the blanks at its start. -/
def indentation (line : List Char) : Nat :=
  width (line.takeWhile isBlank)

/-- A line without the carriage return at its end, if it has one. -/
def dropReturn (line : List Char) : List Char :=
  if line.getLast? = some '\r' then line.dropLast else line

end Text
end TypedLisp
