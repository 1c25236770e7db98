/-!
# Rows of a text

A report numbers the rows of a source from 1 and its characters from 0.  A row ends at a line
terminator of Unicode, where a carriage return and a line feed after it are one terminator; a
terminator at the very end of a text starts no further row.
-/

namespace TypedLisp
namespace Text

/-- The characters that end a row. -/
def isTerminator (c : Char) : Bool :=
  c == '\n' || c == '\r' || c == '\x0b' || c == '\x0c' || c == '\u0085' || c == '\u2028' ||
    c == '\u2029'

/-- The characters, from number `i` on, at which the rows after the current one start. -/
def laterRows (i : Nat) : List Char → List Nat
  | [] => []
  | ['\r', '\n'] => []
  | '\r' :: '\n' :: cs => (i + 2) :: laterRows (i + 2) cs
  | [_] => []
  | c :: cs => if isTerminator c then (i + 1) :: laterRows (i + 1) cs else laterRows (i + 1) cs

/-- The characters at which the rows of a text start. -/
def rowStarts (cs : List Char) : List Nat :=
  0 :: laterRows 0 cs

/-- The row of a character, given where the rows start. -/
def rowOf (starts : List Nat) (i : Nat) : Nat :=
  (starts.filter (· ≤ i)).length

/-- How far a character is from the start of its row, given where the rows start. -/
def columnOf (starts : List Nat) (i : Nat) : Nat :=
  i - (starts.filter (· ≤ i)).getLastD 0

end Text
end TypedLisp
