/-!
# Symbols

A symbol encodes a name with ASCII letters and digits alone, so that a linker takes it.  Most
letters and all digits stand for themselves.  The letters `z` and `Z` start the code of any other
character: two letters for the common ones, and the code point in hexadecimal between `z` and `U`
for the rest.
-/

namespace TypedLisp
namespace Symbol

/-- The characters that stand for themselves. -/
def isPlain (c : Char) : Bool :=
  ('a' ≤ c && c ≤ 'y') || ('A' ≤ c && c ≤ 'Y') || ('0' ≤ c && c ≤ '9')

/-- The two letters for a common character. -/
def pair? : Char → Option (Char × Char)
  | 'z' => some ('z', 'z')
  | 'Z' => some ('Z', 'Z')
  | '(' => some ('Z', 'L')
  | ')' => some ('Z', 'R')
  | '[' => some ('Z', 'M')
  | ']' => some ('Z', 'N')
  | ':' => some ('Z', 'C')
  | '&' => some ('z', 'a')
  | '|' => some ('z', 'b')
  | '^' => some ('z', 'c')
  | '$' => some ('z', 'd')
  | '=' => some ('z', 'e')
  | '>' => some ('z', 'g')
  | '#' => some ('z', 'h')
  | '.' => some ('z', 'i')
  | '<' => some ('z', 'l')
  | '-' => some ('z', 'm')
  | '!' => some ('z', 'n')
  | '+' => some ('z', 'p')
  | '\'' => some ('z', 'q')
  | '\\' => some ('z', 'r')
  | '/' => some ('z', 's')
  | '*' => some ('z', 't')
  | '_' => some ('z', 'u')
  | '%' => some ('z', 'v')
  | _ => none

/-- The hexadecimal digits of a code point, with a zero in front of a first digit that is a
letter. -/
def hexDigits (c : Char) : List Char :=
  match Nat.toDigits 16 c.toNat with
  | [] => []
  | d :: ds => if d.isDigit then d :: ds else '0' :: d :: ds

/-- The code of a character. -/
def encodeChar (c : Char) : List Char :=
  if isPlain c then [c]
  else match pair? c with
    | some (a, b) => [a, b]
    | none => 'z' :: hexDigits c ++ ['U']

/-- The symbol of a name. -/
def ofName (name : String) : String :=
  String.ofList (name.toList.flatMap encodeChar)

end Symbol
end TypedLisp
