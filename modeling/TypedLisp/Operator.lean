/-!
# Integer arithmetic

The binary operators on 64-bit integers.  Arithmetic is that of the exact integers, and an
answer that leaves the 64-bit range is an overflow rather than a wrapped number.  Division
truncates toward zero and the remainder has the sign of the dividend; a remainder overflows
when its division does.
-/

namespace TypedLisp

/-- The binary integer operators. -/
inductive Operator where
  | add
  | sub
  | mul
  | div
  | mod
  | eq
  | lt
  | le
  | gt
  | ge
deriving DecidableEq, Repr

/-- Why an operator has no answer. -/
inductive ArithmeticCause where
  /-- The answer of the operator is not a 64-bit integer. -/
  | overflow (op : Operator)
  /-- The divisor is zero. -/
  | divisionByZero
deriving DecidableEq, Repr

/-- What an operator answers. -/
inductive Scalar where
  | int (n : Int64)
  | bool (b : Bool)
deriving DecidableEq, Repr

/-- Whether an integer fits in 64 bits. -/
def fits (n : Int) : Bool :=
  -0x8000000000000000 ≤ n && n ≤ 0x7fffffffffffffff

namespace Operator

/-- All operators. -/
def all : List Operator :=
  [add, sub, mul, div, mod, eq, lt, le, gt, ge]

/-- The name of an operator in programs. -/
def symbol : Operator → String
  | add => "+"
  | sub => "-"
  | mul => "*"
  | div => "/"
  | mod => "%"
  | eq => "="
  | lt => "<"
  | le => "<="
  | gt => ">"
  | ge => ">="

/-- An exact integer as an answer of the operator, which overflows if it does not fit. -/
def exact (op : Operator) (n : Int) : Except ArithmeticCause Scalar :=
  if fits n then .ok (.int (Int64.ofInt n)) else .error (.overflow op)

/-- The answer of an operator on exact integers. -/
def applyExact (op : Operator) (a b : Int) : Except ArithmeticCause Scalar :=
  match op with
  | add => op.exact (a + b)
  | sub => op.exact (a - b)
  | mul => op.exact (a * b)
  | div => if b = 0 then .error .divisionByZero else op.exact (a.tdiv b)
  | mod =>
    if b = 0 then .error .divisionByZero
    else if fits (a.tdiv b) then op.exact (a.tmod b)
    else .error (.overflow op)
  | eq => .ok (.bool (a == b))
  | lt => .ok (.bool (a < b))
  | le => .ok (.bool (a ≤ b))
  | gt => .ok (.bool (a > b))
  | ge => .ok (.bool (a ≥ b))

/-- The answer of an operator on two 64-bit integers. -/
def apply (op : Operator) (a b : Int64) : Except ArithmeticCause Scalar :=
  op.applyExact a.toInt b.toInt

end Operator

/-! ## Integers in text -/

/-- The number that a list of decimal digits stands for, if it is one and not empty. -/
def readDigits? (cs : List Char) : Option Nat :=
  if cs.isEmpty || !cs.all Char.isDigit then none
  else some (cs.foldl (fun n c => 10 * n + (c.toNat - '0'.toNat)) 0)

/-- Whether a name is an integer literal: decimal digits, maybe after a minus sign. -/
def isIntegerLiteral (name : String) : Bool :=
  match name.toList with
  | '-' :: digits => (readDigits? digits).isSome
  | digits => (readDigits? digits).isSome

/-- The integer that a text stands for: decimal digits, maybe after a sign. -/
def readInteger? (name : String) : Option Int :=
  match name.toList with
  | '-' :: digits => (readDigits? digits).map fun n => -(n : Int)
  | '+' :: digits => (readDigits? digits).map Int.ofNat
  | digits => (readDigits? digits).map Int.ofNat

/-- The 64-bit integer that a text stands for. -/
def readInt64? (name : String) : Option Int64 :=
  (readInteger? name).bind fun n => if fits n then some (Int64.ofInt n) else none

end TypedLisp
