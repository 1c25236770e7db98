import TypedLisp.Operator

/-!
# Values of the host

What a computation produces beyond program text: integers, truth values, texts, the unit and
functions.  A function is named rather than stored, so values can be compared and printed.
The built-in ones are the integer operators and the macro-time `first`; the type parameter
`H` holds the names of whatever functions an embedding program adds, and is `Empty` where
there are none.  Their meaning is the class `Host` of `TypedLisp.Host`.
-/

namespace TypedLisp

variable {H : Type}

/-- A function that takes its arguments one at a time. -/
inductive Curried (H : Type) where
  /-- A binary operator. -/
  | operator (op : Operator)
  /-- A binary operator that has its left operand. -/
  | operatorOn (op : Operator) (lhs : Int64)
  /-- A function of the embedding program. -/
  | host (h : H)
deriving DecidableEq

/-- A function that takes all its arguments at once. -/
inductive Variadic (H : Type) where
  /-- The first item of a list. -/
  | first
  /-- A function of the embedding program. -/
  | host (h : H)
deriving DecidableEq

/-- A value of the host. -/
inductive Value (H : Type) where
  | int (n : Int64)
  | bool (b : Bool)
  | str (text : String)
  | unit
  | func (f : Curried H)
deriving DecidableEq

/-- An operator's answer as a value. -/
def Scalar.toValue : Scalar → Value H
  | .int n => .int n
  | .bool b => .bool b

namespace Value

/-- Whether a value counts as true in a condition. -/
def isTruthy : Value H → Bool
  | int n => n != 0
  | bool b => b
  | str text => text != ""
  | unit => false
  | func _ => true

/-- The text of a value. -/
def print : Value H → String
  | int n => toString n.toInt
  | bool b => toString b
  | str text => text
  | unit => "()"
  | func _ => "<host fn>"

end Value
end TypedLisp
