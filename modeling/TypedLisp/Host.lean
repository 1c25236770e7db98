import TypedLisp.Bindings
import TypedLisp.Error.Basic
import TypedLisp.Node.Basic

/-!
# Functions of the host

What the functions of the host answer.  The built-in ones are defined here; those that an
embedding program adds are an instance of the class `Host`.
-/

namespace TypedLisp

variable {H : Type}

/-- The meaning of the functions that an embedding program adds. -/
class Host (H : Type) where
  /-- The answer of a function of one argument at a time. -/
  apply : H → Node H → Except Error (Value H)
  /-- The answer of a function of all its arguments at once. -/
  call : H → List (Node H) → Except Error (Node H)

/-- Without added functions there is nothing to say. -/
instance : Host Empty where
  apply h := nomatch h
  call h := nomatch h

/-- The integer that an evaluated argument stands for. -/
def Node.toInt64 (n : Node H) : Except Error Int64 :=
  match n.kind with
  | .value (.int i) => .ok i
  | .atom name =>
    match readInt64? name with
    | some i => .ok i
    | none => .error (.typeAt [n.span] (.notAnInteger name))
  | _ => .error (.typeAt [n.span] (.integerExpected n.kindName))

/-- The answer of an operator on two 64-bit integers, as a value. -/
def Operator.value (op : Operator) (a b : Int64) : Except Error (Value H) :=
  match op.apply a b with
  | .ok scalar => .ok scalar.toValue
  | .error cause => .error (.typeAt [] (.arithmetic cause))

/-- The first item of the only argument. -/
def firstOf : List (Node H) → Except Error (Node H)
  | [arg] =>
    match arg.kind with
    | .list (item :: _) => .ok item
    | _ => .error (.typeAt [arg.span] .firstOfNothing)
  | args => .error (.typeAt [] (.firstArity args.length))

/-- The answer of a function for one argument. -/
def Curried.apply [Host H] (f : Curried H) (arg : Node H) : Except Error (Value H) :=
  match f with
  | .operator op => arg.toInt64.map fun lhs => .func (.operatorOn op lhs)
  | .operatorOn op lhs => arg.toInt64.bind fun rhs => op.value lhs rhs
  | .host h => Host.apply h arg

/-- The answer of a function for all its arguments. -/
def Variadic.call [Host H] (f : Variadic H) (args : List (Node H)) : Except Error (Node H) :=
  match f with
  | .first => firstOf args
  | .host h => Host.call h args

/-! ## Environments -/

/-- What the names of a program stand for: the environment of an evaluation, the substitution
of an expansion, or a program's constants. -/
abbrev Scope (H : Type) := Bindings (Node H)

/-- The environment of programs: the integer operators. -/
def prelude : Scope H :=
  .ofList (Operator.all.map fun op => (op.symbol, .value (.func (.operator op)) none))

/-- The environment of macros: `first`. -/
def macroPrelude : Scope H :=
  .ofList [("first", .procedure .first)]

end TypedLisp
