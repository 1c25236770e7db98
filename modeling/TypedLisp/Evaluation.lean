import TypedLisp.Expansion

/-!
# Evaluation

Values, texts, keywords and literal functions are their own values, an integer literal is an
integer, and another name has the value of what it is bound to.  A quotation gives what it
quotes, with the items of a list evaluated once.  Any other list is a conditional or a call.

A function is applied by substitution: the argument takes the place of the parameter in the body
by expansion, and what results is evaluated in the environment of the call.  The environment
never changes, so there are no closures.

A program may run without end.  Evaluation therefore takes the depth that it may go to, and
fails as endless when that is not enough; what it answers does not depend on the depth otherwise.
-/

namespace TypedLisp

variable {H : Type}

section Step

/-! ## One step

The functions of this section are one level of evaluation; the levels below it are parameters,
as is the expansion of the body of a function. -/

variable (evaluate : Scope H → Node H → Outcome (Node H))
variable (expand : Scope H → Node H → Outcome (Expanded H))

/-- The value of a name. -/
def evaluateAtom (env : Scope H) (expr : Node H) (name : String) : Outcome (Node H) :=
  if isIntegerLiteral name then
    match readInt64? name with
    | some i => .ok ((Node.value (.int i) expr.span).withType expr.type)
    | none => Outcome.typeError [expr.span] (.literalTooLarge name)
  else
    match env.get? name with
    | some bound => (evaluate env bound).map fun v => v.relocated expr.span
    | none => Outcome.raise (.reference name expr.span)

/-- What a quotation gives: the items of a list are evaluated, anything else is left alone. -/
def evaluateQuoted (env : Scope H) (inner : Node H) : Outcome (Node H) :=
  match inner.kind with
  | .list items => do
    let values ← items.mapM (evaluate env)
    return (Node.list values inner.span).withType inner.type
  | _ => .ok inner

/-- A function of one parameter that is at `span`, applied to an argument. -/
def substitute (env : Scope H) (span : Option Span) (params : List (Node H)) (body arg : Node H) :
    Outcome (Node H) :=
  match params with
  | [param] =>
    match param.atom? with
    | none => Outcome.typeError [param.span] .paramNotAtom
    | some name => do
      let e ← expand (Bindings.empty.insert name arg) body
      match e.node? with
      | some body => evaluate env body
      | none => Outcome.typeError [body.span] .bodyExpandsToNothing
  | _ => Outcome.typeError [span] (.lambdaArity params.length)

/-- A callee applied to one evaluated argument. -/
def applyNode [Host H] (env : Scope H) (callee arg : Node H) : Outcome (Node H) :=
  match callee.kind with
  | .value (.func f) => (Outcome.ofExcept (f.apply arg)).map fun v => .value v none
  | .procedure f => Outcome.ofExcept (f.call [arg])
  | _ =>
    match callee.lambda? with
    | some (params, body) => substitute evaluate expand env callee.span params body arg
    | none => Outcome.typeError [callee.span] (.notCallable callee.kindName)

/-- A callee applied to arguments, one at a time.  An error without a place is put at the call. -/
def applyAll [Host H] (env : Scope H) (span : Option Span) :
    Node H → List (Node H) → Outcome (Node H)
  | callee, [] => .ok callee
  | callee, arg :: args => do
    let value ← evaluate env arg
    let result ← (applyNode evaluate expand env callee value).orAt span
    applyAll env span result args

/-- A call at `span`.  A procedure gets all its arguments at once. -/
def callNode [Host H] (env : Scope H) (span : Option Span) (callee : Node H)
    (args : List (Node H)) : Outcome (Node H) :=
  match callee.kind with
  | .procedure f => do
    let values ← args.mapM (evaluate env)
    (Outcome.ofExcept (f.call values)).orAt span
  | _ => applyAll evaluate expand env span callee args

/-- Whether an evaluated condition holds. -/
def conditionHolds (source condition : Node H) : Outcome Bool :=
  match condition.kind with
  | .value v => .ok v.isTruthy
  | .procedure _ => .ok true
  | _ => Outcome.typeError [source.span] (.conditionKind condition.kindName)

/-- The function that a head stands for without evaluation: a literal function, or a name that
is bound to one. -/
def lambdaHead? (env : Scope H) (head : Node H) : Option (Node H) :=
  match head.atom?.bind env.get? with
  | some bound => if bound.isLambda then some bound else none
  | none => if head.isLambda then some head else none

/-- The value of a call at `span`. -/
def evaluateCall [Host H] (env : Scope H) (span : Option Span) (head : Node H)
    (args : List (Node H)) : Outcome (Node H) :=
  match lambdaHead? env head with
  | some f => callNode evaluate expand env span f args
  | none => do
    let callee ← evaluate env head
    callNode evaluate expand env span callee args

/-- The value of a conditional `(? condition yes no)`. -/
def evaluateConditional (env : Scope H) (condition yes no : Node H) : Outcome (Node H) := do
  let value ← evaluate env condition
  if ← conditionHolds condition value then evaluate env yes else evaluate env no

/-- The value of a list. -/
def evaluateList [Host H] (env : Scope H) (expr : Node H) (items : List (Node H)) :
    Outcome (Node H) :=
  match items with
  | [] => Outcome.typeError [expr.span] .emptyCall
  | [head, condition, yes, no] =>
    if head.isAtom "?" && !env.contains "?" then evaluateConditional evaluate env condition yes no
    else evaluateCall evaluate expand env expr.span head [condition, yes, no]
  | head :: args =>
    if expr.isLambda then .ok expr
    else evaluateCall evaluate expand env expr.span head args

/-- A list is a call, unless its head is the name of a conditional or of a function. -/
theorem evaluateList_eq_evaluateCall [Host H] (env : Scope H) {head : Node H}
    (hcond : head.isAtom "?" = false) (hlambda : head.isAtom "lambda" = false)
    (args : List (Node H)) (span : Option Span) (type : Option (Node H)) :
    evaluateList evaluate expand env ⟨.list (head :: args), span, type⟩ (head :: args) =
      evaluateCall evaluate expand env span head args := by
  rcases args with _ | ⟨a, _ | ⟨b, _ | ⟨c, _ | ⟨d, args⟩⟩⟩⟩ <;>
    simp [evaluateList, Node.isLambda, Node.lambda?, hcond, hlambda]

/-- The value of an expression, whose parts are evaluated by `evaluate`. -/
def evaluateStep [Host H] (env : Scope H) (expr : Node H) : Outcome (Node H) :=
  match expr.kind with
  | .atom name => evaluateAtom evaluate env expr name
  | .quoted inner => evaluateQuoted evaluate env inner
  | .list items => evaluateList evaluate expand env expr items
  | _ => .ok expr

end Step

/-! ## All levels -/

/-- The value of an expression in an environment, going no deeper than `depth` levels. -/
def evaluate [Host H] : Nat → Scope H → Node H → Outcome (Node H)
  | 0, _, _ => .error .endless
  | depth + 1, env, expr => evaluateStep (evaluate depth) (expandNode (evaluate depth)) env expr

/-- The expansion of a node, whose macros are evaluated no deeper than `depth` levels. -/
def expand [Host H] (depth : Nat) (scope : Scope H) (node : Node H) : Outcome (Expanded H) :=
  expandNode (evaluate depth) scope node

/-- The expansion of a program that starts from some constants. -/
def expandProgram [Host H] (depth : Nat) (consts : Scope H) (forms : List (Node H)) :
    Outcome (Expansion H) :=
  expandForms (evaluate depth) consts forms

end TypedLisp
