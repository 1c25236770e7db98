import TypedLisp.Typing.Arrow

/-!
# Type inference

Inference fills in the types of a node.  It gives every node a variable, starting from the type
that the node already has, and makes variables equal where the form of the node asks for it:

* in `(f x ...)`, the type of `f` is walked along the types of the arguments, and what is left
  over is the type of the whole;
* in `(lambda (p ...) body)`, the type of the whole is walked along the types of the parameters,
  and what is left over is the type of the body;
* an atom has the type of the innermost parameter of its name.

Nothing is asked of any other node, and what lies under a quotation is not looked at.  In the
end the types of the variables are written into the node.
-/

namespace TypedLisp
namespace Typing

variable {H : Type}

/-- A node with variables for types. -/
inductive Sketch (H : Type) where
  /-- A node that is left as it is but for its own type. -/
  | leaf (node : Node H) (var : Var)
  /-- A list of sketched nodes. -/
  | list (items : List (Sketch H)) (span : Option Span) (var : Var)

namespace Sketch

/-- The variable of the type of a node. -/
def var : Sketch H → Var
  | leaf _ v => v
  | list _ _ v => v

mutual

/-- The node with the types of its variables. -/
def resolve (s : Store) : Sketch H → Outcome (Node H)
  | leaf node v => do
    let type ← s.read v
    return node.withType type
  | list items span v => do
    let items ← resolveAll s items
    let type ← s.read v
    return (Node.list items span).withType type

/-- The nodes with the types of their variables. -/
def resolveAll (s : Store) : List (Sketch H) → Outcome (List (Node H))
  | [] => .ok []
  | t :: ts => do
    let n ← resolve s t
    let ns ← resolveAll s ts
    return n :: ns

end

end Sketch

/-- The parameters in scope with their variables, the innermost first. -/
abbrev Params := List (String × Var)

/-! ### Functions -/

/-- The error for a function at `span` whose type does not take its parameters. -/
def lambdaError (span : Option Span) (type : Node Empty) : Error :=
  .typeAt [span, type.span] (.lambdaType type.plain)

/-- A parameter takes the type of its place in the arrow of the function. -/
def sketchParam (param : Node H) (slot : Var) (s : Store) : Outcome (Var × Store) := do
  let (v, s) ← s.intern param.type
  let s ← s.unify v slot
  return (v, s)

/-- What is known of a function before its body is looked at. -/
structure Lambda where
  /-- The type of the function. -/
  own : Var
  /-- The types of its parameters. -/
  params : List Var
  /-- The type of its body. -/
  result : Var

/-- The names of the parameters of a function, if they are a list of some names. -/
def paramNames (params : Node H) : Except Error (List (Node H)) :=
  match params.list? with
  | none | some [] => .error (.typeAt [params.span] .paramsEmpty)
  | some names =>
    match names.find? (fun p => p.atom?.isNone) with
    | some bad => .error (.typeAt [bad.span] .paramsNotAtoms)
    | none => .ok names

/-- A function at `span` of a type, with its parameters. -/
def openLambda (span : Option Span) (type : Node H) (names : List (Node H)) (s : Store) :
    Outcome (Lambda × Store) := do
  let (own, s) ← s.intern type
  let ((vars, result), s) ← walkFrom sketchParam (lambdaError span) own names s
  return (⟨own, vars, result⟩, s)

/-- The parameters in scope in the body of a function; a later one hides an earlier one. -/
def Lambda.scope (f : Lambda) (names : List (Node H)) (scope : Params) : Params :=
  ((names.map fun p => p.atom?.getD "").zip f.params).reverse ++ scope

/-- A function with its sketched body. -/
def closeLambda (f : Lambda) (span : Option Span) (head params : Node H) (names : List (Node H))
    (body : Sketch H) (s : Store) : Outcome (Sketch H × Store) := do
  let s ← s.unify body.var f.result
  let (headVar, s) ← s.intern head.type
  let (paramsVar, s) ← s.intern params.type
  let leaves := List.zipWith Sketch.leaf names f.params
  return (.list [.leaf head headVar, .list leaves params.span paramsVar, body] span f.own, s)

/-! ### Applications -/

/-- The error for a callee at `span` whose type does not take the arguments. -/
def calleeError (span : Option Span) (type : Node Empty) : Error :=
  .typeAt [span, type.span] (.uncallableType type.plain)

/-- An argument has the type of its place in the arrow of the callee. -/
def sketchArg (arg slot : Var) (s : Store) : Outcome (Unit × Store) := do
  let s ← s.unify slot arg
  return ((), s)

/-- An application of a callee at `calleeSpan` to arguments. -/
def sketchCall (calleeSpan span : Option Span) (type : Node H) (callee : Sketch H)
    (args : List (Sketch H)) (s : Store) : Outcome (Sketch H × Store) := do
  let (own, s) ← s.intern type
  let ((_, result), s) ←
    walkFrom sketchArg (calleeError calleeSpan) callee.var (args.map Sketch.var) s
  let s ← s.unify result own
  return (.list (callee :: args) span own, s)

/-- A list of at most one item, which is no application. -/
def sketchList (span : Option Span) (type : Node H) (items : List (Sketch H)) (s : Store) :
    Outcome (Sketch H × Store) := do
  let (own, s) ← s.intern type
  return (.list items span own, s)

/-- A list whose items are sketched. -/
def sketchForm (calleeSpan span : Option Span) (type : Node H) (items : List (Sketch H))
    (s : Store) : Outcome (Sketch H × Store) :=
  match items with
  | callee :: arg :: args => sketchCall calleeSpan span type callee (arg :: args) s
  | _ => sketchList span type items s

/-! ### Nodes -/

/-- A name takes the type of the parameter that it refers to. -/
def sketchAtom (scope : Params) (node : Node H) (name : String) (s : Store) :
    Outcome (Sketch H × Store) := do
  let (v, s) ← s.intern node.type
  match scope.lookup name with
  | none => return (.leaf node v, s)
  | some param =>
    let s ← s.unify param v
    return (.leaf node v, s)

/-- A node that asks for nothing. -/
def sketchLeaf (node : Node H) (s : Store) : Outcome (Sketch H × Store) := do
  let (v, s) ← s.intern node.type
  return (.leaf node v, s)

mutual

/-- The sketch of a node with the given parameters in scope. -/
def sketch (scope : Params) : Node H → Store → Outcome (Sketch H × Store)
  | ⟨.list [head, params, body], span, type⟩, s =>
    if head.isAtom "lambda" then do
      let names ← Outcome.ofExcept (paramNames params)
      let (f, s) ← openLambda span (type.getD .null) names s
      let (body, s) ← sketch (f.scope names scope) body s
      closeLambda f span head params names body s
    else do
      let (sketches, s) ← sketchAll scope [head, params, body] s
      sketchForm head.span span (type.getD .null) sketches s
  | ⟨.list items, span, type⟩, s => do
    let (sketches, s) ← sketchAll scope items s
    sketchForm (items.head?.bind Node.span) span (type.getD .null) sketches s
  | ⟨.atom name, span, type⟩, s => sketchAtom scope ⟨.atom name, span, type⟩ name s
  | node, s => sketchLeaf node s

/-- The sketches of nodes from left to right. -/
def sketchAll (scope : Params) : List (Node H) → Store → Outcome (List (Sketch H) × Store)
  | [], s => .ok ([], s)
  | n :: ns, s => do
    let (t, s) ← sketch scope n s
    let (ts, s) ← sketchAll scope ns s
    return (t :: ts, s)

end

/-- The node with its types filled in. -/
def infer (node : Node H) : Outcome (Node H) := do
  let (t, s) ← sketch [] node .empty
  t.resolve s

/-- The nodes with their types filled in, each one on its own. -/
def inferAll (nodes : List (Node H)) : Outcome (List (Node H)) :=
  nodes.mapM infer

end Typing
end TypedLisp
