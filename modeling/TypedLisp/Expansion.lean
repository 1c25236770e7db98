import TypedLisp.Host
import TypedLisp.Node.Arrow

/-!
# Expansion

Expansion replaces the names that stand for nodes by those nodes, wherever they occur, and
unfolds the special forms:

* `(let name value ... body)` is its body with the values for the names;
* `(def name value ...)` is nothing, and defines its names as constants;
* `(lambda (a b ...) body)` is a chain of functions of one parameter;
* `((macro (env args) body) arg ...)` is what evaluating the body of the macro gives.

The types that are passed over are brought to one-argument arrows.  A special form is one only
where its name is not replaced.  How the body of a macro is evaluated is a parameter here; with
it the expansion of a node is a recursion on the node.
-/

namespace TypedLisp

variable {H : Type}

/-- What a node expands to. -/
structure Expanded (H : Type) where
  /-- The node that takes its place; none for a definition. -/
  node? : Option (Node H)
  /-- The constants that it defines. -/
  consts : Scope H

/-- An expansion that defines no constants. -/
def Expanded.ofNode (n : Node H) : Expanded H := ⟨some n, .empty⟩

/-- The special forms. -/
inductive SpecialForm where
  | letForm
  | defForm
  | lambdaForm
deriving DecidableEq, Repr

/-- The special form of a name. -/
def SpecialForm.ofName? (name : String) : Option SpecialForm :=
  if name = "let" then some .letForm
  else if name = "def" then some .defForm
  else if name = "lambda" then some .lambdaForm
  else none

/-- The special form that a list is, unless its name is replaced. -/
def SpecialForm.of? (items : List (Node H)) (scope : Scope H) : Option SpecialForm :=
  match items with
  | head :: _ =>
    match head.atom? with
    | some name => if scope.contains name then none else SpecialForm.ofName? name
    | none => none
  | [] => none

/-- A macro: its header and its body. -/
structure Macro (H : Type) where
  header : Node H
  body : Node H

/-- The macro that a list calls, unless `macro` is replaced. -/
def Macro.of? (items : List (Node H)) (scope : Scope H) : Option (Macro H) :=
  match items with
  | ⟨.list [head, header, body], _, _⟩ :: _ :: _ =>
    if head.isAtom "macro" && header.list?.isSome && !scope.contains "macro" then
      some ⟨header, body⟩
    else none
  | _ => none

/-- The names of the environment and of the arguments in the header of a macro. -/
def Macro.names? (m : Macro H) : Option (String × String) :=
  match m.header.list? with
  | some [env, args] =>
    match env.atom?, args.atom? with
    | some e, some a => some (e, a)
    | _, _ => none
  | _ => none

/-- The environment in which the body of a macro is evaluated: the arguments, as they stand in
the program, are the items of a quoted list. -/
def Macro.environment (envName argsName : String) (args : List (Node H)) : Scope H :=
  (macroPrelude.insert envName .null).insert argsName
    (.quoted (.list (args.map fun a => .quoted a none) none) none)

/-- What a call of a macro expands to. -/
def Macro.expand (evaluate : Scope H → Node H → Outcome (Node H)) (m : Macro H)
    (args : List (Node H)) : Outcome (Expanded H) :=
  match m.names? with
  | none => Outcome.typeError [m.header.span] .macroHeader
  | some (envName, argsName) =>
    (evaluate (Macro.environment envName argsName args) m.body).map Expanded.ofNode

/-- The nodes under a one-parameter function at the start of a chain. -/
def chainLambda (head param : Node H) (paramsSpan span : Option Span) (inner : Node H) : Node H :=
  .list [head, .list [param] paramsSpan, inner] span

section

variable (evaluate : Scope H → Node H → Outcome (Node H))

mutual

/-- The expansion of a node where the names of `scope` stand for their nodes. -/
def expandNode (scope : Scope H) : Node H → Outcome (Expanded H)
  | ⟨.atom name, span, type⟩ =>
    match scope.get? name with
    | some value => .ok (.ofNode value)
    | none => .ok (.ofNode ((Node.atom name span).withType (type.getD .null).curry))
  | ⟨.quoted inner, span, type⟩ => do
    let e ← expandNode scope inner
    let inner := e.node?.getD .null
    return ⟨some ((Node.quoted inner span).withType (type.getD .null).curry), e.consts⟩
  | ⟨.list items, span, type⟩ =>
    match SpecialForm.of? items scope with
    | some .letForm => expandLet scope span items
    | some .defForm => expandDef scope span items
    | some .lambdaForm => expandLambda scope span (type.getD .null).curry items
    | none =>
      match Macro.of? items scope with
      | some m => m.expand evaluate items.tail
      | none => do
        let (nodes, consts) ← expandItems scope items
        return ⟨some ((Node.list nodes span).withType (type.getD .null).curry), consts⟩
  | ⟨kind, span, type⟩ =>
    .ok (.ofNode ((⟨kind, span, none⟩ : Node H).withType (type.getD .null).curry))

/-- The expansions of nodes together, from left to right. -/
def expandItems (scope : Scope H) : List (Node H) → Outcome (List (Node H) × Scope H)
  | [] => .ok ([], .empty)
  | item :: items => do
    let e ← expandNode scope item
    let (nodes, consts) ← expandItems scope items
    return (e.node?.toList ++ nodes, e.consts.merge consts)

/-- The expansion of a `let` form at `span`. -/
def expandLet (scope : Scope H) (span : Option Span) : List (Node H) → Outcome (Expanded H)
  | [] => Outcome.typeError [span] (.letArity 0)
  | _ :: parts =>
    if parts.length < 3 || parts.length % 2 == 0 then
      Outcome.typeError [span] (.letArity parts.length)
    else expandLetParts scope .empty parts

/-- The expansion of the pairs and the body of a `let` form, when the names before them are
`bound`.  The values do not see the names that are bound beside them. -/
def expandLetParts (scope bound : Scope H) : List (Node H) → Outcome (Expanded H)
  | [] => .ok ⟨none, .empty⟩
  | [body] => expandNode (scope.merge bound) body
  | target :: value :: parts =>
    match target.atom? with
    | none => Outcome.typeError [target.span] (.assignToNonAtom target.kindName)
    | some name => do
      let e ← expandNode scope value
      match e.node? with
      | none => Outcome.typeError [value.span] (.boundToNothing name)
      | some node => expandLetParts scope (bound.insert name node) parts

/-- The expansion of a `def` form at `span`. -/
def expandDef (scope : Scope H) (span : Option Span) : List (Node H) → Outcome (Expanded H)
  | [] => Outcome.typeError [span] (.defArity 0)
  | _ :: parts =>
    if parts.length < 2 || parts.length % 2 != 0 then
      Outcome.typeError [span] (.defArity parts.length)
    else do
      let consts ← expandDefParts scope .empty parts
      return ⟨none, consts⟩

/-- The constants that the pairs of a `def` form define, added to those `bound` before them. -/
def expandDefParts (scope bound : Scope H) : List (Node H) → Outcome (Scope H)
  | [] | [_] => .ok bound
  | target :: value :: parts =>
    match target.atom? with
    | none => Outcome.typeError [target.span] (.assignToNonAtom target.kindName)
    | some name => do
      let e ← expandNode scope value
      match e.node? with
      | none => Outcome.typeError [value.span] (.boundToNothing name)
      | some node => expandDefParts scope (bound.insert name node) parts

/-- The expansion of a `lambda` form at `span`, with the type that the form is given. -/
def expandLambda (scope : Scope H) (span : Option Span) (type : Node H) :
    List (Node H) → Outcome (Expanded H)
  | [head, ⟨.list params, paramsSpan, _⟩, body] =>
    if params.isEmpty then Outcome.typeError [paramsSpan] .lambdaNoParams
    else do
      let e ← expandNode scope body
      match e.node? with
      | none => Outcome.typeError [span] .bodyExpandsToNothing
      | some body =>
        let chain ← expandParams scope head paramsSpan span body params
        return ⟨some (chain.withType type), e.consts⟩
  | [_, params, _] => Outcome.typeError [params.span] (.lambdaParamsKind params.kindName)
  | items => Outcome.typeError [span] (.lambdaParts items.length)

/-- The chain of one-parameter functions of the given parameters around a body.  The last
parameter is expanded first. -/
def expandParams (scope : Scope H) (head : Node H) (paramsSpan span : Option Span)
    (body : Node H) : List (Node H) → Outcome (Node H)
  | [] => .ok body
  | param :: params => do
    let inner ← expandParams scope head paramsSpan span body params
    let e ← expandNode scope param
    match e.node? with
    | none => Outcome.typeError [param.span] .paramExpandsToNothing
    | some p => return chainLambda head p paramsSpan span inner

end

/-! ## Malformed functions -/

/-- The shapes of a `lambda` form. -/
inductive LambdaShape : List (Node H) → Prop where
  /-- A head, a list of parameters and a body. -/
  | wellFormed (head : Node H) (params : List (Node H)) (paramsSpan : Option Span)
      (paramsType : Option (Node H)) (body : Node H) :
      LambdaShape [head, ⟨.list params, paramsSpan, paramsType⟩, body]
  /-- Three parts whose second one is no list. -/
  | noList (head : Node H) {params : Node H} (body : Node H) (h : params.list? = none) :
      LambdaShape [head, params, body]
  /-- More or fewer than three parts. -/
  | notThree {items : List (Node H)} (h : items.length ≠ 3) : LambdaShape items

/-- Every `lambda` form has one of the shapes. -/
theorem LambdaShape.of : ∀ items : List (Node H), LambdaShape items
  | [head, params, body] => by
    obtain ⟨kind, paramsSpan, paramsType⟩ := params
    cases kind with
    | list params => exact .wellFormed head params paramsSpan paramsType body
    | _ => exact .noList head body rfl
  | [] | [_] | [_, _] | _ :: _ :: _ :: _ :: _ => .notThree (by simp)

/-- A function whose parameters are no list is refused. -/
theorem expandLambda_of_noList {scope : Scope H} {span : Option Span}
    {type head params body : Node H} (h : params.list? = none) :
    expandLambda evaluate scope span type [head, params, body] =
      Outcome.typeError [params.span] (.lambdaParamsKind params.kindName) := by
  obtain ⟨kind, paramsSpan, paramsType⟩ := params
  cases kind with
  | list params => cases h
  | _ => rfl

/-- A function of more or fewer than three parts is refused. -/
theorem expandLambda_of_notThree {scope : Scope H} {span : Option Span} {type : Node H}
    {items : List (Node H)} (h : items.length ≠ 3) :
    expandLambda evaluate scope span type items =
      Outcome.typeError [span] (.lambdaParts items.length) := by
  match items, h with
  | [], _ | [_], _ => rfl
  | [_, _], _ | _ :: _ :: _ :: _ :: _, _ =>
    rw [expandLambda]
    all_goals simp

/-! ## Programs -/

/-- What a program expands to: its forms, and its constants by name. -/
structure Expansion (H : Type) where
  forms : List (Node H)
  consts : Scope H

/-- The expansion of forms from left to right, where each one sees the constants before it. -/
def expandForms (consts : Scope H) : List (Node H) → Outcome (Expansion H)
  | [] => .ok ⟨[], consts⟩
  | form :: forms => do
    let e ← expandNode evaluate consts form
    let rest ← expandForms (consts.merge e.consts) forms
    return ⟨e.node?.toList ++ rest.forms, rest.consts⟩

end
end TypedLisp
