import TypedLisp.Proofs.Typing.Judgement

/-!
# What inference commits itself to

Inference does not look ahead.  Where a walk comes upon a type of which nothing is known, it makes
it an arrow of all the arguments that are left, although the type could also be a shorter arrow
with an arrow as its result, or a longer one.  And where it comes upon a list whose first type is
not known, it gives up, although that could still turn out to be an arrow.

`Keeps τ n m` says that a typing `m` of the node `n` is as inference supposes when it is run on
`n`: the run and the typing are followed side by side, and wherever the run commits itself, the
typing has an arrow of just the arguments that are left.
-/

namespace TypedLisp
namespace Typing

variable {H α β : Type}

/-- In a walk along arguments, `P` holds of the number of arguments left where the walk comes upon
a type of which nothing is known, and anything else that it comes upon is known to be an arrow. -/
def Commits (each : α → Var → Store → Outcome (β × Store)) (P : Nat → Prop) :
    List α → List Var → Var → Store → Prop
  | [], _, _, _ => True
  | arg :: args, slot :: slots, result, s =>
    ∀ b s', each arg slot s = .ok (b, s') → Commits each P args slots result s'
  | arg :: args, [], result, s =>
    (s.cell result = .unknown → P (args.length + 1)) ∧
      (s.cell result ≠ .unknown → ∃ arrow, s.arrow? result = some arrow ∧
        ∀ b s', each arg arrow.first s = .ok (b, s') →
          Commits each P args arrow.rest arrow.result s')

/-- Walking the type `f` along arguments of the types `args` comes to an arrow of just the
arguments that are left when so many are left. -/
def Awaits (f : Tree) (args : List Tree) (left : Nat) : Prop :=
  ∃ before after g t, args = before ++ after ∧ after.length = left ∧ Walks f before g ∧
    g.IsArrow after t

variable (τ : Node H → Option Tree)

/-- A walk from the variable `v` along arguments is as the typing has it, in which `function` and
`nodes` have the types of the function and of its arguments. -/
def KeepsWalk (each : α → Var → Store → Outcome (β × Store)) (function : Node H)
    (nodes : List (Node H)) (args : List α) (v : Var) (s : Store) : Prop :=
  ∀ f ts, τ function = some f → nodes.map τ = ts.map some →
    Commits each (Awaits f ts) args [] v s

/-- The walk of a function of the type `type` along its parameters is as the typing has it, in
which the function is `m` and its parameters are `ms`. -/
def KeepsFunction (type : Node H) (names : List (Node H)) (m : Node H) (ms : List (Node H))
    (s : Store) : Prop :=
  ∀ own s', s.intern type = .ok (own, s') → KeepsWalk τ sketchParam m ms names own s'

/-- The walk of a call of the type `type` is as the typing has it, in which the items of the call
are `ms`; a list of at most one item is no call. -/
def KeepsForm (type : Node H) (items : List (Sketch H)) (ms : List (Node H)) (s : Store) : Prop :=
  match items, ms with
  | callee :: arg :: args, m :: m' :: ms =>
    ∀ own s', s.intern type = .ok (own, s') →
      KeepsWalk τ sketchArg m (m' :: ms) ((arg :: args).map Sketch.var) callee.var s'
  | _, _ => True

mutual

/-- The run of inference on a node, in a store, is as a typing of the node has it. -/
def Keeps (scope : Params) : Node H → Node H → Store → Prop
  | ⟨.list [head, params, body], span, type⟩, ⟨.list [head', params', body'], span', type'⟩, s =>
    if head.isAtom "lambda" then
      ∀ names, paramNames params = .ok names →
        KeepsFunction τ (type.getD .null) names ⟨.list [head', params', body'], span', type'⟩
            (params'.list?.getD []) s ∧
          ∀ f s', openLambda span (type.getD .null) names s = .ok (f, s') →
            Keeps (f.scope names scope) body body' s'
    else
      KeepsAll scope [head, params, body] [head', params', body'] s ∧
        ∀ ts s', sketchAll scope [head, params, body] s = .ok (ts, s') →
          KeepsForm τ (type.getD .null) ts [head', params', body'] s'
  | ⟨.list ns, _, type⟩, ⟨.list ms, _, _⟩, s =>
    KeepsAll scope ns ms s ∧ ∀ ts s', sketchAll scope ns s = .ok (ts, s') →
      KeepsForm τ (type.getD .null) ts ms s'
  | _, _, _ => True

/-- The run of inference on some nodes, from left to right, is as typings of them have it. -/
def KeepsAll (scope : Params) : List (Node H) → List (Node H) → Store → Prop
  | n :: ns, m :: ms, s =>
    Keeps scope n m s ∧ ∀ t s', sketch scope n s = .ok (t, s') → KeepsAll scope ns ms s'
  | _, _, _ => True

end

end Typing
end TypedLisp
