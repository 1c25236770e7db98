import TypedLisp.Proofs.Typing.Tree

/-!
# Typings

What it means for the types written in a node to be consistent, and for one node to fill in the
types of another.  Types are compared as trees; how the tree of a node's type is taken, with its
spans or without them, is a parameter `τ` of the rules:

* in `(f x ...)`, walking the type of `f` along the types of the arguments ends in the type of
  the whole;
* in `(lambda (p ...) body)`, walking the type of the whole along the types of the parameters ends
  in the type of the body;
* an atom has the type of the innermost parameter of its name.

The word `lambda` at the start of a function and the parameters themselves are not atoms of the
body, and the list of parameters is not a call.  What lies under a quotation is not looked at.
-/

namespace TypedLisp
namespace Typing

/-! ### Walks -/

/-- An arrow is a list of the atom `->`, the types of some arguments, of which there is at least
one, and the type of the result. -/
def Tree.IsArrow (t : Tree) (args : List Tree) (result : Tree) : Prop :=
  args ≠ [] ∧ ∃ headSpan span, t = .list (.atom Node.arrowName headSpan :: (args ++ [result])) span

/-- Walking a type along the types of arguments ends in a type.  As long as there are arguments,
the type at hand has to be an arrow.  It takes as many arguments as it can, each of them of the
type that it asks for; the walk goes on with its result or, where the arguments run out first,
ends in an arrow of what the arrow still asks for. -/
inductive Walks : Tree → List Tree → Tree → Prop where
  | done (t : Tree) : Walks t [] t
  | through {f r t : Tree} {args more : List Tree} (h : f.IsArrow args r) (rest : Walks r more t) :
    Walks f (args ++ more) t
  | partway {f r t : Tree} {args missing : List Tree} (hargs : args ≠ [])
    (h : f.IsArrow (args ++ missing) r) (ht : t.IsArrow missing r) : Walks f args t

/-! ### The rules -/

variable {H : Type}

/-- The type of a node. -/
def typeTree? (n : Node H) : Option Tree := tree? n.type

/-- The type of a node up to spans. -/
def form? (n : Node H) : Option Tree := (typeTree? n).map Tree.bare

variable (τ : Node H → Option Tree)

/-- The types of a callee and its arguments are right for a call, and so is that of the call. -/
def CallTyped (call callee : Node H) (args : List (Node H)) : Prop :=
  ∃ f ts t, τ callee = some f ∧ args.map τ = ts.map some ∧ τ call = some t ∧ Walks f ts t

/-- The type of a function is right for its parameters, which are some atoms, and its body. -/
def FunctionTyped (function params body : Node H) : Prop :=
  ∃ ps, params.list? = some ps ∧ ps ≠ [] ∧ (∀ p ∈ ps, p.atom?.isSome) ∧
    ∃ f ts t, τ function = some f ∧ ps.map τ = ts.map some ∧ τ body = some t ∧ Walks f ts t

/-- The types of the names in scope, the innermost first. -/
abbrev Scope := List (String × Option Tree)

/-- The scope of the body of a function: a later parameter hides an earlier one. -/
def bodyScope (params : Node H) (scope : Scope) : Scope :=
  ((params.list?.getD []).map fun p => (p.atom?.getD "", τ p)).reverse ++ scope

mutual

/-- The types written in a node are consistent. -/
def WellTyped (scope : Scope) : Node H → Prop
  | ⟨.list [head, params, body], span, type⟩ =>
    if head.isAtom "lambda" then
      FunctionTyped τ ⟨.list [head, params, body], span, type⟩ params body ∧
        WellTyped (bodyScope τ params scope) body
    else
      CallTyped τ ⟨.list [head, params, body], span, type⟩ head [params, body] ∧
        WellTypedAll scope [head, params, body]
  | ⟨.list (callee :: arg :: args), span, type⟩ =>
    CallTyped τ ⟨.list (callee :: arg :: args), span, type⟩ callee (arg :: args) ∧
      WellTypedAll scope (callee :: arg :: args)
  | ⟨.list items, _, _⟩ => WellTypedAll scope items
  | ⟨.atom name, span, type⟩ =>
    ∀ t, scope.lookup name = some t → τ ⟨.atom name, span, type⟩ = t
  | _ => True

/-- The types written in some nodes are consistent. -/
def WellTypedAll (scope : Scope) : List (Node H) → Prop
  | [] => True
  | n :: ns => WellTyped scope n ∧ WellTypedAll scope ns

end

variable {τ}

lemma wellTypedAll_iff {scope : Scope} {ns : List (Node H)} :
    WellTypedAll τ scope ns ↔ ∀ n ∈ ns, WellTyped τ scope n := by
  induction ns with
  | nil => simp [WellTypedAll]
  | cons n ns ih => simp [WellTypedAll, ih]

/-! ### Filling in -/

/-- One type comes from another by filling in what is not known, up to spans. -/
def Tree.Refines (t u : Tree) : Prop := t.Fits (.trees .any) u

/-- Two nodes are the same but for their types, and `P` holds of any two nodes in the same place.
What lies under a quotation is the same with its types. -/
inductive Alike (P : Node H → Node H → Prop) : Node H → Node H → Prop where
  | list {ns ms : List (Node H)} {span : Option Span} {type type' : Option (Node H)}
    (h : P ⟨.list ns, span, type⟩ ⟨.list ms, span, type'⟩)
    (items : List.Forall₂ (Alike P) ns ms) :
    Alike P ⟨.list ns, span, type⟩ ⟨.list ms, span, type'⟩
  | leaf {kind : Kind H} {span : Option Span} {type type' : Option (Node H)}
    (hkind : ∀ ns, kind ≠ .list ns) (h : P ⟨kind, span, type⟩ ⟨kind, span, type'⟩) :
    Alike P ⟨kind, span, type⟩ ⟨kind, span, type'⟩

/-- A node comes from another one by filling in what is not known of its types, up to spans. -/
def Fills : Node H → Node H → Prop :=
  Alike fun n m => ∃ a t, typeTree? n = some a ∧ typeTree? m = some t ∧ a.Refines t

/-- A typing of a node fills in its types in a consistent way. -/
def IsTyping (n m : Node H) : Prop :=
  Fills n m ∧ WellTyped form? [] m

end Typing
end TypedLisp
