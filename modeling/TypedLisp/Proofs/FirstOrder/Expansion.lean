import Mathlib.Logic.Function.Basic
import TypedLisp.Expansion
import TypedLisp.Proofs.FirstOrder.Term

/-!
# The expansion of first-order expressions

Expansion puts the values of local definitions, themselves expanded, in the place of their names,
and makes a chain of one-parameter functions of each function.  What comes out is `Term.expanded`,
which takes a node for each variable.  When it is expanded again, as the body of a function is at
every call, then only those nodes change: the node of each variable is expanded.  No name is
captured on the way, since no name is bound twice.
-/

namespace TypedLisp
namespace FirstOrder

variable {H : Type}

/-! ### The expanded expression -/

/-- The chain of one-parameter functions of some parameters around a body. -/
def chain (params : List String) (body : Node H) : Node H :=
  params.foldr (fun x inner => function [x] inner) body

mutual

/-- What an expression expands to where its variables stand for the nodes of `S`. -/
def Term.expanded : Term → (String → Node H) → Node H
  | .literal l, _ => .atom l.text none
  | .var x, S => S x
  | .op op left right, S => .list [.atom op.symbol none, left.expanded S, right.expanded S] none
  | .cond condition yes no, S =>
    .list [.atom "?" none, condition.expanded S, yes.expanded S, no.expanded S] none
  | .letIn x value body, S => body.expanded (Function.update S x (value.expanded S))
  | .call args body, S => .list (chain args.params (body.expanded S) :: args.expanded S) none

/-- What the arguments expand to. -/
def Args.expanded : Args → (String → Node H) → List (Node H)
  | .last _ arg, S => [arg.expanded S]
  | .cons _ arg args, S => arg.expanded S :: args.expanded S

end

/-- The node that takes the place of a variable. -/
def standsFor (scope : Scope H) (x : String) : Node H :=
  (scope.get? x).getD (.atom x none)

/-! ### One node at a time -/

section

variable {evaluate : Scope H → Node H → Outcome (Node H)} {scope : Scope H}
  {n m body body' value value' : Node H} {ns ms : List (Node H)} {params : List String} {x : String}

/-- A node expands to another one, and defines nothing. -/
def Becomes (evaluate : Scope H → Node H → Outcome (Node H)) (scope : Scope H)
    (n m : Node H) : Prop :=
  expandNode evaluate scope n = .ok (.ofNode m)

/-- Some nodes expand to others, and define nothing. -/
def BecomeAll (evaluate : Scope H → Node H → Outcome (Node H)) (scope : Scope H)
    (ns ms : List (Node H)) : Prop :=
  expandItems evaluate scope ns = .ok (ms, .empty)

lemma becomes_atom (x : String) : Becomes evaluate scope (.atom x none) (standsFor scope x) := by
  rw [Becomes, standsFor, Node.atom, expandNode]
  cases scope.get? x with
  | none => rfl
  | some value => rfl

lemma becomes_atom_of_unbound (h : scope.get? x = none) :
    Becomes evaluate scope (.atom x none) (.atom x none) := by
  have hatom : Becomes evaluate scope (.atom x none) (standsFor scope x) := becomes_atom x
  rwa [standsFor, h] at hatom

lemma becomes_value (v : Value H) :
    Becomes evaluate scope (.value v none) (.value v none) := rfl

lemma becomeAll_nil : BecomeAll evaluate scope [] [] := rfl

lemma becomeAll_cons (h : Becomes evaluate scope n m) (hs : BecomeAll evaluate scope ns ms) :
    BecomeAll evaluate scope (n :: ns) (m :: ms) := by
  rw [BecomeAll, expandItems, h, hs]
  rfl

/-- A list that is neither a special form nor the call of a macro expands item by item. -/
lemma becomes_list (hform : SpecialForm.of? ns scope = none) (hcall : Macro.of? ns scope = none)
    (h : BecomeAll evaluate scope ns ms) :
    Becomes evaluate scope (.list ns none) (.list ms none) := by
  rw [Becomes, Node.list, expandNode, hform]
  simp only [hcall]
  rw [h]
  rfl

/-- A list that starts with a name, other than that of a special form, expands item by item. -/
lemma becomes_list_of_atom (hx : x ≠ "let" ∧ x ≠ "def" ∧ x ≠ "lambda") (hget : scope.get? x = none)
    (h : BecomeAll evaluate scope ns ms) :
    Becomes evaluate scope (.list (.atom x none :: ns) none) (.list (.atom x none :: ms) none) := by
  refine becomes_list ?_ rfl (becomeAll_cons (becomes_atom_of_unbound hget) h)
  simp [SpecialForm.of?, Node.atom, Node.atom?, SpecialForm.ofName?, hx]

/-- A list that starts with a function expands item by item. -/
lemma becomes_call (h : Becomes evaluate scope (function params body) m)
    (hs : BecomeAll evaluate scope ns ms) :
    Becomes evaluate scope (.list (function params body :: ns) none) (.list (m :: ms) none) := by
  refine becomes_list rfl ?_ (becomeAll_cons h hs)
  cases ns with
  | nil => rfl
  | cons n ns => simp [Macro.of?, function, Node.list, Node.atom, Node.isAtom, Node.atom?]

lemma expandParams_eq (hparams : ∀ x ∈ params, scope.get? x = none) :
    expandParams evaluate scope (.atom "lambda" none) none none body
      (params.map fun x => .atom x none) = .ok (chain params body) := by
  induction params with
  | nil => rfl
  | cons x params ih =>
    obtain ⟨hx, hparams⟩ := List.forall_mem_cons.1 hparams
    have hatom : expandNode evaluate scope (.atom x none) = _ := becomes_atom_of_unbound hx
    rw [List.map_cons, expandParams, ih hparams, hatom]
    rfl

/-- A function becomes a chain of one-parameter functions. -/
lemma becomes_function (hlambda : scope.get? "lambda" = none) (hne : params ≠ [])
    (hparams : ∀ x ∈ params, scope.get? x = none) (h : Becomes evaluate scope body body') :
    Becomes evaluate scope (function params body) (chain params body') := by
  have hform (ns : List (Node H)) :
      SpecialForm.of? (.atom "lambda" none :: ns) scope = some .lambdaForm := by
    simp [SpecialForm.of?, Node.atom, Node.atom?, Bindings.contains, hlambda, SpecialForm.ofName?]
  have hempty : (params.map fun x => (.atom x none : Node H)).isEmpty = false := by
    simpa [List.isEmpty_eq_false_iff] using hne
  rw [Becomes, function, Node.list, expandNode, hform]
  simp only [Node.list, expandLambda, hempty]
  rw [h]
  simp only [expandParams_eq hparams]
  obtain ⟨x, params, rfl⟩ := List.exists_cons_of_ne_nil hne
  rfl

/-- A chain of functions stays one. -/
lemma becomes_chain (hlambda : scope.get? "lambda" = none)
    (hparams : ∀ x ∈ params, scope.get? x = none) (h : Becomes evaluate scope body body') :
    Becomes evaluate scope (chain params body) (chain params body') := by
  induction params with
  | nil => exact h
  | cons x params ih =>
    obtain ⟨hx, hparams⟩ := List.forall_mem_cons.1 hparams
    have hone : ∀ y ∈ [x], scope.get? y = none := by simpa using hx
    exact becomes_function hlambda (List.cons_ne_nil x []) hone (ih hparams)

/-- A local definition becomes its body, with the value in the place of the name. -/
lemma becomes_letIn (hlet : scope.get? "let" = none) (hvalue : Becomes evaluate scope value value')
    (hbody : Becomes evaluate (scope.merge (Bindings.empty.insert x value')) body body') :
    Becomes evaluate scope (.list [.atom "let" none, .atom x none, value, body] none) body' := by
  have hform (ns : List (Node H)) :
      SpecialForm.of? (.atom "let" none :: ns) scope = some .letForm := by
    simp [SpecialForm.of?, Node.atom, Node.atom?, Bindings.contains, hlet, SpecialForm.ofName?]
  have hatom : (.atom x none : Node H).atom? = some x := rfl
  rw [Becomes, Node.list, expandNode, hform]
  simp only [expandLet, expandLetParts, hatom]
  rw [hvalue, if_neg (by simp)]
  exact hbody

end

/-! ### Expressions -/

/-- In a scope the names that have a meaning of their own are free, and so are the names `xs`. -/
structure Spares (scope : Scope H) (xs : List String) : Prop where
  reserved : ∀ x, IsReserved x → scope.get? x = none
  free : ∀ x ∈ xs, scope.get? x = none

lemma spares_cons_iff {scope : Scope H} {x : String} {xs : List String} :
    Spares scope (x :: xs) ↔ scope.get? x = none ∧ Spares scope xs := by
  constructor
  · rintro ⟨hreserved, hfree⟩
    obtain ⟨hx, hfree⟩ := List.forall_mem_cons.1 hfree
    exact ⟨hx, hreserved, hfree⟩
  · rintro ⟨hx, hreserved, hfree⟩
    exact ⟨hreserved, List.forall_mem_cons.2 ⟨hx, hfree⟩⟩

lemma spares_append_iff {scope : Scope H} {xs ys : List String} :
    Spares scope (xs ++ ys) ↔ Spares scope xs ∧ Spares scope ys := by
  constructor
  · rintro ⟨hreserved, hfree⟩
    obtain ⟨hxs, hys⟩ := List.forall_mem_append.1 hfree
    exact ⟨⟨hreserved, hxs⟩, hreserved, hys⟩
  · rintro ⟨⟨hreserved, hxs⟩, -, hys⟩
    exact ⟨hreserved, List.forall_mem_append.2 ⟨hxs, hys⟩⟩

/-- In a scope of one name that has no meaning of its own, other names are free. -/
lemma spares_insert {xs : List String} {x : String} (hx : ¬ IsReserved x) (hxs : x ∉ xs)
    (n : Node H) : Spares (Bindings.empty.insert x n) xs where
  reserved y hy := by
    have hne : y ≠ x := fun heq => hx (heq ▸ hy)
    rw [Bindings.get?_insert, if_neg hne]
    rfl
  free y hy := by
    rw [Bindings.get?_insert, if_neg (ne_of_mem_of_not_mem hy hxs)]
    rfl

/-- With a name bound that has no meaning of its own, other names are free as before. -/
lemma Spares.merge_insert {scope : Scope H} {xs : List String} {x : String} (h : Spares scope xs)
    (hx : ¬ IsReserved x) (hxs : x ∉ xs) (n : Node H) :
    Spares (scope.merge (Bindings.empty.insert x n)) xs where
  reserved y hy := by
    have hne : y ≠ x := fun heq => hx (heq ▸ hy)
    simp [Bindings.get?_merge, Bindings.get?_insert, hne, h.reserved y hy]
  free y hy := by
    have hne : y ≠ x := fun heq => hxs (heq ▸ hy)
    simp [Bindings.get?_merge, Bindings.get?_insert, hne, h.free y hy]

lemma standsFor_merge_insert (scope : Scope H) (x : String) (n : Node H) :
    standsFor (scope.merge (Bindings.empty.insert x n)) =
      Function.update (standsFor scope) x n := by
  funext y
  rcases eq_or_ne y x with rfl | hne
  · simp [standsFor, Bindings.get?_merge, Bindings.get?_insert]
  · simp [standsFor, Bindings.get?_merge, Bindings.get?_insert, hne]

lemma isReserved_symbol (op : Operator) : IsReserved op.symbol := .inl ⟨op, rfl⟩

lemma isReserved_text (l : Literal) : IsReserved l.text := .inr (.inr ⟨l, rfl⟩)

lemma symbol_ne (op : Operator) : op.symbol ≠ "let" ∧ op.symbol ≠ "def" ∧ op.symbol ≠ "lambda" := by
  cases op <;> decide

variable {evaluate : Scope H → Node H → Outcome (Node H)} {scope : Scope H}

/-- **Expansion unfolds local definitions and curries functions.** -/
theorem Term.becomes_expanded {t : Term} (ht : AreBinders t.binders)
    (hscope : Spares scope t.binders) :
    Becomes evaluate scope t.node (t.expanded (standsFor scope)) := by
  induction t using Term.induction (Q := fun args => ∀ scope : Scope H, AreBinders args.binders →
    Spares scope args.binders →
      BecomeAll evaluate scope args.nodes (args.expanded (standsFor scope)))
    generalizing scope with
  | literal l => exact becomes_atom_of_unbound (hscope.reserved _ (isReserved_text l))
  | var x => exact becomes_atom x
  | op op left right ihleft ihright =>
    obtain ⟨hleft, hright, -⟩ := areBinders_append_iff.1 ht
    obtain ⟨hscopeleft, hscoperight⟩ := spares_append_iff.1 hscope
    exact becomes_list_of_atom (symbol_ne op) (hscope.reserved _ (isReserved_symbol op))
      (becomeAll_cons (ihleft hleft hscopeleft)
        (becomeAll_cons (ihright hright hscoperight) becomeAll_nil))
  | cond condition yes no ihcondition ihyes ihno =>
    obtain ⟨hcondition, hbranches, -⟩ := areBinders_append_iff.1 ht
    obtain ⟨hyes, hno, -⟩ := areBinders_append_iff.1 hbranches
    obtain ⟨hscopecondition, hscopebranches⟩ := spares_append_iff.1 hscope
    obtain ⟨hscopeyes, hscopeno⟩ := spares_append_iff.1 hscopebranches
    exact becomes_list_of_atom (by decide) (hscope.reserved "?" (.inr (.inl (by decide))))
      (becomeAll_cons (ihcondition hcondition hscopecondition)
        (becomeAll_cons (ihyes hyes hscopeyes)
          (becomeAll_cons (ihno hno hscopeno) becomeAll_nil)))
  | letIn x value body ihvalue ihbody =>
    obtain ⟨hx, hnotin, ht⟩ := areBinders_cons_iff.1 ht
    obtain ⟨hvalue, hbody, -⟩ := areBinders_append_iff.1 ht
    obtain ⟨-, hscope⟩ := spares_cons_iff.1 hscope
    obtain ⟨hscopevalue, hscopebody⟩ := spares_append_iff.1 hscope
    have hxbody : x ∉ body.binders := fun hmem => hnotin (List.mem_append_right _ hmem)
    refine becomes_letIn (hscope.reserved "let" (.inr (.inl (by decide))))
      (ihvalue hvalue hscopevalue) ?_
    rw [Term.expanded, ← standsFor_merge_insert]
    exact ihbody hbody (hscopebody.merge_insert hx hxbody _)
  | call args body ihargs ihbody =>
    obtain ⟨hargs, hbody, -⟩ := areBinders_append_iff.1 ht
    obtain ⟨hscopeargs, hscopebody⟩ := spares_append_iff.1 hscope
    have hparams : ∀ x ∈ args.params, scope.get? x = none := fun x hx =>
      hscopeargs.free x (args.params_sublist.subset hx)
    exact becomes_call (becomes_function (hscope.reserved "lambda" (.inr (.inl (by decide))))
      args.params_ne_nil hparams (ihbody hbody hscopebody)) (ihargs scope hargs hscopeargs)
  | last x arg ih scope hargs hscope =>
    obtain ⟨-, -, harg⟩ := areBinders_cons_iff.1 hargs
    obtain ⟨-, hscope⟩ := spares_cons_iff.1 hscope
    exact becomeAll_cons (ih harg hscope) becomeAll_nil
  | cons x arg args ih ihargs scope hargs hscope =>
    obtain ⟨-, -, hargs⟩ := areBinders_cons_iff.1 hargs
    obtain ⟨harg, hargs, -⟩ := areBinders_append_iff.1 hargs
    obtain ⟨-, hscope⟩ := spares_cons_iff.1 hscope
    obtain ⟨hscopearg, hscopeargs⟩ := spares_append_iff.1 hscope
    exact becomeAll_cons (ih harg hscopearg) (ihargs scope hargs hscopeargs)

/-! ### Expanding again -/

/-- Where the scope of an expression is `names` and the names `xs` are bound in it: expansion turns
the nodes `S` of its variables into the nodes `S'`, and the bound names stand for themselves. -/
structure Carries (evaluate : Scope H → Node H → Outcome (Node H)) (scope : Scope H)
    (names xs : List String) (S S' : String → Node H) : Prop where
  becomes : ∀ y ∈ names, Becomes evaluate scope (S y) (S' y)
  before : ∀ x ∈ xs, S x = .atom x none
  after : ∀ x ∈ xs, S' x = .atom x none
  spares : Spares scope xs

variable {names xs ys : List String} {S S' : String → Node H}

lemma Carries.mono (h : Carries evaluate scope names ys S S') (hsub : xs ⊆ ys) :
    Carries evaluate scope names xs S S' :=
  ⟨h.becomes, fun x hx => h.before x (hsub hx), fun x hx => h.after x (hsub hx),
    h.spares.reserved, fun x hx => h.spares.free x (hsub hx)⟩

/-- With the expansion of its value in the place of a name. -/
lemma Carries.update (h : Carries evaluate scope names xs S S') {x : String} {n n' : Node H}
    (hn : Becomes evaluate scope n n') (hx : x ∉ xs) :
    Carries evaluate scope (x :: names) xs (Function.update S x n) (Function.update S' x n') where
  becomes y hy := by
    rcases eq_or_ne y x with rfl | hne
    · rwa [Function.update_self, Function.update_self]
    · rw [Function.update_of_ne hne, Function.update_of_ne hne]
      exact h.becomes y ((List.mem_cons.1 hy).resolve_left hne)
  before y hy := by
    rw [Function.update_of_ne (ne_of_mem_of_not_mem hy hx), h.before y hy]
  after y hy := by
    rw [Function.update_of_ne (ne_of_mem_of_not_mem hy hx), h.after y hy]
  spares := h.spares

/-- In the body of a function, whose parameters stand for themselves. -/
lemma Carries.inBody (h : Carries evaluate scope names xs S S') {args : Args}
    (hsub : args.params ⊆ xs) : Carries evaluate scope (args.scope names) xs S S' where
  becomes y hy := by
    rcases Args.mem_scope.1 hy with hy | hy
    · rw [h.before y (hsub hy), h.after y (hsub hy)]
      exact becomes_atom_of_unbound (h.spares.free y (hsub hy))
    · exact h.becomes y hy
  before := h.before
  after := h.after
  spares := h.spares

/-- **Expanding again is substitution**: nothing but the nodes of the variables changes. -/
theorem Term.expanded_becomes {t : Term} (ht : AreBinders t.binders) (hnames : t.InScope names)
    (h : Carries evaluate scope names t.binders S S') :
    Becomes evaluate scope (t.expanded S) (t.expanded S') := by
  induction t using Term.induction (Q := fun args => ∀ (names : List String)
    (S S' : String → Node H), AreBinders args.binders → args.InScope names →
      Carries evaluate scope names args.binders S S' →
      BecomeAll evaluate scope (args.expanded S) (args.expanded S'))
    generalizing names S S' with
  | literal l => exact becomes_atom_of_unbound (h.spares.reserved _ (isReserved_text l))
  | var x => exact h.becomes x hnames
  | op op left right ihleft ihright =>
    obtain ⟨hleft, hright, -⟩ := areBinders_append_iff.1 ht
    obtain ⟨hnamesleft, hnamesright⟩ := hnames
    exact becomes_list_of_atom (symbol_ne op) (h.spares.reserved _ (isReserved_symbol op))
      (becomeAll_cons (ihleft hleft hnamesleft (h.mono (List.subset_append_left _ _)))
        (becomeAll_cons (ihright hright hnamesright (h.mono (List.subset_append_right _ _)))
          becomeAll_nil))
  | cond condition yes no ihcondition ihyes ihno =>
    obtain ⟨hcondition, hbranches, -⟩ := areBinders_append_iff.1 ht
    obtain ⟨hyes, hno, -⟩ := areBinders_append_iff.1 hbranches
    obtain ⟨hnamescondition, hnamesyes, hnamesno⟩ := hnames
    have hbranch := h.mono (List.subset_append_right _ _)
    exact becomes_list_of_atom (by decide) (h.spares.reserved "?" (.inr (.inl (by decide))))
      (becomeAll_cons
        (ihcondition hcondition hnamescondition (h.mono (List.subset_append_left _ _)))
        (becomeAll_cons (ihyes hyes hnamesyes (hbranch.mono (List.subset_append_left _ _)))
          (becomeAll_cons (ihno hno hnamesno (hbranch.mono (List.subset_append_right _ _)))
            becomeAll_nil)))
  | letIn x value body ihvalue ihbody =>
    obtain ⟨-, hx, ht⟩ := areBinders_cons_iff.1 ht
    obtain ⟨hvalue, hbody, -⟩ := areBinders_append_iff.1 ht
    obtain ⟨hnamesvalue, hnamesbody⟩ := hnames
    have h := h.mono (List.subset_cons_self _ _)
    have hxbody : x ∉ body.binders := fun hmem => hx (List.mem_append_right _ hmem)
    have hn := ihvalue hvalue hnamesvalue (h.mono (List.subset_append_left _ _))
    exact ihbody hbody hnamesbody ((h.mono (List.subset_append_right _ _)).update hn hxbody)
  | call args body ihargs ihbody =>
    obtain ⟨hargs, hbody, -⟩ := areBinders_append_iff.1 ht
    obtain ⟨hnamesargs, hnamesbody⟩ := hnames
    have hparams : args.params ⊆ (Term.call args body).binders := fun x hx =>
      List.mem_append_left _ (args.params_sublist.subset hx)
    have hbody := ihbody hbody hnamesbody
      ((h.inBody hparams).mono (List.subset_append_right _ _))
    have hchain := becomes_chain (h.spares.reserved "lambda" (.inr (.inl (by decide))))
      (fun x hx => h.spares.free x (hparams hx)) hbody
    have hargs := ihargs names S S' hargs hnamesargs (h.mono (List.subset_append_left _ _))
    rw [Term.expanded, Term.expanded]
    obtain ⟨x, params, heq⟩ := List.exists_cons_of_ne_nil args.params_ne_nil
    rw [heq] at hchain ⊢
    exact becomes_call hchain hargs
  | last x arg ih names S S' hargs hnames h =>
    obtain ⟨-, -, harg⟩ := areBinders_cons_iff.1 hargs
    exact becomeAll_cons (ih harg hnames (h.mono (List.subset_cons_self _ _))) becomeAll_nil
  | cons x arg args ih ihargs names S S' hargs hnames h =>
    obtain ⟨-, -, hargs⟩ := areBinders_cons_iff.1 hargs
    obtain ⟨harg, hargs, -⟩ := areBinders_append_iff.1 hargs
    obtain ⟨hnamesarg, hnamesargs⟩ := hnames
    have h := h.mono (List.subset_cons_self _ _)
    exact becomeAll_cons (ih harg hnamesarg (h.mono (List.subset_append_left _ _)))
      (ihargs names S S' hargs hnamesargs (h.mono (List.subset_append_right _ _)))

end FirstOrder
end TypedLisp
