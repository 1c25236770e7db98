import Mathlib.Data.List.Nodup
import Mathlib.Data.Nat.Digits.Defs
import Mathlib.Tactic.Ring
import Mathlib.Tactic.Tauto
import TypedLisp.Node.Basic
import TypedLisp.Operator

/-!
# First-order expressions

Integer literals, variables, binary operators, conditionals, local definitions and functions that
are called where they are written.  Functions are no values here: an expression stands for an
integer or a truth value.  A node of the syntax tree is written for each expression, and a program
is an expression without free variables in which no name is bound twice and no name is bound that
has a meaning of its own.
-/

namespace TypedLisp
namespace FirstOrder

variable {H : Type}

/-! ### Literals -/

/-- An integer literal: decimal digits, maybe after a minus sign. -/
structure Literal where
  /-- Whether there is a minus sign. -/
  negative : Bool
  /-- The digits, from the left. -/
  digits : List (Fin 10)
  /-- There is at least one digit. -/
  digits_ne_nil : digits ≠ []

namespace Literal

/-- The text of a literal. -/
def text (l : Literal) : String :=
  String.ofList ((if l.negative then ['-'] else []) ++ l.digits.map fun d => d.val.digitChar)

/-- The number that the digits of a literal stand for. -/
def magnitude (l : Literal) : Nat :=
  Nat.ofDigits 10 (l.digits.reverse.map Fin.val)

/-- The integer that a literal stands for. -/
def number (l : Literal) : Int :=
  if l.negative then -l.magnitude else l.magnitude

lemma digitChar_ne_sign (d : Fin 10) : d.val.digitChar ≠ '-' ∧ d.val.digitChar ≠ '+' := by
  revert d
  decide

lemma toNat_digitChar (d : Fin 10) : d.val.digitChar.toNat - '0'.toNat = d.val := by
  revert d
  decide

lemma foldl_digits (ds : List (Fin 10)) (n : Nat) :
    (ds.map fun d => d.val.digitChar).foldl (fun n c => 10 * n + (c.toNat - '0'.toNat)) n =
      Nat.ofDigits 10 (ds.reverse.map Fin.val) + 10 ^ ds.length * n := by
  induction ds generalizing n with
  | nil => simp
  | cons d ds ih =>
    rw [List.map_cons, List.foldl_cons, ih, toNat_digitChar, List.reverse_cons, List.map_append,
      Nat.ofDigits_append, List.length_map, List.length_reverse, List.length_cons,
      List.map_singleton, Nat.ofDigits_singleton]
    ring

/-- The digits of a literal are read as the number that they stand for. -/
lemma readDigits?_digits (l : Literal) :
    readDigits? (l.digits.map fun d => d.val.digitChar) = some l.magnitude := by
  have hempty : (l.digits.map fun d => d.val.digitChar).isEmpty = false := by
    simpa [List.isEmpty_eq_false_iff] using l.digits_ne_nil
  have hall : (l.digits.map fun d => d.val.digitChar).all Char.isDigit = true := by simp
  rw [readDigits?, hempty, hall, foldl_digits]
  simp [magnitude]

lemma toList_text (l : Literal) :
    l.text.toList =
      (if l.negative then ['-'] else []) ++ l.digits.map fun d => d.val.digitChar := by
  rw [text, String.toList_ofList]

/-- Digits do not start with a sign. -/
lemma ne_sign_of_digits {ds : List (Fin 10)} {c : Char} {cs : List Char}
    (h : (ds.map fun d => d.val.digitChar) = c :: cs) : c ≠ '-' ∧ c ≠ '+' := by
  obtain ⟨d, ds, rfl, rfl, -⟩ := List.map_eq_cons_iff.1 h
  exact digitChar_ne_sign d

lemma isIntegerLiteral_text (l : Literal) : isIntegerLiteral l.text := by
  rw [isIntegerLiteral, toList_text]
  cases l.negative with
  | true => simp [readDigits?_digits]
  | false =>
    rw [if_neg Bool.false_ne_true, List.nil_append]
    split
    · next heq => exact absurd rfl (ne_sign_of_digits heq).1
    · simp [readDigits?_digits]

/-- A literal is read as the integer that it stands for. -/
lemma readInteger?_text (l : Literal) : readInteger? l.text = some l.number := by
  rw [readInteger?, toList_text, number]
  cases l.negative with
  | true => simp [readDigits?_digits]
  | false =>
    rw [if_neg Bool.false_ne_true, List.nil_append, if_neg Bool.false_ne_true]
    split
    · next heq => exact absurd rfl (ne_sign_of_digits heq).1
    · next heq => exact absurd rfl (ne_sign_of_digits heq).2
    · simp [readDigits?_digits]

end Literal

/-! ### Expressions -/

mutual

/-- A first-order expression. -/
inductive Term where
  | literal (l : Literal)
  | var (x : String)
  /-- `(op left right)`. -/
  | op (op : Operator) (left right : Term)
  /-- `(? condition yes no)`. -/
  | cond (condition yes no : Term)
  /-- `(let x value body)`. -/
  | letIn (x : String) (value body : Term)
  /-- `((lambda (x ...) body) arg ...)`. -/
  | call (args : Args) (body : Term)

/-- The parameters of a function with the arguments that they get.  There is at least one. -/
inductive Args where
  | last (x : String) (arg : Term)
  | cons (x : String) (arg : Term) (args : Args)

end

/-- Induction on expressions and on the arguments in them. -/
theorem Term.induction {P : Term → Prop} {Q : Args → Prop} (literal : ∀ l, P (.literal l))
    (var : ∀ x, P (.var x)) (op : ∀ op left right, P left → P right → P (.op op left right))
    (cond : ∀ condition yes no, P condition → P yes → P no → P (.cond condition yes no))
    (letIn : ∀ x value body, P value → P body → P (.letIn x value body))
    (call : ∀ args body, Q args → P body → P (.call args body))
    (last : ∀ x arg, P arg → Q (.last x arg))
    (cons : ∀ x arg args, P arg → Q args → Q (.cons x arg args)) (t : Term) : P t :=
  @Term.rec P Q literal var op cond letIn call last cons t

/-- The parameters, in the order of their arguments. -/
def Args.params : Args → List String
  | .last x _ => [x]
  | .cons x _ args => x :: args.params

/-- The names that the body of a function may use where the names `scope` are in scope around it. -/
def Args.scope : Args → List String → List String
  | .last x _, scope => x :: scope
  | .cons x _ args, scope => args.scope (x :: scope)

/-- Induction on the number of arguments. -/
theorem Args.induction {Q : Args → Prop} (last : ∀ x arg, Q (.last x arg))
    (cons : ∀ x arg args, Q args → Q (.cons x arg args)) : ∀ args, Q args
  | .last x arg => last x arg
  | .cons x arg args => cons x arg args (Args.induction last cons args)

lemma Args.mem_scope {args : Args} {scope : List String} {y : String} :
    y ∈ args.scope scope ↔ y ∈ args.params ∨ y ∈ scope := by
  induction args using Args.induction generalizing scope with
  | last x arg => simp [Args.scope, Args.params]
  | cons x arg args ih =>
    rw [Args.scope, Args.params, ih, List.mem_cons, List.mem_cons]
    tauto

/-! ### Nodes -/

/-- The node `(lambda (params ...) body)`. -/
def function (params : List String) (body : Node H) : Node H :=
  .list [.atom "lambda" none, .list (params.map fun x => .atom x none) none, body] none

mutual

/-- The node of an expression. -/
def Term.node : Term → Node H
  | .literal l => .atom l.text none
  | .var x => .atom x none
  | .op op left right => .list [.atom op.symbol none, left.node, right.node] none
  | .cond condition yes no => .list [.atom "?" none, condition.node, yes.node, no.node] none
  | .letIn x value body => .list [.atom "let" none, .atom x none, value.node, body.node] none
  | .call args body => .list (function args.params body.node :: args.nodes) none

/-- The nodes of the arguments. -/
def Args.nodes : Args → List (Node H)
  | .last _ arg => [arg.node]
  | .cons _ arg args => arg.node :: args.nodes

end

/-! ### Programs -/

mutual

/-- The names that are bound in an expression, as often as they are bound. -/
def Term.binders : Term → List String
  | .literal _ | .var _ => []
  | .op _ left right => left.binders ++ right.binders
  | .cond condition yes no => condition.binders ++ (yes.binders ++ no.binders)
  | .letIn x value body => x :: (value.binders ++ body.binders)
  | .call args body => args.binders ++ body.binders

/-- The parameters and the names that are bound in the arguments. -/
def Args.binders : Args → List String
  | .last x arg => x :: arg.binders
  | .cons x arg args => x :: (arg.binders ++ args.binders)

end

lemma Args.params_sublist (args : Args) : args.params.Sublist args.binders := by
  induction args using Args.induction with
  | last x arg => exact (List.nil_sublist arg.binders).cons_cons x
  | cons x arg args ih =>
    exact (ih.trans (List.sublist_append_right arg.binders args.binders)).cons_cons x

lemma Args.params_ne_nil (args : Args) : args.params ≠ [] := by
  cases args with
  | last | cons => exact List.cons_ne_nil _ _

mutual

/-- The variables of an expression are bound in it or are among the names `scope`. -/
def Term.InScope : Term → List String → Prop
  | .literal _, _ => True
  | .var x, scope => x ∈ scope
  | .op _ left right, scope => left.InScope scope ∧ right.InScope scope
  | .cond condition yes no, scope =>
    condition.InScope scope ∧ yes.InScope scope ∧ no.InScope scope
  | .letIn x value body, scope => value.InScope scope ∧ body.InScope (x :: scope)
  | .call args body, scope => args.InScope scope ∧ body.InScope (args.scope scope)

/-- The same of arguments. -/
def Args.InScope : Args → List String → Prop
  | .last _ arg, scope => arg.InScope scope
  | .cons _ arg args, scope => arg.InScope scope ∧ args.InScope scope

end

/-- A name that has a meaning of its own. -/
def IsReserved (x : String) : Prop :=
  (∃ op : Operator, op.symbol = x) ∨ x ∈ ["?", "let", "def", "lambda", "macro"] ∨
    ∃ l : Literal, l.text = x

/-- A name is not reserved that is no operator, no special form and no integer literal. -/
lemma not_isReserved {x : String} (hop : ∀ op ∈ Operator.all, op.symbol ≠ x)
    (hform : x ∉ ["?", "let", "def", "lambda", "macro"]) (hliteral : isIntegerLiteral x = false) :
    ¬ IsReserved x := by
  rintro (⟨op, hx⟩ | hx | ⟨l, rfl⟩)
  · exact hop op (by cases op <;> decide) hx
  · exact hform hx
  · rw [l.isIntegerLiteral_text] at hliteral
    cases hliteral

/-- Names that can all be bound in one program. -/
structure AreBinders (xs : List String) : Prop where
  nodup : xs.Nodup
  not_reserved : ∀ x ∈ xs, ¬ IsReserved x

lemma areBinders_cons_iff {x : String} {xs : List String} :
    AreBinders (x :: xs) ↔ ¬ IsReserved x ∧ x ∉ xs ∧ AreBinders xs := by
  constructor
  · rintro ⟨hnodup, hreserved⟩
    obtain ⟨hx, hnodup⟩ := List.nodup_cons.1 hnodup
    obtain ⟨hreservedx, hreserved⟩ := List.forall_mem_cons.1 hreserved
    exact ⟨hreservedx, hx, hnodup, hreserved⟩
  · rintro ⟨hreservedx, hx, hnodup, hreserved⟩
    exact ⟨List.nodup_cons.2 ⟨hx, hnodup⟩, List.forall_mem_cons.2 ⟨hreservedx, hreserved⟩⟩

lemma areBinders_append_iff {xs ys : List String} :
    AreBinders (xs ++ ys) ↔ AreBinders xs ∧ AreBinders ys ∧ xs.Disjoint ys := by
  constructor
  · rintro ⟨hnodup, hreserved⟩
    obtain ⟨hxs, hys, hdisjoint⟩ := List.nodup_append'.1 hnodup
    obtain ⟨hreservedxs, hreservedys⟩ := List.forall_mem_append.1 hreserved
    exact ⟨⟨hxs, hreservedxs⟩, ⟨hys, hreservedys⟩, hdisjoint⟩
  · rintro ⟨⟨hxs, hreservedxs⟩, ⟨hys, hreservedys⟩, hdisjoint⟩
    exact ⟨List.nodup_append'.2 ⟨hxs, hys, hdisjoint⟩,
      List.forall_mem_append.2 ⟨hreservedxs, hreservedys⟩⟩

/-- A program: its variables are bound, each name once, and no name that has a meaning. -/
structure Term.IsProgram (t : Term) : Prop where
  closed : t.InScope []
  binders : AreBinders t.binders

end FirstOrder
end TypedLisp
