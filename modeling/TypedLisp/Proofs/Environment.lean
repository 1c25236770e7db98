import Mathlib
import TypedLisp.Proofs.Depth

/-!
# More names in an environment

An environment may bind more names than before without an effect on an evaluation, unless the
evaluation asks for one of these names and fails because it is not defined.  Two kinds of names are
an exception, since they mean something without being bound: the name `?` of the conditional, and
integer literals.

An evaluation looks a name up where it comes to an atom, and at the head of a call, which may be
bound to a literal function.  At a head it does not fail if the name is not bound: but then it
evaluates the head next, as an atom, and that fails.  The expansion of the body of a function does
not see the environment at all, nor do the macros in it.
-/

namespace TypedLisp

variable {H α β : Type} {New : String → Prop}

/-! ### Environments and outcomes -/

/-- The environment `env'` binds what `env` does, and perhaps some of the names in `New`, which
mean nothing where they are not bound, and of which `env` binds none. -/
structure Scope.GrowsBy (New : String → Prop) (env env' : Scope H) : Prop where
  /-- The other names are bound as before. -/
  old : ∀ name, ¬ New name → env'.get? name = env.get? name
  /-- The new names were not bound. -/
  new : ∀ name, New name → env.get? name = none
  /-- The name of the conditional is none of them. -/
  conditional : ¬ New "?"
  /-- No integer literal is one of them. -/
  literal : ∀ name, New name → isIntegerLiteral name = false

lemma Scope.growsBy_insert {env : Scope H} {name : String} (hname : env.get? name = none)
    (hcond : name ≠ "?") (hliteral : isIntegerLiteral name = false) (w : Node H) :
    Scope.GrowsBy (fun key => key = name) env (env.insert name w) where
  old key hkey := by rw [Bindings.get?_insert, if_neg hkey]
  new key hkey := hkey ▸ hname
  conditional hquestion := hcond hquestion.symm
  literal key hkey := hkey ▸ hliteral

namespace Outcome

/-- An outcome that tells nothing about an environment with the names in `New`: one of them is not
defined, or the evaluation is cut off. -/
inductive IsLost (New : String → Prop) : Outcome α → Prop where
  /-- A new name is not defined. -/
  | missing {name : String} (h : New name) (span : Option Span) :
    IsLost New (.error (.raised (.reference name span)))
  /-- The evaluation is cut off. -/
  | cut : IsLost New (.error .endless)

/-- The outcome `x` is kept as `y`, or it is lost. -/
def KeptAs (New : String → Prop) (x y : Outcome α) : Prop := x.IsLost New ∨ y = x

lemma IsLost.bind {x : Outcome α} (h : x.IsLost New) (k : α → Outcome β) :
    (x >>= k).IsLost New := by
  cases h with
  | missing h span => exact .missing h span
  | cut => exact .cut

namespace KeptAs

variable {x y : Outcome α}

lemma kept (x : Outcome α) : x.KeptAs New x := .inr rfl

lemma bind (h : x.KeptAs New y) {k l : α → Outcome β} (hk : ∀ a, (k a).KeptAs New (l a)) :
    (x >>= k).KeptAs New (y >>= l) := by
  rcases h with h | rfl
  · exact .inl (h.bind k)
  · cases y with
    | error f => exact kept (.error f)
    | ok a => exact hk a

lemma map (h : x.KeptAs New y) (f : α → β) : KeptAs New (x.map f) (y.map f) := by
  rcases h with h | rfl
  · cases h with
    | missing h span => exact .inl (.missing h span)
    | cut => exact .inl .cut
  · exact kept _

lemma orAt (h : x.KeptAs New y) (span : Option Span) :
    (x.orAt span).KeptAs New (y.orAt span) := by
  rcases h with h | rfl
  · cases h with
    | missing h at? => exact .inl (.missing h at?)
    | cut => exact .inl .cut
  · exact kept _

lemma mapM {k l : β → Outcome α} (h : ∀ b, (k b).KeptAs New (l b)) (bs : List β) :
    (bs.mapM k).KeptAs New (bs.mapM l) := by
  induction bs with
  | nil => exact kept _
  | cons b bs ih =>
    rw [List.mapM_cons, List.mapM_cons]
    exact (h b).bind fun a => ih.bind fun as => kept _

lemma eq_ok {a : α} (h : KeptAs New (.ok a) y) : y = .ok a := by
  rcases h with h | rfl
  · cases h
  · rfl

lemma eq_raised {err : Error} (h : KeptAs New (.error (.raised err)) y)
    (herr : ∀ name span, New name → err ≠ .reference name span) : y = .error (.raised err) := by
  rcases h with h | rfl
  · cases h with
    | missing h span => exact absurd rfl (herr _ span h)
  · rfl

end KeptAs

end Outcome

open Outcome (KeptAs)

lemma Node.kind_of_atom? (n : Node H) {name : String} (h : n.atom? = some name) :
    n.kind = .atom name := by
  unfold atom? at h
  split at h
  · next hkind => rw [hkind, Option.some.inj h]
  · cases h

/-! ### One step -/

section Step

variable {evaluate : Scope H → Node H → Outcome (Node H)}
  {expand : Scope H → Node H → Outcome (Expanded H)} {env env' : Scope H}

/-- The evaluation of every expression is kept in a larger environment, and that of a new name is
lost. -/
structure EvaluationKept (New : String → Prop)
    (evaluate : Scope H → Node H → Outcome (Node H)) (env env' : Scope H) : Prop where
  /-- Outcomes are kept. -/
  kept : ∀ n, (evaluate env n).KeptAs New (evaluate env' n)
  /-- A new name has no value in the smaller environment. -/
  lost : ∀ n name, n.atom? = some name → New name → (evaluate env n).IsLost New

lemma evaluateAtom_isLost (hgrows : Scope.GrowsBy New env env') (expr : Node H) {name : String}
    (hname : New name) : (evaluateAtom evaluate env expr name).IsLost New := by
  rw [evaluateAtom, hgrows.literal name hname, hgrows.new name hname]
  exact .missing hname expr.span

variable (hgrows : Scope.GrowsBy New env env') (hev : EvaluationKept New evaluate env env')
include hev

include hgrows in
lemma evaluateAtom_kept (expr : Node H) (name : String) :
    (evaluateAtom evaluate env expr name).KeptAs New (evaluateAtom evaluate env' expr name) := by
  by_cases hname : New name
  · exact .inl (evaluateAtom_isLost hgrows expr hname)
  · rw [evaluateAtom, evaluateAtom, hgrows.old name hname]
    split
    · exact .kept _
    · split
      · exact (hev.kept _).map _
      · exact .kept _

lemma evaluateQuoted_kept (inner : Node H) :
    (evaluateQuoted evaluate env inner).KeptAs New (evaluateQuoted evaluate env' inner) := by
  unfold evaluateQuoted
  split
  · exact (KeptAs.mapM hev.kept _).bind fun values => .kept _
  · exact .kept _

lemma evaluateConditional_kept (condition yes no : Node H) :
    (evaluateConditional evaluate env condition yes no).KeptAs New
      (evaluateConditional evaluate env' condition yes no) := by
  refine (hev.kept condition).bind fun value => (KeptAs.kept _).bind fun holds => ?_
  cases holds
  · exact hev.kept no
  · exact hev.kept yes

lemma substitute_kept (span : Option Span) (params : List (Node H)) (body arg : Node H) :
    (substitute evaluate expand env span params body arg).KeptAs New
      (substitute evaluate expand env' span params body arg) := by
  unfold substitute
  split
  · split
    · exact .kept _
    · refine (KeptAs.kept _).bind fun e => ?_
      split
      · exact hev.kept _
      · exact .kept _
  · exact .kept _

section
variable [Host H]

lemma applyNode_kept (callee arg : Node H) :
    (applyNode evaluate expand env callee arg).KeptAs New
      (applyNode evaluate expand env' callee arg) := by
  unfold applyNode
  split
  · exact .kept _
  · exact .kept _
  · split
    · exact substitute_kept hev _ _ _ _
    · exact .kept _

lemma applyAll_kept (span : Option Span) (callee : Node H) (args : List (Node H)) :
    (applyAll evaluate expand env span callee args).KeptAs New
      (applyAll evaluate expand env' span callee args) := by
  induction args generalizing callee with
  | nil => exact .kept _
  | cons arg args ih =>
    exact (hev.kept arg).bind fun value =>
      ((applyNode_kept hev callee value).orAt span).bind fun result => ih result

lemma callNode_kept (span : Option Span) (callee : Node H) (args : List (Node H)) :
    (callNode evaluate expand env span callee args).KeptAs New
      (callNode evaluate expand env' span callee args) := by
  unfold callNode
  split
  · exact (KeptAs.mapM hev.kept args).bind fun values => .kept _
  · exact applyAll_kept hev span callee args

include hgrows

/-- A new name at the head of a call may stand for a function in the larger environment, but in the
smaller one it is evaluated. -/
lemma evaluateCall_kept (span : Option Span) (head : Node H) (args : List (Node H)) :
    (evaluateCall evaluate expand env span head args).KeptAs New
      (evaluateCall evaluate expand env' span head args) := by
  by_cases hname : ∃ name, head.atom? = some name ∧ New name
  · obtain ⟨name, hatom, hname⟩ := hname
    have hnone : lambdaHead? env head = none := by
      have hlambda : head.isLambda = false := by
        simp [Node.isLambda, Node.lambda?, head.kind_of_atom? hatom]
      simp [lambdaHead?, hatom, hgrows.new name hname, hlambda]
    rw [evaluateCall, hnone]
    exact .inl ((hev.lost head name hatom hname).bind _)
  · have hsame : lambdaHead? env' head = lambdaHead? env head := by
      have hget : head.atom?.bind env'.get? = head.atom?.bind env.get? := by
        cases hatom : head.atom? with
        | none => rfl
        | some name => exact hgrows.old name fun hnew => hname ⟨name, hatom, hnew⟩
      rw [lambdaHead?, lambdaHead?, hget]
    rw [evaluateCall, evaluateCall, hsame]
    split
    · exact callNode_kept hev span _ args
    · exact (hev.kept head).bind fun callee => callNode_kept hev span callee args

lemma evaluateList_kept (expr : Node H) (items : List (Node H)) :
    (evaluateList evaluate expand env expr items).KeptAs New
      (evaluateList evaluate expand env' expr items) := by
  have hquestion : env'.contains "?" = env.contains "?" :=
    congrArg Option.isSome (hgrows.old "?" hgrows.conditional)
  unfold evaluateList
  rw [hquestion]
  split
  · exact .kept _
  · split
    · exact evaluateConditional_kept hev _ _ _
    · exact evaluateCall_kept hgrows hev _ _ _
  · split
    · exact .kept _
    · exact evaluateCall_kept hgrows hev _ _ _

lemma evaluateStep_kept (n : Node H) :
    (evaluateStep evaluate expand env n).KeptAs New (evaluateStep evaluate expand env' n) := by
  unfold evaluateStep
  split
  · exact evaluateAtom_kept hgrows hev n _
  · exact evaluateQuoted_kept hev _
  · exact evaluateList_kept hgrows hev n _
  · exact .kept _

end

end Step

/-! ### All levels -/

section

variable [Host H] {env env' : Scope H}

lemma evaluate_isLost (hgrows : Scope.GrowsBy New env env') (depth : Nat) {n : Node H}
    {name : String} (hn : n.atom? = some name) (hname : New name) :
    (evaluate depth env n).IsLost New := by
  cases depth with
  | zero => exact .cut
  | succ depth =>
    rw [evaluate, evaluateStep, n.kind_of_atom? hn]
    exact evaluateAtom_isLost hgrows n hname

/-- At every depth, the outcome in the smaller environment is kept or lost. -/
theorem evaluate_kept (hgrows : Scope.GrowsBy New env env') (depth : Nat) (n : Node H) :
    (evaluate depth env n).KeptAs New (evaluate depth env' n) := by
  induction depth generalizing n with
  | zero => exact .kept _
  | succ depth ih =>
    have hev : EvaluationKept New (evaluate depth) env env' :=
      ⟨ih, fun m name hm hname => evaluate_isLost hgrows depth hm hname⟩
    exact evaluateStep_kept hgrows hev n

/-- **Unrelated names have no effect.**  When an environment binds one more name, which is not that
of the conditional and not an integer literal, every value stays the same, and so does every error
but the one that this name is not defined. -/
theorem settles_evaluate_insert {name : String} (hname : env.contains name = false)
    (hcond : name ≠ "?") (hliteral : isIntegerLiteral name = false) (w e : Node H) :
    (∀ v, Settles (fun depth => evaluate depth env e) (.ok v) →
        Settles (fun depth => evaluate depth (env.insert name w) e) (.ok v)) ∧
      ∀ err, (∀ span, err ≠ .reference name span) →
        Settles (fun depth => evaluate depth env e) (.error (.raised err)) →
        Settles (fun depth => evaluate depth (env.insert name w) e) (.error (.raised err)) := by
  have hnone : env.get? name = none := by simpa [Bindings.contains] using hname
  have hgrows := Scope.growsBy_insert hnone hcond hliteral w
  have hdeepens := deepens_evaluate (env.insert name w) e
  constructor
  · rintro v ⟨enough, -, hle⟩
    have hv : evaluate enough env e = .ok v := hle enough le_rfl
    have hkept := evaluate_kept hgrows enough e
    rw [hv] at hkept
    exact hdeepens.settles_of_eq_ok hkept.eq_ok
  · rintro err herr ⟨enough, -, hle⟩
    have hraised : evaluate enough env e = .error (.raised err) := hle enough le_rfl
    have hkept := evaluate_kept hgrows enough e
    rw [hraised] at hkept
    refine hdeepens.settles_of_eq_raised (hkept.eq_raised ?_)
    rintro key span rfl
    exact herr span

end

/-- The call `((lambda (x) (? (< x 3) (+ x 1) (y x))) 2)`, which does not come to `y`. -/
def callWithoutName : Node Empty :=
  let x := .atom "x" none
  let less := .list [.atom "<" none, x, .atom "3" none] none
  let sum := .list [.atom "+" none, x, .atom "1" none] none
  let call := .list [.atom "y" none, x] none
  .list [.list [.atom "lambda" none, .list [x] none,
    .list [.atom "?" none, less, sum, call] none] none, .atom "2" none] none

/-- The prelude with the name `y` for the function `(lambda (z) z)`. -/
def preludeWithName : Scope Empty :=
  prelude.insert "y" (.list [.atom "lambda" none, .list [.atom "z" none] none, .atom "z" none] none)

/-- A function for the name `y` changes neither a value nor the error that `f` is not defined. -/
theorem settles_evaluate_insert_function :
    (prelude : Scope Empty).contains "y" = false ∧ isIntegerLiteral "y" = false ∧
      Settles (fun depth => evaluate depth prelude callWithoutName) (.ok (.value (.int 3) none)) ∧
      Settles (fun depth => evaluate depth preludeWithName callWithoutName)
        (.ok (.value (.int 3) none)) ∧
      Settles (fun depth => evaluate depth preludeWithName
          (.list [.atom "f" none, .atom "y" none] none))
        (.error (.raised (.reference "f" none))) := by
  have hname : (prelude : Scope Empty).contains "y" = false := by decide +kernel
  have hliteral : isIntegerLiteral "y" = false := by decide +kernel
  have hvalue : evaluate 5 prelude callWithoutName = .ok (.value (.int 3) none) := by cbv
  have herror : evaluate 2 prelude (.list [.atom "f" none, .atom "y" none] none : Node Empty) =
      .error (.raised (.reference "f" none)) := by cbv
  have hvalue := (deepens_evaluate prelude callWithoutName).settles_of_eq_ok hvalue
  have herror := (deepens_evaluate prelude _).settles_of_eq_raised herror
  refine ⟨hname, hliteral, hvalue, ?_, ?_⟩
  · exact (settles_evaluate_insert hname (by decide) hliteral _ _).1 _ hvalue
  · exact (settles_evaluate_insert hname (by decide) hliteral _ _).2 _ (by simp) herror

end TypedLisp
