import TypedLisp.Evaluation
import TypedLisp.Proofs.Erasure.Expansion

/-!
# Erasure and evaluation

The value of an expression from which something is taken away follows that of the expression itself,
level by level, if no function of the host looks at what is taken away.  Without any erasure the
same induction says that a deeper evaluation gives the same answer.
-/

namespace TypedLisp

variable {H : Type} {T : Prop} {e : Erasure}

open Outcome (Follows)

/-! ### Functions of the host -/

/-- The functions of an embedding program do not look at what is taken away. -/
structure Host.IsBlind (H : Type) [Host H] (T : Prop) (e : Erasure) : Prop where
  apply : ∀ (f : H) (arg : Node H), (Outcome.ofExcept (Host.apply f arg)).Follows T e id
    (Outcome.ofExcept (Host.apply f (arg.erase e)))
  call : ∀ (f : H) (args : List (Node H)), (Outcome.ofExcept (Host.call f args)).Follows T e
    (Node.erase e) (Outcome.ofExcept (Host.call f (args.map (Node.erase e))))

lemma Host.isBlind_empty : Host.IsBlind Empty T e := ⟨nofun, nofun⟩

lemma Node.toInt64_follows (n : Node H) :
    (Outcome.ofExcept n.toInt64).Follows T e id (Outcome.ofExcept (n.erase e).toInt64) := by
  obtain ⟨kind, span, type⟩ := n
  unfold Node.toInt64
  cases kind with
  | value v => cases v <;> first | exact .of_eq rfl | exact .typeErrorAt _ _
  | atom name =>
    dsimp only [Node.erase, Kind.erase]
    cases readInt64? name with
    | none => exact .typeErrorAt _ _
    | some i => exact .of_eq rfl
  | quoted | list | str | null | keyword | procedure => exact .typeErrorAt _ _

lemma Operator.value_follows (op : Operator) (a b : Int64) :
    (Outcome.ofExcept (op.value (H := H) a b)).Follows T e id
      (Outcome.ofExcept (op.value a b)) := by
  unfold Operator.value
  cases op.apply a b with
  | ok scalar => exact .of_eq rfl
  | error cause => exact .typeError [] _

lemma firstOf_follows (args : List (Node H)) :
    (Outcome.ofExcept (firstOf args)).Follows T e (Node.erase e)
      (Outcome.ofExcept (firstOf (args.map (Node.erase e)))) := by
  match args with
  | [] => exact .typeError [] _
  | [⟨.list (item :: items), span, type⟩] => exact .of_eq rfl
  | [⟨.list [], span, type⟩] | [⟨.quoted _, span, type⟩] | [⟨.atom _, span, type⟩]
  | [⟨.str _, span, type⟩] | [⟨.null, span, type⟩] | [⟨.keyword _, span, type⟩]
  | [⟨.value _, span, type⟩] | [⟨.procedure _, span, type⟩] => exact .typeErrorAt _ _
  | a :: b :: args =>
    have hlength : (a :: b :: args).length = ((a :: b :: args).map (Node.erase e)).length :=
      (List.length_map _).symm
    rw [firstOf, firstOf, hlength]
    · exact .typeError [] _
    all_goals simp

section

variable [Host H] (hhost : Host.IsBlind H T e)
include hhost

lemma Curried.apply_follows (f : Curried H) (arg : Node H) :
    (Outcome.ofExcept (f.apply arg)).Follows T e id (Outcome.ofExcept (f.apply (arg.erase e))) := by
  cases f with
  | operator op =>
    rw [Curried.apply, Curried.apply, Outcome.ofExcept_map, Outcome.ofExcept_map]
    exact arg.toInt64_follows.map fun _ => rfl
  | operatorOn op lhs => exact arg.toInt64_follows.bindExcept fun rhs => op.value_follows lhs rhs
  | host h => exact hhost.apply h arg

lemma Variadic.call_follows (f : Variadic H) (args : List (Node H)) :
    (Outcome.ofExcept (f.call args)).Follows T e (Node.erase e)
      (Outcome.ofExcept (f.call (args.map (Node.erase e)))) := by
  cases f with
  | first => exact firstOf_follows args
  | host h => exact hhost.call h args

end

/-! ### One step -/

/-- An expansion follows another one on all nodes in all scopes. -/
def ExpansionFollows (T : Prop) (e : Erasure)
    (expand expand' : Scope H → Node H → Outcome (Expanded H)) : Prop :=
  ∀ scope n, (expand scope n).Follows T e (Expanded.erase e)
    (expand' (Scope.erase e scope) (n.erase e))

section Step

variable {evaluate evaluate' : Scope H → Node H → Outcome (Node H)}
  {expand expand' : Scope H → Node H → Outcome (Expanded H)} (env : Scope H)
  (hevaluate : EvaluationFollows T e evaluate evaluate')
  (hexpand : ExpansionFollows T e expand expand')

lemma conditionHolds_follows (source condition : Node H) :
    (conditionHolds source condition).Follows T e id
      (conditionHolds (source.erase e) (condition.erase e)) := by
  obtain ⟨kind, span, type⟩ := condition
  rw [conditionHolds, conditionHolds, Node.span_erase]
  cases kind with
  | value v => exact .of_eq rfl
  | procedure f => exact .of_eq rfl
  | quoted | list | atom | str | null | keyword => exact .typeErrorAt _ _

lemma lambdaHead?_erase (head : Node H) :
    lambdaHead? (Scope.erase e env) (head.erase e) = (lambdaHead? env head).map (Node.erase e) := by
  unfold lambdaHead?
  have hbound : (head.erase e).atom?.bind (Scope.erase e env).get? =
      (head.atom?.bind env.get?).map (Node.erase e) := by
    rw [Node.atom?_erase]
    cases head.atom? <;> simp
  rw [hbound, Node.isLambda_erase]
  cases head.atom?.bind env.get? with
  | none => cases head.isLambda <;> rfl
  | some bound =>
    rw [Option.map_some]
    dsimp only
    rw [Node.isLambda_erase]
    cases bound.isLambda <;> rfl

section
include hevaluate

lemma evaluateAtom_follows (expr : Node H) (name : String) :
    (evaluateAtom evaluate env expr name).Follows T e (Node.erase e)
      (evaluateAtom evaluate' (Scope.erase e env) (expr.erase e) name) := by
  unfold evaluateAtom
  rw [Node.span_erase, Node.type_erase, Bindings.get?_map]
  split
  · cases readInt64? name with
    | none => exact .typeErrorAt _ _
    | some i => exact .of_eq (by simp)
  · cases env.get? name with
    | none => exact .raise (Error.erase_reference e name expr.span)
    | some bound => exact (hevaluate env bound).map fun v => v.erase_relocated e _

lemma evaluateQuoted_follows (inner : Node H) :
    (evaluateQuoted evaluate env inner).Follows T e (Node.erase e)
      (evaluateQuoted evaluate' (Scope.erase e env) (inner.erase e)) := by
  obtain ⟨kind, span, type⟩ := inner
  cases kind with
  | list items =>
    rw [evaluateQuoted, evaluateQuoted, Node.erase, Kind.erase, Node.eraseAll_eq_map]
    refine (Follows.mapM _ items fun n _ => hevaluate env n).bind fun values => .of_eq ?_
    simp [Node.type, Node.getD_eraseType]
  | quoted | atom | str | null | keyword | value | procedure => exact .of_eq rfl

lemma evaluateConditional_follows (condition yes no : Node H) :
    (evaluateConditional evaluate env condition yes no).Follows T e (Node.erase e)
      (evaluateConditional evaluate' (Scope.erase e env) (condition.erase e) (yes.erase e)
        (no.erase e)) := by
  refine (hevaluate env condition).bind fun value =>
    (conditionHolds_follows condition value).bind fun b => ?_
  cases b
  · exact hevaluate env no
  · exact hevaluate env yes

include hexpand

lemma substitute_follows (span : Option Span) (params : List (Node H)) (body arg : Node H) :
    (substitute evaluate expand env span params body arg).Follows T e (Node.erase e)
      (substitute evaluate' expand' (Scope.erase e env) (e.span span) (params.map (Node.erase e))
        (body.erase e) (arg.erase e)) := by
  match params with
  | [param] =>
    rw [List.map_singleton, substitute, substitute, Node.atom?_erase, Node.span_erase,
      Node.span_erase]
    cases param.atom? with
    | none => exact .typeErrorAt _ _
    | some name =>
      have hbody := hexpand (Bindings.empty.insert name arg) body
      rw [Scope.erase_insert, Scope.erase, Bindings.map_empty] at hbody
      refine hbody.bind fun x => ?_
      obtain ⟨node?, consts⟩ := x
      cases node? with
      | none => exact .typeErrorAt _ _
      | some node => exact hevaluate env node
  | [] => exact .typeErrorAt _ _
  | _ :: _ :: params =>
    simp only [List.map_cons]
    rw [substitute, substitute]
    · simp only [List.length_cons, List.length_map]
      exact .typeErrorAt _ _
    all_goals simp

variable [Host H] (hhost : Host.IsBlind H T e)
include hhost

lemma applyNode_follows (callee arg : Node H) :
    (applyNode evaluate expand env callee arg).Follows T e (Node.erase e)
      (applyNode evaluate' expand' (Scope.erase e env) (callee.erase e) (arg.erase e)) := by
  unfold applyNode
  rw [Node.kind_erase, Node.lambda?_erase, Node.span_erase, Node.kindName_erase]
  cases hkind : callee.kind with
  | value v =>
    cases v with
    | func f => exact (f.apply_follows hhost arg).map fun _ => by simp
    | int | bool | str | unit =>
      have hlambda : callee.lambda? = none := by rw [Node.lambda?, hkind]
      rw [hlambda]
      exact .typeErrorAt _ _
  | procedure f => exact f.call_follows hhost [arg]
  | quoted | list | atom | str | null | keyword =>
    cases callee.lambda? with
    | none => exact .typeErrorAt _ _
    | some f => exact substitute_follows env hevaluate hexpand _ _ _ _

lemma applyAll_follows (span : Option Span) (callee : Node H) (args : List (Node H)) :
    (applyAll evaluate expand env span callee args).Follows T e (Node.erase e)
      (applyAll evaluate' expand' (Scope.erase e env) (e.span span) (callee.erase e)
        (args.map (Node.erase e))) := by
  induction args generalizing callee with
  | nil => exact .of_eq rfl
  | cons arg args ih =>
    refine (hevaluate env arg).bind fun value => ?_
    have happly := applyNode_follows env hevaluate hexpand hhost callee value
    exact (happly.orAt span).bind fun result => ih result

lemma callNode_follows (span : Option Span) (callee : Node H) (args : List (Node H)) :
    (callNode evaluate expand env span callee args).Follows T e (Node.erase e)
      (callNode evaluate' expand' (Scope.erase e env) (e.span span) (callee.erase e)
        (args.map (Node.erase e))) := by
  have hall := applyAll_follows env hevaluate hexpand hhost span callee args
  unfold callNode
  rw [Node.kind_erase]
  generalize callee.kind = kind
  cases kind with
  | procedure f =>
    refine (Follows.mapM _ args fun n _ => hevaluate env n).bind fun values => ?_
    exact (f.call_follows hhost values).orAt span
  | quoted | list | atom | str | null | keyword | value => exact hall

lemma evaluateCall_follows (span : Option Span) (head : Node H) (args : List (Node H)) :
    (evaluateCall evaluate expand env span head args).Follows T e (Node.erase e)
      (evaluateCall evaluate' expand' (Scope.erase e env) (e.span span) (head.erase e)
        (args.map (Node.erase e))) := by
  unfold evaluateCall
  rw [lambdaHead?_erase]
  cases lambdaHead? env head with
  | some f => exact callNode_follows env hevaluate hexpand hhost span f args
  | none => exact (hevaluate env head).bind fun callee =>
      callNode_follows env hevaluate hexpand hhost span callee args

lemma evaluateList_follows (expr : Node H) (items : List (Node H)) :
    (evaluateList evaluate expand env expr items).Follows T e (Node.erase e)
      (evaluateList evaluate' expand' (Scope.erase e env) (expr.erase e)
        (items.map (Node.erase e))) := by
  have hcall : ∀ head args, (if expr.isLambda then .ok expr
      else evaluateCall evaluate expand env expr.span head args).Follows T e (Node.erase e)
      (if (expr.erase e).isLambda then .ok (expr.erase e)
        else evaluateCall evaluate' expand' (Scope.erase e env) (expr.erase e).span
          (head.erase e) (args.map (Node.erase e))) := by
    intro head args
    rw [Node.isLambda_erase, Node.span_erase]
    split
    · exact .of_eq rfl
    · exact evaluateCall_follows env hevaluate hexpand hhost _ _ _
  match items with
  | [] =>
    rw [List.map_nil, evaluateList, evaluateList, Node.span_erase]
    exact .typeErrorAt _ _
  | [head, condition, yes, no] =>
    simp only [List.map_cons, List.map_nil, evaluateList, Node.isAtom_erase,
      Bindings.contains_map, Node.span_erase]
    split
    · exact evaluateConditional_follows env hevaluate condition yes no
    · exact evaluateCall_follows env hevaluate hexpand hhost _ head [condition, yes, no]
  | [head] => exact hcall head []
  | [head, a] => exact hcall head [a]
  | [head, a, b] => exact hcall head [a, b]
  | head :: a :: b :: c :: d :: args => exact hcall head (a :: b :: c :: d :: args)

lemma evaluateStep_follows (expr : Node H) :
    (evaluateStep evaluate expand env expr).Follows T e (Node.erase e)
      (evaluateStep evaluate' expand' (Scope.erase e env) (expr.erase e)) := by
  have hatom := evaluateAtom_follows env hevaluate expr
  have hlist := evaluateList_follows env hevaluate hexpand hhost expr
  unfold evaluateStep
  rw [Node.kind_erase]
  generalize expr.kind = kind
  cases kind with
  | atom name => exact hatom name
  | quoted inner => exact evaluateQuoted_follows env hevaluate inner
  | list items =>
    rw [Kind.erase, Node.eraseAll_eq_map]
    exact hlist items
  | str | null | keyword | value | procedure => exact .of_eq rfl

end

end Step

/-! ### All levels -/

/-- **Evaluation is blind to erasure**, and deeper evaluation answers the same: at the same depth,
or at a greater one if outcomes that are cut off do not count, an expression from which something is
taken away has the value of the expression itself, without what is taken away. -/
theorem evaluate_follows [Host H] (hhost : Host.IsBlind H T e) {depth depth' : Nat}
    (h : depth = depth' ∨ depth ≤ depth' ∧ T) :
    EvaluationFollows T e (H := H) (evaluate depth) (evaluate depth') := by
  induction depth generalizing depth' with
  | zero =>
    intro env n
    rcases h with rfl | ⟨-, hT⟩
    · exact .endless
    · exact .cut hT _
  | succ depth ih =>
    obtain ⟨depth', rfl⟩ : ∃ k, depth' = k + 1 := ⟨depth' - 1, by omega⟩
    have hlevel := ih (h.imp Nat.succ.inj (And.imp_left Nat.le_of_succ_le_succ))
    intro env n
    exact evaluateStep_follows env hlevel (fun scope n => expandNode_follows hlevel scope n) hhost n

end TypedLisp
