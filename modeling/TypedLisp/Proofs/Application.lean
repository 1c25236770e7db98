import Mathlib
import TypedLisp.Proofs.Depth

/-!
# Arguments one at a time

A call with several arguments has the outcome of the call with the first of them, called with the
others.  The calls are read differently, since the head of the second is itself a call, but both
apply one and the same callee to the arguments in their order.  Only the place differs that is
given to an error without a place: that is the call in which the failing argument stands.

Functions that take all their arguments at once are another matter, both as the callee and as what
the first arguments give.
-/

namespace TypedLisp

variable {H α β : Type}

namespace Outcome

/-- Two outcomes that are the same, except for where an error without a place was put. -/
inductive SameUpToPlace : Outcome α → Outcome α → Prop where
  | same (r : Outcome α) : SameUpToPlace r r
  | placed (err : Error) (span span' : Option Span) :
    SameUpToPlace (.error (.raised (err.orAt span))) (.error (.raised (err.orAt span')))

lemma sameUpToPlace_orAt (x : Outcome α) (span span' : Option Span) :
    SameUpToPlace (x.orAt span) (x.orAt span') := by
  rcases x with (err | _) | a
  · exact .placed err span span'
  · exact .same (.error .endless)
  · exact .same (.ok a)

lemma SameUpToPlace.bind {x y : Outcome α} (h : SameUpToPlace x y) {k l : α → Outcome β}
    (hk : ∀ a, y = .ok a → SameUpToPlace (k a) (l a)) : SameUpToPlace (x >>= k) (y >>= l) := by
  cases h with
  | placed err span span' => exact .placed err span span'
  | same =>
    cases x with
    | error e => exact .same (.error e)
    | ok a => exact hk a rfl

end Outcome

open Outcome (SameUpToPlace)

/-- A function that takes all its arguments at once. -/
def Node.TakesAllAtOnce (n : Node H) : Prop :=
  ∃ f, n.kind = .procedure f

/-- What the head of a call stands for: a function as it is written or bound, or else what the head
evaluates to. -/
def calleeOf (evaluate : Scope H → Node H → Outcome (Node H)) (env : Scope H) (head : Node H) :
    Outcome (Node H) :=
  match lambdaHead? env head with
  | some f => .ok f
  | none => evaluate env head

section

variable {evaluate : Scope H → Node H → Outcome (Node H)}
  {expand : Scope H → Node H → Outcome (Expanded H)} {env : Scope H} {span span' : Option Span}
  {callee head : Node H} {args more : List (Node H)}

/-! ### Calls -/

/-- Where the head is itself a call, the callee is what it evaluates to. -/
lemma calleeOf_list (hhead : head.isAtom "lambda" = false) (type : Option (Node H)) :
    calleeOf evaluate env ⟨.list (head :: args), span, type⟩ =
      evaluate env ⟨.list (head :: args), span, type⟩ := by
  rw [calleeOf]
  rcases args with _ | ⟨a, _ | ⟨b, _ | ⟨c, args⟩⟩⟩ <;>
    simp [lambdaHead?, Node.atom?, Node.isLambda, Node.lambda?, hhead]

variable [Host H]

lemma evaluateCall_eq_bind_calleeOf :
    evaluateCall evaluate expand env span head args =
      calleeOf evaluate env head >>= fun f => callNode evaluate expand env span f args := by
  rw [evaluateCall, calleeOf]
  cases lambdaHead? env head with
  | none => rfl
  | some f => rfl

lemma callNode_eq_applyAll (h : ¬ callee.TakesAllAtOnce) :
    callNode evaluate expand env span callee args =
      applyAll evaluate expand env span callee args := by
  rw [callNode]
  split
  next f hf => exact absurd ⟨f, hf⟩ h
  next => rfl

/-! ### Application to some arguments and then to others -/

lemma applyAll_append :
    applyAll evaluate expand env span callee (args ++ more) =
      applyAll evaluate expand env span callee args >>= fun f =>
        applyAll evaluate expand env span f more := by
  induction args generalizing callee with
  | nil => rfl
  | cons arg args ih =>
    simp only [List.cons_append, applyAll, bind_assoc]
    refine bind_congr fun value => bind_congr fun result => ?_
    exact ih

/-- The place of a call shows in nothing but the errors that are put there. -/
lemma applyAll_sameUpToPlace :
    SameUpToPlace (applyAll evaluate expand env span callee args)
      (applyAll evaluate expand env span' callee args) := by
  induction args generalizing callee with
  | nil => exact .same (.ok callee)
  | cons arg args ih =>
    refine (SameUpToPlace.same (evaluate env arg)).bind fun value _ => ?_
    exact (Outcome.sameUpToPlace_orAt _ span span').bind fun result _ => ih

/-- A callee is called with all arguments, or with the first ones and what this gives with the
others. -/
lemma callNode_append (hcallee : ¬ callee.TakesAllAtOnce) {inner : Option Span}
    {r : Outcome (Node H)} (hr : callNode evaluate expand env inner callee args = r)
    (hresult : ∀ f, r = .ok f → ¬ f.TakesAllAtOnce) :
    SameUpToPlace (callNode evaluate expand env span callee (args ++ more))
      (r >>= fun f => callNode evaluate expand env span' f more) := by
  rw [callNode_eq_applyAll hcallee] at hr ⊢
  rw [applyAll_append, ← hr]
  refine applyAll_sameUpToPlace.bind fun f hf => ?_
  rw [callNode_eq_applyAll (hresult f (hr.symm.trans hf))]
  exact applyAll_sameUpToPlace

end

/-! ### The outcomes of both calls -/

section

variable [Host H] {env : Scope H} {head : Node H} {args more : List (Node H)}
  {span inner span' : Option Span} {type innerType type' : Option (Node H)}

lemma deepens_calleeOf (env : Scope H) (head : Node H) :
    Deepens fun depth => calleeOf (evaluate depth) env head := by
  unfold calleeOf
  cases lambdaHead? env head with
  | some f => exact fun _ _ _ _ => rfl
  | none => exact deepens_evaluate env head

/-- What a call evaluates to, by its callee. -/
lemma evaluate_call (hlambda : head.isAtom "lambda" = false) (hcond : head.isAtom "?" = false)
    (depth : Nat) :
    evaluate (depth + 1) env ⟨.list (head :: args), span, type⟩ =
      calleeOf (evaluate depth) env head >>= fun f =>
        callNode (evaluate depth) (expandNode (evaluate depth)) env span f args :=
  (evaluateList_eq_evaluateCall _ _ env hcond hlambda args span type).trans
    evaluateCall_eq_bind_calleeOf

/-- **Arguments one at a time.**  A call with the arguments `args` and `more` has the outcome of the
call with `args`, called with `more`: the same value, the same error up to its place, or no end in
both. -/
theorem evaluate_call_append (hlambda : head.isAtom "lambda" = false)
    (hcond : head.isAtom "?" = false)
    (hcallee : ∀ f, Settles (fun depth => calleeOf (evaluate depth) env head) (.ok f) →
      ¬ f.TakesAllAtOnce)
    (hresult : ∀ f,
      Settles (fun depth => evaluate depth env ⟨.list (head :: args), inner, innerType⟩) (.ok f) →
      ¬ f.TakesAllAtOnce) :
    ∃ r r',
      Settles (fun depth => evaluate depth env ⟨.list (head :: (args ++ more)), span, type⟩) r ∧
      Settles (fun depth => evaluate depth env
        ⟨.list (⟨.list (head :: args), inner, innerType⟩ :: more), span', type'⟩) r' ∧
      SameUpToPlace r r' := by
  obtain ⟨r, hr⟩ :=
    (deepens_evaluate env ⟨.list (head :: (args ++ more)), span, type⟩).exists_settles
  obtain ⟨r', hr'⟩ := (deepens_evaluate env
    ⟨.list (⟨.list (head :: args), inner, innerType⟩ :: more), span', type'⟩).exists_settles
  obtain ⟨c, hc⟩ := (deepens_calleeOf env head).exists_settles
  obtain ⟨i, hi⟩ :=
    (deepens_evaluate env ⟨.list (head :: args), inner, innerType⟩).exists_settles
  refine ⟨r, r', hr, hr', ?_⟩
  -- One depth is enough for all four, and for the call with `args` one level further up, too.
  obtain ⟨depth, hdepth⟩ : ∃ depth,
      evaluate (depth + 1 + 1) env ⟨.list (head :: (args ++ more)), span, type⟩ = r ∧
      evaluate (depth + 1 + 1) env
        ⟨.list (⟨.list (head :: args), inner, innerType⟩ :: more), span', type'⟩ = r' ∧
      calleeOf (evaluate (depth + 1)) env head = c ∧
      evaluate (depth + 1) env ⟨.list (head :: args), inner, innerType⟩ = i ∧
      evaluate (depth + 1 + 1) env ⟨.list (head :: args), inner, innerType⟩ = i := by
    obtain ⟨nr, -, hr⟩ := hr
    obtain ⟨nr', -, hr'⟩ := hr'
    obtain ⟨nc, -, hc⟩ := hc
    obtain ⟨ni, -, hi⟩ := hi
    exact ⟨nr + nr' + nc + ni, hr _ (by omega), hr' _ (by omega), hc _ (by omega),
      hi _ (by omega), hi _ (by omega)⟩
  obtain ⟨hflat, hnested, hcalleeOf, hlower, hupper⟩ := hdepth
  rw [evaluate_call hlambda hcond, hcalleeOf] at hflat hupper
  rw [evaluate_call rfl rfl, calleeOf_list hlambda, hlower] at hnested
  subst hflat hnested
  cases c with
  | error e =>
    obtain rfl : .error e = i := hupper
    exact .same (.error e)
  | ok f =>
    refine callNode_append (hcallee f hc) hupper fun g hg => ?_
    rw [hg] at hi
    exact hresult g hi

end

/-- The difference `((- 7) 2)` is `5`: the operator and what it gives for its left operand both take
one argument at a time. -/
theorem evaluate_call_append_difference : ∃ r r',
    Settles (fun depth => evaluate depth (prelude : Scope Empty)
      (.list [.atom "-" none, .atom "7" none, .atom "2" none] none)) r ∧
    Settles (fun depth => evaluate depth (prelude : Scope Empty)
      (.list [.list [.atom "-" none, .atom "7" none] none, .atom "2" none] none)) r' ∧
    SameUpToPlace r r' ∧ r = .ok (.value (.int 5) none) ∧ r' = .ok (.value (.int 5) none) := by
  have hcallee : calleeOf (evaluate 2) (prelude : Scope Empty) (.atom "-" none) =
      .ok (.value (.func (.operator .sub)) none) := by cbv
  have hresult : evaluate 4 (prelude : Scope Empty) (.list [.atom "-" none, .atom "7" none] none) =
      .ok (.value (.func (.operatorOn .sub 7)) none) := by cbv
  have hflat : evaluate 4 (prelude : Scope Empty)
      (.list [.atom "-" none, .atom "7" none, .atom "2" none] none) =
      .ok (.value (.int 5) none) := by cbv
  have hnested : evaluate 5 (prelude : Scope Empty)
      (.list [.list [.atom "-" none, .atom "7" none] none, .atom "2" none] none) =
      .ok (.value (.int 5) none) := by cbv
  have hoperator : ∀ f, Settles (fun depth => calleeOf (evaluate depth) (prelude : Scope Empty)
      (.atom "-" none)) (.ok f) → ¬ f.TakesAllAtOnce := by
    rintro f hf ⟨g, hg⟩
    obtain rfl := Except.ok.inj (hf.unique ((deepens_calleeOf _ _).settles_of_eq_ok hcallee))
    cases hg
  have hpartial : ∀ f, Settles (fun depth => evaluate depth (prelude : Scope Empty)
      (.list [.atom "-" none, .atom "7" none] none)) (.ok f) → ¬ f.TakesAllAtOnce := by
    rintro f hf ⟨g, hg⟩
    obtain rfl := Except.ok.inj (hf.unique ((deepens_evaluate _ _).settles_of_eq_ok hresult))
    cases hg
  obtain ⟨r, r', hr, hr', hsame⟩ := @evaluate_call_append Empty _ prelude (.atom "-" none)
    [.atom "7" none] [.atom "2" none] none none none none none none rfl rfl hoperator hpartial
  exact ⟨r, r', hr, hr', hsame, hr.unique ((deepens_evaluate _ _).settles_of_eq_ok hflat),
    hr'.unique ((deepens_evaluate _ _).settles_of_eq_ok hnested)⟩

end TypedLisp
