import TypedLisp.Evaluation
import TypedLisp.Proofs.Erasure.Program
import TypedLisp.Proofs.Places.Expansion

/-!
# Places of values

Evaluation moves values to where names refer to them, substitutes arguments, and puts the errors of
operators at the call.  All of these are spans of nodes that are evaluated, or of what names stand
for.  This is shown for one step, where the levels below stay in the text, and then for all levels.
-/

namespace TypedLisp

variable {H : Type} {cs : List Char} {T : Node H → Prop}

/-- The functions of the host stay in a text: given nodes with spans in the text, they fail with
errors that point into it or answer with such nodes. -/
structure Host.StaysIn [Host H] (cs : List Char) (T : Node H → Prop) : Prop where
  /-- So do those that take one argument at a time. -/
  apply : ∀ (h : H) (arg : Node H), arg.IsPlaced cs T →
    (Outcome.ofExcept (Host.apply h arg)).StaysIn cs fun _ => True
  /-- So do those that take all arguments at once. -/
  call : ∀ (h : H) (args : List (Node H)), (∀ arg ∈ args, arg.IsPlaced cs T) →
    (Outcome.ofExcept (Host.call h args)).StaysIn cs (Node.IsPlaced cs T)

lemma Host.staysIn_empty {T : Node Empty → Prop} : Host.StaysIn cs T := ⟨nofun, nofun⟩

namespace Node

variable {n : Node H}

lemma IsPlaced.value (v : Value H) {span : Option Span} (hspan : Span.IsInIfAny span cs) :
    (Node.value v span).IsPlaced cs T :=
  .leaf hspan rfl

lemma IsPlaced.items (h : n.IsPlaced cs T) {items : List (Node H)} (hkind : n.kind = .list items) :
    ∀ m ∈ items, m.IsPlaced cs T := by
  have hparts := h.parts
  rwa [hkind] at hparts

lemma IsPlaced.of_lambda? (h : n.IsPlaced cs T) {params : List (Node H)} {body : Node H}
    (hlambda : n.lambda? = some (params, body)) :
    (∀ param ∈ params, param.IsPlaced cs T) ∧ body.IsPlaced cs T := by
  obtain ⟨head, paramsSpan, paramsType, span, type, rfl, -⟩ := exists_of_lambda? hlambda
  have hitems := h.items rfl
  have hparams := hitems ⟨.list params, paramsSpan, paramsType⟩ (by simp)
  exact ⟨hparams.items rfl, hitems body (by simp)⟩

end Node

/-! ### Functions of the host -/

lemma Node.toInt64_staysIn {n : Node H} (h : n.IsPlaced cs T) :
    (Outcome.ofExcept n.toInt64).StaysIn cs fun _ => True := by
  have herror (cause : TypeCause) :
      (Outcome.ofExcept (.error (.typeAt [n.span] cause) : Except Error Int64)).StaysIn cs
        fun _ => True :=
    .typeErrorAt cause h.span_isIn
  unfold Node.toInt64
  split
  · exact .ok trivial
  · split
    · exact .ok trivial
    · exact herror _
  · exact herror _

lemma Operator.value_staysIn (op : Operator) (lhs rhs : Int64) :
    (Outcome.ofExcept (op.value (H := H) lhs rhs)).StaysIn cs fun _ => True := by
  unfold Operator.value
  split
  · exact .ok trivial
  · exact .typeError _ (by simp)

lemma Curried.apply_staysIn [Host H] (hhost : Host.StaysIn cs T) (f : Curried H) {arg : Node H}
    (harg : arg.IsPlaced cs T) :
    (Outcome.ofExcept (f.apply arg)).StaysIn cs fun _ => True := by
  have hint := Node.toInt64_staysIn harg
  cases f with
  | operator op =>
    rw [Curried.apply, Outcome.ofExcept_map]
    exact hint.map fun _ _ => trivial
  | operatorOn op lhs =>
    change (Outcome.ofExcept (arg.toInt64 >>= fun rhs => op.value lhs rhs)).StaysIn cs _
    rw [Outcome.ofExcept_bind]
    exact hint.bind fun rhs _ => op.value_staysIn lhs rhs
  | host h => exact hhost.apply h arg harg

lemma firstOf_staysIn {args : List (Node H)} (hargs : ∀ arg ∈ args, arg.IsPlaced cs T) :
    (Outcome.ofExcept (firstOf args)).StaysIn cs (Node.IsPlaced cs T) := by
  unfold firstOf
  split
  · next arg =>
    have harg : arg.IsPlaced cs T := hargs arg (by simp)
    split
    · next item items hkind => exact .ok (harg.items hkind item List.mem_cons_self)
    · exact .typeErrorAt _ harg.span_isIn
  · exact .typeError _ (by simp)

lemma Variadic.call_staysIn [Host H] (hhost : Host.StaysIn cs T) (f : Variadic H)
    {args : List (Node H)} (hargs : ∀ arg ∈ args, arg.IsPlaced cs T) :
    (Outcome.ofExcept (f.call args)).StaysIn cs (Node.IsPlaced cs T) := by
  cases f with
  | first => exact firstOf_staysIn hargs
  | host h => exact hhost.call h args hargs

/-! ### One step -/

section Step

variable {evaluate : Scope H → Node H → Outcome (Node H)}
  {expand : Scope H → Node H → Outcome (Expanded H)} {env : Scope H}

/-- An expansion of nodes with spans in a text stays in the text. -/
def ExpansionStays (cs : List Char) (T : Node H → Prop)
    (expand : Scope H → Node H → Outcome (Expanded H)) : Prop :=
  ∀ scope n, Scope.IsPlaced cs T scope → n.IsPlaced cs T →
    (expand scope n).StaysIn cs (Expanded.IsPlaced cs T)

lemma evaluateAtom_staysIn (hev : EvaluationStays cs T evaluate) (hnull : T .null)
    (henv : env.IsPlaced cs T) {expr : Node H} (hexpr : expr.IsPlaced cs T) (name : String) :
    (evaluateAtom evaluate env expr name).StaysIn cs (Node.IsPlaced cs T) := by
  rw [evaluateAtom]
  split
  · split
    · exact .ok (.withType (.value _ hexpr.span_isIn) (hexpr.type hnull))
    · exact .typeErrorAt _ hexpr.span_isIn
  · cases hget : env.get? name with
    | none => exact .raised (Error.pointsInto_reference name hexpr.span_isIn)
    | some bound =>
      have hbound : bound.IsPlaced cs T := henv name bound hget
      -- the value is moved to where the name refers to it
      exact (hev env bound henv hbound).map fun v hv => hv.relocated hexpr.span_isIn

lemma evaluateQuoted_staysIn (hev : EvaluationStays cs T evaluate) (hnull : T .null)
    (henv : env.IsPlaced cs T) {inner : Node H} (hinner : inner.IsPlaced cs T) :
    (evaluateQuoted evaluate env inner).StaysIn cs (Node.IsPlaced cs T) := by
  unfold evaluateQuoted
  split
  · next items hkind =>
    have hitems := hinner.items hkind
    exact (Outcome.StaysIn.mapM fun n hn => hev env n henv (hitems n hn)).bind
      fun values hvalues => .ok (.withType (.list hinner.span_isIn hvalues) (hinner.type hnull))
  · exact .ok hinner

lemma substitute_staysIn (hev : EvaluationStays cs T evaluate) (hex : ExpansionStays cs T expand)
    (henv : env.IsPlaced cs T) {span : Option Span} (hspan : Span.IsInIfAny span cs)
    {params : List (Node H)} {body arg : Node H} (hparams : ∀ p ∈ params, p.IsPlaced cs T)
    (hbody : body.IsPlaced cs T) (harg : arg.IsPlaced cs T) :
    (substitute evaluate expand env span params body arg).StaysIn cs (Node.IsPlaced cs T) := by
  unfold substitute
  split
  · next param =>
    split
    · exact .typeErrorAt _ (hparams param (by simp)).span_isIn
    · refine (hex _ body (Bindings.forall_empty.insert harg) hbody).bind fun e he => ?_
      cases hnode : e.node? with
      | none => exact .typeErrorAt _ hbody.span_isIn
      | some m => exact hev env m henv (he.node m hnode)
  · exact .typeErrorAt _ hspan

lemma conditionHolds_staysIn {source : Node H} (hsource : source.IsPlaced cs T)
    (condition : Node H) : (conditionHolds source condition).StaysIn cs fun _ => True := by
  unfold conditionHolds
  split
  · exact .ok trivial
  · exact .ok trivial
  · exact .typeErrorAt _ hsource.span_isIn

lemma evaluateConditional_staysIn (hev : EvaluationStays cs T evaluate)
    (henv : env.IsPlaced cs T) {condition yes no : Node H} (hcondition : condition.IsPlaced cs T)
    (hyes : yes.IsPlaced cs T) (hno : no.IsPlaced cs T) :
    (evaluateConditional evaluate env condition yes no).StaysIn cs (Node.IsPlaced cs T) := by
  rw [evaluateConditional]
  refine (hev env condition henv hcondition).bind fun v _ =>
    (conditionHolds_staysIn hcondition v).bind fun holds _ => ?_
  cases holds with
  | true => exact hev env yes henv hyes
  | false => exact hev env no henv hno

lemma isPlaced_of_lambdaHead? (henv : env.IsPlaced cs T) {head f : Node H}
    (hhead : head.IsPlaced cs T) (h : lambdaHead? env head = some f) : f.IsPlaced cs T := by
  unfold lambdaHead? at h
  split at h
  · next bound hbound =>
    obtain ⟨name, -, hget⟩ := Option.bind_eq_some_iff.1 hbound
    split at h
    · obtain rfl := Option.some.inj h
      exact henv name bound hget
    · cases h
  · split at h
    · obtain rfl := Option.some.inj h
      exact hhead
    · cases h

variable [Host H]

lemma applyNode_staysIn (hhost : Host.StaysIn cs T) (hev : EvaluationStays cs T evaluate)
    (hex : ExpansionStays cs T expand) (henv : env.IsPlaced cs T) {callee arg : Node H}
    (hcallee : callee.IsPlaced cs T) (harg : arg.IsPlaced cs T) :
    (applyNode evaluate expand env callee arg).StaysIn cs (Node.IsPlaced cs T) := by
  unfold applyNode
  split
  · next f _ =>
    exact (f.apply_staysIn hhost harg).map fun v _ => .value v Span.isInIfAny_none
  · next f _ => exact f.call_staysIn hhost (by simpa using harg)
  · split
    · next params body hlambda =>
      obtain ⟨hparams, hbody⟩ := hcallee.of_lambda? hlambda
      exact substitute_staysIn hev hex henv hcallee.span_isIn hparams hbody harg
    · exact .typeErrorAt _ hcallee.span_isIn

lemma applyAll_staysIn (hhost : Host.StaysIn cs T) (hev : EvaluationStays cs T evaluate)
    (hex : ExpansionStays cs T expand) (henv : env.IsPlaced cs T) {span : Option Span}
    (hspan : Span.IsInIfAny span cs) {callee : Node H} {args : List (Node H)}
    (hcallee : callee.IsPlaced cs T) (hargs : ∀ arg ∈ args, arg.IsPlaced cs T) :
    (applyAll evaluate expand env span callee args).StaysIn cs (Node.IsPlaced cs T) := by
  induction args generalizing callee with
  | nil => exact .ok hcallee
  | cons arg args ih =>
    obtain ⟨harg, hargs⟩ := List.forall_mem_cons.1 hargs
    rw [applyAll]
    refine (hev env arg henv harg).bind fun v hv => ?_
    exact ((applyNode_staysIn hhost hev hex henv hcallee hv).orAt hspan).bind
      fun r hr => ih hr hargs

lemma callNode_staysIn (hhost : Host.StaysIn cs T) (hev : EvaluationStays cs T evaluate)
    (hex : ExpansionStays cs T expand) (henv : env.IsPlaced cs T) {span : Option Span}
    (hspan : Span.IsInIfAny span cs) {callee : Node H} {args : List (Node H)}
    (hcallee : callee.IsPlaced cs T) (hargs : ∀ arg ∈ args, arg.IsPlaced cs T) :
    (callNode evaluate expand env span callee args).StaysIn cs (Node.IsPlaced cs T) := by
  unfold callNode
  split
  · next f _ =>
    exact (Outcome.StaysIn.mapM fun n hn => hev env n henv (hargs n hn)).bind
      fun values hvalues => (f.call_staysIn hhost hvalues).orAt hspan
  · exact applyAll_staysIn hhost hev hex henv hspan hcallee hargs

lemma evaluateCall_staysIn (hhost : Host.StaysIn cs T) (hev : EvaluationStays cs T evaluate)
    (hex : ExpansionStays cs T expand) (henv : env.IsPlaced cs T) {span : Option Span}
    (hspan : Span.IsInIfAny span cs) {head : Node H} {args : List (Node H)}
    (hhead : head.IsPlaced cs T) (hargs : ∀ arg ∈ args, arg.IsPlaced cs T) :
    (evaluateCall evaluate expand env span head args).StaysIn cs (Node.IsPlaced cs T) := by
  unfold evaluateCall
  cases h : lambdaHead? env head with
  | some f =>
    have hf := isPlaced_of_lambdaHead? henv hhead h
    exact callNode_staysIn hhost hev hex henv hspan hf hargs
  | none =>
    exact (hev env head henv hhead).bind fun callee hcallee =>
      callNode_staysIn hhost hev hex henv hspan hcallee hargs

lemma evaluateList_staysIn (hhost : Host.StaysIn cs T) (hev : EvaluationStays cs T evaluate)
    (hex : ExpansionStays cs T expand) (henv : env.IsPlaced cs T) {expr : Node H}
    {items : List (Node H)} (hexpr : expr.IsPlaced cs T) (hitems : ∀ n ∈ items, n.IsPlaced cs T) :
    (evaluateList evaluate expand env expr items).StaysIn cs (Node.IsPlaced cs T) := by
  unfold evaluateList
  split
  · exact .typeErrorAt _ hexpr.span_isIn
  · next head condition yes no =>
    simp only [List.forall_mem_cons] at hitems
    obtain ⟨hhead, hcondition, hyes, hno, -⟩ := hitems
    split
    · exact evaluateConditional_staysIn hev henv hcondition hyes hno
    · exact evaluateCall_staysIn hhost hev hex henv hexpr.span_isIn hhead
        (by simpa using ⟨hcondition, hyes, hno⟩)
  · next head args _ =>
    obtain ⟨hhead, hargs⟩ := List.forall_mem_cons.1 hitems
    split
    · exact .ok hexpr
    · exact evaluateCall_staysIn hhost hev hex henv hexpr.span_isIn hhead hargs

lemma evaluateStep_staysIn (hhost : Host.StaysIn cs T) (hnull : T .null)
    (hev : EvaluationStays cs T evaluate) (hex : ExpansionStays cs T expand) :
    EvaluationStays cs T (evaluateStep evaluate expand) := by
  intro env expr henv hexpr
  unfold evaluateStep
  split
  · exact evaluateAtom_staysIn hev hnull henv hexpr _
  · next inner hkind =>
    have hinner : inner.IsPlaced cs T := hexpr.parts inner (by simp [hkind, Kind.parts])
    exact evaluateQuoted_staysIn hev hnull henv hinner
  · next items hkind => exact evaluateList_staysIn hhost hev hex henv hexpr (hexpr.items hkind)
  · exact .ok hexpr

end Step

/-! ### All levels -/

/-- Evaluation stays in the text. -/
theorem evaluate_staysIn [Host H] (hhost : Host.StaysIn cs T) (hT : KeptByTypes T) (depth : Nat) :
    EvaluationStays cs T (evaluate depth) := by
  induction depth with
  | zero => exact fun env n _ _ => .endless
  | succ depth ih =>
    exact evaluateStep_staysIn hhost hT.null ih fun scope n hscope hn =>
      expandNode_staysIn ih hT scope n hscope hn

/-- The expansion of a program stays in the text. -/
theorem expandProgram_staysIn [Host H] (hhost : Host.StaysIn cs T) (hT : KeptByTypes T)
    (depth : Nat) {consts : Scope H} (hconsts : consts.IsPlaced cs T) {forms : List (Node H)}
    (hforms : ∀ form ∈ forms, form.IsPlaced cs T) :
    (expandProgram depth consts forms).StaysIn cs (Expansion.IsPlaced cs T) :=
  expandForms_staysIn (evaluate_staysIn hhost hT depth) hT hconsts hforms

end TypedLisp
