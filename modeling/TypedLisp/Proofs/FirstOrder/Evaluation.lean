import Mathlib.Order.Filter.AtTopBot.Basic
import TypedLisp.Evaluation
import TypedLisp.Proofs.FirstOrder.Expansion
import TypedLisp.Proofs.FirstOrder.Reference

/-!
# The evaluation of first-order expressions

An expanded expression evaluates to its value, or fails with a type error if it has none.  This is
proved by induction on the expression, for all nodes that may stand for its variables: the node of a
variable has to evaluate to what the variable gives in the environment.  So a local definition is
copied to many places, but evaluated in none of them before it is needed; and the value of an
argument takes the place of its parameter while the other parameters still wait for theirs.
-/

namespace TypedLisp
namespace FirstOrder

open Filter

variable {H : Type}

/-! ### Answers -/

/-- The value of a first-order expression that a value of the host is. -/
def value? : Value H → Option Val
  | .int i => some (.int i.toInt)
  | .bool b => some (.bool b)
  | _ => none

/-- What a computation shows when `P` holds of the value of an expression, and of it alone: that
value; and a type error when `P` holds of no value. -/
inductive Shows (P : Val → Prop) : Outcome (Node H) → Prop where
  | value {u : Value H} {v : Val} (hu : value? u = some v) (h : ∀ w, P w ↔ w = v) :
    Shows P (.ok (.value u none))
  | typeError (cause : TypeCause) (spans : List Span) (h : ∀ w, ¬ P w) :
    Shows P (.error (.raised (.typing cause spans)))

/-- A computation that takes a depth shows one thing at all depths that are enough for it. -/
def Answers (f : Nat → Outcome (Node H)) (P : Val → Prop) : Prop :=
  ∃ r, Shows P r ∧ ∀ᶠ depth in atTop, f depth = r

section

variable {P Q : Val → Prop} {f g : Nat → Outcome (Node H)} {k : Nat → Node H → Outcome (Node H)}
  {r : Outcome (Node H)}

lemma Shows.congr (h : Shows P r) (hPQ : ∀ v, P v ↔ Q v) : Shows Q r := by
  cases h with
  | value hu h => exact .value hu fun w => (hPQ w).symm.trans (h w)
  | typeError cause spans h => exact .typeError cause spans fun w hw => h w ((hPQ w).2 hw)

lemma Answers.congr (h : Answers f P) (hPQ : ∀ v, P v ↔ Q v) : Answers f Q := by
  obtain ⟨r, hr, hf⟩ := h
  exact ⟨r, hr.congr hPQ, hf⟩

lemma Answers.of_eventually_eq (h : Answers f P) (hfg : ∀ᶠ depth in atTop, g depth = f depth) :
    Answers g P := by
  obtain ⟨r, hr, hf⟩ := h
  refine ⟨r, hr, ?_⟩
  filter_upwards [hf, hfg] with depth hf hfg
  exact hfg.trans hf

lemma Shows.answers (h : Shows P r) : Answers (fun _ => r) P :=
  ⟨r, h, .of_forall fun _ => rfl⟩

/-- What goes on with a value shows what follows from it; a type error stays one. -/
lemma Answers.bind (h : Answers f P)
    (hvalue : ∀ u v, value? u = some v → (∀ w, P w ↔ w = v) →
      Answers (fun depth => k depth (.value u none)) Q)
    (hnone : (∀ w, ¬ P w) → ∀ w, ¬ Q w) : Answers (fun depth => f depth >>= k depth) Q := by
  obtain ⟨r, hr, hf⟩ := h
  cases hr with
  | @value u v hu h =>
    refine (hvalue u v hu h).of_eventually_eq ?_
    filter_upwards [hf] with depth hf
    rw [hf]
    rfl
  | typeError cause spans h =>
    refine (Shows.typeError cause spans (hnone h)).answers.of_eventually_eq ?_
    filter_upwards [hf] with depth hf
    rw [hf]
    rfl

end

/-! ### Arithmetic -/

lemma fits_eq_decide (n : Int) : fits n = decide (InRange n) := by
  rw [fits, ← Bool.decide_and]
  exact decide_eq_decide.2 (by rw [InRange]; omega)

lemma toInt_ofInt {n : Int} (h : InRange n) : (Int64.ofInt n).toInt = n :=
  Int64.toInt_ofInt_of_le h.1 h.2

lemma quotient_eq_tdiv (a b : Int) : quotient a b = a.tdiv b := by
  rcases a with (_ | m) | m <;> rcases b with (_ | n) | n <;>
    simp (disch := omega) [quotient, Int.tdiv, Int.sign, abs_of_nonneg]

lemma remainder_eq_tmod (a b : Int) : remainder a b = a.tmod b := by
  rcases a with (_ | m) | m <;> rcases b with n | n <;>
    simp (disch := omega) [remainder, Int.tmod, Int.sign, abs_of_nonneg]

/-- The value of an operator's answer. -/
def scalarVal : Scalar → Val
  | .int i => .int i.toInt
  | .bool b => .bool b

lemma value?_toValue (s : Scalar) : value? (s.toValue : Value H) = some (scalarVal s) := by
  cases s with
  | int | bool => rfl

lemma exact_eq (op : Operator) (n : Int) :
    (op.exact n).toOption.map scalarVal = number? n := by
  rw [Operator.exact, fits_eq_decide, number?]
  by_cases h : InRange n
  · rw [decide_eq_true h, if_pos rfl, if_pos h]
    exact congrArg (fun n => some (Val.int n)) (toInt_ofInt h)
  · rw [decide_eq_false h, if_neg Bool.false_ne_true, if_neg h]
    rfl

/-- The operators compute what they stand for. -/
lemma applyExact_eq (op : Operator) (m n : Int) :
    (op.applyExact m n).toOption.map scalarVal = answer? op m n := by
  cases op with
  | add | sub | mul => exact exact_eq _ _
  | div =>
    rw [Operator.applyExact, answer?, quotient_eq_tdiv]
    split
    · rfl
    · exact exact_eq _ _
  | mod =>
    rw [Operator.applyExact, answer?, quotient_eq_tdiv, remainder_eq_tmod, fits_eq_decide]
    by_cases hn : n = 0
    · rw [if_pos hn, if_pos (.inl hn)]
      rfl
    · by_cases h : InRange (m.tdiv n)
      · rw [if_neg hn, decide_eq_true h, if_pos rfl, if_neg (by simp [hn, h])]
        exact exact_eq _ _
      · rw [if_neg hn, decide_eq_false h, if_neg Bool.false_ne_true, if_pos (.inr h)]
        rfl
  | eq | lt | le | gt | ge => rfl

lemma shows_operator (op : Operator) (i j : Int64) :
    Shows (fun v => answer? op i.toInt j.toInt = some v)
      ((Outcome.ofExcept (op.value i j)).map fun v => (.value v none : Node H)) := by
  have h := applyExact_eq op i.toInt j.toInt
  rw [Operator.value, Operator.apply]
  cases hop : op.applyExact i.toInt j.toInt with
  | ok s =>
    rw [hop] at h
    refine .value (value?_toValue s) fun w => ?_
    rw [← h]
    exact Option.some_inj.trans eq_comm
  | error cause =>
    rw [hop] at h
    refine .typeError _ _ fun w hw => ?_
    rw [← h] at hw
    cases hw

lemma isTruthy_eq_holds {u : Value H} {v : Val} (hu : value? u = some v) :
    u.isTruthy = v.holds := by
  cases u with
  | int i =>
    obtain rfl := Option.some.inj hu
    change (i != 0) = decide (i.toInt ≠ 0)
    by_cases hi : i = 0
    · subst hi
      rfl
    · have hne : i.toInt ≠ 0 := fun h => hi (Int64.toInt_inj.1 h)
      rw [bne_iff_ne.2 hi, decide_eq_true hne]
  | bool b =>
    obtain rfl := Option.some.inj hu
    rfl
  | str | unit | func => cases hu

/-- What comes of a step that goes on with the integer which an operand shows. -/
lemma Answers.bind_toInt64 {f : Nat → Outcome (Node H)} {k : Nat → Int64 → Outcome (Node H)}
    {P : Val → Prop} {Q : Int → Val → Prop} (h : Answers f P)
    (hk : ∀ i : Int64, Answers (k · i) (Q i.toInt)) :
    Answers (fun depth => f depth >>= fun n => Outcome.ofExcept n.toInt64 >>= k depth)
      fun v => ∃ m, P (.int m) ∧ Q m v := by
  refine h.bind (k := fun depth n => Outcome.ofExcept n.toInt64 >>= k depth) ?_ ?_
  · intro u v hu hP
    cases u with
    | int i =>
      obtain rfl := Option.some.inj hu
      refine (hk i).congr fun w => ⟨fun hw => ⟨_, (hP _).2 rfl, hw⟩, ?_⟩
      rintro ⟨m, hm, hw⟩
      cases (hP _).1 hm
      exact hw
    | bool b =>
      obtain rfl := Option.some.inj hu
      refine (Shows.typeError _ _ ?_).answers
      rintro w ⟨m, hm, -⟩
      cases (hP _).1 hm
    | str | unit | func => cases hu
  · rintro hP w ⟨m, hm, -⟩
    exact hP _ hm

/-! ### Steps -/

section

variable {evaluate : Scope H → Node H → Outcome (Node H)}
  {expand : Scope H → Node H → Outcome (Expanded H)} {env : Scope H} {head a b n : Node H}
  {args : List (Node H)}

lemma prelude_symbol (op : Operator) :
    (prelude : Scope H).get? op.symbol = some (.value (.func (.operator op)) none) := by
  cases op <;> simp [prelude, Bindings.ofList, Operator.all, Bindings.get?_insert, Operator.symbol]

lemma prelude_question : (prelude : Scope H).contains "?" = false := by
  simp [prelude, Bindings.ofList, Operator.all, Bindings.get?_insert, Operator.symbol,
    Bindings.contains]

/-- No error is moved to a call that has no place. -/
lemma orAt_none (r : Outcome (Node H)) : r.orAt none = r := by
  cases r with
  | ok n => rfl
  | error f =>
    cases f with
    | endless => rfl
    | raised err => rcases err with _ | _ | ⟨cause, _ | _⟩ | _ <;> rfl

/-- A call of an operator evaluates the left operand, then the right one. -/
lemma applyAll_operator [Host H] (op : Operator) :
    applyAll evaluate expand env none (.value (.func (.operator op)) none) [a, b] = (do
      let left ← evaluate env a
      let lhs ← Outcome.ofExcept left.toInt64
      let right ← evaluate env b
      let rhs ← Outcome.ofExcept right.toInt64
      (Outcome.ofExcept (op.value lhs rhs)).map fun v => .value v none) := by
  rw [applyAll]
  refine bind_congr fun left => ?_
  simp only [orAt_none, applyNode, Node.value, Curried.apply]
  cases left.toInt64 with
  | error err => rfl
  | ok lhs =>
    change applyAll evaluate expand env none (.value (.func (.operatorOn op lhs)) none) [b] = _
    rw [applyAll]
    refine bind_congr fun right => ?_
    simp only [orAt_none, applyNode, Node.value, Curried.apply]
    cases right.toInt64 with
    | error err => rfl
    | ok rhs =>
      exact bind_pure ((Outcome.ofExcept (op.value lhs rhs)).map fun v => (.value v none : Node H))

end

/-! ### All levels -/

section

variable [Host H] {a b c n : Node H} {P P' : Val → Prop}

/-- What an expression evaluates to, at every depth. -/
def values (n : Node H) (depth : Nat) : Outcome (Node H) :=
  evaluate depth prelude n

/-- One step of the evaluation of an expression, at every depth of the levels below it. -/
def steps (n : Node H) (depth : Nat) : Outcome (Node H) :=
  evaluateStep (evaluate depth) (expandNode (evaluate depth)) prelude n

lemma eventually_values {r : Outcome (Node H)} (h : ∀ᶠ depth in atTop, steps n depth = r) :
    ∀ᶠ depth in atTop, values n depth = r := by
  obtain ⟨enough, h⟩ := eventually_atTop.1 h
  refine eventually_atTop.2 ⟨enough + 1, fun depth hle => ?_⟩
  obtain ⟨depth, rfl⟩ : ∃ d, depth = d + 1 := ⟨depth - 1, by omega⟩
  exact h depth (Nat.le_of_succ_le_succ hle)

lemma Answers.of_steps (h : Answers (steps n) P) : Answers (values n) P := by
  obtain ⟨r, hr, hf⟩ := h
  exact ⟨r, hr, eventually_values hf⟩

lemma eventually_values_value (v : Value H) :
    ∀ᶠ depth in atTop, values (.value v none) depth = .ok (.value v none) :=
  eventually_values (.of_forall fun _ => rfl)

lemma answers_value {u : Value H} {v : Val} (hu : value? u = some v) (h : ∀ w, P w ↔ w = v) :
    Answers (values (.value u none)) P :=
  ⟨_, .value hu h, eventually_values_value u⟩

lemma steps_list (items : List (Node H)) (depth : Nat) :
    steps (.list items none) depth =
      evaluateList (evaluate depth) (expandNode (evaluate depth)) prelude (.list items none)
        items := rfl

/-- A list that is neither a conditional nor a function is a call. -/
lemma steps_call {head : Node H} {args : List (Node H)} (hcond : head.isAtom "?" = false)
    (hlambda : head.isAtom "lambda" = false) (depth : Nat) :
    steps (.list (head :: args) none) depth =
      evaluateCall (evaluate depth) (expandNode (evaluate depth)) prelude none head args := by
  rw [steps_list]
  exact evaluateList_eq_evaluateCall _ _ prelude hcond hlambda args none none

/-- **Literals.** -/
lemma answers_literal (l : Literal) :
    Answers (values (.atom l.text none : Node H)) fun v => number? l.number = some v := by
  have hstep (depth : Nat) : steps (.atom l.text none : Node H) depth = _ :=
    if_pos l.isIntegerLiteral_text
  by_cases h : InRange l.number
  · have hread : readInt64? l.text = some (Int64.ofInt l.number) := by
      rw [readInt64?, l.readInteger?_text, Option.bind_some, fits_eq_decide, decide_eq_true h,
        if_pos rfl]
    rw [hread] at hstep
    refine .of_steps (.of_eventually_eq (Shows.answers ?_) (.of_forall hstep))
    refine .value rfl fun w => ?_
    rw [number?, if_pos h, toInt_ofInt h]
    exact Option.some_inj.trans eq_comm
  · have hread : readInt64? l.text = none := by
      rw [readInt64?, l.readInteger?_text, Option.bind_some, fits_eq_decide, decide_eq_false h,
        if_neg Bool.false_ne_true]
    rw [hread] at hstep
    refine .of_steps (.of_eventually_eq (Shows.answers ?_) (.of_forall hstep))
    refine .typeError _ _ fun w hw => ?_
    rw [number?, if_neg h] at hw
    cases hw

lemma eventually_values_symbol (op : Operator) :
    ∀ᶠ depth in atTop, values (.atom op.symbol none : Node H) depth =
      .ok (.value (.func (.operator op)) none) := by
  have hliteral : isIntegerLiteral op.symbol = false := by cases op <;> decide
  refine eventually_values ?_
  have hvalue := eventually_values_value (H := H) (.func (.operator op))
  filter_upwards [hvalue] with depth hdepth
  change evaluateAtom _ _ _ _ = _
  rw [evaluateAtom, hliteral, if_neg Bool.false_ne_true, prelude_symbol]
  change (values (.value (.func (.operator op)) none) depth).map _ = _
  rw [hdepth]
  rfl

/-- **Operators.** -/
lemma answers_op (op : Operator) (hleft : Answers (values a) P) (hright : Answers (values b) P') :
    Answers (values (.list [.atom op.symbol none, a, b] none)) fun v =>
      ∃ m, P (.int m) ∧ ∃ n, P' (.int n) ∧ answer? op m n = some v := by
  have hrest (i : Int64) := hright.bind_toInt64 (Q := fun n v => answer? op i.toInt n = some v)
    fun j => (shows_operator op i j).answers
  have hanswers := hleft.bind_toInt64
    (Q := fun m v => ∃ n, P' (.int n) ∧ answer? op m n = some v) hrest
  refine .of_steps (hanswers.of_eventually_eq ?_)
  filter_upwards [eventually_values_symbol (H := H) op] with depth hdepth
  have hhead : lambdaHead? prelude (.atom op.symbol none : Node H) = none := by
    simp [lambdaHead?, Node.atom, Node.atom?, prelude_symbol, Node.isLambda, Node.lambda?,
      Node.value]
  have hquestion : (.atom op.symbol none : Node H).isAtom "?" = false := by cases op <;> rfl
  have hlambda : (.atom op.symbol none : Node H).isAtom "lambda" = false := by cases op <;> rfl
  calc steps (.list [.atom op.symbol none, a, b] none) depth
      = evaluateCall (evaluate depth) (expandNode (evaluate depth)) prelude none
          (.atom op.symbol none) [a, b] :=
        steps_call hquestion hlambda depth
    _ = callNode (evaluate depth) (expandNode (evaluate depth)) prelude none
          (.value (.func (.operator op)) none) [a, b] := by
        rw [evaluateCall, hhead]
        change (values _ depth >>= _) = _
        rw [hdepth]
        rfl
    _ = _ := applyAll_operator op

/-- **Conditionals.** -/
lemma answers_cond {yes no : Node H} {Q : Bool → Val → Prop} (hc : Answers (values c) P)
    (hbranch : ∀ b : Bool, Answers (values (if b then yes else no)) (Q b)) :
    Answers (values (.list [.atom "?" none, c, yes, no] none)) fun v => ∃ u, P u ∧ Q u.holds v := by
  have hstep (depth : Nat) : steps (.list [.atom "?" none, c, yes, no] none : Node H) depth =
      evaluateConditional (evaluate depth) prelude c yes no := by
    have hcond :
        ((.atom "?" none : Node H).isAtom "?" && !(prelude : Scope H).contains "?") = true := by
      rw [prelude_question]
      rfl
    rw [steps_list, evaluateList, if_pos hcond]
  refine .of_steps (.of_eventually_eq ?_ (.of_forall hstep))
  refine hc.bind (k := fun depth value => conditionHolds c value >>= fun b =>
    if b then evaluate depth prelude yes else evaluate depth prelude no) ?_ ?_
  · intro u v hu hP
    have hholds : conditionHolds c (.value u none) = .ok v.holds := by
      rw [← isTruthy_eq_holds hu]
      rfl
    refine ((hbranch v.holds).of_eventually_eq (.of_forall fun depth => ?_)).congr fun w => ?_
    · rw [hholds]
      cases v.holds <;> rfl
    · constructor
      · exact fun hw => ⟨v, (hP v).2 rfl, hw⟩
      · rintro ⟨u', hu', hw⟩
        rwa [(hP u').1 hu'] at hw
  · rintro hP w ⟨u, hu, -⟩
    exact hP u hu

/-! ### Functions -/

/-- What a function comes to with an evaluated argument, at every depth. -/
def application (f n : Node H) (depth : Nat) : Outcome (Node H) :=
  applyNode (evaluate depth) (expandNode (evaluate depth)) prelude f n

/-- A function becomes its body, with the argument in the place of the parameter. -/
lemma application_function {x : String} {body body' : Node H} (depth : Nat)
    (h : Becomes (evaluate depth) (Bindings.empty.insert x n) body body') :
    application (function [x] body) n depth = values body' depth := by
  change substitute _ _ _ none [.atom x none] body n = _
  simp only [substitute, Node.atom, Node.atom?]
  rw [h]
  rfl

/-- What a function comes to with some arguments, at every depth. -/
def applications (f : Node H) (args : List (Node H)) (depth : Nat) : Outcome (Node H) :=
  applyAll (evaluate depth) (expandNode (evaluate depth)) prelude none f args

/-- A function gets its first argument: the value of that takes the place of the parameter in the
body, and what this evaluates to gets the other arguments. -/
lemma answers_applications {x : String} {arg body : Node H} {args : List (Node H)}
    {Q : Val → Val → Prop} (harg : Answers (values arg) P)
    (hbody : ∀ u v, value? u = some v → P v → ∃ body' : Node H,
      (∀ evaluate, Becomes evaluate (Bindings.empty.insert x (.value u none)) body body') ∧
        Answers (fun depth => values body' depth >>= (applications · args depth)) (Q v)) :
    Answers (applications (function [x] body) (arg :: args)) fun w => ∃ v, P v ∧ Q v w := by
  have hstep (depth : Nat) : applications (function [x] body) (arg :: args) depth =
      values arg depth >>= fun value =>
        application (function [x] body) value depth >>= (applications · args depth) := by
    rw [applications, applyAll]
    simp only [orAt_none]
    rfl
  refine .of_eventually_eq ?_ (.of_forall hstep)
  refine harg.bind (k := fun depth value =>
    application (function [x] body) value depth >>= (applications · args depth)) ?_ ?_
  · intro u v hu hP
    obtain ⟨body', hbecomes, hanswers⟩ := hbody u v hu ((hP v).2 rfl)
    refine (hanswers.of_eventually_eq (.of_forall fun depth => ?_)).congr fun w => ?_
    · rw [application_function depth (hbecomes (evaluate depth))]
    · constructor
      · exact fun hw => ⟨v, (hP v).2 rfl, hw⟩
      · rintro ⟨v', hv', hw⟩
        rwa [(hP v').1 hv'] at hw
  · rintro hP w ⟨v, hv, -⟩
    exact hP v hv

/-- A call of a function where it is written. -/
lemma steps_function (x : String) (body : Node H) (args : List (Node H)) (depth : Nat) :
    steps (.list (function [x] body :: args) none) depth =
      applications (function [x] body) args depth :=
  steps_call rfl rfl depth

/-- A function is its own value. -/
lemma eventually_values_chain {params : List String} (h : params ≠ []) (body : Node H) :
    ∀ᶠ depth in atTop, values (chain params body) depth = .ok (chain params body) := by
  obtain ⟨x, params, rfl⟩ := List.exists_cons_of_ne_nil h
  exact eventually_values (.of_forall fun _ => rfl)

/-! ### Expressions -/

/-- Where an expression is evaluated whose scope is `names` and in which the names `xs` are bound:
the nodes `S` of its variables show what the variables give in the environment `ρ`, a bound name has
no node yet, and putting something in its place does not change the nodes of the others. -/
structure Fits (names xs : List String) (S : String → Node H) (ρ : Env) : Prop where
  answers : ∀ y ∈ names, Answers (values (S y)) (Gives ρ (.var y))
  unbound : ∀ x ∈ xs, S x = .atom x none
  disjoint : ∀ y ∈ names, y ∉ xs
  inert : ∀ y ∈ names, ∀ x ∈ xs, ∀ evaluate n,
    Becomes evaluate (Bindings.empty.insert x n) (S y) (S y)

variable {names xs ys : List String} {S : String → Node H} {ρ : Env}

lemma Fits.mono (h : Fits names ys S ρ) (hsub : xs ⊆ ys) : Fits names xs S ρ where
  answers := h.answers
  unbound x hx := h.unbound x (hsub hx)
  disjoint y hy hx := h.disjoint y hy (hsub hx)
  inert y hy x hx := h.inert y hy x (hsub hx)

/-- The node of an expression does not change when something is put in the place of a name that is
not in its scope. -/
lemma Fits.becomes_expanded {t : Term} (h : Fits names xs S ρ) (ht : AreBinders t.binders)
    (hnames : t.InScope names) (hsub : t.binders ⊆ xs) {x : String} (hx : x ∈ xs)
    (hreserved : ¬ IsReserved x) (hxt : x ∉ t.binders)
    (evaluate : Scope H → Node H → Outcome (Node H)) (n : Node H) :
    Becomes evaluate (Bindings.empty.insert x n) (t.expanded S) (t.expanded S) :=
  Term.expanded_becomes ht hnames
    { becomes := fun y hy => h.inert y hy x hx evaluate n
      before := fun y hy => h.unbound y (hsub hy)
      after := fun y hy => h.unbound y (hsub hy)
      spares := spares_insert hreserved hxt n }

/-- With one more name in scope. -/
lemma Fits.bind {x : String} {ρ' : Env} (h : Fits names xs S ρ) (hx : x ∉ xs)
    (hn : Answers (values n) (Gives ρ' (.var x)))
    (hρ : ∀ y, y ≠ x → ∀ v, Gives ρ (.var y) v ↔ Gives ρ' (.var y) v)
    (hinert : ∀ y ∈ xs, ∀ evaluate m, Becomes evaluate (Bindings.empty.insert y m) n n) :
    Fits (x :: names) xs (Function.update S x n) ρ' where
  answers y hy := by
    rcases eq_or_ne y x with rfl | hne
    · rwa [Function.update_self]
    · rw [Function.update_of_ne hne]
      exact (h.answers y ((List.mem_cons.1 hy).resolve_left hne)).congr (hρ y hne)
  unbound y hy := by
    rw [Function.update_of_ne (ne_of_mem_of_not_mem hy hx), h.unbound y hy]
  disjoint := List.forall_mem_cons.2 ⟨hx, h.disjoint⟩
  inert y hy z hz evaluate m := by
    rcases eq_or_ne y x with rfl | hne
    · rw [Function.update_self]
      exact hinert z hz evaluate m
    · rw [Function.update_of_ne hne]
      exact h.inert y ((List.mem_cons.1 hy).resolve_left hne) z hz evaluate m

/-- With the value of an argument in the place of its parameter. -/
lemma Fits.value {x : String} {u : Value H} {v : Val} (h : Fits names xs S ρ)
    (hu : value? u = some v) (hx : x ∉ xs) :
    Fits (x :: names) xs (Function.update S x (.value u none)) (.value x v ρ) :=
  h.bind hx (answers_value hu fun _ => gives_var_value_self)
    (fun _ hne _ => (gives_var_value_of_ne hne).symm) fun _ _ _ _ => becomes_value u

/-- With the node of an expression in the place of its name. -/
lemma Fits.delayed {x : String} {t : Term} (h : Fits names xs S ρ) (hx : x ∉ xs)
    (ht : Answers (values (t.expanded S)) (Gives ρ t))
    (hinert : ∀ y ∈ xs, ∀ evaluate m,
      Becomes evaluate (Bindings.empty.insert y m) (t.expanded S) (t.expanded S)) :
    Fits (x :: names) xs (Function.update S x (t.expanded S)) (.delayed x t ρ ρ) :=
  h.bind hx (ht.congr fun _ => gives_var_delayed_self.symm)
    (fun _ hne _ => (gives_var_delayed_of_ne hne).symm) hinert

/-- Something is put in the place of a bound name, which comes into scope with it. -/
lemma Fits.carries_update {x : String} (h : Fits names xs S ρ) (hx : x ∈ xs)
    (hreserved : ¬ IsReserved x) (hsub : ys ⊆ xs) (hxys : x ∉ ys)
    (evaluate : Scope H → Node H → Outcome (Node H)) (n : Node H) :
    Carries evaluate (Bindings.empty.insert x n) (x :: names) ys S (Function.update S x n) where
  becomes y hy := by
    rcases eq_or_ne y x with rfl | hne
    · have hatom : Becomes evaluate (Bindings.empty.insert y n) (.atom y none) _ := becomes_atom y
      rw [standsFor, Bindings.get?_insert, if_pos rfl, Option.getD_some] at hatom
      rwa [h.unbound y hx, Function.update_self]
    · rw [Function.update_of_ne hne]
      exact h.inert y ((List.mem_cons.1 hy).resolve_left hne) x hx evaluate n
  before y hy := h.unbound y (hsub hy)
  after y hy := by
    rw [Function.update_of_ne (ne_of_mem_of_not_mem hy hxys), h.unbound y (hsub hy)]
  spares := spares_insert hreserved hxys n

/-- Where a function is about to get its arguments: these are evaluated with the nodes `S`, and the
body will be with nodes that are `S₀` so far, while the parameters have none. -/
structure Ready (args : Args) (body : Term) (names names₀ : List String) (S S₀ : String → Node H)
    (ρ ρ₀ : Env) : Prop where
  binders : AreBinders (args.binders ++ body.binders)
  inScope : args.InScope names
  fits : Fits names (args.binders ++ body.binders) S ρ
  body_inScope : body.InScope (args.scope names₀)
  body_fits : Fits names₀ (args.binders ++ body.binders) S₀ ρ₀
  body_answers : ∀ (S : String → Node H) (ρ : Env), Fits (args.scope names₀) body.binders S ρ →
    Answers (values (body.expanded S)) (Gives ρ body)

variable {names₀ : List String} {S₀ : String → Node H} {ρ₀ : Env} {x : String} {arg body : Term}
  {args : Args} {u : Value H} {v : Val}

/-- The first parameter is bound nowhere else. -/
lemma Ready.of_cons (h : Ready (.cons x arg args) body names names₀ S S₀ ρ ρ₀) :
    ¬ IsReserved x ∧ x ∉ args.binders ++ body.binders ∧ AreBinders (args.binders ++ body.binders) ∧
      args.binders ++ body.binders ⊆ (Args.cons x arg args).binders ++ body.binders := by
  have hbinders := h.binders
  rw [Args.binders, List.cons_append, List.append_assoc] at hbinders ⊢
  obtain ⟨hreserved, hx, hbinders⟩ := areBinders_cons_iff.1 hbinders
  exact ⟨hreserved, fun hmem => hx (List.mem_append_right _ hmem),
    (areBinders_append_iff.1 hbinders).2.1,
    List.subset_cons_of_subset _ (List.subset_append_right _ _)⟩

lemma Ready.next (h : Ready (.cons x arg args) body names names₀ S S₀ ρ ρ₀)
    (hu : value? u = some v) :
    Ready args body names (x :: names₀) S (Function.update S₀ x (.value u none)) ρ
      (.value x v ρ₀) := by
  obtain ⟨-, hx, hbinders, hsub⟩ := h.of_cons
  exact {
    binders := hbinders
    inScope := h.inScope.2
    fits := h.fits.mono hsub
    body_inScope := h.body_inScope
    body_fits := (h.body_fits.mono hsub).value hu hx
    body_answers := h.body_answers }

/-- When there are more arguments, a function of the other parameters is left. -/
lemma Ready.becomes_chain (h : Ready (.cons x arg args) body names names₀ S S₀ ρ ρ₀)
    (evaluate : Scope H → Node H → Outcome (Node H)) (n : Node H) :
    Becomes evaluate (Bindings.empty.insert x n) (chain args.params (body.expanded S₀))
      (chain args.params (body.expanded (Function.update S₀ x n))) := by
  obtain ⟨hreserved, hx, hbinders, hsub⟩ := h.of_cons
  have hparams : args.params ⊆ args.binders ++ body.binders := fun y hy =>
    List.mem_append_left _ (args.params_sublist.subset hy)
  have hcarries := h.body_fits.carries_update List.mem_cons_self hreserved hsub hx evaluate n
  refine FirstOrder.becomes_chain ?_ (fun y hy => hcarries.spares.free y (hparams hy))
    (Term.expanded_becomes (areBinders_append_iff.1 hbinders).2.1 h.body_inScope
      ((hcarries.inBody hparams).mono (List.subset_append_right _ _)))
  exact hcarries.spares.reserved "lambda" (.inr (.inl (by decide)))

/-- With the last argument, the body is left. -/
lemma Ready.becomes_body (h : Ready (.last x arg) body names names₀ S S₀ ρ ρ₀)
    (evaluate : Scope H → Node H → Outcome (Node H)) (n : Node H) :
    Becomes evaluate (Bindings.empty.insert x n) (body.expanded S₀)
      (body.expanded (Function.update S₀ x n)) := by
  obtain ⟨hreserved, hx, hbinders⟩ := areBinders_cons_iff.1 h.binders
  have hxbody : x ∉ body.binders := fun hmem => hx (List.mem_append_right _ hmem)
  exact Term.expanded_becomes (areBinders_append_iff.1 hbinders).2.1 h.body_inScope
    (h.body_fits.carries_update List.mem_cons_self hreserved (List.subset_append_right _ _) hxbody
      evaluate n)

/-- **First-order expressions evaluate to their values.** -/
theorem Term.answers {t : Term} (ht : AreBinders t.binders) (hnames : t.InScope names)
    (h : Fits names t.binders S ρ) : Answers (values (t.expanded S)) (Gives ρ t) := by
  induction t using Term.induction (Q := fun args => ∀ body names names₀ (S S₀ : String → Node H)
    ρ ρ₀, Ready args body names names₀ S S₀ ρ ρ₀ →
      Answers (applications (chain args.params (body.expanded S₀)) (args.expanded S)) fun v =>
        ∃ ρ₁, Binds ρ args ρ₀ ρ₁ ∧ Gives ρ₁ body v)
    generalizing names S ρ with
  | literal l => exact (answers_literal l).congr fun v => gives_literal_iff.symm
  | var x => exact h.answers x hnames
  | op op left right ihleft ihright =>
    obtain ⟨hleft, hright, -⟩ := areBinders_append_iff.1 ht
    obtain ⟨hnamesleft, hnamesright⟩ := hnames
    have hleft := ihleft hleft hnamesleft (h.mono (List.subset_append_left _ _))
    have hright := ihright hright hnamesright (h.mono (List.subset_append_right _ _))
    refine (answers_op op hleft hright).congr fun v => ?_
    rw [gives_op_iff]
    simp only [exists_and_left]
  | cond condition yes no ihcondition ihyes ihno =>
    obtain ⟨hcondition, hbranches, -⟩ := areBinders_append_iff.1 ht
    obtain ⟨hyes, hno, -⟩ := areBinders_append_iff.1 hbranches
    obtain ⟨hnamescondition, hnamesyes, hnamesno⟩ := hnames
    have hbranch := h.mono (List.subset_append_right _ _)
    have hcondition := ihcondition hcondition hnamescondition
      (h.mono (List.subset_append_left _ _))
    have hyes := ihyes hyes hnamesyes (hbranch.mono (List.subset_append_left _ _))
    have hno := ihno hno hnamesno (hbranch.mono (List.subset_append_right _ _))
    refine (answers_cond (Q := fun b => Gives ρ (if b then yes else no)) hcondition ?_).congr
      fun v => gives_cond_iff.symm
    intro b
    cases b with
    | true => exact hyes
    | false => exact hno
  | letIn x value body ihvalue ihbody =>
    obtain ⟨hreserved, hx, ht⟩ := areBinders_cons_iff.1 ht
    obtain ⟨hvalue, hbody, hdisjoint⟩ := areBinders_append_iff.1 ht
    obtain ⟨hnamesvalue, hnamesbody⟩ := hnames
    have h := h.mono (List.subset_cons_self _ _)
    have hxbody : x ∉ body.binders := fun hmem => hx (List.mem_append_right _ hmem)
    have hanswers := ihvalue hvalue hnamesvalue (h.mono (List.subset_append_left _ _))
    have hinert : ∀ y ∈ body.binders, ∀ evaluate n,
        Becomes evaluate (Bindings.empty.insert y n) (value.expanded S) (value.expanded S) :=
      fun y hy evaluate n => h.becomes_expanded hvalue hnamesvalue (List.subset_append_left _ _)
        (List.mem_append_right _ hy) (hbody.not_reserved y hy) (fun hmem => hdisjoint hmem hy)
        evaluate n
    have hfits := (h.mono (List.subset_append_right _ _)).delayed hxbody hanswers hinert
    exact (ihbody hbody hnamesbody hfits).congr fun v => gives_letIn_iff.symm
  | call args body ihargs ihbody =>
    obtain ⟨hargs, hbody⟩ := hnames
    have hready : Ready args body names names S S ρ ρ := {
      binders := ht
      inScope := hargs
      fits := h
      body_inScope := hbody
      body_fits := h
      body_answers := fun S ρ hfits => ihbody (areBinders_append_iff.1 ht).2.1 hbody hfits }
    have hanswers := (ihargs body names names S S ρ ρ hready).congr fun v => gives_call_iff.symm
    refine .of_steps (hanswers.of_eventually_eq (.of_forall fun depth => ?_))
    rw [Term.expanded]
    obtain ⟨x, params, heq⟩ := List.exists_cons_of_ne_nil args.params_ne_nil
    rw [heq]
    exact steps_function x _ _ depth
  | last x arg ih body names names₀ S S₀ ρ ρ₀ h =>
    obtain ⟨-, hx, hbinders⟩ := areBinders_cons_iff.1 h.binders
    have hxbody : x ∉ body.binders := fun hmem => hx (List.mem_append_right _ hmem)
    have harg := ih (areBinders_append_iff.1 hbinders).1 h.inScope
      (h.fits.mono (List.subset_cons_of_subset _ (List.subset_append_left _ _)))
    refine (answers_applications (Q := fun v => Gives (.value x v ρ₀) body) harg ?_).congr
      fun w => binds_last_iff.symm
    intro u v hu hv
    have hfits := (h.body_fits.mono (List.subset_append_right _ _)).value hu hxbody
    refine ⟨_, fun evaluate => h.becomes_body evaluate (.value u none), ?_⟩
    exact (h.body_answers _ _ hfits).of_eventually_eq (.of_forall fun depth => bind_pure _)
  | cons x arg args ih ihargs body names names₀ S S₀ ρ ρ₀ h =>
    obtain ⟨-, -, hbinders⟩ := areBinders_cons_iff.1 h.binders
    obtain ⟨hbinders, -⟩ := areBinders_append_iff.1 hbinders
    have hsub : arg.binders ⊆ (Args.cons x arg args).binders ++ body.binders :=
      List.subset_cons_of_subset _
        (List.subset_append_of_subset_left _ (List.subset_append_left _ _))
    have harg := ih (areBinders_append_iff.1 hbinders).1 h.inScope.1 (h.fits.mono hsub)
    refine (answers_applications (Q := fun v w => ∃ ρ₁, Binds ρ args (.value x v ρ₀) ρ₁ ∧
      Gives ρ₁ body w) harg ?_).congr fun w => binds_cons_iff.symm
    intro u v hu hv
    refine ⟨_, fun evaluate => h.becomes_chain evaluate (.value u none), ?_⟩
    refine (ihargs body names _ S _ ρ _ (h.next hu)).of_eventually_eq ?_
    filter_upwards [eventually_values_chain args.params_ne_nil
      (body.expanded (Function.update S₀ x (.value u none)))] with depth hdepth
    rw [hdepth]
    rfl

end

end FirstOrder
end TypedLisp
