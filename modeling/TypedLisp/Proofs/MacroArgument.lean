import Mathlib
import TypedLisp.Proofs.Depth
import TypedLisp.Proofs.Except

/-!
# Arguments of macros

A macro gets its arguments in a quoted list, each of them quoted on its own.  To look at the name
that this list is bound to is to evaluate the list, and with it every argument behind its quote.
So an argument has been evaluated by one level when the macro gets hold of it: what is no list comes
as it stands in the program, but of a list the items have been evaluated, in the environment of the
macro.
-/

namespace TypedLisp

variable {H : Type}

/-! ### Looking at the arguments -/

section

variable {envName argsName : String} {args : List (Node H)}

lemma get?_environment_argsName :
    (Macro.environment envName argsName args).get? argsName =
      some (.quoted (.list (args.map fun a => .quoted a none) none) none) := by
  rw [Macro.environment, Bindings.get?_insert, if_pos rfl]

variable [Host H]

lemma evaluate_quoted (env : Scope H) (n : Node H) (span : Option Span) (depth : Nat) :
    evaluate (depth + 1) env (.quoted n span) = evaluateQuoted (evaluate depth) env n := rfl

/-- A name has the value of what it is bound to, at its own place. -/
lemma evaluate_atom {env : Scope H} {n bound : Node H} {name : String} (hn : n.kind = .atom name)
    (hname : isIntegerLiteral name = false) (hbound : env.get? name = some bound) (depth : Nat) :
    evaluate (depth + 1) env n = (evaluate depth env bound).map fun v => v.relocated n.span := by
  rw [evaluate, evaluateStep]
  simp only [hn]
  rw [evaluateAtom, if_neg (by simp [hname]), hbound]

/-- Each argument is evaluated behind its quote when the list of all arguments is. -/
lemma mapM_evaluate_quoted (env : Scope H) (depth : Nat) :
    (args.map fun a => Node.quoted a none).mapM (evaluate (depth + 1) env) =
      args.mapM (evaluateQuoted (evaluate depth) env) := by
  rw [List.mapM_map]
  rfl

/-- Behind the name of the arguments there is the list of what each of them gives behind a quote. -/
lemma evaluate_arguments {n : Node H} (hn : n.kind = .atom argsName)
    (hname : isIntegerLiteral argsName = false) (depth : Nat) :
    evaluate (depth + 3) (Macro.environment envName argsName args) n = (do
      let values ← args.mapM
        (evaluateQuoted (evaluate depth) (Macro.environment envName argsName args))
      return Node.list values n.span) := by
  rw [← mapM_evaluate_quoted, evaluate_atom hn hname get?_environment_argsName, evaluate_quoted,
    evaluateQuoted]
  show Except.map _ (List.mapM _ _ >>= _) = _
  cases (args.map fun a => Node.quoted a none).mapM
    (evaluate (depth + 1) (Macro.environment envName argsName args)) with
  | error e => rfl
  | ok values => rfl

end

/-! ### What comes back of a quotation -/

section

variable [Host H] {e : Node H} {env : Scope H}

/-- Where each of some expressions is its own value, all of them are so at one depth. -/
lemma exists_depth_of_settles {items : List (Node H)}
    (h : ∀ item ∈ items, Settles (fun depth => evaluate depth env item) (.ok item)) :
    ∃ depth, items.mapM (evaluate depth env) = .ok items := by
  suffices hall : ∃ enough, ∀ depth, enough ≤ depth →
      ∀ item ∈ items, evaluate depth env item = .ok item by
    obtain ⟨enough, hall⟩ := hall
    exact ⟨enough, Except.mapM_eq_ok_iff.2
      (List.forall₂_same.2 (hall enough (Nat.le_refl enough)))⟩
  induction items with
  | nil => exact ⟨0, by simp⟩
  | cons item items ih =>
    obtain ⟨hitem, hitems⟩ := List.forall_mem_cons.1 h
    obtain ⟨first, -, hfirst⟩ := hitem
    obtain ⟨enough, hall⟩ := ih hitems
    refine ⟨max first enough, fun depth hle => List.forall_mem_cons.2 ⟨?_, ?_⟩⟩
    · exact hfirst depth (Nat.le_trans (Nat.le_max_left first enough) hle)
    · exact hall depth (Nat.le_trans (Nat.le_max_right first enough) hle)

/-- A quotation gives what it quotes, if it quotes no list or a list of items that are their own
values. -/
lemma evaluateQuoted_eq_ok_self_iff {depth : Nat}
    (he : ∀ t, e.type? = some t → t.isNull = false) :
    evaluateQuoted (evaluate depth) env e = .ok e ↔
      ∀ items, e.kind = .list items → items.mapM (evaluate depth env) = .ok items := by
  obtain ⟨kind, span, type⟩ := e
  cases kind with
  | list items =>
    have htype : ∀ values : List (Node H),
        (Node.list values span).withType (type.getD .null) = ⟨.list values, span, type⟩ := by
      intro values
      cases type with
      | none => rfl
      | some t => simp [Node.withType, Node.list, he t rfl]
    simp only [evaluateQuoted, Node.type, htype]
    constructor
    · intro h items' heq
      obtain rfl := Kind.list.inj heq
      obtain ⟨values, hvalues, h⟩ := Except.exists_of_bind_eq_ok h
      obtain ⟨rfl⟩ : values = items := by simpa [pure, Except.pure] using h
      exact hvalues
    · intro h
      rw [h items rfl]
      rfl
  | quoted _ | atom _ | str _ | null | keyword _ | value _ | procedure _ =>
    constructor
    · intro h items heq
      cases heq
    · intro h
      rfl

/-- What is quoted comes back as it is if and only if it is no list, or a list of which every item
is its own value. -/
lemma exists_evaluateQuoted_eq_self_iff (he : ∀ t, e.type? = some t → t.isNull = false) :
    (∃ depth, evaluateQuoted (evaluate depth) env e = .ok e) ↔
      ∀ items, e.kind = .list items → ∀ item ∈ items,
        Settles (fun depth => evaluate depth env item) (.ok item) := by
  simp only [evaluateQuoted_eq_ok_self_iff he]
  constructor
  · rintro ⟨depth, h⟩ items hitems item hmem
    have hall := Except.mapM_eq_ok_iff.1 (h items hitems)
    exact (deepens_evaluate env item).settles_of_eq_ok (List.forall₂_same.1 hall item hmem)
  · intro h
    by_cases hlist : ∃ items, e.kind = .list items
    · obtain ⟨items, hitems⟩ := hlist
      obtain ⟨depth, hdepth⟩ := exists_depth_of_settles (h items hitems)
      refine ⟨depth, fun items' hitems' => ?_⟩
      obtain rfl := Kind.list.inj (hitems.symm.trans hitems')
      exact hdepth
    · exact ⟨0, fun items hitems => absurd ⟨items, hitems⟩ hlist⟩

end

/-! ### The macro that answers with its first argument -/

/-- The macro `(macro (env args) (first args))`. -/
structure Macro.TakesFirst (m : Macro H) : Prop where
  names : m.names? = some ("env", "args")
  body : ∃ first arg, m.body.kind = .list [first, arg] ∧ first.kind = .atom "first" ∧
    arg.kind = .atom "args"

variable {m : Macro H} {e : Node H}

lemma get?_environment_first :
    (Macro.environment "env" "args" [e]).get? "first" = some (.procedure .first) := by
  rw [Macro.environment, Bindings.get?_insert, Bindings.get?_insert]
  rfl

variable [Host H]

/-- The body of the macro gives what its argument gives behind a quote. -/
lemma Macro.TakesFirst.evaluate_body (h : m.TakesFirst) (depth : Nat) :
    evaluate (depth + 4) (Macro.environment "env" "args" [e]) m.body =
      evaluateQuoted (evaluate depth) (Macro.environment "env" "args" [e]) e := by
  obtain ⟨first, arg, hbody, hfirst, harg⟩ := h.body
  have hlambda : m.body.isLambda = false := by simp [Node.isLambda, Node.lambda?, hbody]
  have hhead : lambdaHead? (Macro.environment "env" "args" [e]) first = none := by
    simp only [lambdaHead?, Node.atom?, hfirst, Option.bind_some, get?_environment_first]
    rfl
  have hcallee : evaluate (depth + 3) (Macro.environment "env" "args" [e]) first =
      .ok ((Node.procedure .first).relocated first.span) :=
    evaluate_atom hfirst (by decide) get?_environment_first (depth + 2)
  have hvalue : evaluate (depth + 3) (Macro.environment "env" "args" [e]) arg = (do
      let v ← evaluateQuoted (evaluate depth) (Macro.environment "env" "args" [e]) e
      return Node.list [v] arg.span) := by
    rw [evaluate_arguments harg (by decide)]
    simp
  rw [evaluate, evaluateStep]
  simp only [hbody, evaluateList, hlambda, evaluateCall, hhead, hcallee]
  rw [if_neg Bool.false_ne_true]
  show ([arg].mapM (evaluate (depth + 3) _) >>= fun values =>
    (Outcome.ofExcept (Variadic.first.call values)).orAt m.body.span) = _
  rw [List.mapM_cons, hvalue]
  cases evaluateQuoted (evaluate depth) (Macro.environment "env" "args" [e]) e with
  | error f => rfl
  | ok v => rfl

/-! ### Its calls -/

/-- A call of the macro expands to what its argument gives behind a quote. -/
lemma expandProgram_takesFirst {call callee : Node H} (hcall : call.kind = .list [callee, e])
    (hm : Macro.of? [callee, e] .empty = some m) (h : m.TakesFirst) (depth : Nat) :
    expandProgram (depth + 4) .empty [call] =
      (evaluateQuoted (evaluate depth) (Macro.environment "env" "args" [e]) e).map
        fun v => ⟨[v], .empty⟩ := by
  -- the callee is a list, so the call is no special form
  have hform : SpecialForm.of? [callee, e] (Bindings.empty : Scope H) = none := by
    obtain ⟨kind, span, type⟩ := callee
    cases kind with
    | list items => rfl
    | quoted _ | atom _ | str _ | null | keyword _ | value _ | procedure _ => cases hm
  obtain ⟨kind, span, type⟩ := call
  obtain rfl : kind = .list [callee, e] := hcall
  rw [expandProgram, expandForms, expandNode, hform]
  simp only [hm, Macro.expand, h.names, List.tail_cons, h.evaluate_body]
  cases evaluateQuoted (evaluate depth) (Macro.environment "env" "args" [e]) e with
  | error f => rfl
  | ok v => rfl

/-- **What a macro gets of an argument.**  A call of the macro that answers with its first argument
`e` expands to the value of `'e` in the environment of the macro.  So the argument is handed over as
it stands if and only if it is no list, or a list of which every item is its own value.  (The type
of a node that is read from a source is never null.) -/
theorem settles_expandProgram_takesFirst {call callee : Node H}
    (hcall : call.kind = .list [callee, e]) (hm : Macro.of? [callee, e] .empty = some m)
    (h : m.TakesFirst) (he : ∀ t, e.type? = some t → t.isNull = false) :
    (∀ r, Settles (fun depth =>
          evaluate depth (Macro.environment "env" "args" [e]) (.quoted e none)) r →
        Settles (fun depth => expandProgram depth .empty [call]) (r.map fun v => ⟨[v], .empty⟩)) ∧
      (Settles (fun depth => expandProgram depth .empty [call]) (.ok ⟨[e], .empty⟩) ↔
        ∀ items, e.kind = .list items → ∀ item ∈ items,
          Settles (fun depth => evaluate depth (Macro.environment "env" "args" [e]) item)
            (.ok item)) := by
  have hexpand := expandProgram_takesFirst hcall hm h
  have hdeep : Deepens fun depth => expandProgram depth .empty [call] :=
    deepens_expandProgram .empty [call]
  constructor
  · rintro r ⟨enough, -, hr⟩
    obtain ⟨r', enough', hlt, hle⟩ := hdeep.exists_settles
    have hquoted : evaluateQuoted (evaluate (enough + enough')) _ e = r :=
      hr (enough + enough' + 1) (by omega)
    have hcalled : expandProgram (enough + enough' + 4) .empty [call] = r' :=
      hle (enough + enough' + 4) (by omega)
    obtain rfl : r.map (fun v => ⟨[v], .empty⟩) = r' := by
      rw [← hcalled, hexpand, hquoted]
    exact ⟨enough', hlt, hle⟩
  · rw [← exists_evaluateQuoted_eq_self_iff he]
    constructor
    · rintro ⟨enough, -, hraw⟩
      have hcalled := (hexpand enough).symm.trans (hraw _ (Nat.le_add_right enough 4))
      refine ⟨enough, ?_⟩
      generalize evaluateQuoted (evaluate enough) (Macro.environment "env" "args" [e]) e = x
        at hcalled
      cases x with
      | error f => cases hcalled
      | ok v => simpa [Except.map] using hcalled
    · rintro ⟨depth, hdepth⟩
      exact hdeep.settles_of_eq_ok ((hexpand depth).trans (by rw [hdepth]; rfl))

/-- The macro `(macro (env args) (first args))`, as a part of a program. -/
def firstMacro : Node Empty :=
  .list [.atom "macro" none, .list [.atom "env" none, .atom "args" none] none,
    .list [.atom "first" none, .atom "args" none] none] none

/-- The list `("s" .k)`. -/
def constantItems : Node Empty :=
  .list [⟨.str "s", none, none⟩, ⟨.keyword "k", none, none⟩] none

/-- A list of constants is handed over as it stands. -/
theorem settles_expandProgram_constantItems :
    Settles (fun depth => expandProgram depth .empty [Node.list [firstMacro, constantItems] none])
      (.ok ⟨[constantItems], .empty⟩) := by
  refine (settles_expandProgram_takesFirst rfl rfl ⟨rfl, _, _, rfl, rfl, rfl⟩ ?_).2.2 ?_
  · rintro t ⟨⟩
  · rintro items ⟨rfl⟩
    refine List.forall_mem_cons.2 ⟨?_, List.forall_mem_singleton.2 ?_⟩
    · exact (deepens_evaluate _ _).settles_of_eq_ok (show evaluate 1 _ _ = _ from rfl)
    · exact (deepens_evaluate _ _).settles_of_eq_ok (show evaluate 1 _ _ = _ from rfl)

/-- The items of `(a b)` are evaluated although nothing is bound to them, and the item of `('a)`
loses its quote. -/
theorem settles_expandSource_of_list_argument :
    Settles (fun depth =>
          expandSource (H := Empty) depth "((macro (env args) (first args)) (a b))")
        (.error (.raised (.reference "a" (some ⟨34, 35⟩)))) ∧
      Settles (fun depth =>
          expandSource (H := Empty) depth "((macro (env args) (first args)) ('a))")
        (.ok ⟨[.list [.atom "a" (some ⟨35, 36⟩)] (some ⟨33, 37⟩)], .empty⟩) := by
  constructor
  · refine (deepens_expandSource _).settles_of_eq_raised (show expandSource 5 _ = _ from ?_)
    cbv
  · refine (deepens_expandSource _).settles_of_eq_ok (show expandSource 6 _ = _ from ?_)
    cbv

end TypedLisp
