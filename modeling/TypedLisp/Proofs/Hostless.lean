import TypedLisp.Proofs.Bindings
import TypedLisp.Proofs.Depth
import TypedLisp.Proofs.Reading.Derivation

/-!
# Programs without functions of the host

No function of an embedding program is written in a source, and macros are given nothing but parts
of the source.  So the expansion of a source never calls such a function, not even where constants
stand for nodes that have some in them: it does not depend on what these functions mean.

Two meanings of the functions are compared.  Evaluation has the same outcome under both of them, on
nodes without functions of the host, and its values are such nodes again; this goes by the steps of
evaluation and then by its depth.  Expansion is compared for the sake of a property `G` of its
output: inside of evaluation that is to be without functions of the host, and for a program with any
constants it is nothing at all.
-/

namespace TypedLisp

variable {H : Type}

namespace Node

/-! ### Nodes without functions of the host -/

/-- A node without functions of the host, whatever its type is. -/
inductive IsHostless : Node H → Prop where
  | list {items : List (Node H)} {span : Option Span} {type : Option (Node H)}
    (h : ∀ n ∈ items, IsHostless n) : IsHostless ⟨.list items, span, type⟩
  | quoted {inner : Node H} {span : Option Span} {type : Option (Node H)} (h : IsHostless inner) :
    IsHostless ⟨.quoted inner, span, type⟩
  | atom (name : String) {span : Option Span} {type : Option (Node H)} :
    IsHostless ⟨.atom name, span, type⟩
  | str (text : String) {span : Option Span} {type : Option (Node H)} :
    IsHostless ⟨.str text, span, type⟩
  | null {span : Option Span} {type : Option (Node H)} : IsHostless ⟨.null, span, type⟩
  | keyword (name : String) {span : Option Span} {type : Option (Node H)} :
    IsHostless ⟨.keyword name, span, type⟩
  | value {v : Value H} {span : Option Span} {type : Option (Node H)}
    (h : ∀ f, v ≠ .func (.host f)) : IsHostless ⟨.value v, span, type⟩
  | procedure {f : Variadic H} {span : Option Span} {type : Option (Node H)}
    (h : ∀ g, f ≠ .host g) : IsHostless ⟨.procedure f, span, type⟩

namespace IsHostless

variable {n body : Node H} {items params : List (Node H)} {span : Option Span}
  {type : Option (Node H)}

/-- Where a node is and what type it has does not matter. -/
lemma of_kind_eq {m : Node H} (h : n.IsHostless) (hkind : n.kind = m.kind) : m.IsHostless := by
  obtain ⟨kind, span, type⟩ := m
  obtain rfl : n.kind = kind := hkind
  cases h with
  | list h => exact .list h
  | quoted h => exact .quoted h
  | atom name => exact .atom name
  | str text => exact .str text
  | null => exact .null
  | keyword name => exact .keyword name
  | value h => exact .value h
  | procedure h => exact .procedure h

lemma withType (h : n.IsHostless) (type : Node H) : (n.withType type).IsHostless :=
  h.of_kind_eq rfl

lemma relocated (h : n.IsHostless) (span : Option Span) : (n.relocated span).IsHostless :=
  h.of_kind_eq rfl

lemma item (h : IsHostless ⟨.list items, span, type⟩) (hn : n ∈ items) : n.IsHostless := by
  cases h with
  | list h => exact h n hn

lemma inner {n : Node H} (h : IsHostless ⟨.quoted n, span, type⟩) : n.IsHostless := by
  cases h with
  | quoted h => exact h

lemma of_lambda? (h : n.IsHostless) (hlambda : n.lambda? = some (params, body)) :
    body.IsHostless := by
  obtain ⟨_, _, _, _, _, rfl, -⟩ := exists_of_lambda? hlambda
  exact h.item (by simp)

end IsHostless

end Node

/-- What names stand for has no functions of the host in it. -/
def Scope.IsHostless (scope : Scope H) : Prop :=
  scope.Forall fun _ n => n.IsHostless

/-! ### Functions that all fail -/

/-- A meaning of the functions of the host by which all of them fail. -/
@[reducible] def Host.failing : Host H where
  apply _ _ := .error (.typeAt [] (.other "no function"))
  call _ _ := .error (.typeAt [] (.other "no function"))

lemma Host.isBlind_failing (T : Prop) (e : Erasure) : @Host.IsBlind H Host.failing T e :=
  @Host.IsBlind.mk H Host.failing T e (fun _ _ => .typeError [] _) fun _ _ => .typeError [] _

/-! ### Computations with the same outcome -/

/-- Two computations have the same outcome, and `G` holds of their answer if they have one. -/
structure Outcome.SameGiving {α : Type} (G : α → Prop) (x y : Outcome α) : Prop where
  eq : x = y
  gives : ∀ a, x = .ok a → G a

namespace Outcome.SameGiving

variable {α β : Type} {G : α → Prop} {F : β → Prop} {x y : Outcome α}

lemma ok {a : α} (h : G a) : SameGiving G (.ok a) (.ok a) :=
  ⟨rfl, by rintro _ ⟨⟩; exact h⟩

lemma error (f : Failure) : SameGiving G (.error f) (.error f) := ⟨rfl, nofun⟩

lemma bind (h : SameGiving G x y) {k l : α → Outcome β} (hk : ∀ a, G a → SameGiving F (k a) (l a)) :
    SameGiving F (x >>= k) (y >>= l) := by
  obtain ⟨rfl, hx⟩ := h
  cases x with
  | error f => exact .error f
  | ok a => exact hk a (hx a rfl)

lemma map (h : SameGiving G x y) {k : α → β} (hk : ∀ a, G a → F (k a)) :
    SameGiving F (x.map k) (y.map k) := by
  obtain ⟨rfl, hx⟩ := h
  cases x with
  | error f => exact .error f
  | ok a => exact .ok (hk a (hx a rfl))

lemma orAt (h : SameGiving G x y) (span : Option Span) :
    SameGiving G (x.orAt span) (y.orAt span) := by
  obtain ⟨rfl, hx⟩ := h
  rcases x with (err | _) | a
  · exact .error _
  · exact .error _
  · exact .ok (hx a rfl)

lemma mapM {k l : β → Outcome α} {bs : List β} (h : ∀ b ∈ bs, SameGiving G (k b) (l b)) :
    SameGiving (fun as => ∀ a ∈ as, G a) (bs.mapM k) (bs.mapM l) := by
  induction bs with
  | nil => exact .ok (by simp)
  | cons b bs ih =>
    obtain ⟨hb, hbs⟩ := List.forall_mem_cons.1 h
    rw [List.mapM_cons, List.mapM_cons]
    exact hb.bind fun a ha => (ih hbs).bind fun as has =>
      .ok (List.forall_mem_cons.2 ⟨ha, has⟩)

end Outcome.SameGiving

/-! ### Expansion -/

/-- Two evaluations have the same outcome on nodes without functions of the host, and their values
are such nodes. -/
def EvaluationsSame (evaluate evaluate' : Scope H → Node H → Outcome (Node H)) : Prop :=
  ∀ env n, Scope.IsHostless env → n.IsHostless →
    (evaluate env n).SameGiving Node.IsHostless (evaluate' env n)

/-- A property that nodes without functions of the host have, and nodes that are made of nodes that
have it. -/
structure Admits (G : Node H → Prop) : Prop where
  hostless : ∀ {n}, n.IsHostless → G n
  list : ∀ {items span type}, (∀ n ∈ items, G n) → G ⟨.list items, span, type⟩
  quoted : ∀ {n span type}, G n → G ⟨.quoted n, span, type⟩
  withType : ∀ {n} type, G n → G (n.withType type)

lemma admits_isHostless : Admits (Node.IsHostless (H := H)) := 
  ⟨id, .list, .quoted, fun type h => h.withType type⟩

lemma admits_true : Admits fun _ : Node H => True :=
  ⟨fun _ => trivial, fun _ => trivial, fun _ => trivial, fun _ _ => trivial⟩

/-- An expansion has nodes of a property only. -/
structure Expanded.Gives (G : Node H → Prop) (e : Expanded H) : Prop where
  node : ∀ m, e.node? = some m → G m
  consts : e.consts.Forall fun _ m => G m

variable {G : Node H → Prop} {evaluate evaluate' : Scope H → Node H → Outcome (Node H)}

lemma Expanded.Gives.ofNode {n : Node H} (h : G n) : (Expanded.ofNode n).Gives G :=
  ⟨by rintro _ ⟨⟩; exact h, Bindings.forall_empty⟩

namespace Macro

lemma isHostless_environment (envName argsName : String) {args : List (Node H)}
    (hargs : ∀ arg ∈ args, arg.IsHostless) :
    Scope.IsHostless (Macro.environment envName argsName args) := by
  have hprelude : Scope.IsHostless (macroPrelude : Scope H) :=
    Bindings.forall_ofList (by simpa using .procedure nofun)
  refine (hprelude.insert .null).insert (.quoted (.list ?_))
  simpa using fun arg harg => .quoted (hargs arg harg)

lemma isHostless_body {items : List (Node H)} {scope : Scope H} {m : Macro H}
    (hitems : ∀ n ∈ items, n.IsHostless) (h : Macro.of? items scope = some m) :
    m.body.IsHostless := by
  unfold Macro.of? at h
  split at h
  · split at h
    · obtain rfl := Option.some.inj h
      exact (hitems _ List.mem_cons_self).item (by simp)
    · cases h
  · cases h

lemma expand_same (hev : EvaluationsSame evaluate evaluate') (hG : Admits G) {m : Macro H}
    (hbody : m.body.IsHostless) {args : List (Node H)} (hargs : ∀ arg ∈ args, arg.IsHostless) :
    (m.expand evaluate args).SameGiving (Expanded.Gives G) (m.expand evaluate' args) := by
  rw [Macro.expand, Macro.expand]
  cases m.names? with
  | none => exact .error _
  | some names =>
    exact (hev _ _ (isHostless_environment _ _ hargs) hbody).map fun v hv =>
      Expanded.Gives.ofNode (hG.hostless hv)

end Macro

mutual

/-- The expansion of a node without functions of the host does not depend on the evaluation, if that
is the same on such nodes. -/
theorem expandNode_same (hev : EvaluationsSame evaluate evaluate') (hG : Admits G) :
    ∀ (scope : Scope H) (n : Node H), scope.Forall (fun _ m => G m) → n.IsHostless →
      (expandNode evaluate scope n).SameGiving (Expanded.Gives G) (expandNode evaluate' scope n)
  | scope, ⟨.atom name, span, type⟩, hscope, hn => by
    rw [expandNode, expandNode]
    cases hget : scope.get? name with
    | none => exact .ok (.ofNode (hG.hostless ((Node.IsHostless.atom name).withType _)))
    | some value => exact .ok (.ofNode (hscope name value hget))
  | scope, ⟨.quoted inner, span, type⟩, hscope, hn => by
    rw [expandNode, expandNode]
    refine (expandNode_same hev hG scope inner hscope hn.inner).bind fun e he => .ok ⟨?_, he.consts⟩
    rintro _ ⟨⟩
    refine hG.quoted ?_
    cases hnode : e.node? with
    | none => exact hG.hostless .null
    | some m => exact he.node m hnode
  | scope, ⟨.list items, span, type⟩, hscope, hn => by
    have hitems : ∀ n ∈ items, n.IsHostless := fun n h => hn.item h
    rw [expandNode, expandNode]
    cases SpecialForm.of? items scope with
    | some form =>
      cases form with
      | letForm => exact expandLet_same hev hG scope span items hscope hitems
      | defForm => exact expandDef_same hev hG scope span items hscope hitems
      | lambdaForm => exact expandLambda_same hev hG scope span _ items hscope hitems
    | none =>
      cases hcall : Macro.of? items scope with
      | some m =>
        exact Macro.expand_same hev hG (Macro.isHostless_body hitems hcall)
          fun arg harg => hitems arg (List.mem_of_mem_tail harg)
      | none =>
        refine (expandItems_same hev hG scope items hscope hitems).bind fun x hx => .ok ⟨?_, hx.2⟩
        rintro _ ⟨⟩
        exact hG.list hx.1
  | scope, ⟨.str _, span, type⟩, hscope, hn | scope, ⟨.null, span, type⟩, hscope, hn
  | scope, ⟨.keyword _, span, type⟩, hscope, hn | scope, ⟨.value _, span, type⟩, hscope, hn
  | scope, ⟨.procedure _, span, type⟩, hscope, hn =>
    .ok (.ofNode (hG.hostless (hn.of_kind_eq rfl)))

theorem expandItems_same (hev : EvaluationsSame evaluate evaluate') (hG : Admits G) :
    ∀ (scope : Scope H) (ns : List (Node H)), scope.Forall (fun _ m => G m) →
      (∀ n ∈ ns, n.IsHostless) →
      (expandItems evaluate scope ns).SameGiving
        (fun x => (∀ m ∈ x.1, G m) ∧ x.2.Forall fun _ m => G m) (expandItems evaluate' scope ns)
  | scope, [], hscope, hns => .ok ⟨by simp, Bindings.forall_empty⟩
  | scope, n :: ns, hscope, hns => by
    obtain ⟨hn, hns⟩ := List.forall_mem_cons.1 hns
    rw [expandItems, expandItems]
    refine (expandNode_same hev hG scope n hscope hn).bind fun e he =>
      (expandItems_same hev hG scope ns hscope hns).bind fun x hx => .ok ⟨?_, he.consts.merge hx.2⟩
    intro m hm
    rcases List.mem_append.1 hm with hm | hm
    · exact he.node m (Option.mem_toList.1 hm)
    · exact hx.1 m hm

theorem expandLet_same (hev : EvaluationsSame evaluate evaluate') (hG : Admits G) :
    ∀ (scope : Scope H) (span : Option Span) (ns : List (Node H)),
      scope.Forall (fun _ m => G m) → (∀ n ∈ ns, n.IsHostless) →
      (expandLet evaluate scope span ns).SameGiving (Expanded.Gives G)
        (expandLet evaluate' scope span ns)
  | scope, span, [], hscope, hns => .error _
  | scope, span, _ :: parts, hscope, hns => by
    rw [expandLet, expandLet]
    split
    · exact .error _
    · exact expandLetParts_same hev hG scope .empty parts hscope Bindings.forall_empty
        (List.forall_mem_cons.1 hns).2

theorem expandLetParts_same (hev : EvaluationsSame evaluate evaluate') (hG : Admits G) :
    ∀ (scope bound : Scope H) (ns : List (Node H)), scope.Forall (fun _ m => G m) →
      bound.Forall (fun _ m => G m) → (∀ n ∈ ns, n.IsHostless) →
      (expandLetParts evaluate scope bound ns).SameGiving (Expanded.Gives G)
        (expandLetParts evaluate' scope bound ns)
  | scope, bound, [], hscope, hbound, hns => .ok ⟨nofun, Bindings.forall_empty⟩
  | scope, bound, [body], hscope, hbound, hns =>
    expandNode_same hev hG (scope.merge bound) body (hscope.merge hbound)
      (hns body List.mem_cons_self)
  | scope, bound, target :: value :: parts, hscope, hbound, hns => by
    rw [expandLetParts, expandLetParts]
    cases target.atom? with
    | none => exact .error _
    | some name =>
      refine (expandNode_same hev hG scope value hscope (hns value (by simp))).bind fun e he => ?_
      cases hnode : e.node? with
      | none => exact .error _
      | some node =>
        exact expandLetParts_same hev hG scope _ parts hscope (hbound.insert (he.node node hnode))
          fun n hn => hns n (by simp [hn])

theorem expandDef_same (hev : EvaluationsSame evaluate evaluate') (hG : Admits G) :
    ∀ (scope : Scope H) (span : Option Span) (ns : List (Node H)),
      scope.Forall (fun _ m => G m) → (∀ n ∈ ns, n.IsHostless) →
      (expandDef evaluate scope span ns).SameGiving (Expanded.Gives G)
        (expandDef evaluate' scope span ns)
  | scope, span, [], hscope, hns => .error _
  | scope, span, _ :: parts, hscope, hns => by
    rw [expandDef, expandDef]
    split
    · exact .error _
    · exact (expandDefParts_same hev hG scope .empty parts hscope Bindings.forall_empty
        (List.forall_mem_cons.1 hns).2).bind fun consts hconsts => .ok ⟨nofun, hconsts⟩

theorem expandDefParts_same (hev : EvaluationsSame evaluate evaluate') (hG : Admits G) :
    ∀ (scope bound : Scope H) (ns : List (Node H)), scope.Forall (fun _ m => G m) →
      bound.Forall (fun _ m => G m) → (∀ n ∈ ns, n.IsHostless) →
      (expandDefParts evaluate scope bound ns).SameGiving
        (fun consts => consts.Forall fun _ m => G m) (expandDefParts evaluate' scope bound ns)
  | scope, bound, [], hscope, hbound, hns | scope, bound, [_], hscope, hbound, hns => .ok hbound
  | scope, bound, target :: value :: parts, hscope, hbound, hns => by
    rw [expandDefParts, expandDefParts]
    cases target.atom? with
    | none => exact .error _
    | some name =>
      refine (expandNode_same hev hG scope value hscope (hns value (by simp))).bind fun e he => ?_
      cases hnode : e.node? with
      | none => exact .error _
      | some node =>
        exact expandDefParts_same hev hG scope _ parts hscope (hbound.insert (he.node node hnode))
          fun n hn => hns n (by simp [hn])

theorem expandLambda_same (hev : EvaluationsSame evaluate evaluate') (hG : Admits G) :
    ∀ (scope : Scope H) (span : Option Span) (type : Node H) (ns : List (Node H)),
      scope.Forall (fun _ m => G m) → (∀ n ∈ ns, n.IsHostless) →
      (expandLambda evaluate scope span type ns).SameGiving (Expanded.Gives G)
        (expandLambda evaluate' scope span type ns)
  | scope, span, type, ns, hscope, hns =>
    match ns, LambdaShape.of ns, hns with
    | [head, ⟨.list params, paramsSpan, paramsType⟩, body], _, hns => by
      rw [expandLambda, expandLambda]
      split
      · exact .error _
      · refine (expandNode_same hev hG scope body hscope (hns body (by simp))).bind fun e he => ?_
        cases hnode : e.node? with
        | none => exact .error _
        | some node =>
          have hparams := hns ⟨.list params, paramsSpan, paramsType⟩ (by simp)
          refine (expandParams_same hev hG scope head paramsSpan span node params hscope
            (hns head (by simp)) (he.node node hnode) fun p hp => hparams.item hp).bind
            fun chain hchain => .ok ⟨?_, he.consts⟩
          rintro _ ⟨⟩
          exact hG.withType type hchain
    | [head, params, body], .noList _ _ h, _ => by
      rw [expandLambda_of_noList _ h, expandLambda_of_noList _ h]
      exact .error _
    | ns, .notThree h, _ => by
      rw [expandLambda_of_notThree _ h, expandLambda_of_notThree _ h]
      exact .error _

theorem expandParams_same (hev : EvaluationsSame evaluate evaluate') (hG : Admits G) :
    ∀ (scope : Scope H) (head : Node H) (paramsSpan span : Option Span) (body : Node H)
      (ns : List (Node H)), scope.Forall (fun _ m => G m) → head.IsHostless → G body →
      (∀ n ∈ ns, n.IsHostless) →
      (expandParams evaluate scope head paramsSpan span body ns).SameGiving G
        (expandParams evaluate' scope head paramsSpan span body ns)
  | scope, head, paramsSpan, span, body, [], hscope, hhead, hbody, hns => .ok hbody
  | scope, head, paramsSpan, span, body, param :: params, hscope, hhead, hbody, hns => by
    obtain ⟨hparam, hparams⟩ := List.forall_mem_cons.1 hns
    rw [expandParams, expandParams]
    refine (expandParams_same hev hG scope head paramsSpan span body params hscope hhead hbody
      hparams).bind fun inner hinner =>
        (expandNode_same hev hG scope param hscope hparam).bind fun e he => ?_
    cases hnode : e.node? with
    | none => exact .error _
    | some node =>
      refine .ok (hG.list ?_)
      simpa using ⟨hG.hostless hhead, hG.list (by simpa using he.node node hnode), hinner⟩

end

/-! ### One step of evaluation -/

section Step

variable {host host' : Host H} {expand expand' : Scope H → Node H → Outcome (Expanded H)}
  {env : Scope H}

/-- Two expansions have the same outcome on nodes without functions of the host, and give such
nodes. -/
def ExpansionsSame (expand expand' : Scope H → Node H → Outcome (Expanded H)) : Prop :=
  ∀ scope n, Scope.IsHostless scope → n.IsHostless →
    (expand scope n).SameGiving (Expanded.Gives Node.IsHostless) (expand' scope n)

/-- A value without functions of the host. -/
def Value.IsHostless (v : Value H) : Prop := ∀ f, v ≠ .func (.host f)

lemma Operator.value_gives (op : Operator) (lhs rhs : Int64) :
    (Outcome.ofExcept (op.value lhs rhs)).SameGiving (Value.IsHostless (H := H))
      (Outcome.ofExcept (op.value lhs rhs)) := by
  unfold Operator.value
  cases op.apply lhs rhs with
  | error cause => exact .error _
  | ok scalar => cases scalar <;> exact .ok nofun

lemma Curried.apply_same {f : Curried H} (hf : ∀ h, f ≠ .host h) (arg : Node H) :
    (Outcome.ofExcept (@Curried.apply H host f arg)).SameGiving Value.IsHostless
      (Outcome.ofExcept (@Curried.apply H host' f arg)) := by
  unfold Curried.apply
  cases f with
  | operator op =>
    cases arg.toInt64 with
    | error err => exact .error _
    | ok lhs => exact .ok nofun
  | operatorOn op lhs =>
    cases arg.toInt64 with
    | error err => exact .error _
    | ok rhs => exact op.value_gives lhs rhs
  | host h => exact absurd rfl (hf h)

lemma firstOf_gives {args : List (Node H)} (hargs : ∀ arg ∈ args, arg.IsHostless) :
    (Outcome.ofExcept (firstOf args)).SameGiving Node.IsHostless
      (Outcome.ofExcept (firstOf args)) := by
  refine ⟨rfl, fun v hv => ?_⟩
  unfold firstOf at hv
  split at hv
  · next arg =>
    split at hv
    · next item items hkind =>
      obtain rfl := Except.ok.inj hv
      obtain ⟨kind, span, type⟩ := arg
      obtain rfl : kind = .list (item :: items) := hkind
      exact (hargs _ List.mem_cons_self).item List.mem_cons_self
    · cases hv
  · cases hv

lemma Variadic.call_same {f : Variadic H} (hf : ∀ h, f ≠ .host h) {args : List (Node H)}
    (hargs : ∀ arg ∈ args, arg.IsHostless) :
    (Outcome.ofExcept (@Variadic.call H host f args)).SameGiving Node.IsHostless
      (Outcome.ofExcept (@Variadic.call H host' f args)) := by
  cases f with
  | first => exact firstOf_gives hargs
  | host h => exact absurd rfl (hf h)

lemma evaluateAtom_same (hev : EvaluationsSame evaluate evaluate') (henv : Scope.IsHostless env)
    (expr : Node H) (name : String) :
    (evaluateAtom evaluate env expr name).SameGiving Node.IsHostless
      (evaluateAtom evaluate' env expr name) := by
  rw [evaluateAtom, evaluateAtom]
  split
  · split
    · exact .ok ((Node.IsHostless.value nofun).withType _)
    · exact .error _
  · cases hget : env.get? name with
    | none => exact .error _
    | some bound =>
      have hbound := henv name bound hget
      exact (hev env bound henv hbound).map fun v hv => hv.relocated _

lemma evaluateQuoted_same (hev : EvaluationsSame evaluate evaluate') (henv : Scope.IsHostless env)
    {inner : Node H} (hinner : inner.IsHostless) :
    (evaluateQuoted evaluate env inner).SameGiving Node.IsHostless
      (evaluateQuoted evaluate' env inner) := by
  obtain ⟨kind, span, type⟩ := inner
  cases kind with
  | list items =>
    rw [evaluateQuoted, evaluateQuoted]
    exact (Outcome.SameGiving.mapM fun n hn => hev env n henv (hinner.item hn)).bind
      fun values hvalues => .ok ((Node.IsHostless.list hvalues).withType _)
  | _ => exact .ok hinner

lemma substitute_same (hev : EvaluationsSame evaluate evaluate')
    (hex : ExpansionsSame expand expand') (henv : Scope.IsHostless env) (span : Option Span)
    (params : List (Node H)) {body arg : Node H} (hbody : body.IsHostless) (harg : arg.IsHostless) :
    (substitute evaluate expand env span params body arg).SameGiving Node.IsHostless
      (substitute evaluate' expand' env span params body arg) := by
  match params with
  | [param] =>
    rw [substitute, substitute]
    cases param.atom? with
    | none => exact .error _
    | some name =>
      refine (hex _ body (Bindings.forall_empty.insert harg) hbody).bind fun e he => ?_
      cases hnode : e.node? with
      | none => exact .error _
      | some m => exact hev env m henv (he.node m hnode)
  | [] | _ :: _ :: _ => exact .error _

lemma applyNode_same (hev : EvaluationsSame evaluate evaluate')
    (hex : ExpansionsSame expand expand') (henv : Scope.IsHostless env) {callee arg : Node H}
    (hcallee : callee.IsHostless) (harg : arg.IsHostless) :
    (@applyNode H evaluate expand host env callee arg).SameGiving Node.IsHostless
      (@applyNode H evaluate' expand' host' env callee arg) := by
  unfold applyNode
  cases hcallee with
  | @value v span type h =>
    cases v with
    | func f =>
      have hf : ∀ g, f ≠ .host g := fun g hg => h g (hg ▸ rfl)
      exact (Curried.apply_same hf arg).map fun v hv => .value hv
    | int _ | bool _ | str _ | unit => exact .error _
  | procedure h => exact Variadic.call_same h (by simpa using harg)
  | @list items span type h =>
    dsimp only
    cases hlambda : (⟨.list items, span, type⟩ : Node H).lambda? with
    | none => exact .error _
    | some f =>
      have hbody := (Node.IsHostless.list h).of_lambda? hlambda
      exact substitute_same hev hex henv span f.1 hbody harg
  | quoted _ | atom _ | str _ | null | keyword _ => exact .error _

lemma applyAll_same (hev : EvaluationsSame evaluate evaluate')
    (hex : ExpansionsSame expand expand') (henv : Scope.IsHostless env) (span : Option Span)
    {callee : Node H} {args : List (Node H)} (hcallee : callee.IsHostless)
    (hargs : ∀ arg ∈ args, arg.IsHostless) :
    (@applyAll H evaluate expand host env span callee args).SameGiving Node.IsHostless
      (@applyAll H evaluate' expand' host' env span callee args) := by
  induction args generalizing callee with
  | nil => exact .ok hcallee
  | cons arg args ih =>
    obtain ⟨harg, hargs⟩ := List.forall_mem_cons.1 hargs
    rw [applyAll, applyAll]
    exact (hev env arg henv harg).bind fun v hv =>
      ((applyNode_same hev hex henv hcallee hv).orAt span).bind fun r hr => ih hr hargs

lemma callNode_same (hev : EvaluationsSame evaluate evaluate')
    (hex : ExpansionsSame expand expand') (henv : Scope.IsHostless env) (span : Option Span)
    {callee : Node H} {args : List (Node H)} (hcallee : callee.IsHostless)
    (hargs : ∀ arg ∈ args, arg.IsHostless) :
    (@callNode H evaluate expand host env span callee args).SameGiving Node.IsHostless
      (@callNode H evaluate' expand' host' env span callee args) := by
  unfold callNode
  obtain ⟨kind, cspan, type⟩ := callee
  cases kind with
  | procedure f =>
    cases hcallee with
    | procedure h =>
      exact (Outcome.SameGiving.mapM fun n hn => hev env n henv (hargs n hn)).bind
        fun values hvalues => (Variadic.call_same h hvalues).orAt span
  | _ => exact applyAll_same hev hex henv span hcallee hargs

lemma evaluateConditional_same (hev : EvaluationsSame evaluate evaluate')
    (henv : Scope.IsHostless env) {condition yes no : Node H} (hcondition : condition.IsHostless)
    (hyes : yes.IsHostless) (hno : no.IsHostless) :
    (evaluateConditional evaluate env condition yes no).SameGiving Node.IsHostless
      (evaluateConditional evaluate' env condition yes no) := by
  rw [evaluateConditional, evaluateConditional]
  refine (hev env condition henv hcondition).bind fun v hv => ?_
  have hholds : (conditionHolds condition v).SameGiving (fun _ => True)
      (conditionHolds condition v) := ⟨rfl, fun _ _ => trivial⟩
  refine hholds.bind fun holds _ => ?_
  cases holds with
  | true => exact hev env yes henv hyes
  | false => exact hev env no henv hno

lemma isHostless_of_lambdaHead? (henv : Scope.IsHostless env) {head f : Node H}
    (hhead : head.IsHostless) (h : lambdaHead? env head = some f) : f.IsHostless := by
  unfold lambdaHead? at h
  split at h
  · next bound hbound =>
    obtain ⟨name, -, hget⟩ := Option.bind_eq_some_iff.1 hbound
    split at h
    · obtain rfl := Option.some.inj h
      exact henv name bound hget
    · cases h
  · split at h
    · obtain rfl := Option.some.inj h
      exact hhead
    · cases h

lemma evaluateCall_same (hev : EvaluationsSame evaluate evaluate')
    (hex : ExpansionsSame expand expand') (henv : Scope.IsHostless env) (span : Option Span)
    {head : Node H} {args : List (Node H)} (hhead : head.IsHostless)
    (hargs : ∀ arg ∈ args, arg.IsHostless) :
    (@evaluateCall H evaluate expand host env span head args).SameGiving Node.IsHostless
      (@evaluateCall H evaluate' expand' host' env span head args) := by
  unfold evaluateCall
  cases h : lambdaHead? env head with
  | some f =>
    exact callNode_same hev hex henv span (isHostless_of_lambdaHead? henv hhead h) hargs
  | none =>
    exact (hev env head henv hhead).bind fun callee hcallee =>
      callNode_same hev hex henv span hcallee hargs

lemma evaluateList_same (hev : EvaluationsSame evaluate evaluate')
    (hex : ExpansionsSame expand expand') (henv : Scope.IsHostless env) {expr : Node H}
    {items : List (Node H)} (hexpr : expr.IsHostless) (hitems : ∀ n ∈ items, n.IsHostless) :
    (@evaluateList H evaluate expand host env expr items).SameGiving Node.IsHostless
      (@evaluateList H evaluate' expand' host' env expr items) := by
  unfold evaluateList
  split
  · exact .error _
  · next head condition yes no =>
    simp only [List.forall_mem_cons] at hitems
    obtain ⟨hhead, hcondition, hyes, hno, -⟩ := hitems
    split
    · exact evaluateConditional_same hev henv hcondition hyes hno
    · exact evaluateCall_same hev hex henv _ hhead (by simpa using ⟨hcondition, hyes, hno⟩)
  · next head args _ =>
    obtain ⟨hhead, hargs⟩ := List.forall_mem_cons.1 hitems
    split
    · exact .ok hexpr
    · exact evaluateCall_same hev hex henv _ hhead hargs

lemma evaluateStep_same (hev : EvaluationsSame evaluate evaluate')
    (hex : ExpansionsSame expand expand') :
    EvaluationsSame (@evaluateStep H evaluate expand host)
      (@evaluateStep H evaluate' expand' host') := by
  intro env n henv hn
  obtain ⟨kind, span, type⟩ := n
  cases kind with
  | atom name => exact evaluateAtom_same hev henv _ name
  | quoted inner => exact evaluateQuoted_same hev henv hn.inner
  | list items => exact evaluateList_same hev hex henv hn fun n h => hn.item h
  | _ => exact .ok hn

end Step

/-! ### Evaluation and programs -/

/-- Without functions of the host, evaluation does not depend on what these functions mean. -/
theorem evaluate_same (host host' : Host H) (depth : Nat) :
    EvaluationsSame (@TypedLisp.evaluate H host depth) (@TypedLisp.evaluate H host' depth) := by
  induction depth with
  | zero => exact fun env n henv hn => .error _
  | succ depth ih =>
    exact evaluateStep_same ih fun scope n hscope hn =>
      expandNode_same ih admits_isHostless scope n hscope hn

/-- The expansion of forms without functions of the host does not depend on what these functions
mean, whatever the constants are. -/
theorem expandProgram_eq_of_isHostless (host host' : Host H) (depth : Nat) (consts : Scope H)
    {forms : List (Node H)} (hforms : ∀ form ∈ forms, form.IsHostless) :
    @expandProgram H host depth consts forms = @expandProgram H host' depth consts forms := by
  unfold expandProgram
  induction forms generalizing consts with
  | nil => rfl
  | cons form forms ih =>
    obtain ⟨hform, hforms⟩ := List.forall_mem_cons.1 hforms
    have hsame := expandNode_same (evaluate_same host host' depth) admits_true consts form
      (fun _ _ _ => trivial) hform
    rw [expandForms, expandForms, hsame.eq]
    congr 1
    funext e
    rw [ih _ hforms]

/-! ### Sources -/

namespace Grammar

mutual

theorem isHostless_value : ∀ v : Value, (v.node : Node H).IsHostless
  | .atom t _ => .atom t.text
  | .str _ _ => (Node.IsHostless.str _).withType _
  | .keyword _ _ _ => .keyword _
  | .quoted _ _ value => .quoted (isHostless_value value)
  | .list _ _ items _ _ => .list (isHostless_nodes items)

theorem isHostless_typed : ∀ x : Typed, (x.node : Node H).IsHostless
  | .plain value => isHostless_value value
  | .annotated value _ _ _ => (isHostless_value value).withType _

theorem isHostless_nodes : ∀ p : Program, ∀ n ∈ nodes (H := H) p, n.IsHostless
  | [], n, hn => by cases hn
  | x :: p, n, hn => by
    rcases List.mem_cons.1 hn with rfl | hn
    · exact isHostless_typed x
    · exact isHostless_nodes p n hn

end

end Grammar

/-- No function of the host is written in a source. -/
lemma isHostless_of_read_eq_ok {source : String} {forms : List (Node H)}
    (h : read source = .ok forms) : ∀ form ∈ forms, form.IsHostless := by
  obtain ⟨ts, -, h⟩ := Except.exists_of_bind_eq_ok h
  obtain ⟨p, -, -, rfl⟩ := readTokens_eq_ok_iff.1 h
  exact Grammar.isHostless_nodes p

end TypedLisp
