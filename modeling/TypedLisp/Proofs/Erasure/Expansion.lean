import TypedLisp.Expansion
import TypedLisp.Proofs.Erasure.Outcome

/-!
# Erasure and expansion

The expansion of a node from which something is taken away follows that of the node itself, when the
bodies of macros are evaluated by evaluations of which one follows the other.  There is a case for
each special form, and the induction is the recursion of the expansion.
-/

namespace TypedLisp

variable {H : Type}

open Outcome (Follows)

section

variable (e : Erasure)

/-- An expansion without what is taken away. -/
def Expanded.erase (x : Expanded H) : Expanded H :=
  ⟨x.node?.map (Node.erase e), Scope.erase e x.consts⟩

/-- An expanded program without what is taken away. -/
def Expansion.erase (x : Expansion H) : Expansion H :=
  ⟨x.forms.map (Node.erase e), Scope.erase e x.consts⟩

/-- A macro without what is taken away. -/
def Macro.erase (m : Macro H) : Macro H :=
  ⟨m.header.erase e, m.body.erase e⟩

@[simp] lemma Expanded.erase_ofNode (n : Node H) : (ofNode n).erase e = ofNode (n.erase e) := rfl

/-! ### Forms -/

lemma SpecialForm.of?_erase (items : List (Node H)) (scope : Scope H) :
    SpecialForm.of? (items.map (Node.erase e)) (Scope.erase e scope) =
      SpecialForm.of? items scope := by
  cases items with
  | nil => rfl
  | cons head items => simp [SpecialForm.of?]

lemma Macro.of?_erase (items : List (Node H)) (scope : Scope H) :
    Macro.of? (items.map (Node.erase e)) (Scope.erase e scope) =
      (Macro.of? items scope).map (Macro.erase e) := by
  match items with
  | ⟨.list [head, header, body], _, _⟩ :: _ :: _ =>
    simp only [List.map_cons, Node.erase, Kind.erase, Node.eraseAll, Macro.of?, Node.isAtom_erase,
      Node.list?_erase, Option.isSome_map, Bindings.contains_map]
    split <;> rfl
  | [] | [_] => simp [Macro.of?]
  | ⟨.list [], _, _⟩ :: _ :: _ | ⟨.list [_], _, _⟩ :: _ :: _ | ⟨.list [_, _], _, _⟩ :: _ :: _
  | ⟨.list (_ :: _ :: _ :: _ :: _), _, _⟩ :: _ :: _ | ⟨.quoted _, _, _⟩ :: _ :: _
  | ⟨.atom _, _, _⟩ :: _ :: _ | ⟨.str _, _, _⟩ :: _ :: _ | ⟨.null, _, _⟩ :: _ :: _
  | ⟨.keyword _, _, _⟩ :: _ :: _ | ⟨.value _, _, _⟩ :: _ :: _
  | ⟨.procedure _, _, _⟩ :: _ :: _ => rfl

lemma Macro.names?_erase (m : Macro H) : (m.erase e).names? = m.names? := by
  unfold Macro.names?
  rw [Macro.erase, Node.list?_erase]
  match m.header.list? with
  | some [env, args] => simp
  | none | some [] | some [_] | some (_ :: _ :: _ :: _) => rfl

lemma Macro.erase_environment (envName argsName : String) (args : List (Node H)) :
    Scope.erase e (Macro.environment envName argsName args) =
      Macro.environment envName argsName (args.map (Node.erase e)) := by
  simp [Macro.environment, Function.comp_def]

end

variable {T : Prop} {e : Erasure}

/-- An evaluation follows another one on all expressions in all environments. -/
def EvaluationFollows (T : Prop) (e : Erasure)
    (evaluate evaluate' : Scope H → Node H → Outcome (Node H)) : Prop :=
  ∀ env n, (evaluate env n).Follows T e (Node.erase e) (evaluate' (Scope.erase e env) (n.erase e))

variable {evaluate evaluate' : Scope H → Node H → Outcome (Node H)}

lemma Macro.expand_follows (h : EvaluationFollows T e evaluate evaluate') (m : Macro H)
    (args : List (Node H)) :
    (m.expand evaluate args).Follows T e (Expanded.erase e)
      ((m.erase e).expand evaluate' (args.map (Node.erase e))) := by
  rw [Macro.expand, Macro.expand, Macro.names?_erase]
  cases m.names? with
  | none =>
    rw [Macro.erase, Node.span_erase]
    exact .typeErrorAt _ _
  | some names =>
    obtain ⟨envName, argsName⟩ := names
    dsimp only
    rw [← Macro.erase_environment]
    exact (h _ _).map fun _ => rfl

mutual

/-- Expansion neither looks at what is taken away nor brings it back. -/
theorem expandNode_follows (h : EvaluationFollows T e evaluate evaluate') :
    ∀ (scope : Scope H) (n : Node H),
      (expandNode evaluate scope n).Follows T e (Expanded.erase e)
        (expandNode evaluate' (Scope.erase e scope) (n.erase e))
  | scope, ⟨.atom name, span, type⟩ => by
    rw [Node.erase, Kind.erase, expandNode, expandNode, Bindings.get?_map]
    cases scope.get? name with
    | none => exact .of_eq (by simp [Node.getD_eraseType])
    | some value => exact .of_eq rfl
  | scope, ⟨.quoted inner, span, type⟩ => by
    rw [Node.erase, Kind.erase, expandNode, expandNode]
    refine (expandNode_follows h scope inner).bind fun x => .of_eq ?_
    obtain ⟨node?, consts⟩ := x
    cases node? <;> simp [Expanded.erase, Node.getD_eraseType]
  | scope, ⟨.list items, span, type⟩ => by
    rw [Node.erase, Kind.erase, Node.eraseAll_eq_map, expandNode, expandNode,
      SpecialForm.of?_erase, Macro.of?_erase, Node.getD_eraseType, ← Node.type_curry]
    cases SpecialForm.of? items scope with
    | some form =>
      cases form with
      | letForm => exact expandLet_follows h scope span items
      | defForm => exact expandDef_follows h scope span items
      | lambdaForm => exact expandLambda_follows h scope span _ items
    | none =>
      cases Macro.of? items scope with
      | some m =>
        have := Macro.expand_follows h m items.tail
        rwa [List.map_tail] at this
      | none =>
        refine (expandItems_follows h scope items).bind fun x => .of_eq ?_
        simp [Expanded.erase]
  | scope, ⟨.str _, span, type⟩ | scope, ⟨.null, span, type⟩ | scope, ⟨.keyword _, span, type⟩
  | scope, ⟨.value _, span, type⟩ | scope, ⟨.procedure _, span, type⟩ =>
    .of_eq (by simp [Node.erase_mk, Node.getD_eraseType, Kind.erase, Node.eraseType])

theorem expandItems_follows (h : EvaluationFollows T e evaluate evaluate') :
    ∀ (scope : Scope H) (ns : List (Node H)),
      (expandItems evaluate scope ns).Follows T e
        (fun x => (x.1.map (Node.erase e), Scope.erase e x.2))
        (expandItems evaluate' (Scope.erase e scope) (ns.map (Node.erase e)))
  | scope, [] => .of_eq rfl
  | scope, n :: ns => by
    rw [List.map_cons, expandItems, expandItems]
    refine (expandNode_follows h scope n).bind fun x =>
      (expandItems_follows h scope ns).bind fun y => .of_eq ?_
    obtain ⟨node?, consts⟩ := x
    cases node? <;> simp [Expanded.erase]

theorem expandLet_follows (h : EvaluationFollows T e evaluate evaluate') :
    ∀ (scope : Scope H) (span : Option Span) (ns : List (Node H)),
      (expandLet evaluate scope span ns).Follows T e (Expanded.erase e)
        (expandLet evaluate' (Scope.erase e scope) (e.span span) (ns.map (Node.erase e)))
  | scope, span, [] => .typeErrorAt _ _
  | scope, span, _ :: parts => by
    rw [List.map_cons, expandLet, expandLet, List.length_map]
    split
    · exact .typeErrorAt _ _
    · exact expandLetParts_follows h scope .empty parts

theorem expandLetParts_follows (h : EvaluationFollows T e evaluate evaluate') :
    ∀ (scope bound : Scope H) (ns : List (Node H)),
      (expandLetParts evaluate scope bound ns).Follows T e (Expanded.erase e)
        (expandLetParts evaluate' (Scope.erase e scope) (Scope.erase e bound)
          (ns.map (Node.erase e)))
  | scope, bound, [] => .of_eq rfl
  | scope, bound, [body] => by
    rw [List.map_singleton, expandLetParts, expandLetParts, ← Scope.erase_merge]
    exact expandNode_follows h (scope.merge bound) body
  | scope, bound, target :: value :: parts => by
    rw [List.map_cons, List.map_cons, expandLetParts, expandLetParts, Node.atom?_erase,
      Node.kindName_erase, Node.span_erase, Node.span_erase]
    cases target.atom? with
    | none => exact .typeErrorAt _ _
    | some name =>
      refine (expandNode_follows h scope value).bind fun x => ?_
      obtain ⟨node?, consts⟩ := x
      cases node? with
      | none => exact .typeErrorAt _ _
      | some node =>
        have hparts := expandLetParts_follows h scope (bound.insert name node) parts
        rwa [Scope.erase_insert] at hparts

theorem expandDef_follows (h : EvaluationFollows T e evaluate evaluate') :
    ∀ (scope : Scope H) (span : Option Span) (ns : List (Node H)),
      (expandDef evaluate scope span ns).Follows T e (Expanded.erase e)
        (expandDef evaluate' (Scope.erase e scope) (e.span span) (ns.map (Node.erase e)))
  | scope, span, [] => .typeErrorAt _ _
  | scope, span, _ :: parts => by
    rw [List.map_cons, expandDef, expandDef, List.length_map]
    split
    · exact .typeErrorAt _ _
    · exact (expandDefParts_follows h scope .empty parts).bind fun _ => .of_eq rfl

theorem expandDefParts_follows (h : EvaluationFollows T e evaluate evaluate') :
    ∀ (scope bound : Scope H) (ns : List (Node H)),
      (expandDefParts evaluate scope bound ns).Follows T e (Scope.erase e)
        (expandDefParts evaluate' (Scope.erase e scope) (Scope.erase e bound)
          (ns.map (Node.erase e)))
  | scope, bound, [] => .of_eq rfl
  | scope, bound, [_] => .of_eq rfl
  | scope, bound, target :: value :: parts => by
    rw [List.map_cons, List.map_cons, expandDefParts, expandDefParts, Node.atom?_erase,
      Node.kindName_erase, Node.span_erase, Node.span_erase]
    cases target.atom? with
    | none => exact .typeErrorAt _ _
    | some name =>
      refine (expandNode_follows h scope value).bind fun x => ?_
      obtain ⟨node?, consts⟩ := x
      cases node? with
      | none => exact .typeErrorAt _ _
      | some node =>
        have hparts := expandDefParts_follows h scope (bound.insert name node) parts
        rwa [Scope.erase_insert] at hparts

theorem expandLambda_follows (h : EvaluationFollows T e evaluate evaluate') :
    ∀ (scope : Scope H) (span : Option Span) (type : Node H) (ns : List (Node H)),
      (expandLambda evaluate scope span type ns).Follows T e (Expanded.erase e)
        (expandLambda evaluate' (Scope.erase e scope) (e.span span) (e.type type)
          (ns.map (Node.erase e)))
  | scope, span, type, ns =>
    match ns, LambdaShape.of ns with
    | [head, ⟨.list params, paramsSpan, paramsType⟩, body], _ => by
      simp only [List.map_cons, List.map_nil, Node.erase_mk, Kind.erase, Node.eraseAll_eq_map]
      rw [expandLambda, expandLambda, List.isEmpty_map]
      split
      · exact .typeErrorAt _ _
      · refine (expandNode_follows h scope body).bind fun x => ?_
        obtain ⟨node?, consts⟩ := x
        cases node? with
        | none => exact .typeErrorAt _ _
        | some node =>
          refine (expandParams_follows h scope head paramsSpan span node params).bind
            fun chain => .of_eq ?_
          simp [Expanded.erase]
    | [head, params, body], .noList _ _ hparams => by
      have herased : (params.erase e).list? = none := by simpa using hparams
      simp only [List.map_cons, List.map_nil]
      rw [expandLambda_of_noList _ hparams, expandLambda_of_noList _ herased, Node.span_erase,
        Node.kindName_erase]
      exact .typeErrorAt _ _
    | ns, .notThree hlength => by
      have herased : (ns.map (Node.erase e)).length ≠ 3 := by simpa using hlength
      rw [expandLambda_of_notThree _ hlength, expandLambda_of_notThree _ herased, List.length_map]
      exact .typeErrorAt _ _

theorem expandParams_follows (h : EvaluationFollows T e evaluate evaluate') :
    ∀ (scope : Scope H) (head : Node H) (paramsSpan span : Option Span) (body : Node H)
      (ns : List (Node H)),
      (expandParams evaluate scope head paramsSpan span body ns).Follows T e (Node.erase e)
        (expandParams evaluate' (Scope.erase e scope) (head.erase e) (e.span paramsSpan)
          (e.span span) (body.erase e) (ns.map (Node.erase e)))
  | scope, head, paramsSpan, span, body, [] => .of_eq rfl
  | scope, head, paramsSpan, span, body, param :: params => by
    rw [List.map_cons, expandParams, expandParams]
    refine (expandParams_follows h scope head paramsSpan span body params).bind fun inner =>
      (expandNode_follows h scope param).bind fun x => ?_
    obtain ⟨node?, consts⟩ := x
    cases node? with
    | none =>
      rw [Node.span_erase]
      exact .typeErrorAt _ _
    | some node => exact .of_eq (by simp [chainLambda])

end

/-! ### Programs -/

theorem expandForms_follows (h : EvaluationFollows T e evaluate evaluate') (consts : Scope H)
    (forms : List (Node H)) :
    (expandForms evaluate consts forms).Follows T e (Expansion.erase e)
      (expandForms evaluate' (Scope.erase e consts) (forms.map (Node.erase e))) := by
  induction forms generalizing consts with
  | nil => exact .of_eq rfl
  | cons form forms ih =>
    rw [List.map_cons, expandForms, expandForms]
    refine (expandNode_follows h consts form).bind fun x => ?_
    have hrest := ih (consts.merge x.consts)
    rw [Scope.erase_merge] at hrest
    refine hrest.bind fun rest => .of_eq ?_
    obtain ⟨node?, consts'⟩ := x
    cases node? <;> simp [Expanded.erase, Expansion.erase]

end TypedLisp
