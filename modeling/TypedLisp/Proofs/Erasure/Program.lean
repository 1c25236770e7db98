import TypedLisp.Program
import TypedLisp.Proofs.Erasure.Evaluation
import TypedLisp.Proofs.Erasure.Inference

/-!
# Erasure and programs

What becomes of the forms of a source follows from stage to stage.  Up to its expansion, and again
in its evaluation, a program does without spans and types; inference and the export of an interface
need types.  The lines that are shown of a program hold no spans.
-/

namespace TypedLisp

variable {H α β γ δ : Type} {T : Prop} {e : Erasure}

open Outcome (Follows)

/-! ### Interfaces -/

section

variable (e : Erasure)

/-- An exported function without what is taken away from its types and its body. -/
def FunctionDecl.erase (f : FunctionDecl H) : FunctionDecl H :=
  { f with
    params := f.params.map fun p => (p.1, p.2.erase e)
    ret := f.ret.erase e
    body := f.body.erase e }

/-- An interface without what is taken away from its functions. -/
def Interface.erase (i : Interface H) : Interface H :=
  { i with functions := i.functions.map (FunctionDecl.erase e) }

lemma FunctionDecl.line_erase (f : FunctionDecl H) : (f.erase e).line = f.line := by
  simp [FunctionDecl.line, FunctionDecl.erase, Function.comp_def]

mutual

theorem Node.isResolved_erase : ∀ n : Node H, (n.erase e).isResolved = n.isResolved
  | ⟨.list items, _, _⟩ => Node.allResolved_eraseAll items
  | ⟨.null, _, _⟩ | ⟨.quoted _, _, _⟩ | ⟨.atom _, _, _⟩ | ⟨.str _, _, _⟩ | ⟨.keyword _, _, _⟩
  | ⟨.value _, _, _⟩ | ⟨.procedure _, _, _⟩ => rfl

theorem Node.allResolved_eraseAll : ∀ ns : List (Node H),
    Node.allResolved (Node.eraseAll e ns) = Node.allResolved ns
  | [] => rfl
  | n :: ns => by
    rw [Node.eraseAll, Node.allResolved, Node.allResolved, Node.isResolved_erase n,
      Node.allResolved_eraseAll ns]

end

end

/-- The chain of a function goes on with the body of a literal function. -/
lemma declareChain_eq (name : String) (n : Node H) :
    declareChain name n = match n.lambda? with
      | some (params, body) => do
        let own ← params.mapM (declareParam name)
        let (inner, innermost) ← declareChain name body
        return (own ++ inner, innermost)
      | none => .ok ([], n) := by
  obtain ⟨kind, span, type⟩ := n
  match kind with
  | .list [head, ⟨.list params, paramsSpan, paramsType⟩, body] =>
    rw [declareChain]
    cases h : head.isAtom "lambda" <;> simp [Node.lambda?, Node.list?, h]
  | .list [head, ⟨.quoted _, _, _⟩, _] | .list [head, ⟨.atom _, _, _⟩, _]
  | .list [head, ⟨.str _, _, _⟩, _] | .list [head, ⟨.null, _, _⟩, _]
  | .list [head, ⟨.keyword _, _, _⟩, _] | .list [head, ⟨.value _, _, _⟩, _]
  | .list [head, ⟨.procedure _, _, _⟩, _] =>
    rw [declareChain]
    · cases h : head.isAtom "lambda" <;> simp [Node.lambda?, Node.list?, h]
    all_goals simp
  | .list [] | .list [_] | .list [_, _] | .list (_ :: _ :: _ :: _ :: _)
  | .quoted _ | .atom _ | .str _ | .null | .keyword _ | .value _ | .procedure _ =>
    rw [declareChain]
    · rfl
    all_goals simp

lemma Node.exists_of_lambda? {n body : Node H} {params : List (Node H)}
    (h : n.lambda? = some (params, body)) : ∃ head paramsSpan paramsType span type,
      n = ⟨.list [head, ⟨.list params, paramsSpan, paramsType⟩, body], span, type⟩ ∧
        head.isAtom "lambda" := by
  obtain ⟨kind, span, type⟩ := n
  unfold Node.lambda? at h
  split at h
  · next head params' body' hkind =>
    obtain rfl : kind = .list [head, params', body'] := hkind
    split at h
    · next hhead =>
      obtain ⟨ps, hps, heq⟩ := Option.map_eq_some_iff.1 h
      obtain ⟨rfl, rfl⟩ := Prod.mk.inj heq
      obtain ⟨paramsKind, paramsSpan, paramsType⟩ := params'
      cases paramsKind with
      | list qs =>
        obtain rfl : qs = ps := Option.some.inj hps
        exact ⟨head, paramsSpan, paramsType, span, type, rfl, hhead⟩
      | _ => cases hps
    · cases h
  · cases h

/-- A node that is no list is no function. -/
lemma Node.lambda?_eq_none {kind : Kind H} {span : Option Span} {type : Option (Node H)}
    (hkind : ∀ items, kind ≠ .list items) : (⟨kind, span, type⟩ : Node H).lambda? = none := by
  cases kind <;> first | rfl | exact absurd rfl (hkind _)

lemma exists_items_of_lambda? {n body : Node H} {params : List (Node H)}
    (h : n.lambda? = some (params, body)) : ∃ items, n.list? = some items ∧ body ∈ items := by
  obtain ⟨head, paramsSpan, paramsType, span, type, rfl, -⟩ := Node.exists_of_lambda? h
  exact ⟨_, rfl, by simp⟩

section

variable (he : e.types = false)
include he

lemma resolvedType_follows (name what : String) (part : Node H) :
    (Outcome.ofExcept (resolvedType name what part)).Follows T e (Node.erase e)
      (Outcome.ofExcept (resolvedType name what (part.erase e))) := by
  rw [resolvedType, resolvedType, Typing.type_erase_of_types he, Node.isResolved_erase,
    Node.plain_erase, Node.span_erase]
  split
  · exact .of_eq rfl
  · exact .typeErrorAt _ _

lemma declareParam_follows (name : String) (param : Node H) :
    (Outcome.ofExcept (declareParam name param)).Follows T e (Prod.map id (Node.erase e))
      (Outcome.ofExcept (declareParam name (param.erase e))) := by
  rw [declareParam, declareParam, Node.atom?_erase, Node.span_erase]
  cases param.atom? with
  | none => exact .typeErrorAt _ _
  | some p =>
    exact (resolvedType_follows he name _ param).bindExcept fun type => .of_eq rfl

theorem declareChain_follows (name : String) (n : Node H) :
    (Outcome.ofExcept (declareChain name n)).Follows T e
      (Prod.map (List.map (Prod.map id (Node.erase e))) (Node.erase e))
      (Outcome.ofExcept (declareChain name (n.erase e))) := by
  induction n using Node.induction with
  | leaf kind span type hkind =>
    rw [declareChain_eq, declareChain_eq name (Node.erase e _), Node.lambda?_erase,
      Node.lambda?_eq_none hkind]
    exact .of_eq rfl
  | list items span type ih =>
    rw [declareChain_eq, declareChain_eq name (Node.erase e _), Node.lambda?_erase]
    cases hlambda : (⟨.list items, span, type⟩ : Node H).lambda? with
    | none => exact .of_eq rfl
    | some f =>
      obtain ⟨params, body⟩ := f
      obtain ⟨items', hitems, hbody⟩ := exists_items_of_lambda? hlambda
      obtain rfl : items = items' := Option.some.inj hitems
      refine (Follows.mapMExcept _ params fun p _ => declareParam_follows he name p).bindExcept
        fun own => (ih body hbody).bindExcept fun x => .of_eq ?_
      simp

lemma declare_follows (name : String) (lambda : Node H) :
    (Outcome.ofExcept (declare name lambda)).Follows T e (FunctionDecl.erase e)
      (Outcome.ofExcept (declare name (lambda.erase e))) :=
  (declareChain_follows he name lambda).bindExcept fun x =>
    (resolvedType_follows he name _ x.2).bindExcept fun _ => .of_eq rfl

lemma ofConsts_follows (name : String) (consts : Scope H) :
    (Outcome.ofExcept (Interface.ofConsts name consts)).Follows T e (Interface.erase e)
      (Outcome.ofExcept (Interface.ofConsts name (Scope.erase e consts))) := by
  have hfilter : (Scope.erase e consts).entries.filter (fun p => p.2.isLambda) =
      (consts.entries.filter fun p => p.2.isLambda).map fun p => (p.1, p.2.erase e) := by
    simp [Scope.erase, Bindings.map, List.filter_map, Function.comp_def]
  rw [Interface.ofConsts, Interface.ofConsts, hfilter]
  exact (Follows.mapMExcept _ _ fun p _ => declare_follows he p.1 p.2).bindExcept
    fun functions => .of_eq rfl

/-! ### Inference of programs -/

lemma typecheck_follows (program : Expansion H) :
    (typecheck program).Follows T e (Expansion.erase e) (typecheck (program.erase e)) := by
  have hconsts := Follows.mapMBindings (T := T) (f := Node.erase e) (Typing.infer_follows he)
    program.consts
  exact hconsts.bind fun consts =>
    (Typing.inferAll_follows he program.forms).bind fun forms => .of_eq rfl

end

/-! ### Stages -/

/-- What a stage makes of the forms of a source. -/
def renderForms (depth : Nat) (forms : List (Node Empty)) (moduleName : String) (stage : Stage)
    (types : Bool) : Outcome (List String) := do
  let program ← expandProgram depth .empty forms
  match stage with
  | .expand => return program.forms.map fun n => n.print types
  | .infer =>
    let checked ← typecheck program
    return checked.forms.map fun n => n.print types
  | .interface =>
    let checked ← typecheck program
    let interface ← Outcome.ofExcept (Interface.ofConsts moduleName checked.consts)
    return interface.functions.map FunctionDecl.line
  | .eval =>
    let checked ← typecheck program
    let values ← checked.forms.mapM (evaluate depth (prelude.merge checked.consts))
    return values.map fun n => n.print types

lemma render_eq (depth : Nat) (source moduleName : String) (stage : Stage) (types : Bool) :
    render depth source moduleName stage types =
      Outcome.ofExcept (read source) >>= fun forms =>
        renderForms depth forms moduleName stage types := by
  cases stage <;> simp only [render, renderForms, run, checkSource, expandSource, bind_assoc]

/-- What is shown of a program follows from its forms, where types are left. -/
theorem renderForms_follows (he : e.types = false) {depth depth' : Nat}
    (h : depth = depth' ∨ depth ≤ depth' ∧ T) (forms : List (Node Empty)) (moduleName : String)
    (stage : Stage) (types : Bool) :
    (renderForms depth forms moduleName stage types).Follows T e id
      (renderForms depth' (forms.map (Node.erase e)) moduleName stage types) := by
  have hevaluate := evaluate_follows (T := T) (e := e) Host.isBlind_empty h
  have hlines : ∀ ns : List (Node Empty), (ns.map fun n => n.print types) =
      (ns.map (Node.erase e)).map fun n => n.print types := by
    intro ns
    simp [Function.comp_def, Node.print_erase e (.inr he)]
  refine (expandForms_follows hevaluate .empty forms).bind fun program => ?_
  cases stage with
  | expand => exact .of_eq (hlines program.forms)
  | infer => exact (typecheck_follows he program).bind fun checked => .of_eq (hlines checked.forms)
  | interface =>
    refine (typecheck_follows he program).bind fun checked => ?_
    refine (ofConsts_follows he moduleName checked.consts).bind fun interface => .of_eq ?_
    simp [Interface.erase, Function.comp_def, FunctionDecl.line_erase]
  | eval =>
    refine (typecheck_follows he program).bind fun checked => ?_
    have henv := hevaluate (prelude.merge checked.consts)
    rw [Scope.erase_merge, Scope.erase_prelude] at henv
    exact (Follows.mapM _ checked.forms fun n _ => henv n).bind fun values => .of_eq (hlines values)

end TypedLisp
