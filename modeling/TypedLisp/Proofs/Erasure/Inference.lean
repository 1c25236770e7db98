import TypedLisp.Proofs.Erasure.Store
import TypedLisp.Proofs.Typing.Form

/-!
# Erasure and inference

Inference looks at types, so these have to be left; spans may be taken away.  The node that is
inferred then follows the one that is inferred with its spans: the same requests are made in the
same order, and each of them follows by the lemmas about stores.
-/

namespace TypedLisp
namespace Typing

variable {H : Type} {T : Prop} {e : Erasure}

open Outcome (Follows)

section

variable (e : Erasure)

mutual

/-- A sketch without what is taken away from its nodes. -/
def Sketch.erase : Sketch H → Sketch H
  | .leaf node v => .leaf (node.erase e) v
  | .list items span v => .list (Sketch.eraseAll items) (e.span span) v

/-- The sketches of a list without what is taken away from their nodes. -/
def Sketch.eraseAll : List (Sketch H) → List (Sketch H)
  | [] => []
  | t :: ts => Sketch.erase t :: Sketch.eraseAll ts

end

@[simp] lemma Sketch.eraseAll_eq_map (ts : List (Sketch H)) :
    Sketch.eraseAll e ts = ts.map (Sketch.erase e) := by
  induction ts with
  | nil => rfl
  | cons t ts ih => simp [Sketch.eraseAll, ih]

@[simp] lemma Sketch.var_erase (t : Sketch H) : (t.erase e).var = t.var := by
  cases t <;> rfl

lemma Sketch.map_var_erase (ts : List (Sketch H)) :
    (ts.map (Sketch.erase e)).map Sketch.var = ts.map Sketch.var := by
  simp [Function.comp_def]

/-! ### Errors -/

lemma erase_lambdaError (span : Option Span) (type : Node Empty) :
    (lambdaError span type).erase e = lambdaError (e.span span) (type.erase e) := by
  rw [lambdaError, lambdaError, Error.erase_typeAt, Node.span_erase, Node.plain_erase]
  rfl

lemma erase_calleeError (span : Option Span) (type : Node Empty) :
    (calleeError span type).erase e = calleeError (e.span span) (type.erase e) := by
  rw [calleeError, calleeError, Error.erase_typeAt, Node.span_erase, Node.plain_erase]
  rfl

end

/-! ### Requests -/

lemma paramNames_follows (params : Node H) :
    (Outcome.ofExcept (paramNames params)).Follows T e (List.map (Node.erase e))
      (Outcome.ofExcept (paramNames (params.erase e))) := by
  rw [paramNames, paramNames, Node.list?_erase, Node.span_erase]
  match params.list? with
  | none | some [] => exact .typeErrorAt _ _
  | some (p :: ps) =>
    have hfind : ((p :: ps).map (Node.erase e)).find? (fun p => p.atom?.isNone) =
        ((p :: ps).find? fun p => p.atom?.isNone).map (Node.erase e) := by
      rw [List.find?_map]
      simp only [Function.comp_def, Node.atom?_erase]
    simp only [Option.map_some, List.map_cons] at hfind ⊢
    rw [hfind]
    cases (p :: ps).find? fun p => p.atom?.isNone with
    | none => exact .of_eq rfl
    | some bad =>
      simp only [Option.map_some, Node.span_erase]
      exact .typeErrorAt _ _

lemma Lambda.scope_erase (f : Lambda) (names : List (Node H)) (scope : Params) :
    f.scope (names.map (Node.erase e)) scope = f.scope names scope := by
  simp [Lambda.scope, Function.comp_def]

lemma sketchArg_follows (arg slot : Var) (s : Store) :
    (sketchArg arg slot s).Follows T e (Prod.map id (Store.erase e))
      (sketchArg arg slot (s.erase e)) :=
  (s.unify_follows slot arg).bind fun _ => .of_eq rfl

lemma sketchCall_follows (calleeSpan span : Option Span) (type : Node H) (callee : Sketch H)
    (args : List (Sketch H)) (s : Store) :
    (sketchCall calleeSpan span type callee args s).Follows T e
      (Prod.map (Sketch.erase e) (Store.erase e))
      (sketchCall (e.span calleeSpan) (e.span span) (type.erase e) (callee.erase e)
        (args.map (Sketch.erase e)) (s.erase e)) := by
  refine (Store.intern_follows type s).bind fun p => ?_
  have hwalk := walk_follows (T := T) (g := id) (f := id) (sketchArg_follows (e := e))
    (erase_calleeError e calleeSpan) (args.map Sketch.var) [] callee.var p.2
  rw [List.map_id] at hwalk
  rw [Sketch.map_var_erase, Sketch.var_erase]
  refine hwalk.bind fun q => (Store.unify_follows q.2 _ _).bind fun s' => .of_eq ?_
  simp [Sketch.erase]

lemma sketchForm_follows (calleeSpan span : Option Span) (type : Node H) (items : List (Sketch H))
    (s : Store) :
    (sketchForm calleeSpan span type items s).Follows T e
      (Prod.map (Sketch.erase e) (Store.erase e))
      (sketchForm (e.span calleeSpan) (e.span span) (type.erase e) (items.map (Sketch.erase e))
        (s.erase e)) := by
  match items with
  | callee :: arg :: args =>
    exact sketchCall_follows calleeSpan span type callee (arg :: args) s
  | [] => exact (Store.intern_follows type s).bind fun p => .of_eq (by simp [Sketch.erase])
  | [t] => exact (Store.intern_follows type s).bind fun p => .of_eq (by simp [Sketch.erase])

section

variable (he : e.types = false)
include he

lemma type_erase_of_types (n : Node H) : (n.erase e).type = n.type.erase e := by
  simp [Erasure.type, he]

lemma erase_withType_of_types (n type : Node H) :
    (n.withType type).erase e = (n.erase e).withType (type.erase e) := by
  simp [Erasure.type, he]

lemma getD_eraseType_of_types (type : Option (Node H)) :
    (Node.eraseType e type).getD .null = (type.getD .null).erase e := by
  rw [Node.getD_eraseType, Erasure.type, if_neg (by simp [he])]

lemma sketchParam_follows (param : Node H) (slot : Var) (s : Store) :
    (sketchParam param slot s).Follows T e (Prod.map id (Store.erase e))
      (sketchParam (param.erase e) slot (s.erase e)) := by
  rw [sketchParam, sketchParam, type_erase_of_types he]
  exact (Store.intern_follows param.type s).bind fun p =>
    (Store.unify_follows p.2 _ _).bind fun _ => .of_eq rfl

lemma openLambda_follows (span : Option Span) (type : Node H) (names : List (Node H)) (s : Store) :
    (openLambda span type names s).Follows T e (Prod.map id (Store.erase e))
      (openLambda (e.span span) (type.erase e) (names.map (Node.erase e)) (s.erase e)) := by
  refine (Store.intern_follows type s).bind fun p => ?_
  refine (walk_follows (T := T) (g := id) (sketchParam_follows he) (erase_lambdaError e span) names
    [] p.1 p.2).bind fun q => .of_eq ?_
  simp

lemma closeLambda_follows (f : Lambda) (span : Option Span) (head params : Node H)
    (names : List (Node H)) (body : Sketch H) (s : Store) :
    (closeLambda f span head params names body s).Follows T e
      (Prod.map (Sketch.erase e) (Store.erase e))
      (closeLambda f (e.span span) (head.erase e) (params.erase e) (names.map (Node.erase e))
        (body.erase e) (s.erase e)) := by
  rw [closeLambda, closeLambda, type_erase_of_types he, type_erase_of_types he, Sketch.var_erase,
    Node.span_erase]
  refine (s.unify_follows body.var f.result).bind fun s => ?_
  refine (Store.intern_follows head.type s).bind fun p => ?_
  refine (Store.intern_follows params.type p.2).bind fun q => .of_eq ?_
  simp [Sketch.erase, List.map_zipWith, List.zipWith_map_left]

lemma sketchAtom_follows (scope : Params) (node : Node H) (name : String) (s : Store) :
    (sketchAtom scope node name s).Follows T e (Prod.map (Sketch.erase e) (Store.erase e))
      (sketchAtom scope (node.erase e) name (s.erase e)) := by
  rw [sketchAtom, sketchAtom, type_erase_of_types he]
  refine (Store.intern_follows node.type s).bind fun p => ?_
  cases scope.lookup name with
  | none => exact .of_eq rfl
  | some param => exact (Store.unify_follows p.2 _ _).bind fun _ => .of_eq rfl

lemma sketchLeaf_follows (node : Node H) (s : Store) :
    (sketchLeaf node s).Follows T e (Prod.map (Sketch.erase e) (Store.erase e))
      (sketchLeaf (node.erase e) (s.erase e)) := by
  rw [sketchLeaf, sketchLeaf, type_erase_of_types he]
  exact (Store.intern_follows node.type s).bind fun p => .of_eq rfl

end

/-! ### Nodes -/

lemma isFunction_map_erase {items : List (Node H)} :
    IsFunction (items.map (Node.erase e)) ↔ IsFunction items := by
  match items with
  | [head, params, body] => simp [IsFunction]
  | [] | [_] | [_, _] | _ :: _ :: _ :: _ :: _ => simp [IsFunction]

/-- Sketches follow each other in all scopes and stores. -/
def SketchFollows (T : Prop) (e : Erasure) (n : Node H) : Prop :=
  ∀ (scope : Params) (s : Store), (sketch scope n s).Follows T e
    (Prod.map (Sketch.erase e) (Store.erase e)) (sketch scope (n.erase e) (s.erase e))

lemma SketchFollows.all : ∀ {ns : List (Node H)}, (∀ n ∈ ns, SketchFollows T e n) →
    ∀ (scope : Params) (s : Store), (sketchAll scope ns s).Follows T e
      (Prod.map (List.map (Sketch.erase e)) (Store.erase e))
      (sketchAll scope (ns.map (Node.erase e)) (s.erase e))
  | [], _, _, _ => .of_eq rfl
  | n :: ns, h, scope, s => by
    rw [List.map_cons, sketchAll, sketchAll]
    exact (h n (by simp) scope s).bind fun p =>
      (SketchFollows.all (fun n hn => h n (by simp [hn])) scope p.2).bind fun q => .of_eq rfl

theorem sketchFollows (he : e.types = false) (n : Node H) : SketchFollows T e n := by
  induction n using Node.formInduction with
  | function head params body span type hhead ih =>
    intro scope s
    simp only [Node.erase_mk, Kind.erase, Node.eraseAll]
    rw [sketch_function hhead, sketch_function (by simpa using hhead), getD_eraseType_of_types he]
    refine (paramNames_follows params).bind fun names => ?_
    refine (openLambda_follows he span _ names s).bind fun p => ?_
    obtain ⟨f, s⟩ := p
    dsimp only [Prod.map, id]
    rw [Lambda.scope_erase]
    exact (ih _ s).bind fun q => closeLambda_follows he f span head params names q.1 q.2
  | list items span type hitems ih =>
    intro scope s
    rw [Node.erase_mk, Kind.erase, Node.eraseAll_eq_map, sketch_list hitems,
      sketch_list (by rwa [isFunction_map_erase]), getD_eraseType_of_types he]
    refine (SketchFollows.all ih scope s).bind fun p => ?_
    have hspan : (items.map (Node.erase e)).head?.bind Node.span =
        e.span (items.head?.bind Node.span) := by
      cases items <;> simp
    rw [hspan]
    exact sketchForm_follows _ span _ p.1 p.2
  | atom name span type =>
    intro scope s
    exact sketchAtom_follows he scope ⟨.atom name, span, type⟩ name s
  | leaf kind span type hlist hatom =>
    intro scope s
    rw [sketch_leaf hlist hatom, Node.erase_mk, sketch_leaf]
    · exact sketchLeaf_follows he ⟨kind, span, type⟩ s
    all_goals
      intro x
      cases kind <;> simp_all [Kind.erase]

mutual

theorem resolve_follows (he : e.types = false) (s : Store) : ∀ t : Sketch H,
    (t.resolve s).Follows T e (Node.erase e) ((t.erase e).resolve (s.erase e))
  | .leaf node v =>
    (s.read_follows v).bind fun type => .of_eq (erase_withType_of_types he node type)
  | .list items span v => by
    rw [Sketch.erase, Sketch.resolve, Sketch.resolve]
    refine (resolveAll_follows he s items).bind fun nodes =>
      (s.read_follows v).bind fun type => .of_eq ?_
    rw [erase_withType_of_types he, Node.erase_list]

theorem resolveAll_follows (he : e.types = false) (s : Store) : ∀ ts : List (Sketch H),
    (Sketch.resolveAll s ts).Follows T e (List.map (Node.erase e))
      (Sketch.resolveAll (s.erase e) (Sketch.eraseAll e ts))
  | [] => .of_eq rfl
  | t :: ts => by
    rw [Sketch.eraseAll, Sketch.resolveAll, Sketch.resolveAll]
    exact (resolve_follows he s t).bind fun n => (resolveAll_follows he s ts).bind fun ns =>
      .of_eq rfl

end

/-- Inference looks at no span. -/
theorem infer_follows (he : e.types = false) (n : Node H) :
    (infer n).Follows T e (Node.erase e) (infer (n.erase e)) := by
  have hsketch := sketchFollows (T := T) he n [] .empty
  rw [Store.erase_empty] at hsketch
  exact hsketch.bind fun p => resolve_follows he p.2 p.1

lemma inferAll_follows (he : e.types = false) (ns : List (Node H)) :
    (inferAll ns).Follows T e (List.map (Node.erase e)) (inferAll (ns.map (Node.erase e))) :=
  Follows.mapM _ ns fun n _ => infer_follows he n

end Typing

end TypedLisp
