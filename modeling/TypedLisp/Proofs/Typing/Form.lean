import TypedLisp.Proofs.Typing.Commitment

/-!
# The forms of nodes

For inference a node is a function, another list, an atom or something that nothing is asked of.
This file says once for each form what inference does, what the rules ask and what it means that a
typing is kept to, and gives the induction over forms that all that follows goes by.
-/

namespace TypedLisp
namespace Typing

variable {H : Type}

/-- Items of a list that make it a function. -/
def IsFunction (items : List (Node H)) : Prop :=
  ∃ head params body, items = [head, params, body] ∧ head.isAtom "lambda"

/-- Induction over the nodes that inference looks at. -/
@[elab_as_elim]
theorem Node.formInduction {P : Node H → Prop}
    (function : ∀ head params body span type, head.isAtom "lambda" → P body →
      P ⟨.list [head, params, body], span, type⟩)
    (list : ∀ items span type, ¬ IsFunction items → (∀ n ∈ items, P n) →
      P ⟨.list items, span, type⟩)
    (atom : ∀ name span type, P ⟨.atom name, span, type⟩)
    (leaf : ∀ kind span type, (∀ items, kind ≠ .list items) → (∀ name, kind ≠ .atom name) →
      P ⟨kind, span, type⟩) (n : Node H) : P n := by
  induction n using Node.induction with
  | list items span type ih =>
    by_cases h : IsFunction items
    · obtain ⟨head, params, body, rfl, hhead⟩ := h
      exact function head params body span type hhead (ih body (by simp))
    · exact list items span type h ih
  | leaf kind span type hkind =>
    by_cases h : ∃ name, kind = .atom name
    · obtain ⟨name, rfl⟩ := h
      exact atom name span type
    · exact leaf kind span type hkind fun name hname => h ⟨name, hname⟩

/-! ### What inference does -/

variable {scope : Params} {head params body : Node H} {items : List (Node H)} {name : String}
  {span : Option Span} {type : Option (Node H)} {kind : Kind H} {s : Store}

lemma sketch_function (h : head.isAtom "lambda") :
    sketch scope ⟨.list [head, params, body], span, type⟩ s = (do
      let names ← Outcome.ofExcept (paramNames params)
      let (f, s) ← openLambda span (type.getD .null) names s
      let (body, s) ← sketch (f.scope names scope) body s
      closeLambda f span head params names body s) := by
  rw [sketch, if_pos h]

lemma sketch_list (h : ¬ IsFunction items) :
    sketch scope ⟨.list items, span, type⟩ s = (do
      let (ts, s) ← sketchAll scope items s
      sketchForm (items.head?.bind Node.span) span (type.getD .null) ts s) := by
  match items, h with
  | [head, params, body], h =>
    rw [sketch, if_neg fun hhead => h ⟨head, params, body, rfl, hhead⟩]
    rfl
  | [], _ | [_], _ | [_, _], _ | _ :: _ :: _ :: _ :: _, _ =>
    rw [sketch]
    simp

lemma sketch_leaf (hlist : ∀ items, kind ≠ .list items) (hatom : ∀ name, kind ≠ .atom name) :
    sketch scope ⟨kind, span, type⟩ s = sketchLeaf ⟨kind, span, type⟩ s := by
  cases kind with
  | list items => exact absurd rfl (hlist items)
  | atom name => exact absurd rfl (hatom name)
  | quoted _ | str _ | null | keyword _ | value _ | procedure _ => rfl

/-! ### What the rules ask -/

variable {τ : Node H → Option Tree} {types : Scope}

lemma wellTyped_function (h : head.isAtom "lambda") :
    WellTyped τ types ⟨.list [head, params, body], span, type⟩ ↔
      FunctionTyped τ ⟨.list [head, params, body], span, type⟩ params body ∧
        WellTyped τ (bodyScope τ params types) body := by
  rw [WellTyped, if_pos h]

lemma wellTyped_list (h : ¬ IsFunction items) :
    WellTyped τ types ⟨.list items, span, type⟩ ↔
      (∀ callee arg args, items = callee :: arg :: args →
        CallTyped τ ⟨.list items, span, type⟩ callee (arg :: args)) ∧
      ∀ n ∈ items, WellTyped τ types n := by
  have call : ∀ {callee arg : Node H} {args : List (Node H)} {P : Node H → List (Node H) → Prop},
      P callee (arg :: args) ↔ ∀ callee' arg' args',
        callee :: arg :: args = callee' :: arg' :: args' → P callee' (arg' :: args') := by
    intro callee arg args P
    refine ⟨?_, fun h => h _ _ _ rfl⟩
    rintro h _ _ _ ⟨⟩
    exact h
  match items, h with
  | [head, params, body], h =>
    rw [WellTyped, if_neg fun hhead => h ⟨head, params, body, rfl, hhead⟩]
    exact and_congr call wellTypedAll_iff
  | [], _ | [_], _ => simp [WellTyped, WellTypedAll]
  | [_, _], _ | _ :: _ :: _ :: _ :: _, _ =>
    rw [WellTyped]
    · exact and_congr call wellTypedAll_iff
    · simp

lemma wellTyped_leaf (hlist : ∀ items, kind ≠ .list items) (hatom : ∀ name, kind ≠ .atom name) :
    WellTyped τ types ⟨kind, span, type⟩ := by
  cases kind with
  | list items => exact absurd rfl (hlist items)
  | atom name => exact absurd rfl (hatom name)
  | quoted _ | str _ | null | keyword _ | value _ | procedure _ => trivial

/-! ### What it means that a typing is kept to -/

variable {head' params' body' : Node H} {items' : List (Node H)} {span' : Option Span}
  {type' : Option (Node H)}

lemma keeps_function (h : head.isAtom "lambda") :
    Keeps τ scope ⟨.list [head, params, body], span, type⟩
        ⟨.list [head', params', body'], span', type'⟩ s ↔
      ∀ names, paramNames params = .ok names →
        KeepsFunction τ (type.getD .null) names ⟨.list [head', params', body'], span', type'⟩
            (params'.list?.getD []) s ∧
          ∀ f s', openLambda span (type.getD .null) names s = .ok (f, s') →
            Keeps τ (f.scope names scope) body body' s' := by
  rw [Keeps, if_pos h]

lemma keeps_list (h : ¬ IsFunction items) :
    Keeps τ scope ⟨.list items, span, type⟩ ⟨.list items', span', type'⟩ s ↔
      KeepsAll τ scope items items' s ∧ ∀ ts s', sketchAll scope items s = .ok (ts, s') →
        KeepsForm τ (type.getD .null) ts items' s' := by
  match items, items', h with
  | [head, params, body], [head', params', body'], h =>
    rw [Keeps, if_neg fun hhead => h ⟨head, params, body, rfl, hhead⟩]
  | [_, _, _], [], _ | [_, _, _], [_], _ | [_, _, _], [_, _], _
  | [_, _, _], _ :: _ :: _ :: _ :: _, _ | [], _, _ | [_], _, _ | [_, _], _, _
  | _ :: _ :: _ :: _ :: _, _, _ =>
    rw [Keeps]
    simp

lemma keeps_leaf {m : Node H} (hlist : ∀ items, kind ≠ .list items) :
    Keeps τ scope ⟨kind, span, type⟩ m s := by
  cases kind with
  | list items => exact absurd rfl (hlist items)
  | quoted _ | atom _ | str _ | null | keyword _ | value _ | procedure _ => trivial

/-! ### Alike nodes have one form -/

variable {S : Node H → Node H → Prop} {n m : Node H} {ns ms : List (Node H)}

lemma Alike.atom?_eq (h : Alike S n m) : n.atom? = m.atom? := by
  cases h <;> rfl

lemma Alike.isAtom {name : String} (h : Alike S n m) (hn : n.isAtom name) : m.isAtom name := by
  rwa [Node.isAtom, ← h.atom?_eq]

lemma Alike.own (h : Alike S n m) : S n m := by
  cases h with
  | list h _ | leaf _ h => exact h

lemma Alike.exists_list (h : Alike S ⟨.list ns, span, type⟩ m) :
    ∃ ms type', m = ⟨.list ms, span, type'⟩ ∧ S ⟨.list ns, span, type⟩ ⟨.list ms, span, type'⟩ ∧
      List.Forall₂ (Alike S) ns ms := by
  cases h with
  | leaf hkind => exact absurd rfl (hkind ns)
  | list h items => exact ⟨_, _, rfl, h, items⟩

lemma Alike.exists_triple (h : Alike S ⟨.list [head, params, body], span, type⟩ m) :
    ∃ head' params' body' type', m = ⟨.list [head', params', body'], span, type'⟩ ∧
      S ⟨.list [head, params, body], span, type⟩ ⟨.list [head', params', body'], span, type'⟩ ∧
      Alike S head head' ∧ Alike S params params' ∧ Alike S body body' := by
  obtain ⟨ms, type', rfl, h, items⟩ := h.exists_list
  obtain ⟨head', params', body', rfl, hhead, hparams, hbody⟩ := exists_of_forall₂_triple items
  exact ⟨head', params', body', type', rfl, h, hhead, hparams, hbody⟩

lemma Alike.exists_leaf (hkind : ∀ items, kind ≠ .list items) (h : Alike S ⟨kind, span, type⟩ m) :
    ∃ type', m = ⟨kind, span, type'⟩ ∧ S ⟨kind, span, type⟩ ⟨kind, span, type'⟩ := by
  cases h with
  | list => exact absurd rfl (hkind _)
  | leaf _ h => exact ⟨_, rfl, h⟩

lemma Alike.imp {T : Node H → Node H → Prop} (hST : ∀ n m, S n m → T n m) (h : Alike S n m) :
    Alike T n m := by
  induction n using Node.induction generalizing m with
  | list items span type ih =>
    obtain ⟨ms, type', rfl, h, hitems⟩ := h.exists_list
    exact .list (hST _ _ h) (forall₂_imp_of_mem (fun n hn _ _ h => ih n hn h) hitems)
  | leaf kind span type hkind =>
    obtain ⟨type', rfl, hown⟩ := h.exists_leaf hkind
    exact .leaf hkind (hST _ _ hown)

lemma Alike.forall₂_items (h : Alike S n m) :
    List.Forall₂ (Alike S) (n.list?.getD []) (m.list?.getD []) := by
  cases h with
  | list _ items => exact items
  | @leaf kind _ _ _ hkind _ =>
    cases kind with
    | list items => exact absurd rfl (hkind items)
    | quoted _ | atom _ | str _ | null | keyword _ | value _ | procedure _ => exact .nil

lemma Alike.refl (h : ∀ n, S n n) (n : Node H) : Alike S n n := by
  induction n using Node.induction with
  | list items span type ih => exact .list (h _) (List.forall₂_same.2 ih)
  | leaf kind span type hkind => exact .leaf hkind (h _)

lemma isFunction_of_alike (h : List.Forall₂ (Alike S) ns ms) (hms : IsFunction ms) :
    IsFunction ns := by
  obtain ⟨head, params, body, rfl, hhead⟩ := hms
  obtain ⟨head', params', body', rfl, h', -⟩ := exists_of_forall₂_triple h.flip
  exact ⟨head', params', body', rfl, by rwa [Node.isAtom, h'.atom?_eq]⟩

end Typing
end TypedLisp
