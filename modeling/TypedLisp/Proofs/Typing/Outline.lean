import TypedLisp.Proofs.Typing.Form
import TypedLisp.Proofs.Typing.Growth

/-!
# Sketches and nodes

A sketch outlines the nodes that are the same but for their types.  `Sketch.Outlines P` says so,
and that `P` holds of every variable of the sketch and the node in its place: that the variable
has the type that the node was declared with, that the type of the node has been read off it, or
that the type of the node is its meaning in a model.
-/

namespace TypedLisp
namespace Typing

variable {H : Type}

/-- A sketch and a node are the same but for types, and `P` holds of the variables of the sketch
and the nodes in their places. -/
inductive Sketch.Outlines (P : Var → Node H → Prop) : Sketch H → Node H → Prop where
  | leaf {kind : Kind H} {span : Option Span} {type type' : Option (Node H)} {v : Var}
    (hkind : ∀ items, kind ≠ .list items) (h : P v ⟨kind, span, type'⟩) :
    Outlines P (.leaf ⟨kind, span, type⟩ v) ⟨kind, span, type'⟩
  | list {ts : List (Sketch H)} {ns : List (Node H)} {span : Option Span} {v : Var}
    {type : Option (Node H)} (h : P v ⟨.list ns, span, type⟩)
    (items : List.Forall₂ (Outlines P) ts ns) :
    Outlines P (.list ts span v) ⟨.list ns, span, type⟩

namespace Sketch

variable {P Q : Var → Node H → Prop} {t : Sketch H} {n m : Node H}

lemma Outlines.own (h : t.Outlines P n) : P t.var n := by
  cases h with
  | leaf _ h | list h _ => exact h

section Inversion

variable {kind : Kind H} {items : List (Node H)} {span : Option Span} {type : Option (Node H)}

lemma Outlines.exists_list (h : t.Outlines P ⟨.list items, span, type⟩) :
    ∃ ts v, t = .list ts span v ∧ P v ⟨.list items, span, type⟩ ∧
      List.Forall₂ (Outlines P) ts items := by
  cases h with
  | leaf hkind => exact absurd rfl (hkind _)
  | list h hitems => exact ⟨_, _, rfl, h, hitems⟩

lemma Outlines.exists_leaf (hkind : ∀ items, kind ≠ .list items)
    (h : t.Outlines P ⟨kind, span, type⟩) :
    ∃ type' v, t = .leaf ⟨kind, span, type'⟩ v ∧ P v ⟨kind, span, type⟩ := by
  cases h with
  | list => exact absurd rfl (hkind _)
  | leaf _ h => exact ⟨_, _, rfl, h⟩

lemma Outlines.exists_nodes {ts : List (Sketch H)} {v : Var}
    (h : (Sketch.list ts span v).Outlines P n) :
    ∃ ns type, n = ⟨.list ns, span, type⟩ ∧ P v ⟨.list ns, span, type⟩ ∧
      List.Forall₂ (Outlines P) ts ns := by
  cases h with
  | list h hitems => exact ⟨_, _, rfl, h, hitems⟩

end Inversion

lemma Outlines.imp (hPQ : ∀ v n, P v n → Q v n) (h : t.Outlines P n) : t.Outlines Q n := by
  induction n using Node.induction generalizing t with
  | list items span type ih =>
    obtain ⟨ts, v, rfl, h, hitems⟩ := h.exists_list
    exact .list (hPQ _ _ h) (forall₂_imp_of_mem (fun _ _ n hn h => ih n hn h) hitems)
  | leaf kind span type hkind =>
    obtain ⟨type', v, rfl, hown⟩ := h.exists_leaf hkind
    exact .leaf hkind (hPQ _ _ hown)

/-- Two nodes that are outlined by one sketch are alike. -/
lemma Outlines.alike {S : Node H → Node H → Prop} (hPQ : ∀ v n m, P v n → Q v m → S n m)
    (hn : t.Outlines P n) (hm : t.Outlines Q m) : Alike S n m := by
  induction n using Node.induction generalizing t m with
  | list items span type ih =>
    obtain ⟨ts, v, rfl, h, items⟩ := hn.exists_list
    cases hm with
    | list h' items' =>
      refine .list (hPQ _ _ _ h h') (forall₂_trans_of_mem ?_ items.flip items')
      exact fun n hn _ _ h h' => ih n hn h h'
  | leaf kind span type hkind =>
    obtain ⟨type', v, rfl, h⟩ := hn.exists_leaf hkind
    cases hm with
    | leaf _ h' => exact .leaf hkind (hPQ _ _ _ h h')

end Sketch

/-! ### Reading types off -/

variable {s : Store}

/-- The type that a node stores for a tree; an unknown type is not stored. -/
def Tree.stored? (t : Tree) : Option (Node H) :=
  if (t.node : Node H).isNull then none else some t.node

lemma typeTree?_of_stored? {n : Node H} {t : Tree} (h : n.type? = t.stored?) :
    typeTree? n = some t := by
  have : n.type = t.node := by
    rw [Node.type, h]
    cases t <;> rfl
  rw [typeTree?, this, tree?_node]

/-- The type of a node has been read off a variable. -/
def IsRead (s : Store) (v : Var) (n : Node H) : Prop :=
  ∃ t, s.Reads v t ∧ n.type? = t.stored?

namespace Sketch

variable {t : Sketch H} {n : Node H}

lemma resolveAll_eq_ok_iff {ts : List (Sketch H)} {ns : List (Node H)} :
    resolveAll s ts = .ok ns ↔ List.Forall₂ (fun t n => t.resolve s = .ok n) ts ns := by
  induction ts generalizing ns with
  | nil => simp [resolveAll, eq_comm]
  | cons t ts ih =>
    rw [resolveAll]
    constructor
    · intro h
      obtain ⟨m, hm, h⟩ := Except.exists_of_bind_eq_ok h
      obtain ⟨ms, hms, h⟩ := Except.exists_of_bind_eq_ok h
      obtain rfl := Except.ok.inj h
      exact .cons hm (ih.1 hms)
    · rintro (_ | ⟨hm, hms⟩)
      simp only [hm, ih.2 hms, bind, Except.bind, pure, Except.pure]

/-- What a sketch is resolved to is outlined by it and has the types that are read off. -/
theorem resolve_eq_ok_iff (hs : s.Closed) {P : Var → Node H → Prop} (hn : t.Outlines P n)
    {m : Node H} : t.resolve s = .ok m ↔ t.Outlines (IsRead s) m := by
  induction n using Node.induction generalizing t m with
  | list items span type ih =>
    obtain ⟨ts, v, rfl, -, hitems⟩ := hn.exists_list
    -- the statement of the induction speaks of nodes: each part of the sketch outlines one
    have hsub : ∀ ms, resolveAll s ts = .ok ms ↔ List.Forall₂ (Outlines (IsRead s)) ts ms := by
      intro ms
      rw [resolveAll_eq_ok_iff]
      have hiff : ∀ t ∈ ts, ∀ m, t.resolve s = .ok m ↔ t.Outlines (IsRead s) m := by
        intro t ht m
        obtain ⟨n, hn, h⟩ := exists_right_of_forall₂ hitems ht
        exact ih n hn h
      constructor
      · exact forall₂_imp_of_mem fun t ht m _ => (hiff t ht m).1
      · exact forall₂_imp_of_mem fun t ht m _ => (hiff t ht m).2
    rw [resolve]
    constructor
    · intro h
      obtain ⟨ms, hms, h⟩ := Except.exists_of_bind_eq_ok h
      obtain ⟨_, hv, h⟩ := Except.exists_of_bind_eq_ok h
      obtain rfl := Except.ok.inj h
      obtain ⟨u, hu, rfl⟩ := (Store.read_eq_ok_iff hs).1 hv
      exact .list ⟨u, hu, rfl⟩ ((hsub ms).1 hms)
    · rintro (_ | ⟨⟨u, hu, rfl⟩, items⟩)
      simp only [(hsub _).2 items, (Store.read_eq_ok_iff hs).2 ⟨u, hu, rfl⟩, bind, Except.bind,
        pure, Except.pure]
      rfl
  | leaf kind span type hkind =>
    obtain ⟨type', v, rfl, -⟩ := hn.exists_leaf hkind
    rw [resolve]
    constructor
    · intro h
      obtain ⟨_, hv, h⟩ := Except.exists_of_bind_eq_ok h
      obtain rfl := Except.ok.inj h
      obtain ⟨u, hu, rfl⟩ := (Store.read_eq_ok_iff hs).1 hv
      exact .leaf hkind ⟨u, hu, rfl⟩
    · rintro (⟨-, u, hu, rfl⟩ | _)
      simp only [(Store.read_eq_ok_iff hs).2 ⟨u, hu, rfl⟩, bind, Except.bind, pure, Except.pure]
      rfl

end Sketch
end Typing
end TypedLisp
