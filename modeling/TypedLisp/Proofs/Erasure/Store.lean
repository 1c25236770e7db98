import TypedLisp.Proofs.Erasure.Outcome
import TypedLisp.Typing.Arrow

/-!
# Erasure and the store of types

The cells of a store hold spans, and what is known of types does not depend on them.  Every
operation on a store from which something is taken away follows the operation on the store itself:
it finds the same classes, merges the same ones and fails for the same reason.  In particular the
choice of a span in a merge has no effect but on spans.
-/

namespace TypedLisp

variable {H α β γ δ : Type} {T : Prop} {e : Erasure}

open Outcome (Follows)

lemma Outcome.Follows.anyM {p q : α → Outcome Bool} :
    ∀ xs : List α, (∀ a ∈ xs, (p a).Follows T e id (q a)) →
      (xs.anyM p).Follows T e id (xs.anyM q)
  | [], _ => .answer false
  | a :: xs, h => by
    rw [List.anyM, List.anyM]
    refine (h a (by simp)).bind fun b => ?_
    cases b
    · exact anyM xs fun a ha => h a (by simp [ha])
    · exact .answer true

namespace Typing

section

variable (e : Erasure)

/-- A cell without what is taken away. -/
def Cell.erase : Cell → Cell
  | .unknown => .unknown
  | .aliasOf rep => .aliasOf rep
  | .atom name span => .atom name (e.span span)
  | .list items span => .list items (e.span span)

/-- A store without what is taken away from its cells. -/
def Store.erase (s : Store) : Store :=
  ⟨s.cells.map (Cell.erase e)⟩

/-- A merge without what is taken away from its cell. -/
def Merge.erase (m : Merge) : Merge :=
  { m with cell := m.cell.erase e }

@[simp] lemma Cell.isAlias_erase (c : Cell) : (c.erase e).isAlias = c.isAlias := by
  cases c <;> rfl

lemma Cell.erase_redirect (keep drop : Var) (c : Cell) :
    (c.redirect keep drop).erase e = (c.erase e).redirect keep drop := by
  cases c <;> rfl

namespace Store

lemma erase_empty : empty.erase e = empty := by
  simp [erase, empty]

lemma size_cells_erase (s : Store) : (s.erase e).cells.size = s.cells.size := by
  simp [erase]

lemma getElem?_erase (s : Store) (v : Var) :
    (s.erase e).cells[v]? = (s.cells[v]?).map (Cell.erase e) := by
  simp [erase]

lemma push_erase (s : Store) (c : Cell) :
    (s.erase e).push (c.erase e) = ((s.push c).1, (s.push c).2.erase e) := by
  simp [push, erase]

@[simp] lemma root_erase (s : Store) (v : Var) : (s.erase e).root v = s.root v := by
  rw [root, root, getElem?_erase]
  rcases s.cells[v]? with _ | _ | _ | _ | _ <;> rfl

@[simp] lemma cell_erase (s : Store) (v : Var) : (s.erase e).cell v = (s.cell v).erase e := by
  rw [cell, cell, root_erase, Array.getD_eq_getD_getElem?, Array.getD_eq_getD_getElem?,
    getElem?_erase]
  cases s.cells[s.root v]? <;> rfl

@[simp] lemma isRoot_erase (s : Store) (v : Var) : (s.erase e).isRoot v = s.isRoot v := by
  rw [isRoot, isRoot, getElem?_erase]
  cases s.cells[v]? <;> simp

lemma erase_merge (s : Store) (keep drop : Var) (c : Cell) :
    (s.merge keep drop c).erase e = (s.erase e).merge keep drop (c.erase e) := by
  have hredirect : Cell.erase e ∘ Cell.redirect keep drop =
      Cell.redirect keep drop ∘ Cell.erase e := funext (Cell.erase_redirect e keep drop)
  simp only [merge, erase, Array.map_setIfInBounds, Array.map_map, hredirect]
  rfl

end Store

end

/-! ### Types in and out of a store -/

namespace Store

mutual

theorem intern_follows : ∀ (n : Node H) (s : Store),
    (intern n s).Follows T e (Prod.map id (Store.erase e)) (intern (n.erase e) (s.erase e))
  | ⟨.null, _, _⟩, s => .of_eq (push_erase e s .unknown).symm
  | ⟨.atom name, span, _⟩, s => .of_eq (push_erase e s (.atom name span)).symm
  | ⟨.list items, span, _⟩, s => by
    rw [Node.erase, Kind.erase, intern, intern]
    refine (internAll_follows items s).bind fun p => .of_eq ?_
    exact (push_erase e p.2 (.list p.1 span)).symm
  | ⟨.quoted _, _, _⟩, s | ⟨.str _, _, _⟩, s | ⟨.keyword _, _, _⟩, s | ⟨.value _, _, _⟩, s
  | ⟨.procedure _, _, _⟩, s => .typeErrorAt _ _

theorem internAll_follows : ∀ (ns : List (Node H)) (s : Store),
    (internAll ns s).Follows T e (Prod.map id (Store.erase e))
      (internAll (Node.eraseAll e ns) (s.erase e))
  | [], s => .of_eq rfl
  | n :: ns, s => by
    rw [Node.eraseAll, internAll, internAll]
    exact (intern_follows n s).bind fun p => (internAll_follows ns p.2).bind fun q => .of_eq rfl

end

lemma readTo_follows (s : Store) (depth : Nat) (v : Var) :
    (s.readTo (H := H) depth v).Follows T e (Node.erase e) ((s.erase e).readTo depth v) := by
  induction depth generalizing v with
  | zero => exact .endless
  | succ depth ih =>
    rw [readTo, readTo, cell_erase]
    cases s.cell v with
    | unknown | aliasOf rep => exact .of_eq (Node.erase_null e)
    | atom name span => exact .of_eq rfl
    | list items span =>
      have hitems := Follows.mapM (T := T) (e := e) id items fun v _ => ih v
      rw [List.map_id] at hitems
      exact hitems.bind fun nodes => .of_eq (Node.erase_list e nodes span)

lemma read_follows (s : Store) (v : Var) :
    (s.read (H := H) v).Follows T e (Node.erase e) ((s.erase e).read v) := by
  rw [read, read, size_cells_erase]
  exact s.readTo_follows _ v

lemma occursTo_follows (s : Store) (r : Var) (depth : Nat) (v : Var) :
    (s.occursTo r depth v).Follows T e id ((s.erase e).occursTo r depth v) := by
  induction depth generalizing v with
  | zero => exact .endless
  | succ depth ih =>
    rw [occursTo, occursTo, root_erase, cell_erase]
    split
    · exact .of_eq rfl
    · cases s.cell v with
      | list items span => exact Follows.anyM items fun v _ => ih v
      | unknown | aliasOf rep | atom name span => exact .of_eq rfl

lemma occurs_follows (s : Store) (r v : Var) :
    (s.occurs r v).Follows T e id ((s.erase e).occurs r v) := by
  rw [occurs, occurs, size_cells_erase]
  exact s.occursTo_follows r _ v

/-! ### Unification -/

lemma planBind_follows (s : Store) (r v : Var) (c : Cell) :
    (s.planBind r v c).Follows T e (Merge.erase e) ((s.erase e).planBind r v (c.erase e)) := by
  refine (s.occurs_follows r v).bind fun b => ?_
  cases b
  · exact .of_eq rfl
  · refine (s.read_follows v).bind fun type => ?_
    rw [Node.span_erase, Node.plain_erase]
    exact .typeErrorAt _ _

lemma plan_follows (s : Store) (x y : Var) :
    (s.plan x y).Follows T e (Merge.erase e) ((s.erase e).plan x y) := by
  have hother : (do
      let left : Node Empty ← s.read x
      let right : Node Empty ← s.read y
      Outcome.typeError (α := Merge) [left.span, right.span]
        (.mismatch left.plain right.plain)).Follows T e (Merge.erase e) (do
      let left : Node Empty ← (s.erase e).read x
      let right : Node Empty ← (s.erase e).read y
      Outcome.typeError [left.span, right.span] (.mismatch left.plain right.plain)) := by
    refine (s.read_follows x).bind fun left => (s.read_follows y).bind fun right => ?_
    rw [Node.span_erase, Node.span_erase, Node.plain_erase, Node.plain_erase]
    exact .typeError [_, _] _
  unfold plan
  rw [cell_erase, cell_erase]
  cases s.cell x with
  | unknown => exact s.planBind_follows x y _
  | aliasOf rep =>
    cases s.cell y with
    | unknown => exact s.planBind_follows y x _
    | aliasOf rep' | atom m sy | list ys sy => exact hother
  | atom n sx =>
    cases s.cell y with
    | unknown => exact s.planBind_follows y x _
    | aliasOf rep' | list ys sy => exact hother
    | atom m sy =>
      dsimp only [Cell.erase]
      split
      · exact .of_eq (by simp [Merge.erase, Cell.erase, Erasure.span_or])
      · exact .typeError [_, _] _
  | list xs sx =>
    cases s.cell y with
    | unknown => exact s.planBind_follows y x _
    | aliasOf rep' | atom m sy => exact hother
    | list ys sy =>
      dsimp only [Cell.erase]
      split
      · exact .of_eq (by simp [Merge.erase, Cell.erase, Erasure.span_or])
      · exact .typeError [_, _] _

/-- The pairs whose classes have to be merged. -/
def NeedsMerge (s : Store) (a b : Var) : Prop :=
  s.root a ≠ s.root b ∧ s.isRoot (s.root a) ∧ s.isRoot (s.root b)

lemma needsMerge_erase {s : Store} {a b : Var} : (s.erase e).NeedsMerge a b ↔ s.NeedsMerge a b := by
  simp [NeedsMerge]

lemma unifyAll_of_needsMerge {s : Store} {a b : Var} (h : s.NeedsMerge a b)
    (pairs : List (Var × Var)) :
    s.unifyAll ((a, b) :: pairs) = s.plan (s.root a) (s.root b) >>= fun m =>
      (s.merge m.keep m.drop m.cell).unifyAll (m.parts ++ pairs) := by
  unfold NeedsMerge at h
  rw [unifyAll, dif_pos h]
  split
  · next err he => rw [he]; rfl
  · next m hm => rw [hm]; rfl

lemma unifyAll_of_not_needsMerge {s : Store} {a b : Var} (h : ¬ s.NeedsMerge a b)
    (pairs : List (Var × Var)) : s.unifyAll ((a, b) :: pairs) = s.unifyAll pairs := by
  unfold NeedsMerge at h
  rw [unifyAll, dif_neg h]

/-- Unification takes the same steps whatever is taken away. -/
theorem unifyAll_follows (s : Store) (pairs : List (Var × Var)) :
    (s.unifyAll pairs).Follows T e (Store.erase e) ((s.erase e).unifyAll pairs) := by
  match pairs with
  | [] =>
    rw [unifyAll, unifyAll]
    exact .of_eq rfl
  | (a, b) :: pairs =>
    by_cases h : s.NeedsMerge a b
    · rw [unifyAll_of_needsMerge h, unifyAll_of_needsMerge (needsMerge_erase.2 h), root_erase,
        root_erase]
      refine (s.plan_follows _ _).bind_of_eq fun m hm => ?_
      have hlt : (s.merge m.keep m.drop m.cell).weight + (m.parts.length + pairs.length) <
          s.weight + (pairs.length + 1) := by
        rw [← List.length_append]
        exact weight_merge_plan_lt pairs h hm
      have hrest := unifyAll_follows (s.merge m.keep m.drop m.cell) (m.parts ++ pairs)
      rwa [erase_merge] at hrest
    · rw [unifyAll_of_not_needsMerge h,
        unifyAll_of_not_needsMerge ((not_congr needsMerge_erase).2 h)]
      exact unifyAll_follows s pairs
termination_by s.weight + pairs.length

lemma unify_follows (s : Store) (a b : Var) :
    (s.unify a b).Follows T e (Store.erase e) ((s.erase e).unify a b) :=
  unifyAll_follows s [(a, b)]

/-! ### Arrows -/

lemma pushUnknowns_erase (s : Store) (n : Nat) :
    (s.erase e).pushUnknowns n = ((s.pushUnknowns n).1, (s.pushUnknowns n).2.erase e) := by
  induction n generalizing s with
  | zero => rfl
  | succ n ih =>
    have hpush : (s.erase e).push .unknown = ((s.push .unknown).1, (s.push .unknown).2.erase e) :=
      push_erase e s .unknown
    simp only [pushUnknowns, hpush, ih]

lemma pushArrow_erase (s : Store) (types : List Var) :
    (s.erase e).pushArrow types = ((s.pushArrow types).1, (s.pushArrow types).2.erase e) := by
  have hhead := push_erase e s (.atom Node.arrowName none)
  have hlist := push_erase e (s.push (.atom Node.arrowName none)).2
    (.list ((s.push (.atom Node.arrowName none)).1 :: types) none)
  simp only [Cell.erase, Erasure.span_none] at hhead hlist
  simp only [pushArrow, hhead, hlist]

lemma pushUnknownArrow_erase (s : Store) (n : Nat) :
    (s.erase e).pushUnknownArrow n =
      ((s.pushUnknownArrow n).1, (s.pushUnknownArrow n).2.erase e) := by
  simp only [pushUnknownArrow, pushUnknowns_erase, pushArrow_erase]

@[simp] lemma arrow?_erase (s : Store) (v : Var) : (s.erase e).arrow? v = s.arrow? v := by
  rw [arrow?, arrow?, cell_erase]
  rcases s.cell v with _ | _ | _ | ⟨_ | ⟨head, tail⟩, span⟩ <;>
    simp only [Cell.erase]
  rw [cell_erase]
  cases s.cell head <;> rfl

lemma expectArrow_follows (s : Store) (v : Var) (arity : Nat) :
    (s.expectArrow v arity).Follows T e (Prod.map id (Store.erase e))
      ((s.erase e).expectArrow v arity) := by
  rw [expectArrow, expectArrow, cell_erase]
  cases s.cell v with
  | unknown =>
    simp only [Cell.erase, pushUnknownArrow_erase, root_erase]
    refine (unify_follows _ _ _).bind fun s' => .of_eq ?_
    simp
  | aliasOf | atom | list => exact .of_eq (by simp)

end Store

/-! ### Walks -/

lemma walk_follows {each : α → Var → Store → Outcome (β × Store)}
    {each' : γ → Var → Store → Outcome (δ × Store)} {f : α → γ} {g : β → δ}
    {notArrow notArrow' : Node Empty → Error}
    (heach : ∀ a v s, (each a v s).Follows T e (Prod.map g (Store.erase e))
      (each' (f a) v (s.erase e)))
    (hnotArrow : ∀ type, (notArrow type).erase e = notArrow' (type.erase e)) :
    ∀ (args : List α) (slots : List Var) (result : Var) (s : Store),
      (walk each notArrow args slots result s).Follows T e
        (Prod.map (Prod.map (List.map g) id) (Store.erase e))
        (walk each' notArrow' (args.map f) slots result (s.erase e))
  | [], [], result, s => .of_eq rfl
  | [], slot :: slots, result, s => by
    rw [List.map_nil, walk, walk, Store.pushArrow_erase]
    exact .of_eq rfl
  | arg :: args, slot :: slots, result, s => by
    rw [List.map_cons, walk, walk]
    exact (heach arg slot s).bind fun p =>
      (walk_follows heach hnotArrow args slots result p.2).bind fun q => .of_eq rfl
  | arg :: args, [], result, s => by
    rw [List.map_cons, walk, walk, List.length_map]
    refine (s.expectArrow_follows result _).bind fun p => ?_
    obtain ⟨arrow?, s⟩ := p
    cases arrow? with
    | none => exact (s.read_follows result).bind fun type => .raise (hnotArrow type)
    | some arrow =>
      exact (heach arg arrow.first s).bind fun p =>
        (walk_follows heach hnotArrow args arrow.rest arrow.result p.2).bind fun q => .of_eq rfl

end Typing

end TypedLisp
