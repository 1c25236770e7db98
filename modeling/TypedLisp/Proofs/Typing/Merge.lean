import TypedLisp.Proofs.Typing.Tree

/-!
# Merges of two types

Two partial types merge place by place.  Where one of them is unknown the merge is the other one;
two atoms merge if they are of one name, and two lists if they have the same number of items, which
merge one by one.  A part that both sides know has the span that the left side gives it, if it
gives one, and else that of the right side.

Merging is idempotent and associative, spans included, and but for spans it is commutative.
-/

namespace TypedLisp
namespace Typing
namespace Tree

mutual

/-- The merge of two types, if they agree in all that both of them know. -/
def merge : Tree → Tree → Option Tree
  | unknown, u => some u
  | t, unknown => some t
  | atom name span, atom name' span' =>
    if name = name' then some (atom name (span.or span')) else none
  | list items span, list items' span' => (mergeAll items items').map (list · (span.or span'))
  | _, _ => none

/-- The merges of as many types, one by one. -/
def mergeAll : List Tree → List Tree → Option (List Tree)
  | [], [] => some []
  | t :: ts, u :: us => (merge t u).bind fun m => (mergeAll ts us).map (m :: ·)
  | _, _ => none

end

variable {t u v : Tree} {ts us vs : List Tree}

@[simp] lemma unknown_merge : unknown.merge u = some u := rfl

@[simp] lemma merge_unknown : t.merge unknown = some t := by
  cases t <;> rfl

@[simp] lemma atom_merge_atom {name name' : String} {span span' : Option Span} :
    (atom name span).merge (atom name' span') =
      if name = name' then some (atom name (span.or span')) else none := rfl

@[simp] lemma list_merge_list {span span' : Option Span} :
    (list ts span).merge (list us span') = (mergeAll ts us).map (list · (span.or span')) := rfl

@[simp] lemma atom_merge_list {name : String} {span span' : Option Span} :
    (atom name span).merge (list us span') = none := rfl

@[simp] lemma list_merge_atom {name : String} {span span' : Option Span} :
    (list ts span).merge (atom name span') = none := rfl

@[simp] lemma mergeAll_nil : mergeAll [] [] = some [] := rfl

@[simp] lemma mergeAll_cons : mergeAll (t :: ts) (u :: us) =
    (t.merge u).bind fun m => (mergeAll ts us).map (m :: ·) := rfl

@[simp] lemma nil_mergeAll_cons : mergeAll [] (u :: us) = none := rfl

@[simp] lemma cons_mergeAll_nil : mergeAll (t :: ts) [] = none := rfl

lemma mergeAll_eq_none_of_length_ne (h : ts.length ≠ us.length) : mergeAll ts us = none := by
  induction ts generalizing us with
  | nil =>
    cases us with
    | nil => exact absurd rfl h
    | cons u us => exact nil_mergeAll_cons
  | cons t ts ih =>
    cases us with
    | nil => exact cons_mergeAll_nil
    | cons u us =>
      rw [mergeAll_cons, ih fun hlen => h (congrArg Nat.succ hlen)]
      exact Option.bind_fun_none _

/-! ### Laws -/

/-- A type merges with itself, and nothing is new. -/
theorem merge_self (t : Tree) : t.merge t = some t := by
  have span_or : ∀ span : Option Span, span.or span = span := fun span => by cases span <;> rfl
  induction t using Tree.induction with
  | unknown => exact unknown_merge
  | atom name span => rw [atom_merge_atom, if_pos rfl, span_or]
  | list items span ih =>
    have hitems : mergeAll items items = some items := by
      induction items with
      | nil => exact mergeAll_nil
      | cons t ts ihs =>
        obtain ⟨ht, hts⟩ := List.forall_mem_cons.1 ih
        rw [mergeAll_cons, ht, ihs hts]
        rfl
    rw [list_merge_list, hitems, span_or]
    rfl

lemma map_bare_mergeAll_cons :
    (mergeAll (t :: ts) (u :: us)).map (List.map bare) = ((t.merge u).map bare).bind fun m =>
      ((mergeAll ts us).map (List.map bare)).map (m :: ·) := by
  rw [mergeAll_cons]
  cases t.merge u <;> cases mergeAll ts us <;> rfl

lemma map_bare_map_list {span : Option Span} {ms : Option (List Tree)} :
    (ms.map (list · span)).map bare = (ms.map (List.map bare)).map (list · none) := by
  cases ms <;> simp

/-- Which side is which matters for nothing but the spans of the merge. -/
theorem map_bare_merge_comm (t u : Tree) : (t.merge u).map bare = (u.merge t).map bare := by
  induction t using Tree.induction generalizing u with
  | unknown => rw [unknown_merge, merge_unknown]
  | atom name span =>
    cases u with
    | unknown => rw [unknown_merge, merge_unknown]
    | list us span' => rw [atom_merge_list, list_merge_atom]
    | atom name' span' =>
      rw [atom_merge_atom, atom_merge_atom]
      by_cases hname : name = name'
      · simp [hname]
      · rw [if_neg hname, if_neg (Ne.symm hname)]
  | list items span ih =>
    cases u with
    | unknown => rw [unknown_merge, merge_unknown]
    | atom name' span' => rw [atom_merge_list, list_merge_atom]
    | list us span' =>
      have hitems : (mergeAll items us).map (List.map bare) =
          (mergeAll us items).map (List.map bare) := by
        induction items generalizing us with
        | nil => cases us <;> simp
        | cons t ts ihs =>
          obtain ⟨ht, hts⟩ := List.forall_mem_cons.1 ih
          cases us with
          | nil => simp
          | cons u us => rw [map_bare_mergeAll_cons, map_bare_mergeAll_cons, ht u, ihs hts us]
      rw [list_merge_list, list_merge_list, map_bare_map_list, map_bare_map_list, hitems]

lemma bind_mergeAll_cons_left :
    ((mergeAll (t :: ts) (u :: us)).bind fun ms => mergeAll ms (v :: vs)) =
      ((t.merge u).bind fun m => m.merge v).bind fun k =>
        ((mergeAll ts us).bind fun ms => mergeAll ms vs).map (k :: ·) := by
  rw [mergeAll_cons]
  cases t.merge u <;> cases mergeAll ts us <;> simp

lemma bind_mergeAll_cons_right :
    ((mergeAll (u :: us) (v :: vs)).bind fun ms => mergeAll (t :: ts) ms) =
      ((u.merge v).bind fun m => t.merge m).bind fun k =>
        ((mergeAll us vs).bind fun ms => mergeAll ts ms).map (k :: ·) := by
  rw [mergeAll_cons]
  cases u.merge v <;> cases mergeAll us vs <;> simp

/-- Lists of types merge associatively if their items do. -/
lemma mergeAll_assoc
    (h : ∀ t ∈ ts, ∀ u v : Tree,
      ((t.merge u).bind fun m => m.merge v) = (u.merge v).bind fun m => t.merge m) :
    ((mergeAll ts us).bind fun ms => mergeAll ms vs) =
      (mergeAll us vs).bind fun ms => mergeAll ts ms := by
  induction ts generalizing us vs with
  | nil =>
    cases us with
    | nil => cases vs <;> simp
    | cons u us =>
      cases vs with
      | nil => simp
      | cons v vs =>
        rw [nil_mergeAll_cons, mergeAll_cons]
        cases u.merge v <;> cases mergeAll us vs <;> simp
  | cons t ts ih =>
    obtain ⟨ht, hts⟩ := List.forall_mem_cons.1 h
    cases us with
    | nil => cases vs <;> simp
    | cons u us =>
      cases vs with
      | nil =>
        rw [cons_mergeAll_nil, mergeAll_cons]
        cases t.merge u <;> cases mergeAll ts us <;> simp
      | cons v vs => rw [bind_mergeAll_cons_left, bind_mergeAll_cons_right, ht, ih hts]

/-- Three types merge in one way, spans included, or not at all. -/
theorem merge_assoc (t u v : Tree) :
    ((t.merge u).bind fun m => m.merge v) = (u.merge v).bind fun m => t.merge m := by
  induction t using Tree.induction generalizing u v with
  | unknown => simp
  | atom name span =>
    cases u with
    | unknown => simp
    | atom name' span' =>
      cases v with
      | unknown => simp
      | atom name'' span'' =>
        rcases eq_or_ne name' name'' with rfl | h'
        · by_cases h : name = name' <;> simp [h, Option.or_assoc]
        · by_cases h : name = name' <;> simp [h, h']
      | list vs span'' => by_cases h : name = name' <;> simp [h]
    | list us span' =>
      cases v with
      | unknown | atom name'' span'' => simp
      | list vs span'' => rw [list_merge_list]; cases mergeAll us vs <;> simp
  | list items span ih =>
    cases u with
    | unknown => simp
    | atom name' span' =>
      cases v with
      | unknown | list vs span'' => simp
      | atom name'' span'' => by_cases h : name' = name'' <;> simp [h]
    | list us span' =>
      cases v with
      | unknown => simp
      | atom name'' span'' => rw [list_merge_list]; cases mergeAll items us <;> simp
      | list vs span'' =>
        have hitems : ((mergeAll items us).bind fun ms => mergeAll ms vs) =
            (mergeAll us vs).bind fun ms => mergeAll items ms := mergeAll_assoc ih
        have hmap := congrArg (Option.map (list · (span.or (span'.or span'')))) hitems
        simpa [Option.map_bind, Option.bind_map, Function.comp_def, Option.or_assoc] using hmap

end Tree
end Typing
end TypedLisp
