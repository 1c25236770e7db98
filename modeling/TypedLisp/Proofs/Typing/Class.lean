import Mathlib.Tactic.ByContra
import Mathlib.Tactic.Lemma
import TypedLisp.Typing.Unify

/-!
# Classes of variables

A store is closed if all that its cells refer to are variables of the store, and aliases refer to
representatives.  In a closed store a variable has a class, which is given by its representative
`Store.root` and by what is known of it, `Store.cell`.  This file says what becomes of both when
a variable is new and when two classes are merged; nothing after it looks at the array of cells.
-/

namespace TypedLisp
namespace Typing

namespace Cell

/-- The variables that a list cell is made of. -/
def items : Cell → List Var
  | list vs _ => vs
  | _ => []

@[simp] lemma isAlias_aliasOf (r : Var) : (aliasOf r).isAlias = true := rfl
@[simp] lemma isAlias_unknown : unknown.isAlias = false := rfl
@[simp] lemma isAlias_atom (name : String) (span : Option Span) :
    (atom name span).isAlias = false := rfl
@[simp] lemma isAlias_list (vs : List Var) (span : Option Span) :
    (list vs span).isAlias = false := rfl

@[simp] lemma items_aliasOf (r : Var) : (aliasOf r).items = [] := rfl
@[simp] lemma items_list (vs : List Var) (span : Option Span) : (list vs span).items = vs := rfl
@[simp] lemma items_unknown : unknown.items = [] := rfl
@[simp] lemma items_atom (name : String) (span : Option Span) : (atom name span).items = [] := rfl

end Cell

namespace Store

variable {s : Store} {v w keep drop : Var} {c : Cell}

/-- How many variables a store has. -/
def size (s : Store) : Nat := s.cells.size

/-- All that the cells of a store refer to are variables of the store, and aliases refer to
representatives. -/
structure Closed (s : Store) : Prop where
  isRoot_of_alias : ∀ v r : Var, s.cells[v]? = some (.aliasOf r) → s.isRoot r
  items_lt : ∀ (v : Var) (c : Cell), s.cells[v]? = some c → ∀ i ∈ c.items, i < s.size

lemma closed_empty : Store.empty.Closed :=
  ⟨fun v r h => by simp [Store.empty] at h, fun v c h => by simp [Store.empty] at h⟩

@[simp] lemma size_empty : Store.empty.size = 0 := rfl

/-! ### Representatives -/

lemma lt_size_of_isRoot (h : s.isRoot v) : v < s.size := by
  unfold isRoot at h
  split at h
  · next c hc => exact (Array.getElem?_eq_some_iff.1 hc).1
  · exact absurd h (by simp)

lemma root_of_isRoot (h : s.isRoot v) : s.root v = v := by
  unfold isRoot at h
  unfold root
  split at h
  · next c hc => cases c <;> simp_all
  · exact absurd h (by simp)

lemma root_of_size_le (h : s.size ≤ v) : s.root v = v := by
  have : s.cells[v]? = none := Array.getElem?_eq_none h
  simp [root, this]

lemma cell_of_size_le (h : s.size ≤ v) : s.cell v = .unknown := by
  have : s.cells[v]? = none := Array.getElem?_eq_none h
  simp [cell, root_of_size_le h, Array.getD_eq_getD_getElem?, this]

namespace Closed

lemma isRoot_root (hs : s.Closed) (h : v < s.size) : s.isRoot (s.root v) := by
  obtain ⟨c, hc⟩ : ∃ c, s.cells[v]? = some c := ⟨_, Array.getElem?_eq_getElem h⟩
  cases c with
  | aliasOf r =>
    have : s.root v = r := by simp [root, hc]
    exact this ▸ hs.isRoot_of_alias v r hc
  | unknown | atom name span | list vs span =>
    have : s.root v = v := by simp [root, hc]
    simp [this, isRoot, hc]

lemma root_lt_iff (hs : s.Closed) : s.root v < s.size ↔ v < s.size := by
  constructor
  · intro h
    by_contra hv
    rw [root_of_size_le (Nat.le_of_not_lt hv)] at h
    exact hv h
  · exact fun h => lt_size_of_isRoot (hs.isRoot_root h)

@[simp] lemma root_root (hs : s.Closed) : s.root (s.root v) = s.root v := by
  by_cases h : v < s.size
  · exact root_of_isRoot (hs.isRoot_root h)
  · rw [root_of_size_le (Nat.le_of_not_lt h), root_of_size_le (Nat.le_of_not_lt h)]

@[simp] lemma cell_root (hs : s.Closed) : s.cell (s.root v) = s.cell v := by
  simp [cell, hs.root_root]

lemma cell_eq_of_root_eq (h : s.root v = s.root w) : s.cell v = s.cell w := by
  simp [cell, h]

lemma getElem?_root (hs : s.Closed) (h : v < s.size) : s.cells[s.root v]? = some (s.cell v) := by
  rw [getElem?_of_isRoot (hs.isRoot_root h), hs.cell_root]

lemma isAlias_cell (hs : s.Closed) : (s.cell v).isAlias = false := by
  by_cases h : v < s.size
  · have hr := hs.isRoot_root h
    rw [isRoot, hs.getElem?_root h] at hr
    simpa using hr
  · rw [cell_of_size_le (Nat.le_of_not_lt h)]
    rfl

lemma cell_items_lt (hs : s.Closed) : ∀ i ∈ (s.cell v).items, i < s.size := by
  by_cases h : v < s.size
  · exact hs.items_lt _ _ (hs.getElem?_root h)
  · simp [cell_of_size_le (Nat.le_of_not_lt h)]

end Closed

/-! ### New variables -/

@[simp] lemma size_push : (s.push c).2.size = s.size + 1 := by
  simp [push, size]

@[simp] lemma push_fst : (s.push c).1 = s.size := rfl

lemma getElem?_push : (s.push c).2.cells[v]? = if v = s.size then some c else s.cells[v]? := by
  simp only [push, size, Array.getElem?_push]
  rfl

lemma root_push (hc : c.isAlias = false) : (s.push c).2.root v = s.root v := by
  by_cases h : v = s.size
  · -- a variable that the store does not have yet stands for itself as well
    rw [root_of_size_le (Nat.le_of_eq h.symm), root, getElem?_push, if_pos h]
    cases c with
    | aliasOf r => simp at hc
    | unknown | atom name span | list vs span => rfl
  · rw [root, getElem?_push, if_neg h, root]

lemma cell_push (hs : s.Closed) (hc : c.isAlias = false) :
    (s.push c).2.cell v = if v = s.size then c else s.cell v := by
  rw [cell, root_push hc, Array.getD_eq_getD_getElem?, getElem?_push]
  by_cases h : v = s.size
  · rw [if_pos h, if_pos (by rw [root_of_size_le (Nat.le_of_eq h.symm), h])]
    rfl
  · -- no old class has the new variable as its representative
    have hr : s.root v ≠ s.size := by
      by_cases hv : v < s.size
      · exact Nat.ne_of_lt (hs.root_lt_iff.2 hv)
      · rwa [root_of_size_le (Nat.le_of_not_lt hv)]
    rw [if_neg h, if_neg hr, cell, Array.getD_eq_getD_getElem?]

lemma Closed.push (hs : s.Closed) (hc : c.isAlias = false) (hi : ∀ i ∈ c.items, i ≤ s.size) :
    (s.push c).2.Closed := by
  constructor
  · intro v r h
    rw [getElem?_push] at h
    split at h
    · simp_all
    · have hr := hs.isRoot_of_alias v r h
      have hlt := lt_size_of_isRoot hr
      unfold isRoot at hr ⊢
      rwa [getElem?_push, if_neg (Nat.ne_of_lt hlt)]
  · intro v d h i hmem
    rw [getElem?_push] at h
    rw [size_push]
    split at h
    · obtain rfl : c = d := by simpa using h
      exact Nat.lt_succ_of_le (hi i hmem)
    · exact Nat.lt_succ_of_lt (hs.items_lt v d h i hmem)

/-! ### Merged classes -/

@[simp] lemma size_merge : (s.merge keep drop c).size = s.size := by
  simp [merge, size]

lemma getElem?_merge : (s.merge keep drop c).cells[v]? =
    if v = drop ∧ v < s.size then some (.aliasOf keep)
    else if v = keep ∧ v < s.size then some c
    else (s.cells[v]?).map (Cell.redirect keep drop) := by
  simp only [merge, size, Array.getElem?_setIfInBounds, Array.size_setIfInBounds, Array.size_map,
    Array.getElem?_map]
  -- `drop` is written last, so it is looked at first
  by_cases hd : drop = v
  · subst hd
    by_cases hlt : drop < s.cells.size
    · simp [hlt]
    · simp [hlt]
  · by_cases hk : keep = v
    · subst hk
      by_cases hlt : keep < s.cells.size
      · simp [hlt, hd, Ne.symm hd]
      · simp [hlt, hd]
    · simp [hd, hk, Ne.symm hd, Ne.symm hk]

/-- The classes of a store after one of them, that of `drop`, has joined that of `keep`. -/
structure Merges (s : Store) (keep drop : Var) (c : Cell) : Prop where
  keep_root : s.isRoot keep
  drop_root : s.isRoot drop
  ne : keep ≠ drop
  cell_root : c.isAlias = false
  items_lt : ∀ i ∈ c.items, i < s.size

namespace Merges

lemma root_merge (h : s.Merges keep drop c) :
    (s.merge keep drop c).root v = if s.root v = drop then keep else s.root v := by
  have hk : s.root keep = keep := root_of_isRoot h.keep_root
  have hd : s.root drop = drop := root_of_isRoot h.drop_root
  by_cases hv : v < s.size
  · rw [root, getElem?_merge]
    by_cases hvd : v = drop
    · simp [hvd, hd, hvd ▸ hv]
    · by_cases hvk : v = keep
      · rw [if_neg (by simp [hvd]), if_pos ⟨hvk, hv⟩, hvk, hk, if_neg h.ne]
        have := h.cell_root
        cases c with
        | aliasOf r => simp at this
        | unknown | atom name span | list vs span => rfl
      · rw [if_neg (by simp [hvd]), if_neg (by simp [hvk]), root]
        obtain ⟨d, hd⟩ : ∃ d, s.cells[v]? = some d := ⟨_, Array.getElem?_eq_getElem hv⟩
        rw [hd]
        cases d <;> simp [Cell.redirect, hvd]
  · have hle := Nat.le_of_not_lt hv
    have hne : v ≠ drop := fun he => hv (he ▸ lt_size_of_isRoot h.drop_root)
    rw [root_of_size_le (by simpa using hle), root_of_size_le hle, if_neg hne]

lemma cell_merge (hs : s.Closed) (h : s.Merges keep drop c) :
    (s.merge keep drop c).cell v = if s.root v = keep ∨ s.root v = drop then c else s.cell v := by
  have hk := lt_size_of_isRoot h.keep_root
  rw [cell, h.root_merge, Array.getD_eq_getD_getElem?, getElem?_merge]
  by_cases hvd : s.root v = drop
  · simp [hvd, h.ne, hk]
  · by_cases hvk : s.root v = keep
    · simp [hvk, h.ne, hk]
    · by_cases hv : v < s.size
      · have := hs.isAlias_cell (v := v)
        rw [if_neg hvd, if_neg (by simp [hvd]), if_neg (by simp [hvk]), if_neg (by simp [hvk, hvd]),
          hs.getElem?_root hv]
        cases hc : s.cell v <;> simp_all [Cell.redirect]
      · have hle := Nat.le_of_not_lt hv
        have : s.cells[v]? = none := Array.getElem?_eq_none hle
        rw [root_of_size_le hle] at hvd hvk
        simp [root_of_size_le hle, hvd, hvk, this, cell_of_size_le hle]

lemma closed (hs : s.Closed) (h : s.Merges keep drop c) : (s.merge keep drop c).Closed := by
  have hk := lt_size_of_isRoot h.keep_root
  have hkeep : (s.merge keep drop c).isRoot keep := by
    simp [isRoot, getElem?_merge, h.ne, hk, h.cell_root]
  constructor
  · intro v r hv
    rw [getElem?_merge] at hv
    split at hv
    · obtain rfl : keep = r := by simpa using hv
      exact hkeep
    · split at hv
      · obtain rfl : c = .aliasOf r := by simpa using hv
        exact absurd h.cell_root (by simp)
      · obtain ⟨d, hd, hr⟩ := Option.map_eq_some_iff.1 hv
        -- an old alias leads to `keep` if it led to `drop`, and to where it led before otherwise
        cases d with
        | unknown | atom name span | list vs span => simp [Cell.redirect] at hr
        | aliasOf q =>
          have hq := hs.isRoot_of_alias v q hd
          by_cases hqd : q = drop
          · obtain rfl : keep = r := by simpa [Cell.redirect, hqd] using hr
            exact hkeep
          · obtain rfl : q = r := by simpa [Cell.redirect, hqd] using hr
            by_cases hqk : q = keep
            · exact hqk ▸ hkeep
            · have hcell := getElem?_of_isRoot hq
              have hroot := hq
              rw [isRoot, hcell] at hroot
              rw [isRoot, getElem?_merge, if_neg (by simp [hqd]), if_neg (by simp [hqk]), hcell]
              cases hc : s.cell q <;> simp_all [Cell.redirect]
  · intro v d hv i hi
    rw [size_merge]
    rw [getElem?_merge] at hv
    split at hv
    · obtain rfl : .aliasOf keep = d := by simpa using hv
      simp at hi
    · split at hv
      · obtain rfl : c = d := by simpa using hv
        exact h.items_lt i hi
      · obtain ⟨e, he, rfl⟩ := Option.map_eq_some_iff.1 hv
        refine hs.items_lt v e he i ?_
        cases e <;> simp_all [Cell.redirect]

end Merges

end Store
end Typing
end TypedLisp
