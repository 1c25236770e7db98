import TypedLisp.Typing.Store

/-!
# Unification

Unification makes pairs of types equal, one pair after the other.  Each step either finds that
the two types are one class already or merges their classes: an unknown joins what the other
side is, equal atoms join, and lists of equal lengths join and leave their items to be made
equal next.  Of two known types the first one's span is kept, if it has one.  A merge drops a
class, and leaves no more pairs than that class had items, so the steps come to an end.
-/

namespace TypedLisp
namespace Typing

/-- How two classes become one: the class of `drop` joins that of `keep`, of which `cell` is
known then, and the pairs `parts` have to be made equal too. -/
structure Merge where
  keep : Var
  drop : Var
  cell : Cell
  parts : List (Var × Var)

namespace Store

/-- The unknown class `r` joins the class `v`, of which `c` is known, unless that contains it. -/
def planBind (s : Store) (r v : Var) (c : Cell) : Outcome Merge := do
  if ← s.occurs r v then
    let type : Node Empty ← s.read v
    Outcome.typeError [type.span] (.selfContaining type.plain)
  else
    return ⟨v, r, c, []⟩

/-- How two different classes become one. -/
def plan (s : Store) (x y : Var) : Outcome Merge :=
  match s.cell x, s.cell y with
  | .unknown, c => s.planBind x y c
  | c, .unknown => s.planBind y x c
  | .atom n sx, .atom m sy =>
    if n = m then .ok ⟨x, y, .atom n (sx.or sy), []⟩
    else Outcome.typeError [sx, sy] (.mismatch n m)
  | .list xs sx, .list ys sy =>
    if xs.length = ys.length then .ok ⟨x, y, .list xs (sx.or sy), xs.zip ys⟩
    else Outcome.typeError [sx, sy] (.partsMismatch xs.length ys.length)
  | _, _ => do
    let left : Node Empty ← s.read x
    let right : Node Empty ← s.read y
    Outcome.typeError [left.span, right.span] (.mismatch left.plain right.plain)

/-! ### Every merge makes the store lighter -/

theorem getElem?_of_isRoot {s : Store} {v : Var} (h : s.isRoot v) :
    s.cells[v]? = some (s.cell v) := by
  unfold isRoot at h
  unfold cell root
  split at h
  · next c hc => cases c <;> simp_all [Cell.isAlias, Array.getD_eq_getD_getElem?]
  · exact absurd h (by simp)

theorem weight_redirect (keep drop : Var) (c : Cell) :
    (c.redirect keep drop).weight = c.weight := by
  cases c <;> rfl

theorem totalWeight_redirect (keep drop : Var) (cells : List Cell) :
    Cell.totalWeight (cells.map (Cell.redirect keep drop)) = Cell.totalWeight cells := by
  induction cells with
  | nil => rfl
  | cons c cs ih => simp [Cell.totalWeight, weight_redirect, ih]

theorem totalWeight_set {cells : List Cell} {i : Nat} {c d : Cell} (h : cells[i]? = some c) :
    Cell.totalWeight (cells.set i d) + c.weight = Cell.totalWeight cells + d.weight := by
  induction cells generalizing i with
  | nil => simp at h
  | cons x xs ih =>
    cases i with
    | zero =>
      obtain rfl : x = c := by simpa using h
      simp only [List.set_cons_zero, Cell.totalWeight]
      omega
    | succ i =>
      have := ih (i := i) (by simpa using h)
      simp only [List.set_cons_succ, Cell.totalWeight]
      omega

/-- Merging two different classes takes away the weight of the one that is dropped. -/
theorem weight_merge {s : Store} {keep drop : Var} {c : Cell} (hk : s.isRoot keep)
    (hd : s.isRoot drop) (hne : keep ≠ drop) (hc : c.weight = (s.cell keep).weight) :
    (s.merge keep drop c).weight + (s.cell drop).weight = s.weight := by
  have hk' : (s.cells.toList.map (Cell.redirect keep drop))[keep]? =
      some ((s.cell keep).redirect keep drop) := by simp [getElem?_of_isRoot hk]
  have hd' : ((s.cells.toList.map (Cell.redirect keep drop)).set keep c)[drop]? =
      some ((s.cell drop).redirect keep drop) := by simp [hne, getElem?_of_isRoot hd]
  have hkeep := totalWeight_set (d := c) hk'
  have hdrop := totalWeight_set (d := .aliasOf keep) hd'
  rw [weight_redirect] at hkeep hdrop
  rw [totalWeight_redirect] at hkeep
  simp only [weight, merge, Array.toList_setIfInBounds, Array.toList_map]
  have halias : (Cell.aliasOf keep).weight = 0 := rfl
  omega

/-- A merge keeps what the kept class weighs, and leaves fewer pairs than the dropped one
weighs. -/
theorem weight_of_plan {s : Store} {x y : Var} {m : Merge} (h : s.plan x y = .ok m) :
    m.cell.weight = (s.cell m.keep).weight ∧ m.parts.length < (s.cell m.drop).weight ∧
      (m.keep = x ∧ m.drop = y ∨ m.keep = y ∧ m.drop = x) := by
  have bound : ∀ {r v : Var} {c : Cell}, s.planBind r v c = .ok m →
      m = ⟨v, r, c, []⟩ := by
    intro r v c h
    simp only [planBind, bind, Except.bind, pure, Except.pure] at h
    split at h
    · exact nomatch h
    · split at h
      · split at h <;> exact nomatch h
      · cases h
        rfl
  unfold plan at h
  split at h
  · next hx =>
    cases bound h
    exact ⟨rfl, by simp [hx, Cell.weight], .inr ⟨rfl, rfl⟩⟩
  · next hy _ =>
    cases bound h
    exact ⟨rfl, by simp [hy, Cell.weight], .inl ⟨rfl, rfl⟩⟩
  · next hx hy =>
    split at h
    · cases h
      exact ⟨by simp [hx, Cell.weight], by simp [hy, Cell.weight], .inl ⟨rfl, rfl⟩⟩
    · exact nomatch h
  · next hx hy =>
    split at h
    · next hlen =>
      cases h
      exact ⟨by simp [hx, Cell.weight], by simp [hy, hlen, Cell.weight], .inl ⟨rfl, rfl⟩⟩
    · exact nomatch h
  · simp only [bind, Except.bind] at h
    split at h
    · exact nomatch h
    · split at h <;> exact nomatch h

theorem weight_merge_plan_lt {s : Store} {x y : Var} {m : Merge} (pairs : List (Var × Var))
    (h : x ≠ y ∧ s.isRoot x ∧ s.isRoot y) (hm : s.plan x y = .ok m) :
    (s.merge m.keep m.drop m.cell).weight + (m.parts ++ pairs).length <
      s.weight + (pairs.length + 1) := by
  obtain ⟨hne, hx, hy⟩ := h
  obtain ⟨hc, hp, hkd⟩ := weight_of_plan hm
  have hw : (s.merge m.keep m.drop m.cell).weight + (s.cell m.drop).weight = s.weight := by
    rcases hkd with ⟨hk, hd⟩ | ⟨hk, hd⟩
    · exact weight_merge (hk ▸ hx) (hd ▸ hy) (hk ▸ hd ▸ hne) hc
    · exact weight_merge (hk ▸ hy) (hd ▸ hx) (hk ▸ hd ▸ hne.symm) hc
  simp only [List.length_append]
  omega

/-! ### The steps -/

/-- The store in which the two sides of each pair are equal.  A pair of one class needs nothing
done, nor does one with a variable outside of the store. -/
def unifyAll (s : Store) : List (Var × Var) → Outcome Store
  | [] => .ok s
  | (a, b) :: pairs =>
    if _h : s.root a ≠ s.root b ∧ s.isRoot (s.root a) ∧ s.isRoot (s.root b) then
      match _hm : s.plan (s.root a) (s.root b) with
      | .error e => .error e
      | .ok m => unifyAll (s.merge m.keep m.drop m.cell) (m.parts ++ pairs)
    else unifyAll s pairs
termination_by pairs => s.weight + pairs.length
decreasing_by
  · exact weight_merge_plan_lt pairs _h _hm
  · exact Nat.lt_succ_self _

/-- The store in which two variables are equal. -/
def unify (s : Store) (a b : Var) : Outcome Store :=
  s.unifyAll [(a, b)]

end Store

variable {H : Type}

/-- Two types merged into one. -/
def unifyTypes (a b : Node H) : Outcome (Node H) := do
  let (x, s) ← Store.empty.intern a
  let (y, s) ← s.intern b
  let s ← s.unify x y
  s.read x

end Typing
end TypedLisp
