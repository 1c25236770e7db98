import TypedLisp.Proofs.Typing.Growth

/-!
# Lists that come to contain themselves

An unknown class is bound only after a search for it in the other side, so it cannot come to
contain itself.  Two lists are merged without such a search.  If the list that goes lies within
the list that stays, the merged class contains itself: the run of unification has tangled.

A store of finite types stays one as long as no run tangles, and then every search in it comes to
an end (`meets_unifyAll`).  A run that has tangled leads to no store that has a model in trees
(`not_tangles_of_models`).
-/

namespace TypedLisp

/-! ### Outcomes -/

namespace Outcome

variable {α β : Type} {E : Prop} {P : α → Prop} {Q : β → Prop}

/-- An outcome is an answer as `P` says, a type error or, if `E` holds, a search without end. -/
def Meets (x : Outcome α) (E : Prop) (P : α → Prop) : Prop :=
  match x with
  | .ok a => P a
  | .error (.raised e) => ∃ cause spans, e = .typing cause spans
  | .error .endless => E

lemma Meets.bind {x : Outcome α} {f : α → Outcome β} (hx : x.Meets E P)
    (hf : ∀ a, x = .ok a → P a → (f a).Meets E Q) : (x >>= f : Outcome β).Meets E Q := by
  match x, hx with
  | .ok a, hx => exact hf a rfl hx
  | .error (.raised e), hx => exact hx
  | .error .endless, hx => exact hx

lemma meets_typeError (spans : List (Option Span)) (cause : TypeCause) :
    (typeError spans cause).Meets E P :=
  ⟨cause, _, rfl⟩

end Outcome

namespace Except

variable {ε α : Type} {p : α → Except ε Bool}

lemma exists_of_anyM_eq_error {xs : List α} {e : ε} (h : xs.anyM p = .error e) :
    ∃ x ∈ xs, p x = .error e := by
  induction xs with
  | nil => cases h
  | cons x xs ih =>
    cases hx : p x with
    | error e' => exact ⟨x, by simp, by simpa [List.anyM, hx, bind, Except.bind] using h⟩
    | ok b =>
      cases b with
      | true => simp [List.anyM, hx, bind, Except.bind, pure, Except.pure] at h
      | false =>
        obtain ⟨y, hy, he⟩ := ih (by simpa [List.anyM, hx, bind, Except.bind] using h)
        exact ⟨y, by simp [hy], he⟩

end Except

namespace Typing
namespace Store

variable {s s' : Store} {v w x y keep drop : Var} {c : Cell} {m : Merge} {t : Tree} {T : Prop}
  {θ : Var → Tree}

/-! ### Finite types -/

/-- The types of all variables are finite trees. -/
def Finite (s : Store) : Prop := ∀ v, ∃ t, s.Reads v t

lemma Finite.exists_models (hs : s.Closed) (h : s.Finite) : ∃ θ, s.Models (.trees .any) θ := by
  choose θ hθ using h
  refine ⟨θ, fun v => ((hθ (s.root v)).of_root_eq hs.root_root).unique (hθ v), ?_⟩
  intro v
  have hv := hθ v
  generalize θ v = t at hv ⊢
  cases hv with
  | unknown hc =>
    rw [hc]
    trivial
  | atom hc =>
    rw [hc]
    exact ⟨_, trivial, rfl⟩
  | @list _ vs ts span hc items =>
    have hts : vs.map θ = ts := by
      rw [← List.forall₂_eq_eq_eq, List.forall₂_map_left_iff]
      exact items.imp fun i t hi => (hθ i).unique hi
    rw [hc]
    exact ⟨span, trivial, by rw [hts]⟩

lemma finite_empty : Store.empty.Finite := fun v =>
  ⟨_, .unknown (cell_of_size_le (Nat.zero_le v))⟩

/-- A type is finite if its parts are. -/
lemma Closed.exists_reads (hs : s.Closed) (h : ∀ i ∈ (s.cell v).items, ∃ t, s.Reads i t) :
    ∃ t, s.Reads v t := by
  cases hc : s.cell v with
  | unknown => exact ⟨_, .unknown hc⟩
  | aliasOf r => simpa [hc] using hs.isAlias_cell (v := v)
  | atom name span => exact ⟨_, .atom hc⟩
  | list vs span =>
    rw [hc] at h
    obtain ⟨ts, hts⟩ := exists_forall₂ h
    exact ⟨_, .list hc hts⟩

lemma Reads.item {i : Var} (h : s.Reads v t) (hi : i ∈ (s.cell v).items) :
    ∃ u, s.Reads i u ∧ u.height < t.height := by
  cases h with
  | unknown hc | atom hc => simp [hc] at hi
  | list hc items =>
    rw [hc] at hi
    obtain ⟨u, hu, hread⟩ := exists_right_of_forall₂ items hi
    exact ⟨u, hread, Tree.height_lt_of_mem hu⟩

lemma within_item {i r : Var} (hi : i ∈ (s.cell v).items) (h : s.Within r i) : s.Within r v := by
  cases hc : s.cell v with
  | unknown | aliasOf _ | atom _ _ => simp [hc] at hi
  | list vs span =>
    rw [hc] at hi
    exact .item hc hi h

/-! ### Merges -/

/-- Types that the dropped class is not part of stay finite in a merge. -/
lemma exists_reads_merge (hs : s.Closed) (hm : s.Merges keep drop c)
    (hc : c.items = (s.cell keep).items) (ht : s.Reads v t) (hv : ¬ s.Within drop v) :
    ∃ t, (s.merge keep drop c).Reads v t := by
  -- below such a type every class has the items that it had before
  induction hn : t.height using Nat.strong_induction_on generalizing v t with
  | _ n ih =>
    have hitems : ((s.merge keep drop c).cell v).items = (s.cell v).items := by
      rw [hm.cell_merge hs]
      split
      · next hr =>
        rcases hr with hr | hr
        · have hkeep : s.cell v = s.cell keep :=
            Closed.cell_eq_of_root_eq (by rw [hr, root_of_isRoot hm.keep_root])
          rw [hc, hkeep]
        · exact absurd (.root hr) hv
      · rfl
    refine (hm.closed hs).exists_reads ?_
    intro i hi
    rw [hitems] at hi
    obtain ⟨u, hu, hlt⟩ := ht.item hi
    exact ih u.height (hn ▸ hlt) hu (fun hw => hv (within_item hi hw)) rfl

/-- All types stay finite if the dropped class is not part of the kept one. -/
lemma Finite.merge (h : s.Finite) (hs : s.Closed) (hm : s.Merges keep drop c)
    (hc : c.items = (s.cell keep).items) (hkeep : ¬ s.Within drop keep) :
    (s.merge keep drop c).Finite := by
  intro v
  obtain ⟨t, ht⟩ := h v
  induction hn : t.height using Nat.strong_induction_on generalizing v t with
  | _ n ih =>
    refine (hm.closed hs).exists_reads ?_
    intro i hi
    rw [hm.cell_merge hs] at hi
    split at hi
    · -- the merged class has the items of the kept one, of none of which the dropped one is part
      rw [hc] at hi
      obtain ⟨u, hu⟩ := h i
      exact exists_reads_merge hs hm hc hu fun hw => hkeep (within_item hi hw)
    · obtain ⟨u, hu, hlt⟩ := ht.item hi
      exact ih u.height (hn ▸ hlt) i u hu rfl

/-! ### Steps of unification -/

/-- The merged cell has the items of the kept one. -/
lemma Plans.items_eq (h : s.Plans x y m) : m.cell.items = (s.cell m.keep).items := by
  cases h with
  | left | right => rfl
  | atoms hx | lists hx => rw [hx]; rfl

/-- Only the merge of two lists can drop a class that is part of the kept one. -/
lemma Plans.lists_of_within (h : s.Plans x y m) (hx : s.isRoot x) (hne : x ≠ y)
    (hw : s.Within m.drop m.keep) : s.Within y x ∧ ∃ xs sx ys sy, s.cell x = .list xs sx ∧
      s.cell y = .list ys sy ∧ xs.length = ys.length := by
  cases h with
  | left _ hn => exact absurd hw hn
  | right _ hn => exact absurd hw hn
  | atoms hcx =>
    cases hw with
    | root hr => exact absurd ((root_of_isRoot hx).symm.trans hr) hne
    | item hc => cases hc.symm.trans hcx
  | lists hcx hcy hlen => exact ⟨hw, _, _, _, _, hcx, hcy, hlen⟩

lemma readTo_ne_raised {H : Type} {depth : Nat} {e : Error} :
    s.readTo (H := H) depth v ≠ .error (.raised e) := by
  intro h
  cases readTo_eq_endless h

lemma occursTo_ne_raised {r : Var} {depth : Nat} {e : Error} :
    s.occursTo r depth v ≠ .error (.raised e) := by
  induction depth generalizing v with
  | zero => simp [occursTo]
  | succ depth ih =>
    rw [occursTo]
    split
    · simp
    · split
      · intro h
        obtain ⟨i, -, hi⟩ := Except.exists_of_anyM_eq_error h
        exact ih hi
      · simp

/-- In a store of finite types, reading comes to an end. -/
lemma meets_read {H : Type} (h : s.Finite ∨ T) :
    Outcome.Meets (s.read (H := H) v) T fun _ => True := by
  match hr : s.read (H := H) v with
  | .ok n => trivial
  | .error (.raised e) => exact absurd hr readTo_ne_raised
  | .error .endless =>
    rcases h with h | h
    · obtain ⟨t, ht⟩ := h v
      cases hr.symm.trans (readTo_of_reads ht ht.height_le)
    · exact h

/-- In a store of finite types, the search for a class comes to an end. -/
lemma meets_occurs {r : Var} (h : s.Finite ∨ T) : (s.occurs r v).Meets T fun _ => True := by
  match ho : s.occurs r v with
  | .ok b => trivial
  | .error (.raised e) => exact absurd ho occursTo_ne_raised
  | .error .endless =>
    rcases h with h | h
    · obtain ⟨t, ht⟩ := h v
      obtain ⟨b, hb, -⟩ := ht.occurs (r := r)
      cases ho.symm.trans hb
    · exact h

lemma meets_planBind (h : s.Finite ∨ T) : (s.planBind x y c).Meets T fun _ => True := by
  refine (meets_occurs h).bind ?_
  intro b _ _
  cases b with
  | false => trivial
  | true => exact (meets_read h).bind fun _ _ _ => Outcome.meets_typeError _ _

lemma meets_plan (h : s.Finite ∨ T) : (s.plan x y).Meets T fun _ => True := by
  unfold plan
  split
  · exact meets_planBind h
  · exact meets_planBind h
  · split
    · trivial
    · exact Outcome.meets_typeError _ _
  · split
    · trivial
    · exact Outcome.meets_typeError _ _
  · exact (meets_read h).bind fun _ _ _ => (meets_read h).bind fun _ _ _ =>
      Outcome.meets_typeError _ _

/-! ### Runs of unification -/

/-- In the run of unification on some pairs, two lists are merged of which the one that goes lies
within the one that stays. -/
inductive Tangles : Store → List (Var × Var) → Prop where
  | here {s : Store} {a b : Var} {pairs : List (Var × Var)} {xs ys : List Var}
    {sx sy : Option Span} (hne : s.root a ≠ s.root b) (ha : s.cell a = .list xs sx)
    (hb : s.cell b = .list ys sy) (hlen : xs.length = ys.length)
    (hw : s.Within (s.root b) (s.root a)) : Tangles s ((a, b) :: pairs)
  | merged {s : Store} {a b : Var} {pairs : List (Var × Var)} {m : Merge}
    (hne : s.root a ≠ s.root b ∧ s.isRoot (s.root a) ∧ s.isRoot (s.root b))
    (hm : s.plan (s.root a) (s.root b) = .ok m)
    (h : Tangles (s.merge m.keep m.drop m.cell) (m.parts ++ pairs)) : Tangles s ((a, b) :: pairs)
  | equal {s : Store} {a b : Var} {pairs : List (Var × Var)}
    (heq : ¬ (s.root a ≠ s.root b ∧ s.isRoot (s.root a) ∧ s.isRoot (s.root b)))
    (h : Tangles s pairs) : Tangles s ((a, b) :: pairs)

/-- Unification of finite types comes to an end with finite types, unless it tangles. -/
theorem meets_unifyAll {pairs : List (Var × Var)} (hs : s.Closed)
    (hp : ∀ p ∈ pairs, p.1 < s.size ∧ p.2 < s.size) (h : s.Finite ∨ T) (ht : s.Tangles pairs → T) :
    (s.unifyAll pairs).Meets T fun s' => s'.Finite ∨ T := by
  fun_induction unifyAll s pairs with
  | case1 s => exact h
  | case2 s a b pairs hroots e he =>
    have hplan := meets_plan (x := s.root a) (y := s.root b) h
    rw [he] at hplan
    cases e with
    | raised e => exact hplan
    | endless => exact hplan
  | case3 s a b pairs hroots m hm ih =>
    obtain ⟨hne, hra, hrb⟩ := hroots
    have hplan := plans_of_plan hm
    have hmerge := hplan.merges hs hra hrb hne
    have hfinite : (s.merge m.keep m.drop m.cell).Finite ∨ T := by
      rcases h with h | h
      · by_cases hw : s.Within m.drop m.keep
        · obtain ⟨hw, xs, sx, ys, sy, ha, hb, hlen⟩ := hplan.lists_of_within hra hne hw
          rw [hs.cell_root] at ha hb
          exact .inr (ht (.here hne ha hb hlen hw))
        · exact .inl (h.merge hs hmerge hplan.items_eq hw)
      · exact .inr h
    exact ih (hmerge.closed hs) (hplan.pairs_lt hs hp) hfinite fun htm =>
      ht (.merged ⟨hne, hra, hrb⟩ hm htm)
  | case4 s a b pairs hroots ih =>
    obtain ⟨-, hp⟩ := List.forall_mem_cons.1 hp
    exact ih hs hp h fun hts => ht (.equal hroots hts)

lemma meets_unify (hs : s.Closed) (hv : v < s.size) (hw : w < s.size) (h : s.Finite ∨ T)
    (ht : s.Tangles [(v, w)] → T) : (s.unify v w).Meets T fun s' => s'.Finite ∨ T :=
  meets_unifyAll hs (by simp [hv, hw]) h ht

/-- A run of unification whose result has a model in trees has not tangled. -/
theorem not_tangles_of_models {pairs : List (Var × Var)} (hs : s.Closed)
    (hp : ∀ p ∈ pairs, p.1 < s.size ∧ p.2 < s.size) (h : s.unifyAll pairs = .ok s')
    (hm : s'.Models (.trees .any) θ) : ¬ s.Tangles pairs := by
  intro ht
  have hI := Interpretation.splits_trees SpanRel.splits_any
  induction ht with
  | @here s a b pairs xs ys sx sy hne ha hb hlen hw =>
    obtain ⟨-, -, hmod⟩ := of_unifyAll_eq_ok hs hp h
    obtain ⟨hms, heq⟩ := hmod hI hm
    have hab := heq (a, b) (by simp)
    -- one class lies within the other, and yet their meanings are equal
    rcases hms.height_lt_of_within hw with hr | hlt
    · exact hne (hs.root_root.symm.trans hr)
    · rw [hms.root, hms.root, hab] at hlt
      exact Nat.lt_irrefl _ hlt
  | @merged s a b pairs m hne hplan _ ih =>
    have hplans := plans_of_plan hplan
    have hmerge := hplans.merges hs hne.2.1 hne.2.2 hne.1
    have hrest : (s.merge m.keep m.drop m.cell).unifyAll (m.parts ++ pairs) = .ok s' := by
      rw [unifyAll, dif_pos hne] at h
      split at h
      · next he => cases he.symm.trans hplan
      · next m' hm' =>
        obtain rfl := Except.ok.inj (hm'.symm.trans hplan)
        exact h
    exact ih (hmerge.closed hs) (hplans.pairs_lt hs hp) hrest
  | @equal s a b pairs heq _ ih =>
    rw [unifyAll, dif_neg heq] at h
    obtain ⟨-, hp⟩ := List.forall_mem_cons.1 hp
    exact ih hs hp h

end Store
end Typing
end TypedLisp
