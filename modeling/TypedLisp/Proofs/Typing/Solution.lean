import TypedLisp.Proofs.Typing.Model

/-!
# Unification solves equations

A step of unification merges two classes in one of four ways, listed by `Store.Plans`.  Each of
them keeps the set of models: what models the merged store and makes the remaining parts equal is
what models the store and makes the two classes equal.  So a run of unification that ends has
exactly the models of the store in which the two sides of each pair are equal; and it ends, with
neither an error nor a search without end, if there is such a model in finite trees.
-/

namespace TypedLisp
namespace Typing
namespace Store

variable {s s' : Store} {v w x y : Var} {m : Merge} {R : SpanRel} {D : Type}
  {I : Interpretation D} {ρ : Var → D} {θ : Var → Tree}

lemma map_eq_map_iff_zip {α β γ : Type} {f : α → γ} {g : β → γ} {xs : List α} {ys : List β}
    (hlen : xs.length = ys.length) :
    xs.map f = ys.map g ↔ ∀ p ∈ xs.zip ys, f p.1 = g p.2 := by
  induction xs generalizing ys with
  | nil => simp [List.length_eq_zero_iff.1 hlen.symm]
  | cons a xs ih =>
    cases ys with
    | nil => simp at hlen
    | cons b ys => simp [ih (Nat.succ.inj hlen)]

/-- The ways in which two classes become one. -/
inductive Plans (s : Store) (x y : Var) : Merge → Prop where
  | left (hx : s.cell x = .unknown) (hw : ¬ s.Within x y) : Plans s x y ⟨y, x, s.cell y, []⟩
  | right (hy : s.cell y = .unknown) (hw : ¬ s.Within y x) : Plans s x y ⟨x, y, s.cell x, []⟩
  | atoms {name : String} {sx sy : Option Span} (hx : s.cell x = .atom name sx)
    (hy : s.cell y = .atom name sy) : Plans s x y ⟨x, y, .atom name (sx.or sy), []⟩
  | lists {xs ys : List Var} {sx sy : Option Span} (hx : s.cell x = .list xs sx)
    (hy : s.cell y = .list ys sy) (hlen : xs.length = ys.length) :
    Plans s x y ⟨x, y, .list xs (sx.or sy), xs.zip ys⟩

lemma of_planBind_eq_ok {c : Cell} (h : s.planBind x y c = .ok m) :
    ¬ s.Within x y ∧ m = ⟨y, x, c, []⟩ := by
  simp only [planBind, bind, Except.bind] at h
  cases ho : s.occurs x y with
  | error e => simp [ho] at h
  | ok b =>
    cases b with
    | true =>
      simp only [ho, if_true] at h
      split at h
      · cases h
      · cases h
    | false =>
      refine ⟨fun hw => ?_, by simpa [ho, pure, Except.pure, eq_comm] using h⟩
      exact absurd ((within_of_occursTo ho).2 hw) (by simp)

lemma plans_of_plan (h : s.plan x y = .ok m) : s.Plans x y m := by
  unfold plan at h
  split at h
  · next hx =>
    obtain ⟨hw, rfl⟩ := of_planBind_eq_ok h
    exact .left hx hw
  · next hy _ =>
    obtain ⟨hw, rfl⟩ := of_planBind_eq_ok h
    exact .right hy hw
  · next hx hy =>
    split at h
    · next hname =>
      subst hname
      obtain rfl := Except.ok.inj h
      exact .atoms hx hy
    · cases h
  · next hx hy =>
    split at h
    · next hlen =>
      obtain rfl := Except.ok.inj h
      exact .lists hx hy hlen
    · cases h
  · simp only [bind, Except.bind] at h
    split at h
    · cases h
    · split at h <;> cases h

namespace Plans

lemma keep_drop (h : s.Plans x y m) : m.keep = x ∧ m.drop = y ∨ m.keep = y ∧ m.drop = x := by
  cases h with
  | left => exact .inr ⟨rfl, rfl⟩
  | right | atoms | lists => exact .inl ⟨rfl, rfl⟩

lemma merges (h : s.Plans x y m) (hs : s.Closed) (hx : s.isRoot x) (hy : s.isRoot y)
    (hne : x ≠ y) : s.Merges m.keep m.drop m.cell := by
  cases h with
  | left => exact ⟨hy, hx, hne.symm, hs.isAlias_cell, hs.cell_items_lt⟩
  | right => exact ⟨hx, hy, hne, hs.isAlias_cell, hs.cell_items_lt⟩
  | atoms => exact ⟨hx, hy, hne, rfl, by simp⟩
  | lists hcx =>
    have := hs.cell_items_lt (v := x)
    rw [hcx] at this
    exact ⟨hx, hy, hne, rfl, this⟩

lemma parts_lt (h : s.Plans x y m) (hs : s.Closed) :
    ∀ p ∈ m.parts, p.1 < s.size ∧ p.2 < s.size := by
  cases h with
  | left | right | atoms => simp
  | lists hx hy =>
    rintro ⟨a, b⟩ hp
    obtain ⟨ha, hb⟩ := List.of_mem_zip hp
    exact ⟨hs.cell_items_lt a (by rw [hx]; exact ha), hs.cell_items_lt b (by rw [hy]; exact hb)⟩

/-- The pairs that are left after a step are of variables of the merged store. -/
lemma pairs_lt {p : Var × Var} {pairs : List (Var × Var)} (h : s.Plans x y m) (hs : s.Closed)
    (hp : ∀ q ∈ p :: pairs, q.1 < s.size ∧ q.2 < s.size) :
    ∀ q ∈ m.parts ++ pairs, q.1 < (s.merge m.keep m.drop m.cell).size ∧
      q.2 < (s.merge m.keep m.drop m.cell).size := by
  intro q hq
  rw [size_merge]
  rcases List.mem_append.1 hq with hq | hq
  · exact h.parts_lt hs q hq
  · exact hp q (List.mem_cons_of_mem p hq)

/-- The merged cell is right about a meaning only if both cells are. -/
lemma holds_of_holds_cell {d : D} (hI : I.Splits) (h : s.Plans x y m) (hc : m.cell.Holds I ρ d)
    (hparts : ∀ p ∈ m.parts, ρ p.1 = ρ p.2) :
    (s.cell x).Holds I ρ d ∧ (s.cell y).Holds I ρ d := by
  cases h with
  | left hx => exact ⟨by rw [hx]; trivial, hc⟩
  | right hy => exact ⟨hc, by rw [hy]; trivial⟩
  | atoms hx hy =>
    rw [hx, hy]
    exact hI.atom hc
  | lists hx hy hlen =>
    rw [hx, hy, Cell.Holds, Cell.Holds, ← (map_eq_map_iff_zip hlen).2 hparts]
    exact hI.list hc

/-- In trees, the merged cell is right about a meaning if both cells are. -/
lemma holds_cell {t : Tree} (hR : R.Joins) (h : s.Plans x y m)
    (hx : (s.cell x).Holds (.trees R) θ t) (hy : (s.cell y).Holds (.trees R) θ t) :
    m.cell.Holds (.trees R) θ t ∧ ∀ p ∈ m.parts, θ p.1 = θ p.2 := by
  cases h with
  | left => exact ⟨hy, by simp⟩
  | right => exact ⟨hx, by simp⟩
  | atoms hcx hcy =>
    rw [hcx] at hx
    rw [hcy] at hy
    obtain ⟨span, hsx, rfl⟩ := hx
    obtain ⟨span', hsy, heq⟩ := hy
    obtain rfl : span = span' := by simpa using heq
    exact ⟨⟨span, hR.or hsx hsy, rfl⟩, by simp⟩
  | lists hcx hcy hlen =>
    rw [hcx] at hx
    rw [hcy] at hy
    obtain ⟨span, hsx, rfl⟩ := hx
    obtain ⟨span', hsy, heq⟩ := hy
    obtain ⟨hmaps, rfl⟩ : _ ∧ _ := by simpa using heq
    exact ⟨⟨span, hR.or hsx hsy, rfl⟩, (map_eq_map_iff_zip hlen).1 hmaps⟩

/-- What models the merged store and makes the parts equal, models the store and makes the two
classes equal. -/
theorem models_of_models_merge (hI : I.Splits) (h : s.Plans x y m) (hs : s.Closed)
    (hx : s.isRoot x) (hy : s.isRoot y) (hne : x ≠ y)
    (hmod : (s.merge m.keep m.drop m.cell).Models I ρ)
    (hparts : ∀ p ∈ m.parts, ρ p.1 = ρ p.2) : s.Models I ρ ∧ ρ x = ρ y := by
  have hm := h.merges hs hx hy hne
  obtain ⟨hroot, hkd, hc, hrest⟩ := (models_merge_iff hs hm).1 hmod
  obtain ⟨hcx, hcy⟩ := h.holds_of_holds_cell hI hc hparts
  rcases h.keep_drop with ⟨hk, hd⟩ | ⟨hk, hd⟩
  · rw [hk, hd] at hkd
    refine ⟨(models_iff_of_merges hm).2 ⟨hroot, ?_, ?_, hrest⟩, hkd⟩
    · rwa [← hk] at hcx
    · rwa [hk, hkd, ← hd] at hcy
  · rw [hk, hd] at hkd
    refine ⟨(models_iff_of_merges hm).2 ⟨hroot, ?_, ?_, hrest⟩, hkd.symm⟩
    · rwa [← hk] at hcy
    · rwa [hk, hkd, ← hd] at hcx

/-- In trees, what models the store and makes the two classes equal, models the merged store and
makes the parts equal. -/
theorem models_merge (hR : R.Joins) (h : s.Plans x y m) (hs : s.Closed)
    (hx : s.isRoot x) (hy : s.isRoot y) (hne : x ≠ y) (hmod : s.Models (.trees R) θ)
    (hxy : θ x = θ y) :
    (s.merge m.keep m.drop m.cell).Models (.trees R) θ ∧ ∀ p ∈ m.parts, θ p.1 = θ p.2 := by
  have hm := h.merges hs hx hy hne
  obtain ⟨hc, hparts⟩ := h.holds_cell hR (hmod.cell x) (hxy ▸ hmod.cell y)
  refine ⟨(models_merge_iff hs hm).2 ⟨hmod.root, ?_, ?_, fun u _ _ => hmod.cell u⟩, hparts⟩
  · rcases h.keep_drop with ⟨hk, hd⟩ | ⟨hk, hd⟩ <;> simp only [hk, hd, hxy]
  · rcases h.keep_drop with ⟨hk, -⟩ | ⟨hk, -⟩ <;> rw [hk]
    · exact hc
    · exact hxy ▸ hc

end Plans

/-- Two classes that some model in trees makes equal can be merged. -/
theorem exists_plan (hs : s.Closed) (hx : s.isRoot x) (hy : s.isRoot y) (hne : x ≠ y)
    (hmod : s.Models (.trees R) θ) (hxy : θ x = θ y) : ∃ m, s.plan x y = .ok m := by
  -- a class cannot lie within one of the same meaning, so the search finds nothing
  have hbind : ∀ {x y c}, s.isRoot y → x ≠ y → θ x = θ y → ∃ m, s.planBind x y c = .ok m := by
    intro x y c hy hne hxy
    obtain ⟨t, ht⟩ := hmod.exists_reads hs y
    obtain ⟨b, hb, hiff⟩ := ht.occurs (r := x)
    cases b with
    | false => exact ⟨_, by simp [planBind, hb, bind, Except.bind, pure, Except.pure]; rfl⟩
    | true =>
      rcases hmod.height_lt_of_within (hiff.1 rfl) with hr | hlt
      · exact absurd ((root_of_isRoot hy).symm.trans hr).symm hne
      · exact absurd hlt (by simp [hxy])
  have hcx := hmod.cell x
  have hcy := hmod.cell y
  unfold plan
  split
  · exact hbind hy hne hxy
  · exact hbind hx hne.symm hxy.symm
  · next n sx n' sy hx' hy' =>
    rw [hx'] at hcx
    rw [hy'] at hcy
    obtain ⟨_, -, htx⟩ := hcx
    obtain ⟨_, -, hty⟩ := hcy
    exact ⟨_, if_pos (Tree.atom.inj (htx.symm.trans (hxy.trans hty))).1⟩
  · next xs sx ys sy hx' hy' =>
    rw [hx'] at hcx
    rw [hy'] at hcy
    obtain ⟨_, -, htx⟩ := hcx
    obtain ⟨_, -, hty⟩ := hcy
    have hmaps := (Tree.list.inj (htx.symm.trans (hxy.trans hty))).1
    exact ⟨_, if_pos (by simpa using congrArg List.length hmaps)⟩
  · next hxu hyu hatoms hlists =>
    -- an atom and a list are left, and no tree is both
    exfalso
    cases hx' : s.cell x with
    | unknown => exact hxu hx'
    | aliasOf r => simpa [hx'] using hs.isAlias_cell (v := x)
    | atom n sx =>
      cases hy' : s.cell y with
      | unknown => exact hyu hy'
      | aliasOf r => simpa [hy'] using hs.isAlias_cell (v := y)
      | atom n' sy => exact hatoms n sx n' sy hx' hy'
      | list ys sy =>
        rw [hx'] at hcx
        rw [hy'] at hcy
        obtain ⟨_, -, htx⟩ := hcx
        obtain ⟨_, -, hty⟩ := hcy
        exact Tree.noConfusion (htx.symm.trans (hxy.trans hty))
    | list xs sx =>
      cases hy' : s.cell y with
      | unknown => exact hyu hy'
      | aliasOf r => simpa [hy'] using hs.isAlias_cell (v := y)
      | atom n sy =>
        rw [hx'] at hcx
        rw [hy'] at hcy
        obtain ⟨_, -, htx⟩ := hcx
        obtain ⟨_, -, hty⟩ := hcy
        exact Tree.noConfusion (htx.symm.trans (hxy.trans hty))
      | list ys sy => exact hlists xs sx ys sy hx' hy'

/-! ### Runs -/

/-- A pair that needs nothing done is a pair of one class. -/
lemma root_eq_of_not_merged {a b : Var} (hs : s.Closed) (ha : a < s.size) (hb : b < s.size)
    (h : ¬ (s.root a ≠ s.root b ∧ s.isRoot (s.root a) ∧ s.isRoot (s.root b))) :
    s.root a = s.root b := by
  by_contra hne
  exact h ⟨hne, hs.isRoot_root ha, hs.isRoot_root hb⟩

/-- The models of the result of a run of unification make the sides of all pairs equal. -/
theorem of_unifyAll_eq_ok {pairs : List (Var × Var)} (hs : s.Closed)
    (hp : ∀ p ∈ pairs, p.1 < s.size ∧ p.2 < s.size) (h : s.unifyAll pairs = .ok s') :
    s'.Closed ∧ s'.size = s.size ∧
      ∀ {D : Type} {I : Interpretation D} {ρ : Var → D}, I.Splits → s'.Models I ρ →
        s.Models I ρ ∧ ∀ p ∈ pairs, ρ p.1 = ρ p.2 := by
  fun_induction unifyAll s pairs with
  | case1 s =>
    obtain rfl := Except.ok.inj h
    exact ⟨hs, rfl, fun _ hm => ⟨hm, by simp⟩⟩
  | case2 s a b pairs hroots e he => cases h
  | case3 s a b pairs hroots m hm ih =>
    obtain ⟨hne, hra, hrb⟩ := hroots
    have hplan := plans_of_plan hm
    have hmerge := hplan.merges hs hra hrb hne
    obtain ⟨hc, hsize, hmod⟩ := ih (hmerge.closed hs) (hplan.pairs_lt hs hp) h
    refine ⟨hc, hsize.trans size_merge, fun hI hm' => ?_⟩
    -- models go back along the run, to the merged store and then to the one before
    obtain ⟨hmm, hpairs⟩ := hmod hI hm'
    obtain ⟨hms, hab⟩ := hplan.models_of_models_merge hI hs hra hrb hne hmm
      fun p hmem => hpairs p (List.mem_append_left _ hmem)
    refine ⟨hms, ?_⟩
    intro p hmem
    rcases List.mem_cons.1 hmem with rfl | hmem
    · exact (hms.root a).symm.trans (hab.trans (hms.root b))
    · exact hpairs p (List.mem_append_right _ hmem)
  | case4 s a b pairs hroots ih =>
    -- the two sides are of one class already
    obtain ⟨⟨ha, hb⟩, hp⟩ := List.forall_mem_cons.1 hp
    obtain ⟨hc, hsize, hmod⟩ := ih hs hp h
    refine ⟨hc, hsize, fun hI hm' => ?_⟩
    obtain ⟨hms, hpairs⟩ := hmod hI hm'
    refine ⟨hms, ?_⟩
    intro p hmem
    rcases List.mem_cons.1 hmem with rfl | hmem
    · have hab := root_eq_of_not_merged hs ha hb hroots
      rw [← hms.root a, ← hms.root b, hab]
    · exact hpairs p hmem

/-- Unification ends well on pairs that some model in trees makes equal, which models the result
too. -/
theorem exists_unifyAll {pairs : List (Var × Var)} (hR : R.Joins) (hs : s.Closed)
    (hp : ∀ p ∈ pairs, p.1 < s.size ∧ p.2 < s.size) (hmod : s.Models (.trees R) θ)
    (heq : ∀ p ∈ pairs, θ p.1 = θ p.2) :
    ∃ s', s.unifyAll pairs = .ok s' ∧ s'.Models (.trees R) θ := by
  fun_induction unifyAll s pairs with
  | case1 s => exact ⟨s, rfl, hmod⟩
  | case2 s a b pairs hroots e he =>
    obtain ⟨hne, hra, hrb⟩ := hroots
    have hab : θ (s.root a) = θ (s.root b) := by
      rw [hmod.root, hmod.root]
      exact heq (a, b) List.mem_cons_self
    obtain ⟨m, hm⟩ := exists_plan hs hra hrb hne hmod hab
    exact absurd (he.symm.trans hm) (by simp)
  | case3 s a b pairs hroots m hm ih =>
    obtain ⟨hne, hra, hrb⟩ := hroots
    have hab : θ (s.root a) = θ (s.root b) := by
      rw [hmod.root, hmod.root]
      exact heq (a, b) List.mem_cons_self
    have hplan := plans_of_plan hm
    have hmerge := hplan.merges hs hra hrb hne
    obtain ⟨hmm, hparts⟩ := hplan.models_merge hR hs hra hrb hne hmod hab
    refine ih (hmerge.closed hs) (hplan.pairs_lt hs hp) hmm ?_
    intro p hmem
    rcases List.mem_append.1 hmem with hmem | hmem
    · exact hparts p hmem
    · exact heq p (List.mem_cons_of_mem _ hmem)
  | case4 s a b pairs hroots ih =>
    obtain ⟨-, hp⟩ := List.forall_mem_cons.1 hp
    obtain ⟨-, heq⟩ := List.forall_mem_cons.1 heq
    exact ih hs hp hmod heq

theorem of_unify_eq_ok {a b : Var} (hs : s.Closed) (ha : a < s.size) (hb : b < s.size)
    (h : s.unify a b = .ok s') :
    s'.Closed ∧ s'.size = s.size ∧
      ∀ {D : Type} {I : Interpretation D} {ρ : Var → D}, I.Splits → s'.Models I ρ →
        s.Models I ρ ∧ ρ a = ρ b := by
  obtain ⟨hc, hsize, hmod⟩ := of_unifyAll_eq_ok hs (by simp [ha, hb]) h
  exact ⟨hc, hsize, fun hI hm => ⟨(hmod hI hm).1, (hmod hI hm).2 (a, b) (by simp)⟩⟩

theorem exists_unify {a b : Var} (hR : R.Joins) (hs : s.Closed) (ha : a < s.size) (hb : b < s.size)
    (hmod : s.Models (.trees R) θ) (heq : θ a = θ b) :
    ∃ s', s.unify a b = .ok s' ∧ s'.Models (.trees R) θ :=
  exists_unifyAll hR hs (by simp [ha, hb]) hmod (by simp [heq])

end Store
end Typing
end TypedLisp
