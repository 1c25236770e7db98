import TypedLisp.Proofs.Typing.Reading

/-!
# Models of a store

A valuation gives every variable a meaning.  It is a model of a store if variables of one class
have one meaning and all cells are right about it.  Two domains of meanings count.  In trees, the
models of a store are the solutions of the equations made so far; a store that has one holds
finite types only.  In the classes of a later store, the valuation that sends a variable to its
representative there is a model of every earlier store: what was known once stays known.

What a merge does to the models of a store is said by `Store.models_merge_iff`; all that is proved
about unification comes from it.
-/

namespace TypedLisp
namespace Typing

/-- Types mean the classes of a store. -/
def Store.graph (s : Store) : Interpretation Var where
  atom name span r := ∃ span', SpanRel.kept span span' ∧ s.cell r = .atom name span'
  list rs span r := ∃ vs span', SpanRel.kept span span' ∧ rs = vs.map s.root ∧
    s.cell r = .list vs span'

lemma Store.splits_graph (s : Store) : s.graph.Splits where
  atom := fun ⟨span', h, hc⟩ =>
    ⟨⟨span', (SpanRel.splits_kept h).1, hc⟩, ⟨span', (SpanRel.splits_kept h).2, hc⟩⟩
  list := fun ⟨vs, span', h, hrs, hc⟩ =>
    ⟨⟨vs, span', (SpanRel.splits_kept h).1, hrs, hc⟩,
      ⟨vs, span', (SpanRel.splits_kept h).2, hrs, hc⟩⟩

/-! ### Models -/

variable {D : Type} {I : Interpretation D} {R : SpanRel}

/-- A cell is right about the meaning of its class. -/
def Cell.Holds (I : Interpretation D) (ρ : Var → D) (d : D) : Cell → Prop
  | .atom name span => I.atom name span d
  | .list vs span => I.list (vs.map ρ) span d
  | _ => True

lemma Cell.Holds.congr {c : Cell} {ρ ρ' : Var → D} {d : D} (h : c.Holds I ρ d)
    (heq : ∀ i ∈ c.items, ρ i = ρ' i) : c.Holds I ρ' d := by
  cases c with
  | list vs span =>
    have : vs.map ρ = vs.map ρ' := List.map_congr_left heq
    simpa only [Holds, this] using h
  | unknown | aliasOf rep | atom name span => exact h

namespace Store

variable {s s' : Store} {ρ ρ' : Var → D} {v w x y : Var} {c : Cell} {m : Merge}

/-- A valuation agrees with all that is known in a store. -/
structure Models (s : Store) (I : Interpretation D) (ρ : Var → D) : Prop where
  root : ∀ v, ρ (s.root v) = ρ v
  cell : ∀ v, (s.cell v).Holds I ρ (ρ v)

lemma models_empty : Store.empty.Models I ρ := by
  have hsize (v : Var) : Store.empty.size ≤ v := Nat.zero_le v
  constructor
  · intro v
    rw [root_of_size_le (hsize v)]
  · intro v
    rw [cell_of_size_le (hsize v)]
    trivial

lemma models_push_iff (hs : s.Closed) (hc : c.isAlias = false) :
    (s.push c).2.Models I ρ ↔ s.Models I ρ ∧ c.Holds I ρ (ρ s.size) := by
  constructor
  · intro h
    refine ⟨⟨fun v => ?_, fun v => ?_⟩, ?_⟩
    · simpa only [root_push hc] using h.root v
    · by_cases hv : v = s.size
      · -- nothing was known of the variable before
        rw [cell_of_size_le (Nat.le_of_eq hv.symm)]
        trivial
      · simpa only [cell_push hs hc, if_neg hv] using h.cell v
    · simpa only [cell_push hs hc, if_true] using h.cell s.size
  · rintro ⟨h, hnew⟩
    constructor
    · intro v
      rw [root_push hc, h.root]
    · intro v
      rw [cell_push hs hc]
      split
      · next hv => exact hv ▸ hnew
      · exact h.cell v

/-- Only the meanings of the variables of a store matter. -/
lemma Models.congr (hs : s.Closed) (h : s.Models I ρ) (heq : ∀ v < s.size, ρ v = ρ' v) :
    s.Models I ρ' := by
  constructor
  · intro v
    by_cases hv : v < s.size
    · rw [← heq v hv, ← heq _ (hs.root_lt_iff.2 hv), h.root]
    · rw [root_of_size_le (Nat.le_of_not_lt hv)]
  · intro v
    by_cases hv : v < s.size
    · rw [← heq v hv]
      exact (h.cell v).congr fun i hi => heq i (hs.cell_items_lt i hi)
    · rw [cell_of_size_le (Nat.le_of_not_lt hv)]
      trivial

/-- Of two classes that are merged, only the cells have to be looked at. -/
lemma models_iff_of_merges (hm : s.Merges v w c) :
    s.Models I ρ ↔ (∀ u, ρ (s.root u) = ρ u) ∧ (s.cell v).Holds I ρ (ρ v) ∧
      (s.cell w).Holds I ρ (ρ w) ∧
      ∀ u, s.root u ≠ v → s.root u ≠ w → (s.cell u).Holds I ρ (ρ u) := by
  constructor
  · exact fun h => ⟨h.root, h.cell v, h.cell w, fun u _ _ => h.cell u⟩
  · rintro ⟨hroot, hv, hw, hrest⟩
    refine ⟨hroot, ?_⟩
    intro u
    by_cases huv : s.root u = v
    · have : s.cell u = s.cell v := Closed.cell_eq_of_root_eq (by
        rw [huv, root_of_isRoot hm.keep_root])
      rw [this, ← hroot u, huv]
      exact hv
    · by_cases huw : s.root u = w
      · have : s.cell u = s.cell w := Closed.cell_eq_of_root_eq (by
          rw [huw, root_of_isRoot hm.drop_root])
        rw [this, ← hroot u, huw]
        exact hw
      · exact hrest u huv huw

lemma models_merge_iff (hs : s.Closed) (hm : s.Merges v w c) :
    (s.merge v w c).Models I ρ ↔ (∀ u, ρ (s.root u) = ρ u) ∧ ρ v = ρ w ∧ c.Holds I ρ (ρ v) ∧
      ∀ u, s.root u ≠ v → s.root u ≠ w → (s.cell u).Holds I ρ (ρ u) := by
  have hv : s.root v = v := root_of_isRoot hm.keep_root
  have hw : s.root w = w := root_of_isRoot hm.drop_root
  constructor
  · intro h
    have heq : ρ v = ρ w := by
      simpa only [hm.root_merge, hw, if_true] using h.root w
    refine ⟨fun u => ?_, heq, ?_, fun u huv huw => ?_⟩
    · have := h.root u
      rw [hm.root_merge] at this
      split at this
      · next hu => rw [hu, ← heq, this]
      · exact this
    · simpa only [hm.cell_merge hs, hv, true_or, if_true] using h.cell v
    · simpa only [hm.cell_merge hs, huv, huw, or_self, if_false] using h.cell u
  · rintro ⟨hroot, heq, hc, hrest⟩
    refine ⟨fun u => ?_, fun u => ?_⟩
    · rw [hm.root_merge]
      split
      · next hu => rw [heq, ← hu, hroot]
      · exact hroot u
    · rw [hm.cell_merge hs]
      split
      · next hu =>
        have : ρ u = ρ v := by
          rcases hu with hu | hu
          · rw [← hroot u, hu]
          · rw [← hroot u, hu, heq]
        exact this ▸ hc
      · next hu => exact hrest u (fun h => hu (.inl h)) (fun h => hu (.inr h))

/-- A store knows all that another one, which came before it, knows. -/
def Knows (s' s : Store) : Prop := s.Models s'.graph s'.root

lemma Closed.knows_self (hs : s.Closed) : s.Knows s := by
  constructor
  · exact fun v => hs.root_root
  · intro v
    cases hc : s.cell v with
    | unknown | aliasOf rep => trivial
    | atom name span => exact ⟨span, fun h => h, by rw [hs.cell_root, hc]⟩
    | list vs span => exact ⟨vs, span, fun h => h, rfl, by rw [hs.cell_root, hc]⟩

/-! ### Models in trees -/

section Trees

variable {θ : Var → Tree} {t : Tree}

/-- A class within another one is less deep than that. -/
lemma Models.height_lt_of_within (h : s.Models (.trees R) θ) (hw : s.Within w v) :
    s.root v = w ∨ (θ w).height < (θ v).height := by
  induction hw with
  | root hr => exact .inl hr
  | @item v i vs span hc hi _ ih =>
    have hcell := h.cell v
    rw [hc] at hcell
    obtain ⟨span', -, hv⟩ := hcell
    have hlt : (θ i).height < (θ v).height := by
      rw [hv]
      exact Tree.height_lt_of_mem (List.mem_map_of_mem hi)
    rcases ih with rfl | ih
    · exact .inr (by rwa [h.root])
    · exact .inr (ih.trans hlt)

/-- Types that have meanings as trees are finite trees. -/
lemma Models.exists_reads (h : s.Models (.trees R) θ) (hs : s.Closed) (v : Var) :
    ∃ t, s.Reads v t := by
  -- the meanings of the parts of a list are less deep than that of the list
  induction hn : (θ v).height using Nat.strong_induction_on generalizing v with
  | _ n ih =>
    have hcell := h.cell v
    cases hc : s.cell v with
    | unknown => exact ⟨_, .unknown hc⟩
    | aliasOf rep => simpa [hc] using hs.isAlias_cell (v := v)
    | atom name span => exact ⟨_, .atom hc⟩
    | list vs span =>
      rw [hc] at hcell
      obtain ⟨span', -, hv⟩ := hcell
      have hlt : ∀ i ∈ vs, (θ i).height < n := fun i hi => by
        rw [← hn, hv]
        exact Tree.height_lt_of_mem (List.mem_map_of_mem hi)
      obtain ⟨ts, hts⟩ := exists_forall₂ fun i hi => ih _ (hlt i hi) i rfl
      exact ⟨_, .list hc hts⟩

/-- What is read off a store is no more than what all models have. -/
lemma Models.fits_of_reads (h : s.Models (.trees R) θ) (hr : s.Reads v t) :
    t.Fits (.trees R) (θ v) := by
  induction t using Tree.induction generalizing v with
  | unknown => trivial
  | atom name span =>
    cases hr with
    | atom hc =>
      have hcell := h.cell v
      rw [hc] at hcell
      exact hcell
  | list ts span ih =>
    cases hr with
    | list hc items =>
      have hcell := h.cell v
      rw [hc] at hcell
      refine ⟨_, Tree.fitsAll_iff_forall₂.2 ?_, hcell⟩
      exact List.forall₂_map_right_iff.2
        (forall₂_imp_of_mem (fun i _ t ht hi => ih t ht hi) items).flip

end Trees

/-! ### Knowledge -/

/-- What a store knows of a type, later stores know too. -/
lemma Knows.fits {t : Tree} (h : s'.Knows s) (hs : s.Closed) (ht : t.Fits s.graph (s.root v)) :
    t.Fits s'.graph (s'.root v) := by
  induction t using Tree.induction generalizing v with
  | unknown => trivial
  | atom name span =>
    obtain ⟨span', hspan, hc⟩ := ht
    have hcell := h.cell v
    rw [hs.cell_root] at hc
    rw [hc] at hcell
    obtain ⟨span'', hspan', hc'⟩ := hcell
    exact ⟨span'', hspan' ∘ hspan, hc'⟩
  | list ts span ih =>
    obtain ⟨ds, hds, vs, span', hspan, rfl, hc⟩ := ht
    have hcell := h.cell v
    rw [hs.cell_root] at hc
    rw [hc] at hcell
    obtain ⟨vs', span'', hspan', hvs, hc'⟩ := hcell
    refine ⟨_, Tree.fitsAll_iff_forall₂.2 ?_, vs', span'', hspan' ∘ hspan, hvs, hc'⟩
    rw [List.forall₂_map_right_iff]
    exact forall₂_imp_of_mem (fun t ht _ _ h => ih t ht h)
      (List.forall₂_map_right_iff.1 (Tree.fitsAll_iff_forall₂.1 hds))

/-- What a store knows of a type can be read off it. -/
lemma fits_trees_of_fits_graph {t u : Tree} (hs : s.Closed) (h : t.Fits s.graph (s.root v))
    (hr : s.Reads v u) : t.Fits (.trees .kept) u := by
  induction t using Tree.induction generalizing v u with
  | unknown => trivial
  | atom name span =>
    obtain ⟨span', hspan, hc⟩ := h
    rw [hs.cell_root] at hc
    cases hr with
    | atom hc' =>
      obtain ⟨rfl, rfl⟩ : _ ∧ _ := by simpa [hc] using hc'
      exact ⟨_, hspan, rfl⟩
    | unknown hc' | list hc' => simp [hc] at hc'
  | list ts span ih =>
    obtain ⟨ds, hds, vs, span', hspan, rfl, hc⟩ := h
    rw [hs.cell_root] at hc
    cases hr with
    | list hc' items =>
      obtain ⟨rfl, rfl⟩ : _ ∧ _ := by simpa [hc] using hc'
      refine ⟨_, Tree.fitsAll_iff_forall₂.2 ?_, _, hspan, rfl⟩
      refine forall₂_trans_of_mem ?_
        (List.forall₂_map_right_iff.1 (Tree.fitsAll_iff_forall₂.1 hds)) items
      exact fun t ht _ _ h hi => ih t ht h hi
    | unknown hc' | atom hc' => simp [hc] at hc'

end Store
end Typing
end TypedLisp
