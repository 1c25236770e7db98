import TypedLisp.Proofs.Typing.Answer
import TypedLisp.Proofs.Typing.Unification

/-!
# Unification is most general

In a store that has been built by the operations of inference, all types are finite, and so its
solutions are the ways to choose types for its unknowns.  Unification of two variables keeps this.
When it ends with a store, that store has exactly the solutions in which the two variables are of
one type; when it does not, there are none.

Two lists are merged without a search, and the merge may leave a class that contains itself.  A run
that ends with a store has got rid of it, though: every unknown that it has bound was bound to a
type that was searched to its end, hence to a finite one, and an atom or a list is as finite in the
last store as its parts are there (`exists_reads_of_unifyAll`).
-/

namespace TypedLisp
namespace Typing

lemma Tree.bare_bare (t : Tree) : t.bare.bare = t.bare := by
  induction t using Tree.induction with
  | unknown | atom name span => rfl
  | list items span ih =>
    have hitems : (items.map bare).map bare = items.map bare := by
      rw [List.map_map]
      exact List.map_congr_left ih
    simp only [bare_list, hitems]

namespace Store

variable {s s' : Store} {v w x y a b : Var} {c : Cell} {m : Merge} {t : Tree}
  {σ σ' τ : Var → Tree}

/-! ### What was finite stays finite -/

/-- A search that finds nothing has gone through all of the type, which is finite therefore. -/
lemma exists_reads_of_occursTo {r : Var} {depth : Nat} (hs : s.Closed)
    (h : s.occursTo r depth v = .ok false) : ∃ t, s.Reads v t := by
  induction depth generalizing v with
  | zero => simp [occursTo] at h
  | succ depth ih =>
    rw [occursTo] at h
    split at h
    · cases h
    · refine hs.exists_reads ?_
      cases hc : s.cell v with
      | unknown | aliasOf r | atom name span => simp
      | list vs span =>
        rw [hc] at h
        exact fun i hi => ih (Except.anyM_eq_ok h i hi)

lemma exists_reads_of_planBind (hs : s.Closed) (h : s.planBind x y c = .ok m) :
    ∃ t, s.Reads y t := by
  obtain ⟨found, ho, h⟩ := Except.exists_of_bind_eq_ok h
  cases found with
  | false => exact exists_reads_of_occursTo hs ho
  | true =>
    obtain ⟨type, -, h⟩ := Except.exists_of_bind_eq_ok h
    cases h

/-- An unknown class is dropped only in favour of a finite type. -/
lemma exists_reads_keep (hs : s.Closed) (h : s.plan x y = .ok m)
    (hdrop : s.cell m.drop = .unknown) : ∃ t, s.Reads m.keep t := by
  unfold plan at h
  split at h
  · obtain ⟨-, rfl⟩ := of_planBind_eq_ok h
    exact exists_reads_of_planBind hs h
  · obtain ⟨-, rfl⟩ := of_planBind_eq_ok h
    exact exists_reads_of_planBind hs h
  · next hy =>
    split at h
    · obtain rfl := Except.ok.inj h
      cases hdrop.symm.trans hy
    · cases h
  · next hy =>
    split at h
    · obtain rfl := Except.ok.inj h
      cases hdrop.symm.trans hy
    · cases h
  · obtain ⟨_, -, h⟩ := Except.exists_of_bind_eq_ok h
    obtain ⟨_, -, h⟩ := Except.exists_of_bind_eq_ok h
    cases h

lemma Plans.not_within_of_unknown (h : s.Plans x y m) (hdrop : s.cell m.drop = .unknown) :
    ¬ s.Within m.drop m.keep := by
  cases h with
  | left _ hw | right _ hw => exact hw
  | atoms _ hy | lists _ hy => cases hdrop.symm.trans hy

/-- After a step, a variable of which nothing was known is of a finite type. -/
lemma exists_reads_merge_of_unknown (hs : s.Closed) (hx : s.isRoot x) (hy : s.isRoot y)
    (hne : x ≠ y) (hm : s.plan x y = .ok m) (hv : s.cell v = .unknown) :
    ∃ t, (s.merge m.keep m.drop m.cell).Reads v t := by
  have hplan := plans_of_plan hm
  have hmerge := hplan.merges hs hx hy hne
  by_cases hd : s.root v = m.drop
  · -- it has joined the class that is kept, which has been searched for it
    have hdrop : s.cell m.drop = .unknown := by rw [← hd, hs.cell_root, hv]
    obtain ⟨t, ht⟩ := exists_reads_keep hs hm hdrop
    obtain ⟨u, hu⟩ := exists_reads_merge hs hmerge hplan.items_eq ht
      (hplan.not_within_of_unknown hdrop)
    refine ⟨u, hu.of_root_eq ?_⟩
    rw [hmerge.root_merge, hmerge.root_merge, root_of_isRoot hmerge.keep_root, if_neg hmerge.ne,
      if_pos hd]
  · refine (hmerge.closed hs).exists_reads ?_
    have hitems : ((s.merge m.keep m.drop m.cell).cell v).items = [] := by
      rw [hmerge.cell_merge hs]
      split
      · next hr =>
        have hk : s.cell m.keep = .unknown := by rw [← hr.resolve_right hd, hs.cell_root, hv]
        rw [hplan.items_eq, hk]
        rfl
      · rw [hv]
        rfl
    simp [hitems]

/-- What is known to be a list is one in a later store too, and the items are of the same
classes there. -/
lemma Knows.exists_list {vs : List Var} {span : Option Span} (h : s'.Knows s) (hs' : s'.Closed)
    (hv : s.cell v = .list vs span) :
    ∃ vs' span', s'.cell v = .list vs' span' ∧
      List.Forall₂ (fun i i' => s'.root i = s'.root i') vs vs' := by
  have hcell := h.cell v
  rw [hv] at hcell
  obtain ⟨vs', span', -, hvs, hc⟩ := hcell
  refine ⟨vs', span', by rwa [hs'.cell_root] at hc, ?_⟩
  rwa [← List.forall₂_eq_eq_eq, List.forall₂_map_left_iff, List.forall₂_map_right_iff] at hvs

lemma Knows.exists_atom {name : String} {span : Option Span} (h : s'.Knows s) (hs' : s'.Closed)
    (hv : s.cell v = .atom name span) : ∃ span', s'.cell v = .atom name span' := by
  have hcell := h.cell v
  rw [hv] at hcell
  obtain ⟨span', -, hc⟩ := hcell
  exact ⟨span', by rwa [hs'.cell_root] at hc⟩

/-- Finite types stay finite in a later store in which the unknowns are of finite types. -/
lemma exists_reads_of_knows (h : s'.Knows s) (hs' : s'.Closed)
    (hunknown : ∀ v, s.cell v = .unknown → ∃ t, s'.Reads v t) (hv : s.Reads v t) :
    ∃ t, s'.Reads v t := by
  induction t using Tree.induction generalizing v with
  | unknown => cases hv with | unknown hc => exact hunknown v hc
  | atom name span =>
    cases hv with
    | atom hc =>
      obtain ⟨span', hc'⟩ := h.exists_atom hs' hc
      exact ⟨_, .atom hc'⟩
  | list ts span ih =>
    cases hv with
    | list hc items =>
      obtain ⟨vs', span', hc', hroots⟩ := h.exists_list hs' hc
      refine hs'.exists_reads fun i' hi' => ?_
      rw [hc'] at hi'
      obtain ⟨i, hi, hroot⟩ := exists_left_of_forall₂ hroots hi'
      obtain ⟨u, hu, hread⟩ := exists_right_of_forall₂ items hi
      obtain ⟨t', ht'⟩ := ih u hu hread
      exact ⟨t', ht'.of_root_eq hroot⟩

/-- A run of unification that ends with a store has left all finite types finite. -/
theorem exists_reads_of_unifyAll {pairs : List (Var × Var)} (hs : s.Closed)
    (hp : ∀ p ∈ pairs, p.1 < s.size ∧ p.2 < s.size) (h : s.unifyAll pairs = .ok s')
    (hv : s.Reads v t) : ∃ t, s'.Reads v t := by
  fun_induction unifyAll s pairs generalizing v t with
  | case1 s =>
    obtain rfl := Except.ok.inj h
    exact ⟨t, hv⟩
  | case2 s a b pairs hroots e he => cases h
  | case3 s a b pairs hroots m hm ih =>
    obtain ⟨hne, hra, hrb⟩ := hroots
    have hplan := plans_of_plan hm
    have hmerge := hplan.merges hs hra hrb hne
    -- the last store knows what this one knows, so only the unknowns have to be looked at
    have hknows : s'.Closed ∧ s'.Knows s := by
      have hrun : s.unifyAll ((a, b) :: pairs) = .ok s' := by
        rw [unifyAll_cons ⟨hne, hra, hrb⟩, hm]
        exact h
      obtain ⟨hc, -, hmod⟩ := of_unifyAll_eq_ok hs hp hrun
      exact ⟨hc, (hmod s'.splits_graph hc.knows_self).1⟩
    refine exists_reads_of_knows hknows.2 hknows.1 (fun w hw => ?_) hv
    obtain ⟨u, hu⟩ := exists_reads_merge_of_unknown hs hra hrb hne hm hw
    exact ih (hmerge.closed hs) (hplan.pairs_lt hs hp) h hu
  | case4 s a b pairs hroots ih => exact ih hs (List.forall_mem_cons.1 hp).2 h hv

lemma Finite.unify (hf : s.Finite) (hs : s.Closed) (ha : a < s.size) (hb : b < s.size)
    (h : s.unify a b = .ok s') : s'.Finite := by
  intro v
  obtain ⟨t, ht⟩ := hf v
  exact exists_reads_of_unifyAll hs (by simp [ha, hb]) h ht

/-! ### Solutions -/

/-- Types for all variables solve a store if, spans aside, the variables of a class have one type,
and it is as the cell of the class says. -/
structure Solves (s : Store) (σ : Var → Tree) : Prop where
  root : ∀ v, (σ (s.root v)).bare = (σ v).bare
  atom : ∀ v name span, s.cell v = .atom name span → (σ v).bare = .atom name none
  list : ∀ v vs span, s.cell v = .list vs span →
    (σ v).bare = .list (vs.map fun i => (σ i).bare) none

/-- The solutions are the models in trees without spans. -/
lemma solves_iff_models : s.Solves σ ↔ s.Models (.trees .any) fun v => (σ v).bare := by
  constructor
  · intro h
    refine ⟨h.root, fun v => ?_⟩
    cases hc : s.cell v with
    | unknown | aliasOf r => trivial
    | atom name span => exact ⟨none, trivial, h.atom v name span hc⟩
    | list vs span => exact ⟨none, trivial, h.list v vs span hc⟩
  · intro h
    refine ⟨h.root, fun v name span hc => ?_, fun v vs span hc => ?_⟩
    · have hcell := h.cell v
      rw [hc] at hcell
      obtain ⟨span', -, hv⟩ := hcell
      rw [← Tree.bare_bare, hv, Tree.bare_atom]
    · have hcell := h.cell v
      rw [hc] at hcell
      obtain ⟨span', -, hv⟩ := hcell
      rw [← Tree.bare_bare, hv, Tree.bare_list, List.map_map]
      simp only [Function.comp_def, Tree.bare_bare]

/-- The type of a variable when the unknowns are of the given types, read no deeper than `depth`
lists. -/
def fillTo (s : Store) (τ : Var → Tree) : Nat → Var → Tree
  | 0, _ => .unknown
  | depth + 1, v =>
    match s.cell v with
    | .unknown | .aliasOf _ => τ (s.root v)
    | .atom name span => .atom name span
    | .list items span => .list (items.map (fillTo s τ depth)) span

/-- The type of a variable when the unknowns are of the given types. -/
def fill (s : Store) (τ : Var → Tree) (v : Var) : Tree := s.fillTo τ (s.size + 1) v

/-- All depths from the height of a type on give one type. -/
lemma fillTo_eq {d d' : Nat} (h : s.Reads v t) (hd : t.height ≤ d) (hd' : t.height ≤ d') :
    s.fillTo τ d v = s.fillTo τ d' v := by
  induction t using Tree.induction generalizing v d d' with
  | unknown | atom name span =>
    obtain ⟨e, rfl⟩ := Nat.exists_eq_succ_of_ne_zero (Nat.ne_of_gt hd)
    obtain ⟨e', rfl⟩ := Nat.exists_eq_succ_of_ne_zero (Nat.ne_of_gt hd')
    cases h
    all_goals simp only [fillTo, *]
  | list ts span ih =>
    cases h with
    | @list _ vs _ _ hc items =>
      obtain ⟨e, rfl⟩ := Nat.exists_eq_add_of_le' (Nat.le_of_add_left_le hd)
      obtain ⟨e', rfl⟩ := Nat.exists_eq_add_of_le' (Nat.le_of_add_left_le hd')
      have hitems : vs.map (s.fillTo τ e) = vs.map (s.fillTo τ e') := by
        refine List.map_congr_left fun i hi => ?_
        obtain ⟨u, hu, hread⟩ := exists_right_of_forall₂ items hi
        have hle := Tree.height_le_heightAll hu
        exact ih u hu hread (hle.trans (Nat.le_of_succ_le_succ hd))
          (hle.trans (Nat.le_of_succ_le_succ hd'))
      simp only [fillTo, hc, hitems]

/-- Types for the unknowns give a solution. -/
lemma Finite.solves_fill (hf : s.Finite) (hs : s.Closed) (τ : Var → Tree) :
    s.Solves (s.fill τ) := by
  refine ⟨fun v => ?_, fun v name span hc => ?_, fun v vs span hc => ?_⟩
  · simp only [fill, fillTo, hs.root_root, hs.cell_root]
  · simp only [fill, fillTo, hc, Tree.bare_atom]
  · have hitems : vs.map (s.fillTo τ s.size) = vs.map (s.fill τ) := by
      refine List.map_congr_left fun i hi => ?_
      obtain ⟨t, ht⟩ := hf v
      obtain ⟨u, hu, hlt⟩ := ht.item (i := i) (by rwa [hc])
      have hle : u.height ≤ s.size := Nat.le_of_lt_succ (Nat.lt_of_lt_of_le hlt ht.height_le)
      exact fillTo_eq hu hle hu.height_le
    simp only [fill, fillTo, hc, Tree.bare_list]
    rw [hitems, List.map_map]
    rfl

lemma fill_of_unknown (hv : s.cell v = .unknown) : s.fill τ v = τ (s.root v) := by
  simp only [fill, fillTo, hv]

/-- Solutions with the same types for the unknowns are the same. -/
lemma Solves.bare_eq (h : s.Solves σ) (h' : s.Solves σ')
    (hunknown : ∀ v, s.cell v = .unknown → (σ v).bare = (σ' v).bare) (hv : s.Reads v t) :
    (σ v).bare = (σ' v).bare := by
  induction t using Tree.induction generalizing v with
  | unknown => cases hv with | unknown hc => exact hunknown v hc
  | atom name span => cases hv with | atom hc => rw [h.atom _ _ _ hc, h'.atom _ _ _ hc]
  | list ts span ih =>
    cases hv with
    | @list _ vs _ _ hc items =>
      have hitems : (vs.map fun i => (σ i).bare) = vs.map fun i => (σ' i).bare := by
        refine List.map_congr_left fun i hi => ?_
        obtain ⟨u, hu, hread⟩ := exists_right_of_forall₂ items hi
        exact ih u hu hread
      rw [h.list _ _ _ hc, h'.list _ _ _ hc, hitems]

/-- The solutions of a store are the ways to choose types for its unknowns: any types for them are
those of a solution, which has no choice in the types of the other variables. -/
structure Solved (s : Store) : Prop where
  exists_solves : ∀ τ : Var → Tree, ∃ σ, s.Solves σ ∧
    ∀ v, s.cell v = .unknown → σ v = τ (s.root v)
  bare_eq : ∀ σ σ' : Var → Tree, s.Solves σ → s.Solves σ' →
    (∀ v, s.cell v = .unknown → (σ v).bare = (σ' v).bare) → ∀ v, (σ v).bare = (σ' v).bare

lemma Finite.solved (hf : s.Finite) (hs : s.Closed) : s.Solved where
  exists_solves τ := ⟨s.fill τ, hf.solves_fill hs τ, fun _ hv => fill_of_unknown hv⟩
  bare_eq σ σ' h h' hunknown v := by
    obtain ⟨t, ht⟩ := hf v
    exact h.bare_eq h' hunknown ht

/-! ### Equal types -/

/-- Two variables have equal types: they are of one class, or their classes are atoms of one name
or lists of as many items with equal types.  So the unknowns in two equal types are the same, and
spans do not matter. -/
inductive SameType (s : Store) : Var → Var → Prop where
  | root {v w : Var} (h : s.root v = s.root w) : SameType s v w
  | atom {v w : Var} {name : String} {span span' : Option Span} (hv : s.cell v = .atom name span)
    (hw : s.cell w = .atom name span') : SameType s v w
  | list {v w : Var} {vs ws : List Var} {span span' : Option Span}
    (hv : s.cell v = .list vs span) (hw : s.cell w = .list ws span')
    (hlen : vs.length = ws.length) (items : ∀ p ∈ vs.zip ws, SameType s p.1 p.2) :
    SameType s v w

namespace SameType

lemma of_root_eq (h : s.SameType v w) (hv : s.root v = s.root x) (hw : s.root w = s.root y) :
    s.SameType x y := by
  have hcv : s.cell v = s.cell x := Closed.cell_eq_of_root_eq hv
  have hcw : s.cell w = s.cell y := Closed.cell_eq_of_root_eq hw
  cases h with
  | root h => exact .root (hv.symm.trans (h.trans hw))
  | atom h h' => exact .atom (hcv ▸ h) (hcw ▸ h')
  | list h h' hlen items => exact .list (hcv ▸ h) (hcw ▸ h') hlen items

/-- Equal types are equal in a later store too. -/
lemma of_knows (h : s.SameType v w) (hk : s'.Knows s) (hs' : s'.Closed) : s'.SameType v w := by
  induction h with
  | root h =>
    refine .root ?_
    rw [← hk.root, h, hk.root]
  | atom hv hw =>
    obtain ⟨_, hv'⟩ := hk.exists_atom hs' hv
    obtain ⟨_, hw'⟩ := hk.exists_atom hs' hw
    exact .atom hv' hw'
  | @list v w vs ws _ _ hv hw hlen _ ih =>
    obtain ⟨vs', _, hv', hvs⟩ := hk.exists_list hs' hv
    obtain ⟨ws', _, hw', hws⟩ := hk.exists_list hs' hw
    have hitems : List.Forall₂ s'.SameType vs ws :=
      List.forall₂_iff_zip.2 ⟨hlen, fun {i j} hij => ih (i, j) hij⟩
    -- the items of the later cells are of the classes of these items
    have hleft : List.Forall₂ s'.SameType vs' ws := forall₂_trans_of_mem
      (fun i' _ i j (h : s'.root i = s'.root i') (h' : s'.SameType i j) => h'.of_root_eq h rfl)
      hvs.flip hitems
    have hright : List.Forall₂ s'.SameType vs' ws' := forall₂_trans_of_mem
      (fun i _ j j' (h : s'.SameType i j) (h' : s'.root j = s'.root j') => h.of_root_eq rfl h')
      hleft hws
    obtain ⟨hlen', hzip⟩ := List.forall₂_iff_zip.1 hright
    exact .list hv' hw' hlen' fun p hp => hzip hp

end SameType

/-! ### Classes that contain themselves -/

/-- The class of a variable is part of its own type. -/
def ContainsItself (s : Store) (v : Var) : Prop :=
  ∃ i ∈ (s.cell v).items, s.Within (s.root v) i

/-- A class that contains itself is no finite type. -/
lemma Finite.not_containsItself (hf : s.Finite) (hs : s.Closed) (v : Var) :
    ¬ s.ContainsItself v := by
  rintro ⟨i, hi, hw⟩
  obtain ⟨θ, hm⟩ := hf.exists_models hs
  have hcell := hm.cell v
  cases hc : s.cell v with
  | unknown | aliasOf r | atom name span => simp [hc] at hi
  | list vs span =>
    rw [hc] at hi hcell
    obtain ⟨span', -, hv⟩ := hcell
    have hlt : (θ i).height < (θ v).height := by
      rw [hv]
      exact Tree.height_lt_of_mem (List.mem_map_of_mem hi)
    -- the item is of the class itself, or deeper than it
    rcases hm.height_lt_of_within hw with hr | hgt
    · rw [← hm.root i, hr, hm.root] at hlt
      exact Nat.lt_irrefl _ hlt
    · rw [hm.root] at hgt
      exact Nat.lt_asymm hlt hgt

/-! ### Stores that inference can build -/

/-- A store has been built from the empty one by new variables, new types, new arrows and
unification that has ended with a store. -/
inductive Built : Store → Prop where
  | empty : Built .empty
  | push {s : Store} {c : Cell} (hs : Built s) (hc : c.isAlias = false)
    (hi : ∀ i ∈ c.items, i < s.size) : Built (s.push c).2
  | intern {s s' : Store} {v : Var} {H : Type} {n : Node H} (hs : Built s)
    (h : s.intern n = .ok (v, s')) : Built s'
  | pushUnknownArrow {s : Store} (hs : Built s) (arity : Nat) : Built (s.pushUnknownArrow arity).2
  | pushArrow {s : Store} {types : List Var} (hs : Built s) (ht : ∀ i ∈ types, i < s.size) :
    Built (s.pushArrow types).2
  | unify {s s' : Store} {a b : Var} (hs : Built s) (ha : a < s.size) (hb : b < s.size)
    (h : s.unify a b = .ok s') : Built s'

lemma Finite.push (hf : s.Finite) (hs : s.Closed) (hc : c.isAlias = false)
    (hi : ∀ i ∈ c.items, i < s.size) : (s.push c).2.Finite := by
  obtain ⟨θ, hm⟩ := hf.exists_models hs
  have hholds : ∃ t, c.Holds (.trees .any) θ t := by
    cases c with
    | unknown | aliasOf r => exact ⟨.unknown, trivial⟩
    | atom name span => exact ⟨.atom name span, span, trivial, rfl⟩
    | list vs span => exact ⟨.list (vs.map θ) span, span, trivial, rfl⟩
  obtain ⟨t, ht⟩ := hholds
  obtain ⟨θ', -, hm', -⟩ := exists_models_push hs hc hi hm ht
  exact hm'.exists_reads (grows_push hs hc hi).closed

/-- All types of a store that has been built are finite. -/
theorem Built.closed_and_finite (h : s.Built) : s.Closed ∧ s.Finite := by
  induction h with
  | empty => exact ⟨closed_empty, finite_empty⟩
  | push _ hc hi ih => exact ⟨(grows_push ih.1 hc hi).closed, ih.2.push ih.1 hc hi⟩
  | @intern s s' v H n _ h ih =>
    obtain ⟨-, -, hg, -⟩ := of_intern_eq_ok ih.1 h
    have hanswer := answers_intern (T := False) (n := n) ih.1 (.inl ih.2)
    rw [h] at hanswer
    exact ⟨hg.closed, hanswer.resolve_right id⟩
  | pushUnknownArrow _ arity ih =>
    obtain ⟨hg, hlt⟩ := grows_pushUnknowns ih.1 (arity + 1)
    exact ⟨(grows_pushArrow hg.closed hlt).1.closed, finite_pushUnknownArrow ih.1 ih.2⟩
  | pushArrow _ ht ih => exact ⟨(grows_pushArrow ih.1 ht).1.closed, finite_pushArrow ih.1 ht ih.2⟩
  | unify _ ha hb h ih => exact ⟨(grows_unify ih.1 ha hb h).closed, ih.2.unify ih.1 ha hb h⟩

/-! ### Unification -/

/-- A store is what another one becomes when two variables are made equal and nothing more is
known than that. -/
structure Equates (s : Store) (a b : Var) (s' : Store) : Prop where
  sameType : s'.SameType a b
  sameType_of_sameType : ∀ v w, s.SameType v w → s'.SameType v w
  not_containsItself : ∀ v, ¬ s'.ContainsItself v
  solved : s'.Solved
  solves_iff : ∀ σ, s'.Solves σ ↔ s.Solves σ ∧ (σ a).bare = (σ b).bare

lemma solves_of_unify_eq_ok (hs : s.Closed) (ha : a < s.size) (hb : b < s.size)
    (h : s.unify a b = .ok s') : s'.Solves σ ↔ s.Solves σ ∧ (σ a).bare = (σ b).bare := by
  rw [solves_iff_models, solves_iff_models]
  constructor
  · intro hm
    obtain ⟨-, -, hmod⟩ := of_unify_eq_ok hs ha hb h
    exact hmod (Interpretation.splits_trees SpanRel.splits_any) hm
  · rintro ⟨hm, heq⟩
    obtain ⟨s₁, h₁, hm₁⟩ := exists_unify SpanRel.joins_any hs ha hb hm heq
    obtain rfl := Except.ok.inj (h.symm.trans h₁)
    exact hm₁

lemma equates_of_unify_eq_ok (hs : s.Built) (ha : a < s.size) (hb : b < s.size)
    (h : s.unify a b = .ok s') : s.Equates a b s' := by
  obtain ⟨hc, -⟩ := hs.closed_and_finite
  obtain ⟨hc', hf'⟩ := (hs.unify ha hb h).closed_and_finite
  have hg := grows_unify hc ha hb h
  refine ⟨.root ?_, fun v w hvw => hvw.of_knows hg.knows hc', hf'.not_containsItself hc',
    hf'.solved hc', fun σ => solves_of_unify_eq_ok hc ha hb h⟩
  -- the classes of the result are a model of it in which both sides are equal
  obtain ⟨-, -, hmod⟩ := of_unify_eq_ok hc ha hb h
  exact (hmod s'.splits_graph hc'.knows_self).2

/-- **Unification is most general.**  The solutions of a store that has been built are the ways to
choose types for its unknowns.  If unification of two of its variables ends with a store, the two
variables have equal types there, and so have all that had before, no class contains itself, and
its solutions, which again are the ways to choose types for its unknowns, are those of the old store
in which the two variables are of one type.  If it ends with an error, or goes on without end, there
is no such solution. -/
theorem unify_isMostGeneral (hs : s.Built) (ha : a < s.size) (hb : b < s.size) :
    s.Solved ∧ (∀ s', s.unify a b = .ok s' → s.Equates a b s') ∧
      ((∀ s', s.unify a b ≠ .ok s') → ∀ σ, s.Solves σ → (σ a).bare ≠ (σ b).bare) := by
  obtain ⟨hc, hf⟩ := hs.closed_and_finite
  refine ⟨hf.solved hc, fun s' h => equates_of_unify_eq_ok hs ha hb h, ?_⟩
  intro hno σ hσ heq
  obtain ⟨s', h, -⟩ :=
    exists_unify SpanRel.joins_any hc ha hb (solves_iff_models.1 hσ) heq
  exact hno s' h

/-- The arrows `(-> x y)` and `(-> x int)`, which share the unknown `x`. -/
def sharedArrows : Store :=
  (((Store.empty.pushUnknownArrow 1).2.push (.atom "int" none)).2.pushArrow [0, 4]).2

lemma built_sharedArrows : sharedArrows.Built :=
  .pushArrow (.push (.pushUnknownArrow .empty 1) rfl (by simp)) (by decide)

/-- Of two arrows that share an argument, the results become equal; and the argument cannot become
the arrow that it belongs to. -/
theorem unify_isMostGeneral_of_sharedArrows :
    (∃ s', sharedArrows.unify 3 6 = .ok s' ∧
        s'.read 3 = .ok (.list [.atom "->" none, .null, .atom "int" none] none : Node Empty) ∧
        sharedArrows.Equates 3 6 s') ∧
      sharedArrows.unify 0 3 =
        .error (.raised (.typing (.selfContaining "(-> [null] [null])") [])) ∧
      ∀ σ, sharedArrows.Solves σ → (σ 0).bare ≠ (σ 3).bare := by
  obtain ⟨s', hs', hread⟩ : ∃ s', sharedArrows.unify 3 6 = .ok s' ∧
      s'.read 3 = .ok (.list [.atom "->" none, .null, .atom "int" none] none : Node Empty) :=
    ⟨_, by cbv, by cbv⟩
  have he : sharedArrows.unify 0 3 =
      .error (.raised (.typing (.selfContaining "(-> [null] [null])") [])) := by cbv
  refine ⟨⟨s', hs', hread, ?_⟩, he, ?_⟩
  · exact (unify_isMostGeneral built_sharedArrows (by decide) (by decide)).2.1 s' hs'
  · refine (unify_isMostGeneral built_sharedArrows (by decide) (by decide)).2.2 fun s' h => ?_
    cases he.symm.trans h

end Store
end Typing
end TypedLisp
