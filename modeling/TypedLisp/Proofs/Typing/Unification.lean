import Mathlib.Data.Set.Lattice
import Mathlib.Order.CompletePartialOrder
import Mathlib.Order.Interval.Set.Basic
import TypedLisp.Proofs.Typing.Growth
import TypedLisp.Proofs.Typing.Merge

/-!
# Unification of two types

Two type nodes are unified in a store that has nothing else in it.  There each of them is laid out
on a range of variables of its own, one for each part (`Store.Lays`), so no class is met twice: a
pair of parts changes only the classes of their two ranges (`Store.Changes`), and what has become
of the parts on the left stays as it is when those on the right are unified.  Hence a run is no
more than the recursion of `Tree.merge`, and no search for a class finds it.
-/

namespace TypedLisp

/-! ### Expected outcomes -/

lemma Except.toOption_bind {ε α β : Type} (x : Except ε α) (f : α → Except ε β) :
    (x >>= f).toOption = x.toOption.bind fun a => (f a).toOption := by
  cases x <;> rfl

namespace Outcome

variable {α β γ δ : Type} {x : Outcome α} {o : Option β} {R : β → α → Prop}

/-- An outcome is an answer that goes with what is expected, or a type error if nothing is. -/
def Realizes (x : Outcome α) (o : Option β) (R : β → α → Prop) : Prop :=
  match o with
  | some b => ∃ a, x = .ok a ∧ R b a
  | none => ∃ spans cause, x = typeError spans cause

lemma Realizes.bind {f : α → Outcome γ} {g : β → Option δ} {S : δ → γ → Prop}
    (h : x.Realizes o R) (hf : ∀ b a, R b a → (f a).Realizes (g b) S) :
    (x >>= f : Outcome γ).Realizes (o.bind g) S := by
  cases o with
  | some b =>
    obtain ⟨a, rfl, hR⟩ := h
    exact hf b a hR
  | none =>
    obtain ⟨spans, cause, rfl⟩ := h
    exact ⟨spans, cause, rfl⟩

lemma Realizes.map {g : β → δ} {S : δ → α → Prop} (h : x.Realizes o R)
    (hR : ∀ b a, R b a → S (g b) a) : x.Realizes (o.map g) S := by
  cases o with
  | some b =>
    obtain ⟨a, hx, hba⟩ := h
    exact ⟨a, hx, hR b a hba⟩
  | none => exact h

lemma Realizes.toOption_eq {f : β → α} (h : x.Realizes o fun b a => a = f b) :
    x.toOption = o.map f := by
  cases o with
  | some b =>
    obtain ⟨a, rfl, rfl⟩ := h
    rfl
  | none =>
    obtain ⟨spans, cause, rfl⟩ := h
    rfl

end Outcome

namespace Typing
namespace Store

open Set (Ico)

variable {s s' s'' : Store} {v w x lo hi lo' hi' : Var} {vs ws : List Var} {t u : Tree}
  {ts us : List Tree} {P Q : Set Var} {keep drop : Var} {c : Cell}

/-! ### Types in a range of variables -/

mutual

/-- A type is laid out on the variables from `lo` to `v`: each part is a class of its own of one
variable, and the items of a list come one after the other right before the list. -/
def Lays (s : Store) : Var → Tree → Var → Prop
  | lo, .unknown, v => lo = v ∧ s.root v = v ∧ s.cell v = .unknown
  | lo, .atom name span, v => lo = v ∧ s.root v = v ∧ s.cell v = .atom name span
  | lo, .list items span, v =>
    ∃ vs, LaysAll s lo items vs v ∧ s.root v = v ∧ s.cell v = .list vs span

/-- Some types are laid out one after the other on the variables from `lo` up to `hi`. -/
def LaysAll (s : Store) : Var → List Tree → List Var → Var → Prop
  | lo, [], vs, hi => vs = [] ∧ lo = hi
  | lo, t :: ts, vs, hi => ∃ v ws, vs = v :: ws ∧ Lays s lo t v ∧ LaysAll s (v + 1) ts ws hi

end

lemma Lays.root_eq (h : s.Lays lo t v) : s.root v = v := by
  cases t with
  | unknown | atom name span => exact h.2.1
  | list items span =>
    obtain ⟨vs, -, hroot, -⟩ := h
    exact hroot

lemma Lays.exists_list {span : Option Span} (h : s.Lays lo (.list ts span) v) :
    ∃ vs, s.LaysAll lo ts vs v ∧ s.cell v = .list vs span := by
  obtain ⟨vs, hitems, -, hcell⟩ := h
  exact ⟨vs, hitems, hcell⟩

lemma LaysAll.length_eq (h : s.LaysAll lo ts vs hi) : vs.length = ts.length := by
  induction ts generalizing lo vs with
  | nil =>
    obtain ⟨rfl, -⟩ := h
    rfl
  | cons t ts ih =>
    obtain ⟨v, vs, rfl, -, hts⟩ := h
    rw [List.length_cons, List.length_cons, ih hts]

mutual

lemma Lays.le {lo v : Var} {t : Tree} (h : s.Lays lo t v) : lo ≤ v := by
  match t, h with
  | .unknown, h | .atom name span, h => exact Nat.le_of_eq h.1
  | .list items span, ⟨_, hitems, _⟩ => exact hitems.le

lemma LaysAll.le {lo hi : Var} {ts : List Tree} {vs : List Var} (h : s.LaysAll lo ts vs hi) :
    lo ≤ hi := by
  match ts, h with
  | [], h => exact Nat.le_of_eq h.2
  | t :: ts, ⟨v, ws, _, ht, hts⟩ => exact ht.le.trans (Nat.le_of_succ_le hts.le)

end

mutual

/-- Only the classes of the range matter. -/
lemma Lays.congr {lo v : Var} {t : Tree} (h : s.Lays lo t v)
    (heq : ∀ i ∈ Ico lo (v + 1), s.root i = i → s'.root i = i ∧ s'.cell i = s.cell i) :
    s'.Lays lo t v := by
  have hv := heq v ⟨h.le, Nat.lt_succ_self v⟩ h.root_eq
  match t, h with
  | .unknown, ⟨hlo, _, hcell⟩ | .atom name span, ⟨hlo, _, hcell⟩ =>
    exact ⟨hlo, hv.1, hv.2.trans hcell⟩
  | .list items span, ⟨vs, hitems, _, hcell⟩ =>
    exact ⟨vs, hitems.congr fun i hi => heq i ⟨hi.1, Nat.lt_succ_of_lt hi.2⟩, hv.1,
      hv.2.trans hcell⟩

lemma LaysAll.congr {lo hi : Var} {ts : List Tree} {vs : List Var} (h : s.LaysAll lo ts vs hi)
    (heq : ∀ i ∈ Ico lo hi, s.root i = i → s'.root i = i ∧ s'.cell i = s.cell i) :
    s'.LaysAll lo ts vs hi := by
  match ts, h with
  | [], h => exact h
  | t :: ts, ⟨v, ws, hvs, ht, hts⟩ =>
    refine ⟨v, ws, hvs, ht.congr fun i hi => heq i ⟨hi.1, ?_⟩,
      hts.congr fun i hi => heq i ⟨?_, hi.2⟩⟩
    · exact Nat.lt_of_lt_of_le hi.2 hts.le
    · exact ht.le.trans (Nat.le_of_succ_le hi.1)

end

/-! ### Types in a set of classes -/

/-- The type of a variable is a finite tree, and its classes are in a set. -/
inductive ReadsIn (s : Store) (P : Set Var) : Var → Tree → Prop where
  | unknown {v : Var} (hP : s.root v ∈ P) (h : s.cell v = .unknown) : ReadsIn s P v .unknown
  | atom {v : Var} {name : String} {span : Option Span} (hP : s.root v ∈ P)
    (h : s.cell v = .atom name span) : ReadsIn s P v (.atom name span)
  | list {v : Var} {vs : List Var} {ts : List Tree} {span : Option Span} (hP : s.root v ∈ P)
    (h : s.cell v = .list vs span) (items : List.Forall₂ (ReadsIn s P) vs ts) :
    ReadsIn s P v (.list ts span)

namespace ReadsIn

lemma reads (h : s.ReadsIn P v t) : s.Reads v t := by
  induction t using Tree.induction generalizing v with
  | unknown => cases h with | unknown _ hc => exact .unknown hc
  | atom name span => cases h with | atom _ hc => exact .atom hc
  | list items span ih =>
    cases h with
    | list _ hc hitems =>
      exact .list hc (forall₂_imp_of_mem (fun _ _ t ht h => ih t ht h) hitems)

/-- Only the classes of the set matter. -/
lemma congr (h : s.ReadsIn P v t) (hPQ : P ⊆ Q)
    (heq : ∀ i, s.root i ∈ P → s'.root i = s.root i ∧ s'.cell i = s.cell i) :
    s'.ReadsIn Q v t := by
  induction t using Tree.induction generalizing v with
  | unknown =>
    cases h with
    | unknown hP hc =>
      obtain ⟨hroot, hcell⟩ := heq v hP
      exact .unknown (hroot ▸ hPQ hP) (hcell.trans hc)
  | atom name span =>
    cases h with
    | atom hP hc =>
      obtain ⟨hroot, hcell⟩ := heq v hP
      exact .atom (hroot ▸ hPQ hP) (hcell.trans hc)
  | list items span ih =>
    cases h with
    | list hP hc hitems =>
      obtain ⟨hroot, hcell⟩ := heq v hP
      exact .list (hroot ▸ hPQ hP) (hcell.trans hc)
        (forall₂_imp_of_mem (fun _ _ t ht h => ih t ht h) hitems)

lemma of_root_eq (h : s.ReadsIn P v t) (hr : s.root v = s.root w) : s.ReadsIn P w t := by
  have hc : s.cell v = s.cell w := Closed.cell_eq_of_root_eq hr
  cases h with
  | unknown hP h => exact .unknown (hr ▸ hP) (hc ▸ h)
  | atom hP h => exact .atom (hr ▸ hP) (hc ▸ h)
  | list hP h items => exact .list (hr ▸ hP) (hc ▸ h) items

lemma mono (h : s.ReadsIn P v t) (hPQ : P ⊆ Q) : s.ReadsIn Q v t :=
  h.congr hPQ fun _ _ => ⟨rfl, rfl⟩

/-- No class but those of the set is met. -/
lemma mem_of_within {r : Var} (h : s.ReadsIn P v t) (hw : s.Within r v) : r ∈ P := by
  induction hw generalizing t with
  | root hr =>
    cases h with
    | unknown hP | atom hP | list hP => exact hr ▸ hP
  | item hc hi _ ih =>
    cases h with
    | unknown _ hc' | atom _ hc' => cases hc.symm.trans hc'
    | list _ hc' items =>
      obtain ⟨rfl, -⟩ := Cell.list.inj (hc.symm.trans hc')
      obtain ⟨u, -, hu⟩ := exists_right_of_forall₂ items hi
      exact ih hu

end ReadsIn

mutual

lemma Lays.readsIn {lo v : Var} {t : Tree} (h : s.Lays lo t v) (hP : Ico lo (v + 1) ⊆ P) :
    s.ReadsIn P v t := by
  have hv : s.root v ∈ P := by
    rw [h.root_eq]
    exact hP ⟨h.le, Nat.lt_succ_self v⟩
  match t, h with
  | .unknown, h => exact .unknown hv h.2.2
  | .atom name span, h => exact .atom hv h.2.2
  | .list items span, ⟨vs, hitems, _, hcell⟩ =>
    exact .list hv hcell (hitems.readsIn fun i hi => hP ⟨hi.1, Nat.lt_succ_of_lt hi.2⟩)

lemma LaysAll.readsIn {lo hi : Var} {ts : List Tree} {vs : List Var} (h : s.LaysAll lo ts vs hi)
    (hP : Ico lo hi ⊆ P) : List.Forall₂ (s.ReadsIn P) vs ts := by
  match ts, h with
  | [], ⟨hvs, _⟩ =>
    subst hvs
    exact .nil
  | t :: ts, ⟨v, ws, hvs, ht, hts⟩ =>
    subst hvs
    refine .cons (ht.readsIn fun i hi => hP ⟨hi.1, ?_⟩) (hts.readsIn fun i hi => hP ⟨?_, hi.2⟩)
    · exact Nat.lt_of_lt_of_le hi.2 hts.le
    · exact ht.le.trans (Nat.le_of_succ_le hi.1)

end

/-! ### Changes in a set of classes -/

/-- A store has come from another one by merges of some classes. -/
structure Changes (s s' : Store) (P : Set Var) : Prop where
  closed : s'.Closed
  size_eq : s'.size = s.size
  root_eq : ∀ i, s.root i ∉ P → s'.root i = s.root i
  cell_eq : ∀ i, s.root i ∉ P → s'.cell i = s.cell i

namespace Changes

lemma refl (hs : s.Closed) : s.Changes s P := ⟨hs, rfl, fun _ _ => rfl, fun _ _ => rfl⟩

lemma trans (h : s.Changes s' P) (h' : s'.Changes s'' P) : s.Changes s'' P := by
  refine ⟨h'.closed, h'.size_eq.trans h.size_eq, fun i hi => ?_, fun i hi => ?_⟩
  · rw [h'.root_eq i (by rwa [h.root_eq i hi]), h.root_eq i hi]
  · rw [h'.cell_eq i (by rwa [h.root_eq i hi]), h.cell_eq i hi]

lemma mono (h : s.Changes s' P) (hPQ : P ⊆ Q) : s.Changes s' Q :=
  ⟨h.closed, h.size_eq, fun i hi => h.root_eq i fun hP => hi (hPQ hP),
    fun i hi => h.cell_eq i fun hP => hi (hPQ hP)⟩

lemma laysAll (h : s.Changes s' P) (hl : s.LaysAll lo ts vs hi) (hP : Disjoint (Ico lo hi) P) :
    s'.LaysAll lo ts vs hi := by
  refine hl.congr fun i hi hroot => ?_
  have hi' : s.root i ∉ P := by
    rw [hroot]
    exact Set.disjoint_left.1 hP hi
  exact ⟨(h.root_eq i hi').trans hroot, h.cell_eq i hi'⟩

lemma readsIn (h : s.Changes s' P) (hr : s.ReadsIn Q v t) (hP : Disjoint Q P) :
    s'.ReadsIn Q v t :=
  hr.congr subset_rfl fun i hi =>
    have hi' := Set.disjoint_left.1 hP hi
    ⟨h.root_eq i hi', h.cell_eq i hi'⟩

end Changes

lemma Merges.changes (h : s.Merges keep drop c) (hs : s.Closed) :
    s.Changes (s.merge keep drop c) {keep, drop} := by
  refine ⟨h.closed hs, size_merge, ?_, ?_⟩
  · intro i hi
    have hd : s.root i ≠ drop := fun hd => hi (.inr hd)
    rw [h.root_merge, if_neg hd]
  · intro i hi
    have hkd : ¬ (s.root i = keep ∨ s.root i = drop) := hi
    rw [h.cell_merge hs, if_neg hkd]

/-! ### Runs in pieces -/

lemma unifyAll_cons {pairs : List (Var × Var)}
    (h : s.root v ≠ s.root w ∧ s.isRoot (s.root v) ∧ s.isRoot (s.root w)) :
    s.unifyAll ((v, w) :: pairs) = (do
      let m ← s.plan (s.root v) (s.root w)
      (s.merge m.keep m.drop m.cell).unifyAll (m.parts ++ pairs)) := by
  rw [unifyAll, dif_pos h]
  split
  · next e he => rw [he]; rfl
  · next m hm => rw [hm]; rfl

lemma unifyAll_nil : s.unifyAll [] = .ok s := by
  rw [unifyAll]

/-- Some pairs and then some more are unified one after the other. -/
lemma unifyAll_append (pairs more : List (Var × Var)) :
    s.unifyAll (pairs ++ more) = (do
      let s ← s.unifyAll pairs
      s.unifyAll more) := by
  fun_induction unifyAll s pairs with
  | case1 s => rfl
  | case2 s a b pairs hroots e he =>
    rw [List.cons_append, unifyAll_cons hroots, he]
    rfl
  | case3 s a b pairs hroots m hm ih =>
    rw [List.cons_append, unifyAll_cons hroots, hm, ← ih, List.append_assoc]
    rfl
  | case4 s a b pairs hroots ih =>
    rw [List.cons_append, unifyAll, dif_neg hroots]
    exact ih

/-- Two different classes of their own are merged, and then their parts are unified. -/
lemma unify_eq_bind (hs : s.Closed) (hv : s.root v = v) (hw : s.root w = w) (hvs : v < s.size)
    (hws : w < s.size) (hne : v ≠ w) : s.unify v w = (do
      let m ← s.plan v w
      (s.merge m.keep m.drop m.cell).unifyAll m.parts) := by
  have hroots : s.root v ≠ s.root w ∧ s.isRoot (s.root v) ∧ s.isRoot (s.root w) :=
    ⟨by rwa [hv, hw], hs.isRoot_root hvs, hs.isRoot_root hws⟩
  rw [unify, unifyAll_cons hroots, hv, hw]
  simp only [List.append_nil]

/-! ### One pair -/

/-- A run gives the merge of two types, on the classes of which it has an effect. -/
def Gives (s : Store) (P : Set Var) (v : Var) (t : Tree) (s' : Store) : Prop :=
  s.Changes s' P ∧ s'.ReadsIn P v t

lemma plan_unknown_left (hv : s.cell v = .unknown) :
    s.plan v w = s.planBind v w (s.cell w) := by
  simp only [plan, hv]

lemma plan_unknown_right (hv : s.cell v ≠ .unknown) (hw : s.cell w = .unknown) :
    s.plan v w = s.planBind w v (s.cell v) := by
  unfold plan
  split
  · next hv' => exact absurd hv' hv
  · rfl
  all_goals simp_all

/-- In a type that lies elsewhere, the search for a class finds nothing. -/
lemma planBind_eq_ok (h : s.ReadsIn P w u) (hv : v ∉ P) :
    s.planBind v w c = .ok ⟨w, v, c, []⟩ := by
  obtain ⟨b, hb, hiff⟩ := h.reads.occurs (r := v)
  cases b with
  | true => exact absurd (h.mem_of_within (hiff.1 rfl)) hv
  | false =>
    rw [planBind, hb]
    rfl

/-- An unknown class that joins a type leaves that type as it was. -/
lemma ReadsIn.merge (h : s.ReadsIn P x t) (hs : s.Closed)
    (hm : s.Merges keep drop (s.cell keep)) (hd : drop ∉ P) :
    (s.merge keep drop (s.cell keep)).ReadsIn P x t := by
  refine h.congr subset_rfl ?_
  intro i hi
  have hid : s.root i ≠ drop := by
    rintro rfl
    exact hd hi
  rw [hm.root_merge, hm.cell_merge hs, if_neg hid]
  refine ⟨rfl, ?_⟩
  split
  · next hk =>
    have hk : s.root i = keep := hk.resolve_right hid
    exact (Closed.cell_eq_of_root_eq (hk.trans (root_of_isRoot hm.keep_root).symm)).symm
  · rfl

/-- An unknown class that joins a type is of that type, and nothing else has changed. -/
lemma gives_merge (h : s.ReadsIn P keep t) (hs : s.Closed)
    (hm : s.Merges keep drop (s.cell keep)) (hd : drop ∉ P) (hPQ : insert drop P ⊆ Q)
    (hv : v = keep ∨ v = drop) : s.Gives Q v t (s.merge keep drop (s.cell keep)) := by
  have hk : s.root keep = keep := root_of_isRoot hm.keep_root
  have hkP : keep ∈ P := h.mem_of_within (.root hk)
  constructor
  · refine (hm.changes hs).mono ?_
    rintro i (rfl | rfl)
    · exact hPQ (.inr hkP)
    · exact hPQ (.inl rfl)
  · have hread := (h.merge hs hm hd).mono fun i hi => hPQ (.inr hi)
    rcases hv with rfl | rfl
    · exact hread
    · refine hread.of_root_eq ?_
      rw [hm.root_merge, hm.root_merge, hk, root_of_isRoot hm.drop_root, if_neg hm.ne, if_pos rfl]

lemma disjoint_ranges {a b c d e f : Nat} (h : d ≤ a ∨ b ≤ c) (h' : f ≤ a ∨ b ≤ e) :
    Disjoint (Ico a b) (Ico c d ∪ Ico e f) := by
  refine Set.disjoint_left.2 fun i hi hi' => ?_
  simp only [Set.mem_union, Set.mem_Ico] at hi hi'
  omega

/-- Where a type is laid out before another one, unifying them is merging them. -/
def MergesAs (t : Tree) : Prop :=
  ∀ {s : Store} {lo lo' v w : Var} {u : Tree}, s.Closed → s.Lays lo t v → s.Lays lo' u w →
    v < lo' → w < s.size →
    (s.unify v w).Realizes (t.merge u) (s.Gives (Ico lo (v + 1) ∪ Ico lo' (w + 1)) v)

lemma MergesAs.all (h : ∀ t ∈ ts, MergesAs t) (hs : s.Closed) (ht : s.LaysAll lo ts vs hi)
    (hu : s.LaysAll lo' us ws hi') (hlen : ts.length = us.length) (hlt : hi ≤ lo')
    (hsize : hi' ≤ s.size) :
    (s.unifyAll (vs.zip ws)).Realizes (Tree.mergeAll ts us) fun ms s' =>
      s.Changes s' (Ico lo hi ∪ Ico lo' hi') ∧
        List.Forall₂ (s'.ReadsIn (Ico lo hi ∪ Ico lo' hi')) vs ms := by
  induction ts generalizing s lo lo' us vs ws with
  | nil =>
    obtain rfl := List.length_eq_zero_iff.1 hlen.symm
    obtain ⟨rfl, -⟩ := ht
    rw [List.zip_nil_left, unifyAll]
    exact ⟨s, rfl, .refl hs, .nil⟩
  | cons t ts ih =>
    cases us with
    | nil => cases hlen
    | cons u us =>
      obtain ⟨ht₁, hts₁⟩ := List.forall_mem_cons.1 h
      obtain ⟨v, vs, rfl, ht, hts⟩ := ht
      obtain ⟨w, ws, rfl, hu, hus⟩ := hu
      have hvw : v + 1 ≤ w + 1 := ((hts.le.trans hlt).trans hu.le).trans (Nat.le_succ w)
      rw [List.zip_cons_cons, ← List.singleton_append, unifyAll_append, Tree.mergeAll_cons]
      refine (ht₁ hs ht hu (hts.le.trans hlt) (hus.le.trans hsize)).bind ?_
      rintro m s₁ ⟨hchange, hread⟩
      -- the first pair leaves the types of the other pairs as they were
      have hts₂ := hchange.laysAll hts (disjoint_ranges (.inl le_rfl) (.inr hlt))
      have hus₂ := hchange.laysAll hus (disjoint_ranges (.inl hvw) (.inl le_rfl))
      have hsize₂ : hi' ≤ s₁.size := hsize.trans_eq hchange.size_eq.symm
      refine (ih hts₁ hchange.closed hts₂ hus₂ (Nat.succ.inj hlen)
        (hlt.trans (hu.le.trans (Nat.le_succ w))) hsize₂).map ?_
      rintro ms s₂ ⟨hchanges, hreads⟩
      -- and then the other pairs leave the first one as it has become
      have hread₂ := hchanges.readsIn hread (Set.disjoint_union_left.2
        ⟨disjoint_ranges (.inr le_rfl) (.inr hvw), disjoint_ranges (.inl hlt) (.inr le_rfl)⟩)
      have hfirst : Ico lo (v + 1) ∪ Ico lo' (w + 1) ⊆ Ico lo hi ∪ Ico lo' hi' :=
        Set.union_subset_union (Set.Ico_subset_Ico_right hts.le) (Set.Ico_subset_Ico_right hus.le)
      have hothers : Ico (v + 1) hi ∪ Ico (w + 1) hi' ⊆ Ico lo hi ∪ Ico lo' hi' :=
        Set.union_subset_union (Set.Ico_subset_Ico_left (ht.le.trans (Nat.le_succ v)))
          (Set.Ico_subset_Ico_left (hu.le.trans (Nat.le_succ w)))
      refine ⟨(hchange.mono hfirst).trans (hchanges.mono hothers), .cons ?_ ?_⟩
      · exact hread₂.mono hfirst
      · exact hreads.imp fun _ _ h => h.mono hothers

lemma Lays.isRoot (h : s.Lays lo t v) (hs : s.Closed) (hv : v < s.size) : s.isRoot v := by
  have hroot := hs.isRoot_root hv
  rwa [h.root_eq] at hroot

/-- The classes of two types are the last ones of their ranges. -/
lemma pair_subset (ht : s.Lays lo t v) (hu : s.Lays lo' u w) :
    {v, w} ⊆ Ico lo (v + 1) ∪ Ico lo' (w + 1) := by
  rintro i (rfl | rfl)
  · exact .inl ⟨ht.le, Nat.lt_succ_self _⟩
  · exact .inr ⟨hu.le, Nat.lt_succ_self _⟩

section Pair

variable (hs : s.Closed) (ht : s.Lays lo t v) (hu : s.Lays lo' u w) (hvw : v < lo')
  (hw : w < s.size)

include hs ht hu hvw hw

lemma unify_eq_bind_of_lays : s.unify v w = (do
    let m ← s.plan v w
    (s.merge m.keep m.drop m.cell).unifyAll m.parts) :=
  have hlt : v < w := Nat.lt_of_lt_of_le hvw hu.le
  unify_eq_bind hs ht.root_eq hu.root_eq (hlt.trans hw) hw (Nat.ne_of_lt hlt)

/-- Two types that are laid out one behind the other are of different classes. -/
lemma merges_of_lays (hc : c.isAlias = false) (hitems : ∀ i ∈ c.items, i < s.size) :
    s.Merges v w c ∧ s.Merges w v c := by
  have hlt : v < w := Nat.lt_of_lt_of_le hvw hu.le
  have hv := ht.isRoot hs (hlt.trans hw)
  exact ⟨⟨hv, hu.isRoot hs hw, Nat.ne_of_lt hlt, hc, hitems⟩,
    ⟨hu.isRoot hs hw, hv, Nat.ne_of_gt hlt, hc, hitems⟩⟩

/-- An unknown type on the left joins the type on the right. -/
lemma unify_unknown_left (hc : s.cell v = .unknown) :
    (s.unify v w).Realizes (some u) (s.Gives (Ico lo (v + 1) ∪ Ico lo' (w + 1)) v) := by
  obtain ⟨-, hm⟩ := merges_of_lays hs ht hu hvw hw (c := s.cell w) hs.isAlias_cell hs.cell_items_lt
  have hread : s.ReadsIn (Ico lo' (w + 1)) w u := hu.readsIn subset_rfl
  have hv : v ∉ Ico lo' (w + 1) := fun hv => Nat.not_le_of_lt hvw hv.1
  have hsub : insert v (Ico lo' (w + 1)) ⊆ Ico lo (v + 1) ∪ Ico lo' (w + 1) :=
    Set.insert_subset (pair_subset ht hu (.inl rfl)) Set.subset_union_right
  rw [unify_eq_bind_of_lays hs ht hu hvw hw, plan_unknown_left hc, planBind_eq_ok hread hv]
  exact ⟨_, unifyAll_nil, gives_merge hread hs hm hv hsub (.inr rfl)⟩

/-- An unknown type on the right joins a known type on the left. -/
lemma unify_unknown_right (hv : s.cell v ≠ .unknown) (hc : s.cell w = .unknown) :
    (s.unify v w).Realizes (some t) (s.Gives (Ico lo (v + 1) ∪ Ico lo' (w + 1)) v) := by
  obtain ⟨hm, -⟩ := merges_of_lays hs ht hu hvw hw (c := s.cell v) hs.isAlias_cell hs.cell_items_lt
  have hread : s.ReadsIn (Ico lo (v + 1)) v t := ht.readsIn subset_rfl
  have hwv : w ∉ Ico lo (v + 1) := fun hwv =>
    Nat.not_le_of_lt (Nat.lt_of_lt_of_le hvw hu.le) (Nat.le_of_lt_succ hwv.2)
  have hsub : insert w (Ico lo (v + 1)) ⊆ Ico lo (v + 1) ∪ Ico lo' (w + 1) :=
    Set.insert_subset (pair_subset ht hu (.inr rfl)) Set.subset_union_left
  rw [unify_eq_bind_of_lays hs ht hu hvw hw, plan_unknown_right hv hc, planBind_eq_ok hread hwv]
  exact ⟨_, unifyAll_nil, gives_merge hread hs hm hwv hsub (.inl rfl)⟩

/-- An atom and a list cannot be made equal. -/
lemma unify_mismatch (hplan : s.plan v w = (do
      let left : Node Empty ← s.read v
      let right : Node Empty ← s.read w
      Outcome.typeError [left.span, right.span] (.mismatch left.plain right.plain))) :
    (s.unify v w).Realizes none (s.Gives (Ico lo (v + 1) ∪ Ico lo' (w + 1)) v) := by
  have hv : s.read v = .ok (t.node : Node Empty) :=
    (read_eq_ok_iff hs).2 ⟨t, (ht.readsIn subset_rfl).reads, rfl⟩
  have hw' : s.read w = .ok (u.node : Node Empty) :=
    (read_eq_ok_iff hs).2 ⟨u, (hu.readsIn subset_rfl).reads, rfl⟩
  rw [unify_eq_bind_of_lays hs ht hu hvw hw, hplan, hv, hw']
  exact ⟨_, _, rfl⟩

/-- What becomes of two classes that are merged into the left one. -/
lemma merge_of_lays (hc : c.isAlias = false) (hitems : ∀ i ∈ c.items, i < s.size) :
    s.Changes (s.merge v w c) {v, w} ∧ (s.merge v w c).root v = v ∧
      (s.merge v w c).cell v = c := by
  obtain ⟨hm, -⟩ := merges_of_lays hs ht hu hvw hw hc hitems
  refine ⟨hm.changes hs, ?_, ?_⟩
  · rw [hm.root_merge, ht.root_eq, if_neg hm.ne]
  · rw [hm.cell_merge hs, if_pos (.inl ht.root_eq)]

/-- Of two atoms, the left one stays, if they are of one name. -/
lemma unify_atoms {name name' : String} {span span' : Option Span}
    (hv : s.cell v = .atom name span) (hc : s.cell w = .atom name' span') :
    (s.unify v w).Realizes ((Tree.atom name span).merge (.atom name' span'))
      (s.Gives (Ico lo (v + 1) ∪ Ico lo' (w + 1)) v) := by
  have hpair := pair_subset ht hu
  rw [unify_eq_bind_of_lays hs ht hu hvw hw, Tree.atom_merge_atom]
  simp only [plan, hv, hc]
  by_cases hname : name = name'
  · rw [if_pos hname, if_pos hname]
    obtain ⟨hchange, hroot, hmerged⟩ :=
      merge_of_lays hs ht hu hvw hw (c := .atom name (span.or span')) rfl (by simp)
    refine ⟨_, unifyAll_nil, hchange.mono hpair, .atom ?_ hmerged⟩
    rw [hroot]
    exact hpair (.inl rfl)
  · rw [if_neg hname, if_neg hname]
    exact ⟨_, _, rfl⟩

end Pair

/-- Of two lists, the left one stays, if their items can be merged. -/
lemma unify_lists {span span' : Option Span} (ih : ∀ t ∈ ts, MergesAs t) (hs : s.Closed)
    (ht : s.Lays lo (.list ts span) v) (hu : s.Lays lo' (.list us span') w) (hvw : v < lo')
    (hw : w < s.size) :
    (s.unify v w).Realizes ((Tree.list ts span).merge (.list us span'))
      (s.Gives (Ico lo (v + 1) ∪ Ico lo' (w + 1)) v) := by
  obtain ⟨vs, hvs, hv⟩ := ht.exists_list
  obtain ⟨ws, hws, hc⟩ := hu.exists_list
  have hlt : v < w := Nat.lt_of_lt_of_le hvw hu.le
  have hpair := pair_subset ht hu
  rw [unify_eq_bind_of_lays hs ht hu hvw hw, Tree.list_merge_list]
  simp only [plan, hv, hc]
  by_cases hlen : vs.length = ws.length
  · rw [if_pos hlen]
    have hitems : ∀ i ∈ (Cell.list vs (span.or span')).items, i < s.size := by
      have hitems := hs.cell_items_lt (v := v)
      rwa [hv] at hitems
    obtain ⟨hchange, hroot, hmerged⟩ := merge_of_lays hs ht hu hvw hw rfl hitems
    -- neither of the two classes is one of the items
    have hvs₁ := hchange.laysAll hvs (Set.disjoint_left.2 (by
      rintro i ⟨-, hi⟩ (rfl | rfl)
      · exact Nat.lt_irrefl _ hi
      · exact Nat.lt_asymm hi hlt))
    have hws₁ := hchange.laysAll hws (Set.disjoint_left.2 (by
      rintro i ⟨hlo, hi⟩ (rfl | rfl)
      · exact Nat.not_le_of_lt hvw hlo
      · exact Nat.lt_irrefl _ hi))
    have hlen₁ : ts.length = us.length := by rwa [← hvs.length_eq, ← hws.length_eq]
    have hsize₁ := hw.le.trans_eq hchange.size_eq.symm
    refine (MergesAs.all ih hchange.closed hvs₁ hws₁ hlen₁ hvw.le hsize₁).map ?_
    rintro ms s₂ ⟨hchanges, hreads⟩
    -- so the merged class stays as it is when the items are unified
    have hinner : Ico lo v ∪ Ico lo' w ⊆ Ico lo (v + 1) ∪ Ico lo' (w + 1) :=
      Set.union_subset_union (Set.Ico_subset_Ico_right (Nat.le_succ v))
        (Set.Ico_subset_Ico_right (Nat.le_succ w))
    have hout : (s.merge v w (.list vs (span.or span'))).root v ∉ Ico lo v ∪ Ico lo' w := by
      rw [hroot]
      rintro (hi | hi)
      · exact Nat.lt_irrefl v hi.2
      · exact Nat.not_le_of_lt hvw hi.1
    have hroot₂ : s₂.root v = v := (hchanges.root_eq v hout).trans hroot
    have hcell₂ : s₂.cell v = .list vs (span.or span') := (hchanges.cell_eq v hout).trans hmerged
    have hreads₂ := hreads.imp fun _ _ h => h.mono hinner
    refine ⟨(hchange.mono hpair).trans (hchanges.mono hinner), .list ?_ hcell₂ hreads₂⟩
    rw [hroot₂]
    exact hpair (.inl rfl)
  · rw [if_neg hlen, Tree.mergeAll_eq_none_of_length_ne (by rwa [← hvs.length_eq, ← hws.length_eq])]
    exact ⟨_, _, rfl⟩

/-- Unification is the merge of types, one case for each kind of types on the two sides. -/
lemma mergesAs (t : Tree) : MergesAs t := by
  induction t using Tree.induction with
  | unknown =>
    intro s lo lo' v w u hs ht hu hvw hw
    rw [Tree.unknown_merge]
    exact unify_unknown_left hs ht hu hvw hw ht.2.2
  | atom name span =>
    intro s lo lo' v w u hs ht hu hvw hw
    have hv : s.cell v = .atom name span := ht.2.2
    cases u with
    | unknown =>
      rw [Tree.merge_unknown]
      exact unify_unknown_right hs ht hu hvw hw (by simp [hv]) hu.2.2
    | atom name' span' => exact unify_atoms hs ht hu hvw hw hv hu.2.2
    | list us span' =>
      obtain ⟨ws, -, hc⟩ := hu.exists_list
      rw [Tree.atom_merge_list]
      exact unify_mismatch hs ht hu hvw hw (by simp only [plan, hv, hc])
  | list items span ih =>
    intro s lo lo' v w u hs ht hu hvw hw
    obtain ⟨vs, -, hv⟩ := ht.exists_list
    cases u with
    | unknown =>
      rw [Tree.merge_unknown]
      exact unify_unknown_right hs ht hu hvw hw (by simp [hv]) hu.2.2
    | atom name' span' =>
      have hc : s.cell w = .atom name' span' := hu.2.2
      rw [Tree.list_merge_atom]
      exact unify_mismatch hs ht hu hvw hw (by simp only [plan, hv, hc])
    | list us span' => exact unify_lists ih hs ht hu hvw hw

/-! ### New types -/

/-- A store has got new variables, and what it knew of the others is as it was. -/
structure Extends (s s' : Store) : Prop where
  closed : s'.Closed
  size_le : s.size ≤ s'.size
  root_eq : ∀ i < s.size, s'.root i = s.root i
  cell_eq : ∀ i < s.size, s'.cell i = s.cell i

namespace Extends

lemma refl (hs : s.Closed) : s.Extends s := ⟨hs, Nat.le_refl _, fun _ _ => rfl, fun _ _ => rfl⟩

lemma trans (h : s.Extends s') (h' : s'.Extends s'') : s.Extends s'' := by
  refine ⟨h'.closed, h.size_le.trans h'.size_le, ?_, ?_⟩
  · intro i hi
    rw [h'.root_eq i (Nat.lt_of_lt_of_le hi h.size_le), h.root_eq i hi]
  · intro i hi
    rw [h'.cell_eq i (Nat.lt_of_lt_of_le hi h.size_le), h.cell_eq i hi]

lemma lays (h : s.Extends s') (hl : s.Lays lo t v) (hv : v < s.size) : s'.Lays lo t v :=
  hl.congr fun i hi hroot =>
    have hi' : i < s.size := Nat.lt_of_lt_of_le hi.2 hv
    ⟨(h.root_eq i hi').trans hroot, h.cell_eq i hi'⟩

lemma laysAll (h : s.Extends s') (hl : s.LaysAll lo ts vs s.size) : s'.LaysAll lo ts vs s.size :=
  hl.congr fun i hi hroot => ⟨(h.root_eq i hi.2).trans hroot, h.cell_eq i hi.2⟩

end Extends

lemma extends_push (hs : s.Closed) (hc : c.isAlias = false) (hi : ∀ i ∈ c.items, i < s.size) :
    s.Extends (s.push c).2 := by
  refine ⟨hs.push hc fun i h => Nat.le_of_lt (hi i h), by simp, fun i _ => root_push hc, ?_⟩
  intro i hlt
  rw [cell_push hs hc, if_neg (Nat.ne_of_lt hlt)]

lemma root_and_cell_push (hs : s.Closed) (hc : c.isAlias = false) :
    (s.push c).2.root s.size = s.size ∧ (s.push c).2.cell s.size = c := by
  rw [root_push hc, cell_push hs hc, if_pos rfl]
  exact ⟨root_of_size_le (Nat.le_refl _), rfl⟩

mutual

/-- A new type is laid out on the new variables. -/
lemma lays_pushTree {s : Store} (hs : s.Closed) (t : Tree) :
    s.Extends (s.pushTree t).2 ∧ (s.pushTree t).2.Lays s.size t (s.pushTree t).1 ∧
      (s.pushTree t).2.size = (s.pushTree t).1 + 1 := by
  match t with
  | .unknown =>
    exact ⟨extends_push hs rfl (by simp), ⟨rfl, root_and_cell_push hs rfl⟩, size_push⟩
  | .atom name span =>
    exact ⟨extends_push hs rfl (by simp), ⟨rfl, root_and_cell_push hs rfl⟩, size_push⟩
  | .list items span =>
    obtain ⟨hexts, hall⟩ := laysAll_pushTrees hs items
    have hlt := (grows_pushTrees hs items).2
    have hext := extends_push (c := .list (s.pushTrees items).1 span) hexts.closed rfl hlt
    exact ⟨hexts.trans hext, ⟨_, hext.laysAll hall, root_and_cell_push hexts.closed rfl⟩, size_push⟩

lemma laysAll_pushTrees {s : Store} (hs : s.Closed) (ts : List Tree) :
    s.Extends (s.pushTrees ts).2 ∧
      (s.pushTrees ts).2.LaysAll s.size ts (s.pushTrees ts).1 (s.pushTrees ts).2.size := by
  match ts with
  | [] => exact ⟨.refl hs, rfl, rfl⟩
  | t :: ts =>
    obtain ⟨hext, hlays, hsize⟩ := lays_pushTree hs t
    obtain ⟨hexts, hall⟩ := laysAll_pushTrees hext.closed ts
    refine ⟨hext.trans hexts, _, _, rfl, hexts.lays hlays ?_, ?_⟩
    · rw [hsize]
      exact Nat.lt_succ_self _
    · rwa [hsize] at hall

end

end Store

/-! ### Two types -/

variable {H : Type} {a b c : Node H} {t u : Tree}

/-- Two types are unified as their trees are merged. -/
lemma realizes_merge (ht : tree? a = some t) (hu : tree? b = some u) :
    (unifyTypes a b).Realizes (t.merge u) fun m n => n = m.node := by
  obtain ⟨hext, hlays, hsize⟩ := Store.lays_pushTree Store.closed_empty t
  obtain ⟨hext', hlays', hsize'⟩ := Store.lays_pushTree hext.closed u
  have hlt := (Store.grows_pushTree Store.closed_empty t).2
  have hlt' := (Store.grows_pushTree hext.closed u).2
  have hunify := Store.mergesAs t hext'.closed (hext'.lays hlays hlt) hlays' hlt hlt'
  have hread := hunify.bind (f := fun s => s.read (H := H) (Store.empty.pushTree t).1) (g := some)
    (S := fun m n => n = m.node) fun m s hm =>
      ⟨_, (Store.read_eq_ok_iff hm.1.closed).2 ⟨m, hm.2.reads, rfl⟩, rfl⟩
  rw [Option.bind_fun_some] at hread
  rw [unifyTypes, Store.intern_of_tree? ht]
  show (Store.intern b (Store.empty.pushTree t).2 >>= _).Realizes _ _
  rw [Store.intern_of_tree? hu]
  exact hread

/-- Anything but a type is a type error. -/
lemma unifyTypes_realizes (a b : Node H) :
    (unifyTypes a b).Realizes ((tree? a).bind fun t => (tree? b).bind t.merge)
      fun m n => n = m.node := by
  cases ht : tree? a with
  | none =>
    obtain ⟨spans, cause, he⟩ := Store.exists_typeError_of_tree? (s := .empty) ht
    refine ⟨spans, cause, ?_⟩
    rw [unifyTypes, he]
    rfl
  | some t =>
    cases hu : tree? b with
    | none =>
      obtain ⟨spans, cause, he⟩ :=
        Store.exists_typeError_of_tree? (s := (Store.empty.pushTree t).2) hu
      refine ⟨spans, cause, ?_⟩
      rw [unifyTypes, Store.intern_of_tree? ht]
      show (Store.intern b (Store.empty.pushTree t).2 >>= _) = _
      rw [he]
      rfl
    | some u => exact realizes_merge ht hu

lemma toOption_unifyTypes (a b : Node H) : (unifyTypes a b).toOption =
    ((tree? a).bind fun t => (tree? b).bind t.merge).map Tree.node :=
  (unifyTypes_realizes a b).toOption_eq

/-- **Unification is the merge of two partial types.**  It gives the merge of the trees that the
two nodes stand for, and a type error if either is no type or there is no merge.  So it is
idempotent, commutative but for spans, and associative, each of them also in whether it fails. -/
theorem unifyTypes_merges (a b c : Node H) :
    (unifyTypes a b).Realizes ((tree? a).bind fun t => (tree? b).bind t.merge)
        (fun m n => n = m.node) ∧
      (unifyTypes a a).toOption = (tree? a).map Tree.node ∧
      (unifyTypes a b).toOption.map (fun n => (tree? n).map Tree.bare) =
        (unifyTypes b a).toOption.map (fun n => (tree? n).map Tree.bare) ∧
      (unifyTypes a b >>= fun m => unifyTypes m c).toOption =
        (unifyTypes b c >>= fun m => unifyTypes a m).toOption := by
  refine ⟨unifyTypes_realizes a b, ?_, ?_, ?_⟩
  · rw [toOption_unifyTypes]
    cases tree? a with
    | none => rfl
    | some t => rw [Option.bind_some, Option.bind_some, Tree.merge_self]
  · have hform : ∀ o : Option Tree, (o.map (Tree.node (H := H))).map
        (fun n => (tree? n).map Tree.bare) = (o.map Tree.bare).map some := fun o => by
      cases o <;> simp
    rw [toOption_unifyTypes, toOption_unifyTypes, hform, hform]
    cases tree? a with
    | none => cases tree? b <;> rfl
    | some t =>
      cases tree? b with
      | none => rfl
      | some u => exact congrArg (Option.map some) (Tree.map_bare_merge_comm t u)
  · rw [Except.toOption_bind, Except.toOption_bind]
    simp only [toOption_unifyTypes, Option.bind_map, Function.comp_def, tree?_node,
      Option.bind_some]
    cases tree? a with
    | none => cases tree? b <;> cases tree? c <;> simp
    | some t =>
      cases tree? b with
      | none => simp
      | some u =>
        cases tree? c with
        | none => simp
        | some v =>
          have hassoc := congrArg (Option.map (Tree.node (H := H))) (Tree.merge_assoc t u v)
          simpa only [Option.bind_some, Option.map_bind, Function.comp_def] using hassoc

end Typing
end TypedLisp
