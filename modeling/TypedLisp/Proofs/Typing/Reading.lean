import Mathlib.Data.Finset.Card
import Mathlib.Order.Interval.Finset.Nat
import TypedLisp.Proofs.Except
import TypedLisp.Proofs.Typing.Class
import TypedLisp.Proofs.Typing.Tree

/-!
# The tree of a variable

`Store.Reads s v t` says that the type of the variable `v` is the finite tree `t`.  A class that
contains itself has no such tree.  Reading a type and looking for a class in it are bounded by
the number of variables, and the bound is never felt: a tree on the way down to a leaf meets
every class once at most, so `Store.read` answers if and only if there is a tree.
-/

namespace TypedLisp

namespace Typing
namespace Store

variable {H : Type} {s : Store} {v w r : Var} {t u : Tree}

/-- The type of a variable is a finite tree. -/
inductive Reads (s : Store) : Var → Tree → Prop where
  | unknown {v : Var} (h : s.cell v = .unknown) : Reads s v .unknown
  | atom {v : Var} {name : String} {span : Option Span} (h : s.cell v = .atom name span) :
    Reads s v (.atom name span)
  | list {v : Var} {vs : List Var} {ts : List Tree} {span : Option Span}
    (h : s.cell v = .list vs span) (items : List.Forall₂ (Reads s) vs ts) :
    Reads s v (.list ts span)

namespace Reads

lemma of_root_eq (h : s.Reads v t) (hr : s.root v = s.root w) : s.Reads w t := by
  have hc : s.cell v = s.cell w := Closed.cell_eq_of_root_eq hr
  cases h with
  | unknown h => exact .unknown (hc ▸ h)
  | atom h => exact .atom (hc ▸ h)
  | list h items => exact .list (hc ▸ h) items

lemma root (hs : s.Closed) (h : s.Reads v t) : s.Reads (s.root v) t :=
  h.of_root_eq hs.root_root.symm

/-- A variable has one tree at most. -/
lemma unique (ht : s.Reads v t) (hu : s.Reads v u) : t = u := by
  induction t using Tree.induction generalizing v u with
  | unknown => cases ht with | unknown h => cases hu <;> simp_all
  | atom name span => cases ht with | atom h => cases hu <;> simp_all
  | list ts span ih =>
    cases ht with
    | list h items =>
      cases hu with
      | unknown h' => simp_all
      | atom h' => simp_all
      | list h' items' =>
        obtain ⟨rfl, rfl⟩ : _ ∧ _ := by simpa [h] using h'
        have : _ = _ := forall₂_right_unique (R := s.Reads)
          (fun t ht _ _ h h' => ih t ht h h') items items'
        rw [this]

end Reads

/-! ### Reading -/

lemma reads_of_readTo {depth : Nat} {n : Node H} (hs : s.Closed)
    (h : s.readTo depth v = .ok n) : ∃ t : Tree, s.Reads v t ∧ n = t.node := by
  induction depth generalizing v n with
  | zero => simp [readTo] at h
  | succ depth ih =>
    rw [readTo] at h
    cases hc : s.cell v with
    | unknown => exact ⟨_, .unknown hc, by simpa [hc, eq_comm] using h⟩
    | aliasOf rep => simpa [hc] using hs.isAlias_cell (v := v)
    | atom name span => exact ⟨_, .atom hc, by simpa [hc, eq_comm] using h⟩
    | list vs span =>
      cases hm : vs.mapM (readTo (H := H) s depth) with
      | error e => simp [hc, hm, bind, Except.bind] at h
      | ok nodes =>
        obtain rfl : .list nodes span = n := by
          simpa [hc, hm, bind, Except.bind, pure, Except.pure] using h
        obtain ⟨ts, hts, rfl⟩ := exists_forall₂_of_forall₂_exists
          (forall₂_imp_of_mem (fun _ _ _ _ h => ih h) (Except.mapM_eq_ok_iff.1 hm))
        exact ⟨.list ts span, .list hc hts, by simp⟩

lemma readTo_of_reads {depth : Nat} (h : s.Reads v t) (hd : t.height ≤ depth) :
    s.readTo depth v = .ok (t.node : Node H) := by
  induction t using Tree.induction generalizing v depth with
  | unknown =>
    cases h with
    | unknown h =>
      obtain ⟨d, rfl⟩ := Nat.exists_eq_succ_of_ne_zero (Nat.ne_of_gt hd)
      simp [readTo, h]
  | atom name span =>
    cases h with
    | atom h =>
      obtain ⟨d, rfl⟩ := Nat.exists_eq_succ_of_ne_zero (Nat.ne_of_gt hd)
      simp [readTo, h]
  | list ts span ih =>
    cases h with
    | list h items =>
      cases depth with
      | zero => simp [Tree.height] at hd
      | succ d =>
        have hd' : Tree.heightAll ts ≤ d := Nat.le_of_succ_le_succ hd
        have hm := Except.mapM_eq_ok_iff.2 (List.forall₂_map_right_iff.2
          (forall₂_imp_of_mem (fun v _ t ht hv =>
            ih t ht hv ((Tree.height_le_heightAll ht).trans hd')) items))
        simp [readTo, h, hm, bind, Except.bind, pure, Except.pure]

lemma readTo_eq_endless {depth : Nat} {f : Failure} (h : s.readTo (H := H) depth v = .error f) :
    f = .endless := by
  induction depth generalizing v with
  | zero => simpa [readTo, eq_comm] using h
  | succ depth ih =>
    rw [readTo] at h
    cases hc : s.cell v with
    | unknown | aliasOf rep | atom name span => simp [hc] at h
    | list vs span =>
      cases hm : vs.mapM (readTo (H := H) s depth) with
      | ok nodes => simp [hc, hm, bind, Except.bind, pure, Except.pure] at h
      | error e =>
        obtain rfl : e = f := by simpa [hc, hm, bind, Except.bind] using h
        obtain ⟨x, -, hx⟩ := Except.exists_of_mapM_eq_error hm
        exact ih hx

/-! ### The bound is no bound -/

lemma Reads.exists_of_height_le {k : Nat} (h : s.Reads v t) (hk : 0 < k) (hkt : k ≤ t.height) :
    ∃ w u, s.Reads w u ∧ u.height = k := by
  induction t using Tree.induction generalizing v with
  | unknown => exact ⟨v, _, h, Nat.le_antisymm hk hkt⟩
  | atom name span => exact ⟨v, _, h, Nat.le_antisymm hk hkt⟩
  | list ts span ih =>
    rcases Nat.eq_or_lt_of_le hkt with rfl | hlt
    · exact ⟨v, _, h, rfl⟩
    · have hle : k ≤ Tree.heightAll ts := Nat.le_of_lt_succ hlt
      obtain ⟨t, ht, heq⟩ := Tree.exists_height_eq_heightAll (Nat.lt_of_lt_of_le hk hle)
      cases h with
      | list h items =>
        obtain ⟨i, -, hi⟩ := exists_left_of_forall₂ items ht
        exact ih t ht hi (heq ▸ hle)

/-- On the way down to a leaf no class is met twice, as its tree would have two heights. -/
lemma Reads.height_le (h : s.Reads v t) : t.height ≤ s.size + 1 := by
  -- there is a variable of the store for each height but one, which unknown variables have too
  have hex : ∀ k, ∃ r, 2 ≤ k → k ≤ t.height → r < s.size ∧ ∃ u, s.Reads r u ∧ u.height = k := by
    intro k
    by_cases hk : 2 ≤ k ∧ k ≤ t.height
    · obtain ⟨w, u, hw, rfl⟩ := h.exists_of_height_le (Nat.lt_of_lt_of_le Nat.two_pos hk.1) hk.2
      refine ⟨w, fun _ _ => ⟨?_, u, hw, rfl⟩⟩
      by_contra hlt
      have hcell := cell_of_size_le (Nat.le_of_not_lt hlt)
      have hu : u = .unknown := hw.unique (.unknown hcell)
      simp [hu, Tree.height] at hk
    · exact ⟨0, fun h1 h2 => absurd ⟨h1, h2⟩ hk⟩
  choose r hr using hex
  -- and a variable has one tree, so these variables differ
  have hcard : (Finset.Icc 2 t.height).card ≤ (Finset.range s.size).card := by
    refine Finset.card_le_card_of_injOn r (fun k hk => ?_) (fun k hk j hj hkj => ?_)
    · obtain ⟨h2, hle⟩ := Finset.mem_Icc.1 hk
      exact Finset.mem_coe.2 (Finset.mem_range.2 (hr k h2 hle).1)
    · obtain ⟨-, u, hu, hku⟩ := hr k (Finset.mem_Icc.1 hk).1 (Finset.mem_Icc.1 hk).2
      obtain ⟨-, u', hu', hju⟩ := hr j (Finset.mem_Icc.1 hj).1 (Finset.mem_Icc.1 hj).2
      rw [← hku, ← hju, hu.unique (hkj ▸ hu')]
  simp at hcard
  omega

/-- Reading a type answers if and only if the type is a finite tree, and then with that tree. -/
theorem read_eq_ok_iff (hs : s.Closed) {n : Node H} :
    s.read v = .ok n ↔ ∃ t : Tree, s.Reads v t ∧ n = t.node := by
  constructor
  · exact fun h => reads_of_readTo hs h
  · rintro ⟨t, h, rfl⟩
    exact readTo_of_reads h (h.height_le)

/-! ### Looking for a class -/

/-- The class `r` is that of a variable or occurs in its type. -/
inductive Within (s : Store) (r : Var) : Var → Prop where
  | root {v : Var} (h : s.root v = r) : Within s r v
  | item {v i : Var} {vs : List Var} {span : Option Span} (h : s.cell v = .list vs span)
    (hi : i ∈ vs) (hr : Within s r i) : Within s r v

lemma within_of_occursTo {depth : Nat} {b : Bool} (h : s.occursTo r depth v = .ok b) :
    b = true ↔ s.Within r v := by
  induction depth generalizing v b with
  | zero => simp [occursTo] at h
  | succ depth ih =>
    rw [occursTo] at h
    by_cases hr : s.root v = r
    · obtain rfl : true = b := by simpa [hr] using h
      exact ⟨fun _ => .root hr, fun _ => rfl⟩
    · rw [if_neg hr] at h
      cases hc : s.cell v with
      | unknown | aliasOf rep | atom name span =>
        obtain rfl : false = b := by simpa [hc] using h
        refine ⟨fun h => absurd h (by simp), ?_⟩
        intro h
        cases h with
        | root h => exact absurd h hr
        | item h => simp [hc] at h
      | list vs span =>
        have hany := Except.anyM_eq_ok (by simpa only [hc] using h)
        cases b with
        | true =>
          obtain ⟨i, hi, hoc⟩ := hany
          exact ⟨fun _ => .item hc hi ((ih hoc).1 rfl), fun _ => rfl⟩
        | false =>
          refine ⟨fun h => absurd h (by simp), ?_⟩
          intro h
          cases h with
          | root h => exact absurd h hr
          | item h hi hw =>
            obtain ⟨rfl, rfl⟩ : _ ∧ _ := by simpa [hc] using h
            exact (ih (hany _ hi)).2 hw

lemma exists_occursTo {depth : Nat} (h : s.Reads v t) (hd : t.height ≤ depth) :
    ∃ b, s.occursTo r depth v = .ok b := by
  induction t using Tree.induction generalizing v depth with
  | unknown | atom name span =>
    obtain ⟨d, rfl⟩ := Nat.exists_eq_succ_of_ne_zero (Nat.ne_of_gt hd)
    by_cases hr : s.root v = r
    · exact ⟨true, by simp [occursTo, hr]⟩
    · cases h
      all_goals exact ⟨false, by simp [occursTo, *]⟩
  | list ts span ih =>
    cases depth with
    | zero => simp [Tree.height] at hd
    | succ d =>
      have hd' : Tree.heightAll ts ≤ d := Nat.le_of_succ_le_succ hd
      by_cases hr : s.root v = r
      · exact ⟨true, by simp [occursTo, hr]⟩
      · cases h with
        | list h items =>
          obtain ⟨b, hb⟩ := Except.exists_anyM_eq_ok (p := s.occursTo r d) fun i hi => by
            obtain ⟨t, ht, hread⟩ := exists_right_of_forall₂ items hi
            exact ih t ht hread ((Tree.height_le_heightAll ht).trans hd')
          exact ⟨b, by simp [occursTo, hr, h, hb]⟩

/-- On a finite tree the search answers whether the class occurs. -/
theorem Reads.occurs (h : s.Reads v t) :
    ∃ b, s.occurs r v = .ok b ∧ (b = true ↔ s.Within r v) := by
  obtain ⟨b, hb⟩ := exists_occursTo (r := r) h (h.height_le)
  exact ⟨b, hb, within_of_occursTo hb⟩

end Store
end Typing
end TypedLisp
