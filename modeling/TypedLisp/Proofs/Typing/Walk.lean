import TypedLisp.Proofs.Typing.Commitment
import TypedLisp.Proofs.Typing.Growth

/-!
# Walks by one argument after the other

The rules take a walk by whole arrows, inference takes it by one argument after the other.  Walks
of the second kind are taken in any domain of meanings (`Interpretation.WalksFrom`); in trees both
are the same (`walks_iff_walksFrom`), and a walk of classes can be read off a store as a walk of
trees.
-/

namespace TypedLisp
namespace Typing

variable {D : Type} {I : Interpretation D} {R : SpanRel}

/-! ### Arrows of trees and of classes -/

lemma Interpretation.isArrow_trees_iff (hR : R.Joins) {ts : List Tree} {t : Tree} :
    (trees R).IsArrow ts t ↔
      ∃ headSpan span, t = .list (.atom Node.arrowName headSpan :: ts) span := by
  constructor
  · rintro ⟨_, ⟨headSpan, -, rfl⟩, span, -, rfl⟩
    exact ⟨headSpan, span, rfl⟩
  · rintro ⟨headSpan, span, rfl⟩
    exact ⟨_, ⟨headSpan, hR.none, rfl⟩, span, hR.none, rfl⟩

lemma Interpretation.isArrow_trees_unique {ts us : List Tree} {t : Tree}
    (h : (trees R).IsArrow ts t) (h' : (trees R).IsArrow us t) : ts = us := by
  obtain ⟨_, -, _, -, rfl⟩ := h
  obtain ⟨_, -, _, -, heq⟩ := h'
  exact (List.cons.inj (Tree.list.inj heq).1).2

lemma Tree.isArrow_iff (hR : R.Joins) {args : List Tree} {r t : Tree} :
    t.IsArrow args r ↔ args ≠ [] ∧ (Interpretation.trees R).IsArrow (args ++ [r]) t := by
  rw [Interpretation.isArrow_trees_iff hR]
  rfl

namespace Store

variable {s : Store}

/-- The parts of an arrow can be read if the arrow can. -/
lemma Reads.of_isArrow {ds : List Var} {d : Var} {t : Tree} (hs : s.Closed)
    (h : s.graph.IsArrow ds d) (hr : s.Reads d t) :
    ∃ ts, List.Forall₂ s.Reads ds ts ∧ (Interpretation.trees .any).IsArrow ts t := by
  obtain ⟨_, ⟨headSpan, -, hh⟩, us, span, -, hus, hv⟩ := h
  cases hr with
  | unknown hc | atom hc => simp [hv] at hc
  | list hc items =>
    obtain ⟨rfl, rfl⟩ : _ ∧ _ := by simpa [hv] using hc
    have hds := List.forall₂_map_left_iff.2 (forall₂_imp_of_mem (fun _ _ _ _ h => h.root hs) items)
    rw [← hus] at hds
    cases hds with
    | cons hhead htail =>
      rw [hhead.unique (.atom hh)]
      exact ⟨_, htail, (Interpretation.isArrow_trees_iff SpanRel.joins_any).2 ⟨_, _, rfl⟩⟩

/-- An arrow can be read if its parts can. -/
lemma exists_reads_of_isArrow {ds : List Var} {d : Var} {ts : List Tree} (hs : s.Closed)
    (h : s.graph.IsArrow ds d) (hts : List.Forall₂ s.Reads ds ts) :
    ∃ t, s.Reads d t ∧ (Interpretation.trees .any).IsArrow ts t := by
  obtain ⟨head, ⟨headSpan, -, hh⟩, us, span, -, hus, hv⟩ := h
  have hus' : List.Forall₂ s.Reads us (.atom Node.arrowName headSpan :: ts) := by
    have := List.Forall₂.cons (.atom hh) hts
    rw [hus, List.forall₂_map_left_iff] at this
    exact forall₂_imp_of_mem (fun _ _ _ _ h => h.of_root_eq hs.root_root) this
  exact ⟨_, .list hv hus', (Interpretation.isArrow_trees_iff SpanRel.joins_any).2 ⟨_, _, rfl⟩⟩

end Store

/-- What is known to be an arrow is one in trees. -/
lemma Store.isArrow_trees_of_arrow? {s : Store} {v : Var} {a : Arrow} {θ : Var → Tree}
    (h : s.arrow? v = some a) (hR : R.Joins) (hm : s.Models (.trees R) θ) :
    (Interpretation.trees R).IsArrow (a.types.map θ) (θ v) := by
  obtain ⟨head, span, headSpan, hv, hh⟩ := arrow?_eq_some_iff.1 h
  have hcell := hm.cell v
  have hhead := hm.cell head
  rw [hv] at hcell
  rw [hh] at hhead
  obtain ⟨headSpan', -, hθh⟩ := hhead
  obtain ⟨span', -, hθ⟩ := hcell
  rw [Interpretation.isArrow_trees_iff hR, hθ, List.map_cons, hθh]
  exact ⟨_, _, rfl⟩

/-! ### Walks by one argument after the other -/

/-- A walk from an arrow that still asks for `slots` and has the result `r`. -/
inductive Interpretation.WalksFrom (I : Interpretation D) : List D → D → List D → D → Prop where
  | done (r : D) : WalksFrom I [] r [] r
  | partway {slots : List D} {r t : D} (hslots : slots ≠ []) (ht : I.IsArrow (slots ++ [r]) t) :
    WalksFrom I slots r [] t
  | take {slot : D} {slots args : List D} {r t : D} (rest : WalksFrom I slots r args t) :
    WalksFrom I (slot :: slots) r (slot :: args) t
  | next {slot : D} {slots args : List D} {r r' t : D}
    (h : I.IsArrow (slot :: slots ++ [r']) r) (rest : WalksFrom I slots r' args t) :
    WalksFrom I [] r (slot :: args) t

namespace Interpretation.WalksFrom

lemma append {slots more : List D} {r t : D} (h : I.WalksFrom [] r more t) :
    I.WalksFrom slots r (slots ++ more) t := by
  induction slots with
  | nil => exact h
  | cons slot slots ih => exact .take ih

lemma append_partway {args missing : List D} {r t : D} (hmissing : missing ≠ [])
    (h : I.IsArrow (missing ++ [r]) t) : I.WalksFrom (args ++ missing) r args t := by
  induction args with
  | nil => exact .partway hmissing h
  | cons arg args ih => exact .take ih

/-- A walk in trees from the start of an arrow that has taken the arguments `taken`, or from a
result, is a walk of the rules. -/
lemma walks (hR : R.Joins) {slots args : List Tree} {r t : Tree}
    (h : (trees R).WalksFrom slots r args t) :
    (slots = [] → Walks r args t) ∧
      ∀ f taken, taken ≠ [] → f.IsArrow (taken ++ slots) r → Walks f (taken ++ args) t := by
  induction h with
  | done r =>
    refine ⟨fun _ => .done r, ?_⟩
    intro f taken _ hf
    rw [List.append_nil] at hf
    exact .through hf (.done r)
  | partway hslots ht =>
    -- the arguments run out in the middle of the arrow
    refine ⟨fun h => absurd h hslots, ?_⟩
    intro f taken htaken hf
    rw [List.append_nil]
    exact .partway htaken hf ((Tree.isArrow_iff hR).2 ⟨hslots, ht⟩)
  | @take slot slots args r t _ ih =>
    refine ⟨by simp, ?_⟩
    intro f taken _ hf
    have := ih.2 f (taken ++ [slot]) (by simp) (by simpa using hf)
    simpa using this
  | @next slot slots args r r' t hr _ ih =>
    -- the arrow before has taken all that it asks for, and its result is the next arrow
    have hwalk : Walks r (slot :: args) t :=
      ih.2 r [slot] (by simp) ((Tree.isArrow_iff hR).2 ⟨by simp, hr⟩)
    refine ⟨fun _ => hwalk, ?_⟩
    intro f taken _ hf
    rw [List.append_nil] at hf
    exact .through hf hwalk

end Interpretation.WalksFrom

/-- The walks of the rules can be taken by one argument after the other. -/
theorem walks_iff_walksFrom (hR : R.Joins) {f t : Tree} {args : List Tree} :
    Walks f args t ↔ (Interpretation.trees R).WalksFrom [] f args t := by
  constructor
  · intro h
    induction h with
    | done t => exact .done t
    | @through f r t args more hf _ ih =>
      obtain ⟨hargs, harrow⟩ := (Tree.isArrow_iff hR).1 hf
      cases args with
      | nil => exact absurd rfl hargs
      | cons arg args => exact .next harrow ih.append
    | @partway f r t args missing hargs hf ht =>
      obtain ⟨-, harrow⟩ := (Tree.isArrow_iff hR).1 hf
      obtain ⟨hmissing, ht⟩ := (Tree.isArrow_iff hR).1 ht
      cases args with
      | nil => exact absurd rfl hargs
      | cons arg args => exact .next harrow (.append_partway hmissing ht)
  · exact fun h => (h.walks hR).1 rfl

/-- What a walk of classes comes to can be read if what it starts from can, and it is a walk in
trees. -/
lemma Store.exists_reads_of_walksFrom {s : Store} {slots args : List Var} {r v : Var}
    {us : List Tree} {u : Tree} (hs : s.Closed) (h : s.graph.WalksFrom slots r args v)
    (hslots : List.Forall₂ s.Reads slots us) (hr : s.Reads r u) :
    ∃ ts t, List.Forall₂ s.Reads args ts ∧ s.Reads v t ∧
      (Interpretation.trees .any).WalksFrom us u ts t := by
  induction h generalizing us u with
  | done r =>
    cases hslots
    exact ⟨[], u, .nil, hr, .done u⟩
  | partway hne ht =>
    obtain ⟨t, hread, harrow⟩ :=
      Store.exists_reads_of_isArrow hs ht (List.rel_append hslots (.cons hr .nil))
    refine ⟨[], t, .nil, hread, .partway (fun hus => ?_) harrow⟩
    subst hus
    cases hslots
    exact hne rfl
  | take _ ih =>
    cases hslots with
    | cons hslot hslots =>
      obtain ⟨ts, t, hargs, hv, hw⟩ := ih hslots hr
      exact ⟨_ :: ts, t, .cons hslot hargs, hv, .take hw⟩
  | next harrow _ ih =>
    cases hslots
    obtain ⟨ws, hws, harrow'⟩ := hr.of_isArrow hs harrow
    obtain ⟨ws₁, ws₂, h₁, h₂, rfl⟩ := exists_append_of_forall₂_append hws
    cases h₁ with
    | cons hslot hslots =>
      cases h₂ with
      | cons hres hnil =>
        cases hnil
        obtain ⟨ts, t, hargs, hv, hw⟩ := ih hslots hres
        exact ⟨_ :: ts, t, .cons hslot hargs, hv, .next harrow' hw⟩

lemma Interpretation.WalksFrom.eq_of_length {ds es : List D} {r t : D}
    (h : I.WalksFrom ds r es t) (hlen : ds.length = es.length) : es = ds ∧ t = r := by
  induction h with
  | done r => exact ⟨rfl, rfl⟩
  | partway hslots => exact absurd (List.length_eq_zero_iff.1 hlen) hslots
  | take _ ih =>
    obtain ⟨rfl, rfl⟩ := ih (Nat.succ.inj hlen)
    exact ⟨rfl, rfl⟩
  | next => exact absurd hlen (by simp)

/-- From an arrow that still asks for `slots` and has the result `r`, a walk comes to an arrow of
just the arguments that are left when so many are left. -/
def Interpretation.Awaits (I : Interpretation D) (slots : List D) (r : D) (args : List D)
    (left : Nat) : Prop :=
  ∃ before after g t, args = before ++ after ∧ after.length = left ∧ after ≠ [] ∧
    I.WalksFrom slots r before g ∧ I.IsArrow (after ++ [t]) g

lemma awaits_iff (hR : R.Joins) {f : Tree} {args : List Tree} {left : Nat} :
    Awaits f args left ↔ (Interpretation.trees R).Awaits [] f args left := by
  constructor
  · rintro ⟨before, after, g, t, hargs, hleft, hf, hg⟩
    obtain ⟨hafter, hg⟩ := (Tree.isArrow_iff hR).1 hg
    exact ⟨before, after, g, t, hargs, hleft, hafter, (walks_iff_walksFrom hR).1 hf, hg⟩
  · rintro ⟨before, after, g, t, hargs, hleft, hafter, hf, hg⟩
    exact ⟨before, after, g, t, hargs, hleft, (walks_iff_walksFrom hR).2 hf,
      (Tree.isArrow_iff hR).2 ⟨hafter, hg⟩⟩

namespace Interpretation.Awaits

variable {slots args : List D} {r r' slot : D} {left : Nat}

lemma here {t : D} (hargs : args ≠ []) (h : I.IsArrow (args ++ [t]) r) :
    I.Awaits [] r args args.length :=
  ⟨[], args, r, t, rfl, rfl, hargs, .done r, h⟩

lemma take (h : I.Awaits slots r args left) : I.Awaits (slot :: slots) r (slot :: args) left := by
  obtain ⟨before, after, g, t, rfl, hleft, hafter, hw, hg⟩ := h
  exact ⟨slot :: before, after, g, t, rfl, hleft, hafter, .take hw, hg⟩

lemma next (hr : I.IsArrow (slot :: slots ++ [r']) r) (h : I.Awaits slots r' args left) :
    I.Awaits [] r (slot :: args) left := by
  obtain ⟨before, after, g, t, rfl, hleft, hafter, hw, hg⟩ := h
  exact ⟨slot :: before, after, g, t, rfl, hleft, hafter, .next hr hw, hg⟩

lemma of_take (h : I.Awaits (slot :: slots) r (slot :: args) left) (hleft : left ≤ args.length) :
    I.Awaits slots r args left := by
  obtain ⟨before, after, g, t, hargs, rfl, hafter, hw, hg⟩ := h
  cases before with
  | nil =>
    obtain rfl : _ = after := hargs
    exact absurd hleft (by simp)
  | cons a before =>
    obtain ⟨rfl, rfl⟩ : _ ∧ _ := List.cons.inj hargs
    cases hw with
    | take hw => exact ⟨before, after, g, t, rfl, rfl, hafter, hw, hg⟩

/-- With all arguments left, the type at hand is the arrow. -/
lemma exists_isArrow (h : I.Awaits [] r args args.length) : ∃ t, I.IsArrow (args ++ [t]) r := by
  obtain ⟨before, after, g, t, rfl, hleft, hafter, hw, hg⟩ := h
  -- no argument has been taken
  obtain rfl : before = [] := by
    rw [List.length_append] at hleft
    exact List.length_eq_zero_iff.1 (by omega)
  cases hw with
  | done => exact ⟨t, hg⟩
  | partway hslots => exact absurd rfl hslots

end Interpretation.Awaits

/-- A walk in trees that goes on from a result, which is an arrow. -/
lemma Interpretation.WalksFrom.of_next {slots args : List Tree} {r r' slot arg t : Tree}
    (hr : (trees R).IsArrow (slot :: slots ++ [r']) r)
    (h : (trees R).WalksFrom [] r (arg :: args) t) :
    arg = slot ∧ (trees R).WalksFrom slots r' args t := by
  cases h with
  | next h rest =>
    have hts := isArrow_trees_unique h hr
    obtain ⟨hinit, hlast⟩ := List.append_inj' hts rfl
    obtain ⟨rfl, rfl⟩ : _ ∧ _ := List.cons.inj hinit
    obtain ⟨rfl, -⟩ : _ ∧ _ := List.cons.inj hlast
    exact ⟨rfl, rest⟩

lemma Interpretation.Awaits.of_next {slots args : List Tree} {r r' slot : Tree} {left : Nat}
    (hr : (trees R).IsArrow (slot :: slots ++ [r']) r)
    (h : (trees R).Awaits [] r (slot :: args) left) (hleft : left ≤ args.length) :
    (trees R).Awaits slots r' args left := by
  obtain ⟨before, after, g, t, hargs, rfl, hafter, hw, hg⟩ := h
  cases before with
  | nil =>
    obtain rfl : _ = after := hargs
    exact absurd hleft (by simp)
  | cons a before =>
    obtain ⟨rfl, rfl⟩ : _ ∧ _ := List.cons.inj hargs
    exact ⟨before, after, g, t, rfl, rfl, hafter, (hw.of_next hr).2, hg⟩

end Typing
end TypedLisp
