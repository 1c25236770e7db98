import TypedLisp.Proofs.Typing.Judgement
import TypedLisp.Proofs.Typing.Solution

/-!
# How a store grows

While types are inferred a store only ever learns: it gets new variables, and classes are merged.
`Store.Grows s s'` says so in terms of models, the models of `s'` being models of `s`.  For each
operation there are two statements.  What it gives is what was asked for, in every model of the
result.  And a model of the store before it can be extended to the new variables, with meanings
for them that are given beforehand.
-/

namespace TypedLisp
namespace Typing
variable {D : Type}

namespace Store

variable {s s' s'' : Store} {v w : Var} {c : Cell} {R : SpanRel}
  {I : Interpretation D} {ρ ρ' ρ'' : Var → D} {t : Tree} {d : D}

/-- A store has come from another one by operations of inference. -/
structure Grows (s s' : Store) : Prop where
  closed : s'.Closed
  size_le : s.size ≤ s'.size
  models : ∀ {D : Type} {I : Interpretation D} {ρ : Var → D}, I.Splits → s'.Models I ρ →
    s.Models I ρ

namespace Grows

lemma refl (hs : s.Closed) : s.Grows s := ⟨hs, Nat.le_refl _, fun _ h => h⟩

lemma trans (h : s.Grows s') (h' : s'.Grows s'') : s.Grows s'' :=
  ⟨h'.closed, h.size_le.trans h'.size_le, fun hI hm => h.models hI (h'.models hI hm)⟩

lemma lt (h : s.Grows s') (hv : v < s.size) : v < s'.size :=
  Nat.lt_of_lt_of_le hv h.size_le

/-- Variables of a store are variables of all later ones. -/
lemma forall_lt {α : Type} {xs : List α} {f : α → Var} (h : s.Grows s')
    (hxs : ∀ x ∈ xs, f x < s.size) : ∀ x ∈ xs, f x < s'.size :=
  fun x hx => h.lt (hxs x hx)

lemma knows (h : s.Grows s') : s'.Knows s :=
  h.models s'.splits_graph h.closed.knows_self

end Grows

lemma grows_unify (hs : s.Closed) (hv : v < s.size) (hw : w < s.size)
    (h : s.unify v w = .ok s') : s.Grows s' :=
  have hu := of_unify_eq_ok hs hv hw h
  ⟨hu.1, Nat.le_of_eq hu.2.1.symm, fun hI hm => (hu.2.2 hI hm).1⟩

/-- Two valuations agree on the variables of a store. -/
def Agree (s : Store) (ρ ρ' : Var → D) : Prop := ∀ v < s.size, ρ v = ρ' v

namespace Agree

lemma refl (s : Store) (ρ : Var → D) : s.Agree ρ ρ := fun _ _ => rfl

lemma trans (h : s.Agree ρ ρ') (hsize : s.size ≤ s'.size) (h' : s'.Agree ρ' ρ'') :
    s.Agree ρ ρ'' :=
  fun v hv => (h v hv).trans (h' v (Nat.lt_of_lt_of_le hv hsize))

lemma map {vs : List Var} (h : s.Agree ρ ρ') (hvs : ∀ v ∈ vs, v < s.size) :
    vs.map ρ = vs.map ρ' :=
  List.map_congr_left fun v hv => h v (hvs v hv)

end Agree

/-! ### A new variable -/

lemma grows_push (hs : s.Closed) (hc : c.isAlias = false) (hi : ∀ i ∈ c.items, i < s.size) :
    s.Grows (s.push c).2 :=
  ⟨hs.push hc fun i h => Nat.le_of_lt (hi i h), by simp,
    fun _ h => ((models_push_iff hs hc).1 h).1⟩

lemma exists_models_push (hs : s.Closed) (hc : c.isAlias = false)
    (hi : ∀ i ∈ c.items, i < s.size) (hm : s.Models I ρ) (hd : c.Holds I ρ d) :
    ∃ ρ', s.Agree ρ ρ' ∧ (s.push c).2.Models I ρ' ∧ ρ' s.size = d := by
  -- only the new variable gets another meaning, and no cell of the store speaks of it
  have hagree : s.Agree ρ (Function.update ρ s.size d) := fun v hv => by
    rw [Function.update_of_ne (Nat.ne_of_lt hv)]
  refine ⟨Function.update ρ s.size d, hagree, ?_, Function.update_self ..⟩
  refine (models_push_iff hs hc).2 ⟨hm.congr hs hagree, ?_⟩
  rw [Function.update_self]
  exact hd.congr fun i h => hagree i (hi i h)

/-! ### A new type -/

mutual

/-- New variables for a type. -/
def pushTree (s : Store) : Tree → Var × Store
  | .unknown => s.push .unknown
  | .atom name span => s.push (.atom name span)
  | .list items span => (s.pushTrees items).2.push (.list (s.pushTrees items).1 span)

/-- New variables for types, from left to right. -/
def pushTrees (s : Store) : List Tree → List Var × Store
  | [] => ([], s)
  | t :: ts =>
    ((s.pushTree t).1 :: ((s.pushTree t).2.pushTrees ts).1, ((s.pushTree t).2.pushTrees ts).2)

end

variable {H : Type}

mutual

lemma intern_of_tree? {n : Node H} {s : Store} {t : Tree} (h : tree? n = some t) :
    intern n s = .ok (s.pushTree t) := by
  match n, h with
  | ⟨.null, _, _⟩, h => obtain rfl := Option.some.inj h; rfl
  | ⟨.atom name, span, _⟩, h => obtain rfl := Option.some.inj h; rfl
  | ⟨.list items, span, _⟩, h =>
    obtain ⟨ts, hts, rfl⟩ := Option.map_eq_some_iff.1 h
    simp only [intern, internAll_of_treeAll? hts, bind, Except.bind, pure, Except.pure, pushTree]
  | ⟨.quoted _, _, _⟩, h | ⟨.str _, _, _⟩, h | ⟨.keyword _, _, _⟩, h | ⟨.value _, _, _⟩, h
  | ⟨.procedure _, _, _⟩, h => cases h

lemma internAll_of_treeAll? {ns : List (Node H)} {s : Store} {ts : List Tree}
    (h : treeAll? ns = some ts) : internAll ns s = .ok (s.pushTrees ts) := by
  match ns, h with
  | [], h => obtain rfl := Option.some.inj h; rfl
  | n :: ns, h =>
    obtain ⟨t, ht, h⟩ := Option.bind_eq_some_iff.1 h
    obtain ⟨ts, hts, rfl⟩ := Option.map_eq_some_iff.1 h
    simp only [internAll, intern_of_tree? ht, internAll_of_treeAll? hts, bind, Except.bind, pure,
      Except.pure, pushTrees]

end

mutual

lemma exists_typeError_of_tree? {n : Node H} {s : Store} (h : tree? n = none) :
    ∃ spans cause, intern n s = Outcome.typeError spans cause := by
  match n, h with
  | ⟨.list items, span, _⟩, h =>
    obtain ⟨spans, cause, he⟩ := exists_typeError_of_treeAll? (s := s) (Option.map_eq_none_iff.1 h)
    exact ⟨spans, cause, by simp only [intern, he, Outcome.typeError, Outcome.raise, bind,
      Except.bind]⟩
  | ⟨.null, _, _⟩, h | ⟨.atom _, _, _⟩, h => cases h
  | ⟨.quoted _, _, _⟩, _ | ⟨.str _, _, _⟩, _ | ⟨.keyword _, _, _⟩, _ | ⟨.value _, _, _⟩, _
  | ⟨.procedure _, _, _⟩, _ => exact ⟨_, _, rfl⟩

lemma exists_typeError_of_treeAll? {ns : List (Node H)} {s : Store} (h : treeAll? ns = none) :
    ∃ spans cause, internAll ns s = Outcome.typeError spans cause := by
  match ns, h with
  | [], h => cases h
  | n :: ns, h =>
    cases hn : tree? n with
    | none =>
      obtain ⟨spans, cause, he⟩ := exists_typeError_of_tree? (s := s) hn
      exact ⟨spans, cause, by simp only [internAll, he, Outcome.typeError, Outcome.raise, bind,
        Except.bind]⟩
    | some t =>
      have hns : treeAll? ns = none := by
        simpa only [treeAll?, hn, Option.bind_some, Option.map_eq_none_iff] using h
      obtain ⟨spans, cause, he⟩ := exists_typeError_of_treeAll? (s := (s.pushTree t).2) hns
      exact ⟨spans, cause, by simp only [internAll, intern_of_tree? hn, he, Outcome.typeError,
        Outcome.raise, bind, Except.bind]⟩

end

mutual

lemma grows_pushTree {s : Store} (hs : s.Closed) (t : Tree) :
    s.Grows (s.pushTree t).2 ∧ (s.pushTree t).1 < (s.pushTree t).2.size := by
  match t with
  | .unknown => exact ⟨grows_push hs rfl (by simp), by simp [pushTree]⟩
  | .atom name span => exact ⟨grows_push hs rfl (by simp), by simp [pushTree]⟩
  | .list items span =>
    obtain ⟨hg, hlt⟩ := grows_pushTrees hs items
    exact ⟨hg.trans (grows_push hg.closed rfl hlt), by simp [pushTree]⟩

lemma grows_pushTrees {s : Store} (hs : s.Closed) (ts : List Tree) :
    s.Grows (s.pushTrees ts).2 ∧ ∀ v ∈ (s.pushTrees ts).1, v < (s.pushTrees ts).2.size := by
  match ts with
  | [] => exact ⟨.refl hs, by simp [pushTrees]⟩
  | t :: ts =>
    obtain ⟨hg, hlt⟩ := grows_pushTree hs t
    obtain ⟨hgs, hlts⟩ := grows_pushTrees hg.closed ts
    refine ⟨hg.trans hgs, ?_⟩
    intro v hv
    rcases List.mem_cons.1 hv with rfl | hv
    · exact hgs.lt hlt
    · exact hlts v hv

end

mutual

lemma fits_pushTree {s : Store} (hs : s.Closed) (hI : I.Splits) {t : Tree}
    (hm : (s.pushTree t).2.Models I ρ) : t.Fits I (ρ (s.pushTree t).1) := by
  match t, hm with
  | .unknown, _ => trivial
  | .atom name span, hm => exact ((models_push_iff hs rfl).1 hm).2
  | .list items span, hm =>
    obtain ⟨hms, hlist⟩ := (models_push_iff (grows_pushTrees hs items).1.closed rfl).1 hm
    exact ⟨_, fitsAll_pushTrees hs hI hms, hlist⟩

lemma fitsAll_pushTrees {s : Store} (hs : s.Closed) (hI : I.Splits) {ts : List Tree}
    (hm : (s.pushTrees ts).2.Models I ρ) : Tree.FitsAll I ts ((s.pushTrees ts).1.map ρ) := by
  match ts, hm with
  | [], _ => rfl
  | t :: ts, hm =>
    have hg := (grows_pushTree hs t).1
    have hmt := (grows_pushTrees hg.closed ts).1.models hI hm
    exact ⟨_, _, fits_pushTree hs hI hmt, fitsAll_pushTrees hg.closed hI hm, rfl⟩

end

mutual

lemma exists_models_pushTree {s : Store} {ρ : Var → D} {d : D} {t : Tree}
    (hs : s.Closed) (hm : s.Models I ρ) (ht : t.Fits I d) :
    ∃ ρ', s.Agree ρ ρ' ∧ (s.pushTree t).2.Models I ρ' ∧ ρ' (s.pushTree t).1 = d := by
  match t, ht with
  | .unknown, _ => exact exists_models_push hs rfl (by simp) hm trivial
  | .atom name span, ht => exact exists_models_push hs rfl (by simp) hm ht
  | .list items span, ht =>
    obtain ⟨ds, hds, hlist⟩ := ht
    obtain ⟨ρ₁, hag, hm₁, rfl⟩ := exists_models_pushTrees hs hm hds
    obtain ⟨hg, hlt⟩ := grows_pushTrees hs items
    obtain ⟨ρ₂, hag₂, hm₂, hv⟩ := exists_models_push (c := .list _ span) hg.closed rfl hlt hm₁ hlist
    exact ⟨ρ₂, hag.trans hg.size_le hag₂, hm₂, hv⟩

lemma exists_models_pushTrees {s : Store} {ρ : Var → D} {ds : List D} {ts : List Tree}
    (hs : s.Closed) (hm : s.Models I ρ) (hfits : Tree.FitsAll I ts ds) :
    ∃ ρ', s.Agree ρ ρ' ∧ (s.pushTrees ts).2.Models I ρ' ∧ (s.pushTrees ts).1.map ρ' = ds := by
  match ts, hfits with
  | [], hnil => exact ⟨ρ, .refl s ρ, hm, hnil.symm⟩
  | t :: ts, hcons =>
    obtain ⟨d, es, ht, hts, rfl⟩ := hcons
    obtain ⟨ρ₁, hag, hm₁, rfl⟩ := exists_models_pushTree hs hm ht
    obtain ⟨hg, hlt⟩ := grows_pushTree hs t
    obtain ⟨ρ₂, hag₂, hm₂, rfl⟩ := exists_models_pushTrees hg.closed hm₁ hts
    refine ⟨ρ₂, hag.trans hg.size_le hag₂, hm₂, ?_⟩
    simp only [pushTrees, List.map_cons, hag₂ _ hlt]

end

/-- What has been interned is in the store from then on. -/
lemma of_intern_eq_ok {n : Node H} (hs : s.Closed) (h : intern n s = .ok (v, s')) :
    ∃ t, tree? n = some t ∧ s.Grows s' ∧ v < s'.size ∧
      ∀ {D : Type} {I : Interpretation D} {ρ : Var → D}, I.Splits → s'.Models I ρ →
        t.Fits I (ρ v) := by
  cases hn : tree? n with
  | none =>
    obtain ⟨_, _, he⟩ := exists_typeError_of_tree? (s := s) hn
    cases h.symm.trans he
  | some t =>
    obtain ⟨rfl, rfl⟩ : _ ∧ _ := Except.eq_of_eq_ok h (intern_of_tree? hn)
    obtain ⟨hg, hlt⟩ := grows_pushTree hs t
    exact ⟨t, rfl, hg, hlt, fun hI hm => fits_pushTree hs hI hm⟩

lemma exists_intern {n : Node H} (hs : s.Closed) (hn : tree? n = some t) (hm : s.Models I ρ)
    (ht : t.Fits I d) :
    ∃ v s' ρ', intern n s = .ok (v, s') ∧ s.Agree ρ ρ' ∧ s'.Models I ρ' ∧ ρ' v = d := by
  obtain ⟨ρ', hag, hm', hv⟩ := exists_models_pushTree hs hm ht
  exact ⟨_, _, ρ', intern_of_tree? hn, hag, hm', hv⟩

/-! ### New unknowns -/

lemma pushUnknowns_eq (s : Store) (n : Nat) :
    s.pushUnknowns n = s.pushTrees (List.replicate n .unknown) := by
  induction n generalizing s with
  | zero => rfl
  | succ n ih => simp only [pushUnknowns, ih, List.replicate_succ, pushTrees, pushTree]

lemma length_pushUnknowns (s : Store) (n : Nat) : (s.pushUnknowns n).1.length = n := by
  induction n generalizing s with
  | zero => rfl
  | succ n ih => simp only [pushUnknowns, List.length_cons, ih]

lemma grows_pushUnknowns (hs : s.Closed) (n : Nat) :
    s.Grows (s.pushUnknowns n).2 ∧ ∀ v ∈ (s.pushUnknowns n).1, v < (s.pushUnknowns n).2.size := by
  rw [pushUnknowns_eq]
  exact grows_pushTrees hs _

lemma exists_models_pushUnknowns (hs : s.Closed) (hm : s.Models I ρ) (ds : List D) :
    ∃ ρ', s.Agree ρ ρ' ∧ (s.pushUnknowns ds.length).2.Models I ρ' ∧
      (s.pushUnknowns ds.length).1.map ρ' = ds := by
  rw [pushUnknowns_eq]
  refine exists_models_pushTrees hs hm (Tree.fitsAll_iff_forall₂.2 ?_)
  induction ds with
  | nil => exact .nil
  | cons d ds ih => exact .cons trivial ih

end Store

/-! ### Arrows -/

namespace Interpretation

/-- The meanings of an arrow whose arguments and result have the given meanings, in this order. -/
def IsArrow (I : Interpretation D) (ds : List D) (d : D) : Prop :=
  ∃ head, I.atom Node.arrowName none head ∧ I.list (head :: ds) none d

end Interpretation

/-- The types of the arguments and that of the result. -/
def Arrow.types (a : Arrow) : List Var := a.first :: a.rest ++ [a.result]

lemma Arrow.ofTail?_eq_some_iff {vs : List Var} {a : Arrow} :
    Arrow.ofTail? vs = some a ↔ a.types = vs := by
  constructor
  · intro h
    match vs, h with
    | first :: next :: more, h =>
      obtain rfl := Option.some.inj h
      have hlast : (next :: more).getLastD next = (next :: more).getLast (by simp) := by
        rw [List.getLastD_eq_getLast?, List.getLast?_eq_some_getLast (by simp), Option.getD_some]
      rw [types, hlast, List.cons_append, List.dropLast_append_getLast]
  · rintro rfl
    obtain ⟨first, rest, result⟩ := a
    cases rest with
    | nil => rfl
    | cons next more =>
      have hlast : (next :: (more ++ [result])).getLastD next = result := by
        rw [← List.cons_append, List.getLastD_concat]
      have hinit : (next :: (more ++ [result])).dropLast = next :: more := by
        rw [← List.cons_append, List.dropLast_concat]
      simp only [types, List.cons_append, ofTail?, hlast, hinit]

lemma Arrow.exists_types_eq {vs : List Var} (h : 2 ≤ vs.length) : ∃ a : Arrow, a.types = vs := by
  match vs, h with
  | first :: next :: more, _ => exact ⟨_, Arrow.ofTail?_eq_some_iff.1 rfl⟩

namespace Store

variable {s s' : Store} {v w : Var} {R : SpanRel} {I : Interpretation D} {ρ : Var → D} {a : Arrow}
  {d : D}

lemma arrow?_eq_some_iff : s.arrow? v = some a ↔ ∃ head span headSpan,
    s.cell v = .list (head :: a.types) span ∧ s.cell head = .atom Node.arrowName headSpan := by
  constructor
  · intro h
    unfold arrow? at h
    split at h
    · next head tail span hv =>
      split at h
      · next name headSpan hh =>
        split at h
        · next hname =>
          subst hname
          rw [Arrow.ofTail?_eq_some_iff] at h
          exact ⟨head, span, headSpan, by rw [h, hv], hh⟩
        · cases h
      · cases h
    · cases h
  · rintro ⟨head, span, headSpan, hv, hh⟩
    simp only [arrow?, hv, hh, if_true]
    exact Arrow.ofTail?_eq_some_iff.2 rfl

/-- The parts of an arrow are variables of the store. -/
lemma lt_of_arrow? (hs : s.Closed) (h : s.arrow? v = some a) : ∀ i ∈ a.types, i < s.size := by
  obtain ⟨head, span, _, hv, _⟩ := arrow?_eq_some_iff.1 h
  intro i hi
  refine hs.cell_items_lt (v := v) i ?_
  rw [hv]
  exact List.mem_cons_of_mem head hi

/-- What is known to be an arrow is one in all models. -/
lemma isArrow_of_arrow? (h : s.arrow? v = some a) (hI : I.Splits) (hm : s.Models I ρ) :
    I.IsArrow (a.types.map ρ) (ρ v) := by
  obtain ⟨head, span, headSpan, hv, hh⟩ := arrow?_eq_some_iff.1 h
  have hcell := hm.cell v
  have hhead := hm.cell head
  rw [hv] at hcell
  rw [hh] at hhead
  -- spans may be forgotten: a span is the merge of no span and itself
  exact ⟨ρ head, (hI.atom (a := none) hhead).1, (hI.list (a := none) hcell).1⟩

lemma graph_isArrow_unique {ds es : List Var} {r : Var} (h : s.graph.IsArrow ds r)
    (h' : s.graph.IsArrow es r) : ds = es := by
  obtain ⟨_, -, us, span, -, hus, hc⟩ := h
  obtain ⟨_, -, us', span', -, hus', hc'⟩ := h'
  obtain ⟨rfl, rfl⟩ : _ ∧ _ := by simpa [hc] using hc'
  exact (List.cons.inj (hus.trans hus'.symm)).2

lemma exists_arrow? {vs : List Var} (hs : s.Closed)
    (h : s.graph.IsArrow (vs.map s.root) (s.root v)) (hlen : 2 ≤ vs.length) :
    ∃ a, s.arrow? v = some a ∧ a.types.map s.root = vs.map s.root := by
  obtain ⟨_, ⟨headSpan, -, hh⟩, us, span, -, hus, hv⟩ := h
  cases us with
  | nil => simp at hus
  | cons head us =>
    obtain ⟨rfl, htail⟩ : _ ∧ vs.map s.root = us.map s.root := List.cons.inj hus
    have hlen' : 2 ≤ us.length := by
      rwa [← List.length_map s.root, ← htail, List.length_map]
    obtain ⟨a, rfl⟩ := Arrow.exists_types_eq hlen'
    rw [hs.cell_root] at hh hv
    exact ⟨a, arrow?_eq_some_iff.2 ⟨head, span, headSpan, hv, hh⟩, htail.symm⟩

/-! ### New arrows -/

lemma grows_pushArrow {types : List Var} (hs : s.Closed) (ht : ∀ i ∈ types, i < s.size) :
    s.Grows (s.pushArrow types).2 ∧ (s.pushArrow types).1 < (s.pushArrow types).2.size := by
  have hg := grows_push (c := .atom Node.arrowName none) hs rfl (by simp)
  refine ⟨hg.trans (grows_push hg.closed rfl fun i hi => ?_), by simp [pushArrow]⟩
  rcases List.mem_cons.1 hi with rfl | hi
  · rw [size_push]
    exact Nat.lt_succ_self _
  · exact hg.lt (ht i hi)

lemma isArrow_pushArrow {types : List Var} (hs : s.Closed)
    (hm : (s.pushArrow types).2.Models I ρ) :
    I.IsArrow (types.map ρ) (ρ (s.pushArrow types).1) := by
  have hg := grows_push (c := .atom Node.arrowName none) hs rfl (by simp)
  obtain ⟨hm, hlist⟩ := (models_push_iff hg.closed rfl).1 hm
  obtain ⟨-, hhead⟩ := (models_push_iff hs rfl).1 hm
  exact ⟨_, hhead, hlist⟩

lemma exists_models_pushArrow {types : List Var} (hs : s.Closed) (ht : ∀ i ∈ types, i < s.size)
    (hm : s.Models I ρ) (h : I.IsArrow (types.map ρ) d) :
    ∃ ρ', s.Agree ρ ρ' ∧ (s.pushArrow types).2.Models I ρ' ∧ ρ' (s.pushArrow types).1 = d := by
  obtain ⟨head, hhead, hlist⟩ := h
  obtain ⟨ρ₁, hag₁, hm₁, rfl⟩ :=
    exists_models_push (c := .atom Node.arrowName none) hs rfl (by simp) hm hhead
  have hg := grows_push (c := .atom Node.arrowName none) hs rfl (by simp)
  have hlt : ∀ i ∈ s.size :: types, i < (s.push (.atom Node.arrowName none)).2.size := by
    intro i hi
    rcases List.mem_cons.1 hi with rfl | hi
    · rw [size_push]
      exact Nat.lt_succ_self _
    · exact hg.lt (ht i hi)
  rw [hag₁.map ht] at hlist
  obtain ⟨ρ₂, hag₂, hm₂, hd⟩ := exists_models_push (c := .list (s.size :: types) none) hg.closed
    rfl hlt hm₁ hlist
  exact ⟨ρ₂, hag₁.trans hg.size_le hag₂, hm₂, hd⟩

/-! ### Where an arrow is needed -/

/-- A type where an arrow is needed: one that is an arrow stays as it is, and one of which nothing
is known becomes an arrow of as many arguments as are left. -/
theorem of_expectArrow_eq_ok {n : Nat} (hs : s.Closed) (hv : v < s.size)
    (h : s.expectArrow v n = .ok (some a, s')) :
    s.Grows s' ∧ s'.arrow? v = some a ∧ (s.cell v = .unknown → a.rest.length + 1 = n) ∧
      (s.cell v ≠ .unknown → s' = s) := by
  unfold expectArrow at h
  split at h
  · next hc =>
    obtain ⟨hgu, hlt⟩ := grows_pushUnknowns hs (n + 1)
    obtain ⟨hga, hfresh⟩ := grows_pushArrow hgu.closed hlt
    have hg := hgu.trans hga
    obtain ⟨s₂, hu, h⟩ := Except.exists_of_bind_eq_ok h
    obtain ⟨ha, rfl⟩ := Prod.mk.inj (Except.ok.inj h)
    have hr := (hg.closed.root_lt_iff (v := v)).2 (hg.lt hv)
    obtain ⟨hc₂, -, hmod⟩ := of_unify_eq_ok hg.closed hr hfresh hu
    have hg₂ := grows_unify hg.closed hr hfresh hu
    refine ⟨hg.trans hg₂, ha, fun _ => ?_, fun hne => absurd hc hne⟩
    -- the classes of the result: that of `v` is the new arrow
    obtain ⟨hm, heq⟩ := hmod s₂.splits_graph hc₂.knows_self
    have hfresh := isArrow_pushArrow hgu.closed hm
    have hva := isArrow_of_arrow? ha s₂.splits_graph hc₂.knows_self
    rw [← heq, hm.root] at hfresh
    have hlen := congrArg List.length (graph_isArrow_unique hva hfresh)
    simpa [Arrow.types, length_pushUnknowns] using hlen
  · next hc =>
    obtain ⟨ha, rfl⟩ := Prod.mk.inj (Except.ok.inj h)
    exact ⟨.refl hs, ha, fun h => absurd h hc, fun _ => rfl⟩

/-- The parts of the arrow are variables of the store. -/
lemma lt_of_expectArrow_eq_ok {n : Nat} (hs : s.Closed) (hv : v < s.size)
    (h : s.expectArrow v n = .ok (some a, s')) :
    s.Grows s' ∧ (∀ i ∈ a.first :: a.rest, i < s'.size) ∧ a.result < s'.size := by
  obtain ⟨hg, harrow, -⟩ := of_expectArrow_eq_ok hs hv h
  have hlt := lt_of_arrow? hg.closed harrow
  exact ⟨hg, fun i hi => hlt i (List.mem_append_left _ hi), hlt _ (by simp [Arrow.types])⟩

/-- Where a model in trees has an arrow, inference finds one too, unless it comes upon something
that is not known to be one.  An arrow that it makes up has to be of the right length. -/
theorem exists_expectArrow {n : Nat} {θ : Var → Tree} {ts : List Tree} (hR : R.Joins)
    (hs : s.Closed) (hv : v < s.size) (hm : s.Models (.trees R) θ)
    (ht : (Interpretation.trees R).IsArrow ts (θ v)) (hts : 2 ≤ ts.length)
    (hopen : s.cell v = .unknown → ts.length = n + 1)
    (hknown : s.cell v ≠ .unknown → ∃ a, s.arrow? v = some a) :
    ∃ a s' θ', s.expectArrow v n = .ok (some a, s') ∧ s.Agree θ θ' ∧ s'.Models (.trees R) θ' := by
  unfold expectArrow
  split
  · next hc =>
    obtain ⟨hgu, hlt⟩ := grows_pushUnknowns hs (n + 1)
    obtain ⟨hga, hfresh⟩ := grows_pushArrow hgu.closed hlt
    have hg := hgu.trans hga
    obtain ⟨θ₁, hag₁, hm₁, hts₁⟩ := exists_models_pushUnknowns hs hm ts
    rw [hopen hc] at hm₁ hts₁
    obtain ⟨θ₂, hag₂, hm₂, hd⟩ := exists_models_pushArrow hgu.closed hlt hm₁ (hts₁.symm ▸ ht)
    have hag := hag₁.trans hgu.size_le hag₂
    have hr := (hg.closed.root_lt_iff (v := v)).2 (hg.lt hv)
    obtain ⟨s₂, hu, hm'⟩ := exists_unify hR hg.closed hr hfresh hm₂
      (by rw [hm₂.root, ← hag v hv, hd])
    obtain ⟨hc₂, -, hmod⟩ := of_unify_eq_ok hg.closed hr hfresh hu
    -- the class of `v` is the new arrow now
    obtain ⟨hmg, heq⟩ := hmod s₂.splits_graph hc₂.knows_self
    have harrow := isArrow_pushArrow hgu.closed hmg
    rw [← heq, hmg.root] at harrow
    obtain ⟨a, ha, -⟩ := exists_arrow? hc₂ harrow (by
      rw [length_pushUnknowns, ← hopen hc]
      exact hts)
    refine ⟨a, s₂, θ₂, ?_, hag, hm'⟩
    simp only [pushUnknownArrow, hu, ha, bind, Except.bind, pure, Except.pure]
  · next hc =>
    obtain ⟨a, ha⟩ := hknown hc
    exact ⟨a, s, θ, by rw [ha], .refl s θ, hm⟩

end Store
end Typing
end TypedLisp
