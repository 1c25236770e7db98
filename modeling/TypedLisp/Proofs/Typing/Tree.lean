import Mathlib.Data.List.Forall2
import TypedLisp.Typing.Inference

/-!
# Types as trees

A type is a finite tree of atoms, lists and unknowns.  Type nodes and the variables of a store
stand for such trees, and all that is proved about inference speaks of them.  What an atom or a
list means is a parameter, an `Interpretation`: a tree may be held against other trees, up to
spans or with them, or against the classes of a store.
-/

namespace TypedLisp

/-! ### Lists side by side -/

section Forall₂

variable {α β γ : Type} {R S : α → β → Prop} {xs : List α} {ys zs : List β}

lemma forall₂_imp_of_mem (H : ∀ x ∈ xs, ∀ y ∈ ys, R x y → S x y) (h : List.Forall₂ R xs ys) :
    List.Forall₂ S xs ys := by
  induction h with
  | nil => exact .nil
  | cons hxy _ ih =>
    exact .cons (H _ (by simp) _ (by simp) hxy)
      (ih fun x hx y hy => H x (by simp [hx]) y (by simp [hy]))

lemma forall₂_imp₂_of_mem {T : α → β → Prop} (H : ∀ x ∈ xs, ∀ y, R x y → S x y → T x y)
    (h : List.Forall₂ R xs ys) (h' : List.Forall₂ S xs ys) : List.Forall₂ T xs ys := by
  induction h with
  | nil => exact .nil
  | cons hxy _ ih =>
    cases h' with
    | cons hxy' h' =>
      exact .cons (H _ (by simp) _ hxy hxy') (ih (fun x hx => H x (by simp [hx])) h')

lemma forall₂_trans_of_mem {Q : β → γ → Prop} {T : α → γ → Prop} {zs : List γ}
    (H : ∀ x ∈ xs, ∀ y z, R x y → Q y z → T x z) (h : List.Forall₂ R xs ys)
    (h' : List.Forall₂ Q ys zs) : List.Forall₂ T xs zs := by
  induction h generalizing zs with
  | nil => cases h'; exact .nil
  | cons hxy _ ih =>
    cases h' with
    | cons hyz h' =>
      exact .cons (H _ (by simp) _ _ hxy hyz) (ih (fun x hx => H x (by simp [hx])) h')

lemma forall₂_right_unique (H : ∀ y ∈ ys, ∀ x z, R x y → R x z → y = z)
    (hy : List.Forall₂ R xs ys) (hz : List.Forall₂ R xs zs) : ys = zs := by
  induction hy generalizing zs with
  | nil => cases hz; rfl
  | cons hxy _ ih =>
    cases hz with
    | cons hxz hz =>
      rw [H _ (by simp) _ _ hxy hxz, ih (fun y hy => H y (by simp [hy])) hz]

lemma exists_left_of_forall₂ (h : List.Forall₂ R xs ys) {y : β} (hy : y ∈ ys) :
    ∃ x ∈ xs, R x y := by
  induction h with
  | nil => simp at hy
  | cons hxy _ ih =>
    rcases List.mem_cons.1 hy with rfl | hy
    · exact ⟨_, by simp, hxy⟩
    · obtain ⟨x, hx, h⟩ := ih hy
      exact ⟨x, by simp [hx], h⟩

lemma exists_right_of_forall₂ (h : List.Forall₂ R xs ys) {x : α} (hx : x ∈ xs) :
    ∃ y ∈ ys, R x y :=
  exists_left_of_forall₂ h.flip hx

lemma exists_forall₂ (h : ∀ x ∈ xs, ∃ y, R x y) : ∃ ys, List.Forall₂ R xs ys := by
  induction xs with
  | nil => exact ⟨[], .nil⟩
  | cons x xs ih =>
    obtain ⟨y, hy⟩ := h x (by simp)
    obtain ⟨ys, hys⟩ := ih fun x hx => h x (by simp [hx])
    exact ⟨y :: ys, .cons hy hys⟩

lemma exists_forall₂_of_forall₂_exists {f : β → γ} {zs : List γ}
    (h : List.Forall₂ (fun x z => ∃ y, R x y ∧ z = f y) xs zs) :
    ∃ ys, List.Forall₂ R xs ys ∧ zs = ys.map f := by
  induction h with
  | nil => exact ⟨[], .nil, rfl⟩
  | cons hx _ ih =>
    obtain ⟨y, hy, rfl⟩ := hx
    obtain ⟨ys, hys, rfl⟩ := ih
    exact ⟨y :: ys, .cons hy hys, rfl⟩

lemma exists_of_forall₂_triple {x y z : α} (h : List.Forall₂ R [x, y, z] ys) :
    ∃ x' y' z', ys = [x', y', z'] ∧ R x x' ∧ R y y' ∧ R z z' := by
  obtain _ | ⟨hx, _ | ⟨hy, _ | ⟨hz, ⟨⟩⟩⟩⟩ := h
  exact ⟨_, _, _, rfl, hx, hy, hz⟩

lemma exists_append_of_forall₂_append {xs' : List α} (h : List.Forall₂ R (xs ++ xs') ys) :
    ∃ zs zs', List.Forall₂ R xs zs ∧ List.Forall₂ R xs' zs' ∧ ys = zs ++ zs' := by
  induction xs generalizing ys with
  | nil => exact ⟨[], ys, .nil, h, rfl⟩
  | cons x xs ih =>
    cases h with
    | cons hx h =>
      obtain ⟨zs, zs', hzs, hzs', rfl⟩ := ih h
      exact ⟨_ :: zs, zs', .cons hx hzs, hzs', rfl⟩

end Forall₂

/-- Induction on the lists that a node is made of; all other nodes are leaves. -/
@[elab_as_elim]
theorem Node.induction {H : Type} {P : Node H → Prop}
    (list : ∀ items span type, (∀ n ∈ items, P n) → P ⟨.list items, span, type⟩)
    (leaf : ∀ kind span type, (∀ items, kind ≠ .list items) → P ⟨kind, span, type⟩) : ∀ n, P n
  | ⟨.quoted _, _, _⟩ | ⟨.atom _, _, _⟩ | ⟨.str _, _, _⟩ | ⟨.null, _, _⟩ | ⟨.keyword _, _, _⟩
  | ⟨.value _, _, _⟩ | ⟨.procedure _, _, _⟩ => leaf _ _ _ (by simp)
  | ⟨.list items, span, type⟩ => list items span type fun n _ => Node.induction list leaf n

namespace Typing

/-- A type without the annotations inside of it. -/
inductive Tree where
  /-- A type of which nothing is known. -/
  | unknown
  /-- The type of a name. -/
  | atom (name : String) (span : Option Span)
  /-- A list of types. -/
  | list (items : List Tree) (span : Option Span)

namespace Tree

/-- Induction with one hypothesis for all items of a list. -/
@[elab_as_elim]
theorem induction {P : Tree → Prop} (unknown : P .unknown) (atom : ∀ name span, P (.atom name span))
    (list : ∀ items span, (∀ t ∈ items, P t) → P (.list items span)) : ∀ t, P t
  | .unknown => unknown
  | .atom name span => atom name span
  | .list items span => list items span fun t _ => induction unknown atom list t

mutual

/-- How deep a tree is. -/
def height : Tree → Nat
  | unknown => 1
  | atom _ _ => 1
  | list items _ => heightAll items + 1

/-- How deep the deepest of some trees is. -/
def heightAll : List Tree → Nat
  | [] => 0
  | t :: ts => max (height t) (heightAll ts)

end

lemma height_pos (t : Tree) : 0 < t.height := by
  cases t <;> simp [height]

lemma height_le_heightAll {t : Tree} {ts : List Tree} (h : t ∈ ts) :
    t.height ≤ heightAll ts := by
  induction ts with
  | nil => simp at h
  | cons u us ih =>
    rcases List.mem_cons.1 h with rfl | h
    · exact Nat.le_max_left _ _
    · exact Nat.le_trans (ih h) (Nat.le_max_right _ _)

lemma exists_height_eq_heightAll {ts : List Tree} (h : 0 < heightAll ts) :
    ∃ t ∈ ts, t.height = heightAll ts := by
  induction ts with
  | nil => simp [heightAll] at h
  | cons u us ih =>
    rcases Nat.le_total (heightAll us) u.height with hle | hle
    · exact ⟨u, by simp, by simp [heightAll, hle]⟩
    · obtain ⟨t, ht, heq⟩ := ih (Nat.lt_of_lt_of_le u.height_pos hle)
      exact ⟨t, by simp [ht], by simp [heightAll, hle, heq]⟩

lemma height_lt_of_mem {t : Tree} {ts : List Tree} {span : Option Span} (h : t ∈ ts) :
    t.height < (list ts span).height := by
  simpa [height] using Nat.lt_succ_of_le (height_le_heightAll h)

mutual

/-- The tree without its spans. -/
def bare : Tree → Tree
  | unknown => unknown
  | atom name _ => atom name none
  | list items _ => list (bareAll items) none

/-- The trees without their spans. -/
def bareAll : List Tree → List Tree
  | [] => []
  | t :: ts => bare t :: bareAll ts

end

@[simp] lemma bareAll_eq_map (ts : List Tree) : bareAll ts = ts.map bare := by
  induction ts with
  | nil => rfl
  | cons t ts ih => simp [bareAll, ih]

@[simp] lemma bare_unknown : unknown.bare = unknown := rfl

@[simp] lemma bare_atom (name : String) (span : Option Span) :
    (atom name span).bare = atom name none := rfl

@[simp] lemma bare_list (items : List Tree) (span : Option Span) :
    (list items span).bare = list (items.map bare) none := by
  simp [bare]

variable {H : Type}

mutual

/-- The tree as a type node. -/
def node : Tree → Node H
  | unknown => .null
  | atom name span => .atom name span
  | list items span => .list (nodeAll items) span

/-- The trees as type nodes. -/
def nodeAll : List Tree → List (Node H)
  | [] => []
  | t :: ts => node t :: nodeAll ts

end

@[simp] lemma nodeAll_eq_map (ts : List Tree) : nodeAll (H := H) ts = ts.map node := by
  induction ts with
  | nil => rfl
  | cons t ts ih => simp [nodeAll, ih]

@[simp] lemma node_unknown : (unknown.node : Node H) = .null := rfl

@[simp] lemma node_atom (name : String) (span : Option Span) :
    ((atom name span).node : Node H) = .atom name span := rfl

@[simp] lemma node_list (items : List Tree) (span : Option Span) :
    ((list items span).node : Node H) = .list (items.map node) span := by
  simp [node]

end Tree

/-! ### Type nodes -/

variable {H : Type}

mutual

/-- The tree that a type node stands for; annotations inside of it are ignored. -/
def tree? : Node H → Option Tree
  | ⟨.null, _, _⟩ => some .unknown
  | ⟨.atom name, span, _⟩ => some (.atom name span)
  | ⟨.list items, span, _⟩ => (treeAll? items).map (.list · span)
  | _ => none

/-- The trees that type nodes stand for. -/
def treeAll? : List (Node H) → Option (List Tree)
  | [] => some []
  | n :: ns => (tree? n).bind fun t => (treeAll? ns).map (t :: ·)

end

@[simp] lemma tree?_null : tree? (Node.null : Node H) = some .unknown := rfl

lemma treeAll?_map_node {ts : List Tree} (h : ∀ t ∈ ts, tree? (t.node : Node H) = some t) :
    treeAll? (ts.map (Tree.node (H := H))) = some ts := by
  induction ts with
  | nil => rfl
  | cons t ts ih =>
    simp only [List.map_cons, treeAll?, h t List.mem_cons_self,
      ih fun u hu => h u (List.mem_cons_of_mem t hu), Option.bind_some, Option.map_some]

@[simp] lemma tree?_node (t : Tree) : tree? (t.node : Node H) = some t := by
  induction t using Tree.induction with
  | unknown => rfl
  | atom name span => rfl
  | list items span ih =>
    simp [Node.list, tree?, treeAll?_map_node ih]

/-! ### Meanings -/

/-- What types mean in a domain: the meanings of an atom, and those of a list of types with given
meanings. -/
structure Interpretation (D : Type) where
  atom : String → Option Span → D → Prop
  list : List D → Option Span → D → Prop

/-- How the span of a type may stand to that of its meaning. -/
abbrev SpanRel := Option Span → Option Span → Prop

namespace SpanRel

/-- Spans do not matter. -/
def any : SpanRel := fun _ _ => True

/-- A span is not lost. -/
def kept : SpanRel := fun a b => a.isSome → b.isSome

/-- A span is missing or right. -/
def same : SpanRel := fun a b => a = none ∨ a = b

/-- The span of a merge may stand as it does because both of its sides may. -/
structure Joins (R : SpanRel) : Prop where
  or : ∀ {a b c}, R a c → R b c → R (a.or b) c
  none : ∀ {c}, R none c

/-- Both sides of a merge may stand as its span does. -/
def Splits (R : SpanRel) : Prop :=
  ∀ {a b c}, R (a.or b) c → R a c ∧ R b c

lemma joins_any : Joins any := ⟨fun _ _ => trivial, trivial⟩

lemma joins_same : Joins same where
  or := by
    rintro (_ | a) b c ha hb
    · exact hb
    · exact ha
  none := .inl rfl

lemma splits_any : Splits any := fun _ => ⟨trivial, trivial⟩

lemma splits_kept : Splits kept := by
  intro a b c h
  cases a <;> cases b <;> simp_all [kept]

end SpanRel

namespace Interpretation

variable {D : Type}

/-- Where the merge of two cells holds, both of them do. -/
structure Splits (I : Interpretation D) : Prop where
  atom : ∀ {name a b d}, I.atom name (a.or b) d → I.atom name a d ∧ I.atom name b d
  list : ∀ {ds a b d}, I.list ds (a.or b) d → I.list ds a d ∧ I.list ds b d

/-- Types mean trees. -/
def trees (R : SpanRel) : Interpretation Tree where
  atom name span t := ∃ span', R span span' ∧ t = .atom name span'
  list ts span t := ∃ span', R span span' ∧ t = .list ts span'

lemma splits_trees {R : SpanRel} (hR : R.Splits) : (trees R).Splits where
  atom := fun ⟨span', h, ht⟩ => ⟨⟨span', (hR h).1, ht⟩, ⟨span', (hR h).2, ht⟩⟩
  list := fun ⟨span', h, ht⟩ => ⟨⟨span', (hR h).1, ht⟩, ⟨span', (hR h).2, ht⟩⟩

end Interpretation

variable {D : Type}

mutual

/-- What is known of a type is right about a meaning. -/
def Tree.Fits (I : Interpretation D) : Tree → D → Prop
  | .unknown, _ => True
  | .atom name span, d => I.atom name span d
  | .list items span, d => ∃ ds, Tree.FitsAll I items ds ∧ I.list ds span d

/-- What is known of some types is right about as many meanings. -/
def Tree.FitsAll (I : Interpretation D) : List Tree → List D → Prop
  | [], ds => ds = []
  | t :: ts, ds => ∃ d es, Tree.Fits I t d ∧ Tree.FitsAll I ts es ∧ ds = d :: es

end

lemma Tree.fitsAll_iff_forall₂ {I : Interpretation D} {ts : List Tree} {ds : List D} :
    Tree.FitsAll I ts ds ↔ List.Forall₂ (Tree.Fits I) ts ds := by
  induction ts generalizing ds with
  | nil => simp [Tree.FitsAll]
  | cons t ts ih => simp only [Tree.FitsAll, ih, List.forall₂_cons_left_iff]

lemma Tree.fits_self {R : SpanRel} (t : Tree) (hR : ∀ span, R span span) : t.Fits (.trees R) t := by
  induction t using Tree.induction with
  | unknown => trivial
  | atom name span => exact ⟨span, hR span, rfl⟩
  | list items span ih =>
    exact ⟨items, Tree.fitsAll_iff_forall₂.2 (List.forall₂_same.2 ih), span, hR span, rfl⟩

end Typing
end TypedLisp
