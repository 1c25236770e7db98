import TypedLisp.Error.Basic
import TypedLisp.Node.Arrow
import TypedLisp.Proofs.Bindings
import TypedLisp.Proofs.Text

/-!
# Errors and nodes with places in a text

An error points into a text if all of its spans and its hint lie in the text.  Nodes hand on their
spans, so that what a stage has to keep up is that the spans of all nodes lie in the text.

Types have to satisfy more, but only until they are inferred: when an arrow of several arguments is
nested, a new span is made up that goes from one of its items to the last one.  This is a span of
the text only if the items are in order, as they are where a type is written.
-/

namespace TypedLisp

variable {H α β : Type} {cs : List Char}

/-! ### Spans -/

/-- An optional span lies in a text, if there is one. -/
def Span.IsInIfAny (span : Option Span) (cs : List Char) : Prop := ∀ s ∈ span, s.IsIn cs

lemma Span.isInIfAny_none : Span.IsInIfAny none cs := nofun

lemma Span.IsIn.ifAny {s : Span} (h : s.IsIn cs) : Span.IsInIfAny (some s) cs := by
  rintro _ ⟨⟩
  exact h

/-- The span from the start of one span to the end of another one, if that is not before it. -/
lemma Span.IsIn.cover {s t : Span} (hs : s.IsIn cs) (ht : t.IsIn cs) (h : s.start ≤ t.stop) :
    Span.IsIn ⟨s.start, t.stop⟩ cs :=
  ⟨h, hs.start, ht.stop⟩

lemma Span.exists_of_mem_cover {first last : Option Span} {t : Span}
    (h : t ∈ Span.cover first last) : ∃ s ∈ first, ∃ u ∈ last, t = ⟨s.start, u.stop⟩ := by
  cases first with
  | none => cases h
  | some s =>
    cases last with
    | none => cases h
    | some u => exact ⟨s, rfl, u, rfl, (Option.some.inj h).symm⟩

lemma Span.IsInIfAny.or {s t : Option Span} (hs : Span.IsInIfAny s cs)
    (ht : Span.IsInIfAny t cs) : Span.IsInIfAny (s.or t) cs := by
  cases s with
  | none => exact ht
  | some s => exact hs

/-! ### Errors -/

/-- All that an error points at lies in a text. -/
structure Error.PointsInto (e : Error) (cs : List Char) : Prop where
  /-- The places lie in the text. -/
  spans : ∀ s ∈ e.spans, s.IsIn cs
  /-- The hint is between two characters. -/
  hint : ∀ h ∈ e.hint?, Text.IsBoundary cs h.offset

namespace Error

lemma pointsInto_typeAt {spans : List (Option Span)} (cause : TypeCause)
    (h : ∀ span ∈ spans, Span.IsInIfAny span cs) : (typeAt spans cause).PointsInto cs where
  spans s hs := by
    obtain ⟨span, hspan, heq⟩ := List.mem_filterMap.1 hs
    exact h span hspan s heq
  hint := nofun

lemma pointsInto_reference (name : String) {span : Option Span} (h : Span.IsInIfAny span cs) :
    (reference name span).PointsInto cs where
  spans s hs := h s (Option.mem_toList.1 hs)
  hint := nofun

lemma pointsInto_grammar (cause : GrammarCause) {span : Option Span} {hint : Option Hint}
    (h : Span.IsInIfAny span cs) (hhint : ∀ h ∈ hint, Text.IsBoundary cs h.offset) :
    (grammar cause span hint).PointsInto cs where
  spans s hs := h s (Option.mem_toList.1 hs)
  hint := hhint

lemma PointsInto.orAt {e : Error} {span : Option Span} (h : e.PointsInto cs)
    (hspan : Span.IsInIfAny span cs) : (e.orAt span).PointsInto cs := by
  unfold Error.orAt
  split
  · next cause s =>
    refine ⟨fun t ht => ?_, nofun⟩
    obtain rfl := List.mem_singleton.1 ht
    exact hspan t rfl
  · exact h

end Error

/-! ### Outcomes -/

/-- A computation stays in a text: the errors that it fails with point into the text, and its
answers have a property `G`. -/
inductive Outcome.StaysIn (cs : List Char) (G : α → Prop) : Outcome α → Prop
  /-- There is an answer. -/
  | ok {a : α} (h : G a) : StaysIn cs G (.ok a)
  /-- There is an error. -/
  | raised {e : Error} (h : e.PointsInto cs) : StaysIn cs G (.error (.raised e))
  /-- There is no end. -/
  | endless : StaysIn cs G (.error .endless)

namespace Outcome.StaysIn

variable {G : α → Prop} {F : β → Prop} {x : Outcome α}

lemma answer {a : α} (h : Outcome.StaysIn cs G (.ok a)) : G a := by
  cases h with
  | ok h => exact h

lemma error {e : Error} (h : Outcome.StaysIn cs G (.error (.raised e))) : e.PointsInto cs := by
  cases h with
  | raised h => exact h

lemma imp {G' : α → Prop} (h : x.StaysIn cs G) (hG : ∀ a, G a → G' a) : x.StaysIn cs G' := by
  cases h with
  | ok h => exact .ok (hG _ h)
  | raised h => exact .raised h
  | endless => exact .endless

lemma bind (h : x.StaysIn cs G) {f : α → Outcome β} (hf : ∀ a, G a → (f a).StaysIn cs F) :
    (x >>= f).StaysIn cs F := by
  cases h with
  | ok h => exact hf _ h
  | raised h => exact .raised h
  | endless => exact .endless

lemma map (h : x.StaysIn cs G) {f : α → β} (hf : ∀ a, G a → F (f a)) :
    Outcome.StaysIn cs F (x.map f) := by
  cases h with
  | ok h => exact .ok (hf _ h)
  | raised h => exact .raised h
  | endless => exact .endless

lemma mapM {f : β → Outcome α} {bs : List β} (h : ∀ b ∈ bs, (f b).StaysIn cs G) :
    Outcome.StaysIn cs (fun as => ∀ a ∈ as, G a) (bs.mapM f) := by
  induction bs with
  | nil => exact .ok (by simp)
  | cons b bs ih =>
    obtain ⟨hb, hbs⟩ := List.forall_mem_cons.1 h
    rw [List.mapM_cons]
    refine hb.bind fun a ha => (ih hbs).bind fun as has => .ok ?_
    exact List.forall_mem_cons.2 ⟨ha, has⟩

lemma typeError {spans : List (Option Span)} (cause : TypeCause)
    (h : ∀ span ∈ spans, Span.IsInIfAny span cs) :
    Outcome.StaysIn cs G (Outcome.typeError spans cause) :=
  .raised (Error.pointsInto_typeAt cause h)

/-- A type error at one place. -/
lemma typeErrorAt {span : Option Span} (cause : TypeCause) (h : Span.IsInIfAny span cs) :
    Outcome.StaysIn cs G (Outcome.typeError [span] cause) :=
  .typeError cause (by simpa using h)

lemma orAt {span : Option Span} (h : x.StaysIn cs G) (hspan : Span.IsInIfAny span cs) :
    (x.orAt span).StaysIn cs G := by
  cases h with
  | ok h => exact .ok h
  | raised h => exact .raised (h.orAt hspan)
  | endless => exact .endless

end Outcome.StaysIn

/-! ### Nodes -/

/-- The nodes that a node of a kind is made of. -/
def Kind.parts : Kind H → List (Node H)
  | .list items => items
  | .quoted inner => [inner]
  | _ => []

namespace Node

/-- The spans of a node and of all nodes that it is made of lie in a text, and their types have a
property `T`. -/
inductive IsPlaced (cs : List Char) (T : Node H → Prop) : Node H → Prop
  | mk {kind : Kind H} {span : Option Span} {type : Option (Node H)}
    (hspan : Span.IsInIfAny span cs) (htype : ∀ t ∈ type, T t)
    (hparts : ∀ m ∈ kind.parts, IsPlaced cs T m) : IsPlaced cs T ⟨kind, span, type⟩

namespace IsPlaced

variable {T : Node H → Prop} {n : Node H} {span : Option Span} {items : List (Node H)}

lemma span_isIn (h : n.IsPlaced cs T) : Span.IsInIfAny n.span cs := by
  cases h with
  | mk hspan htype hparts => exact hspan

lemma type_of_mem (h : n.IsPlaced cs T) : ∀ t ∈ n.type?, T t := by
  cases h with
  | mk hspan htype hparts => exact htype

lemma parts (h : n.IsPlaced cs T) : ∀ m ∈ n.kind.parts, m.IsPlaced cs T := by
  cases h with
  | mk hspan htype hparts => exact hparts

lemma type (h : n.IsPlaced cs T) (hnull : T .null) : T n.type := by
  rw [Node.type]
  cases htype : n.type? with
  | none => exact hnull
  | some t => exact h.type_of_mem t htype

lemma withType {type : Node H} (h : n.IsPlaced cs T) (htype : T type) :
    (n.withType type).IsPlaced cs T := by
  refine .mk h.span_isIn ?_ h.parts
  intro t ht
  split at ht
  · cases ht
  · obtain rfl := Option.some.inj ht
    exact htype

lemma relocated (h : n.IsPlaced cs T) (hspan : Span.IsInIfAny span cs) :
    (n.relocated span).IsPlaced cs T :=
  .mk hspan h.type_of_mem h.parts

lemma list (hspan : Span.IsInIfAny span cs) (hitems : ∀ m ∈ items, m.IsPlaced cs T) :
    (Node.list items span).IsPlaced cs T :=
  .mk hspan nofun hitems

lemma quoted (hspan : Span.IsInIfAny span cs) (h : n.IsPlaced cs T) :
    (Node.quoted n span).IsPlaced cs T :=
  .mk hspan nofun (by simpa [Kind.parts] using h)

/-- A node that is not made of others. -/
lemma leaf {kind : Kind H} (hspan : Span.IsInIfAny span cs) (hparts : kind.parts = []) :
    IsPlaced cs T ⟨kind, span, none⟩ :=
  .mk hspan nofun (by simp [hparts])

lemma null : (Node.null : Node H).IsPlaced cs T := .leaf Span.isInIfAny_none rfl

lemma imp {T' : Node H → Prop} (hT : ∀ t, T t → T' t) (h : n.IsPlaced cs T) :
    n.IsPlaced cs T' := by
  induction h with
  | mk hspan htype _ ih => exact .mk hspan (fun t ht => hT t (htype t ht)) ih

/-- Nothing is asked of types: a node is placed if it is without them. -/
theorem of_withoutTypes : ∀ n : Node H, n.withoutTypes.IsPlaced cs (fun _ => True) →
    n.IsPlaced cs fun _ => True
  | ⟨.list items, span, type⟩, h => by
    refine .mk h.span_isIn (fun _ _ => trivial) fun m (hm : m ∈ items) =>
      of_withoutTypes m (h.parts _ ?_)
    rw [Node.withoutTypes, withoutTypesAll_eq_map]
    exact List.mem_map_of_mem hm
  | ⟨.quoted inner, span, type⟩, h => by
    have hinner := of_withoutTypes inner
      (h.parts inner.withoutTypes (by simp [Node.withoutTypes, Kind.parts]))
    exact .mk h.span_isIn (fun _ _ => trivial) (by simpa [Kind.parts] using hinner)
  | ⟨.atom _, _, _⟩, h | ⟨.str _, _, _⟩, h | ⟨.null, _, _⟩, h | ⟨.keyword _, _, _⟩, h
  | ⟨.value _, _, _⟩, h | ⟨.procedure _, _, _⟩, h =>
    .mk h.span_isIn (fun _ _ => trivial) h.parts

theorem withoutTypes (h : n.IsPlaced cs T) : n.withoutTypes.IsPlaced cs T := by
  induction h with
  | @mk kind span type hspan _ _ ih =>
    cases kind with
    | list items =>
      rw [Node.withoutTypes, withoutTypesAll_eq_map]
      refine .list hspan ?_
      intro m hm
      obtain ⟨n, hn, rfl⟩ := List.mem_map.1 hm
      exact ih n hn
    | quoted inner => exact .quoted hspan (ih inner (by simp [Kind.parts]))
    | atom | str | null | keyword | value | procedure => exact .leaf hspan rfl

end IsPlaced

/-! ### Types with items in order -/

lemma span_curryList (items : List (Node H)) (span : Option Span) :
    (curryList items span).span = span := by
  unfold curryList
  repeat' split
  all_goals rfl

lemma span_curry (n : Node H) : n.curry.span = n.span := by
  obtain ⟨kind, span, type⟩ := n
  cases kind with
  | list items => rw [curry_list, span_curryList]
  | _ => rfl

/-- The span of one node does not start behind the end of the other one. -/
def StartsBefore (m n : Node H) : Prop := ∀ s ∈ m.span, ∀ t ∈ n.span, s.start ≤ t.stop

/-- The spans of a type and of all types that it is made of lie in a text, and the items of each
list are in order. -/
inductive IsLaid (cs : List Char) : Node H → Prop
  | mk {kind : Kind H} {span : Option Span} {type : Option (Node H)}
    (hspan : Span.IsInIfAny span cs) (hparts : ∀ m ∈ kind.parts, IsLaid cs m)
    (horder : kind.parts.Pairwise StartsBefore) : IsLaid cs ⟨kind, span, type⟩

namespace IsLaid

variable {n : Node H} {span : Option Span} {items : List (Node H)}

lemma span_isIn (h : n.IsLaid cs) : Span.IsInIfAny n.span cs := by
  cases h with
  | mk hspan hparts horder => exact hspan

lemma parts (h : n.IsLaid cs) : ∀ m ∈ n.kind.parts, m.IsLaid cs := by
  cases h with
  | mk hspan hparts horder => exact hparts

lemma order (h : n.IsLaid cs) : n.kind.parts.Pairwise StartsBefore := by
  cases h with
  | mk hspan hparts horder => exact horder

lemma relocated (h : n.IsLaid cs) (hspan : Span.IsInIfAny span cs) :
    (n.relocated span).IsLaid cs :=
  .mk hspan h.parts h.order

lemma leaf {kind : Kind H} (hspan : Span.IsInIfAny span cs) (hparts : kind.parts = []) :
    IsLaid cs ⟨kind, span, none⟩ :=
  .mk hspan (by simp [hparts]) (by simp [hparts])

lemma null : (Node.null : Node H).IsLaid cs := .leaf Span.isInIfAny_none rfl

lemma quoted (hspan : Span.IsInIfAny span cs) (h : n.IsLaid cs) :
    (Node.quoted n span).IsLaid cs :=
  .mk hspan (by simpa [Kind.parts] using h) (by simp [Kind.parts])

lemma withType (h : n.IsLaid cs) (type : Node H) : (n.withType type).IsLaid cs :=
  .mk h.span_isIn h.parts h.order

lemma withoutTypes (h : n.IsLaid cs) : n.withoutTypes.IsLaid cs := by
  induction h with
  | @mk kind span type hspan _ horder ih =>
    cases kind with
    | list items =>
      rw [Node.withoutTypes, withoutTypesAll_eq_map]
      refine .mk hspan (List.forall_mem_map.2 ih) (List.pairwise_map.2 (horder.imp ?_))
      intro m n hmn
      rwa [StartsBefore, span_withoutTypes, span_withoutTypes]
    | quoted inner => exact .quoted hspan (ih inner (by simp [Kind.parts]))
    | atom | str | null | keyword | value | procedure => exact .leaf hspan rfl

lemma list (hspan : Span.IsInIfAny span cs) (hitems : ∀ m ∈ items, m.IsLaid cs)
    (horder : items.Pairwise StartsBefore) : (Node.list items span).IsLaid cs :=
  .mk hspan hitems horder

/-- All types of some that are in order start before the end of the last one. -/
lemma startsBefore_last {l : Node H} (hlast : items.getLast? = some l)
    (hitems : ∀ m ∈ items, m.IsLaid cs) (horder : items.Pairwise StartsBefore) :
    ∀ m ∈ items, m.StartsBefore l := by
  obtain ⟨before, rfl⟩ := List.getLast?_eq_some_iff.1 hlast
  intro m hm
  rcases List.mem_append.1 hm with hm | hm
  · exact (List.pairwise_append.1 horder).2.2 m hm l (by simp)
  · obtain rfl := List.mem_singleton.1 hm
    intro s hs t ht
    obtain rfl := Option.some.inj (hs.symm.trans ht)
    exact ((hitems m (by simp)).span_isIn s hs).start_le_stop

/-- An arrow that is nested is laid like the one that it is made from, and it ends like the last
type of that. -/
lemma nestArrows {head l : Node H} (hhead : head.IsLaid cs) (hl : l.IsLaid cs) :
    ∀ (first : Node H) (rest : List (Node H)), (∀ m ∈ first :: rest, m.IsLaid cs) →
      (∀ m ∈ first :: rest, m.StartsBefore l) → head.StartsBefore l →
      (head :: first :: rest).Pairwise StartsBefore →
      (Node.nestArrows head l.span first rest).IsLaid cs ∧
        ∀ m : Node H, (∀ k ∈ first :: rest, m.StartsBefore k) → m.StartsBefore l →
          m.StartsBefore (Node.nestArrows head l.span first rest)
  | first, [], hitems, hbefore, hheadl, horder =>
    ⟨hitems first List.mem_cons_self, fun m hm _ => hm first List.mem_cons_self⟩
  | first, next :: rest, hitems, hbefore, hheadl, horder => by
    obtain ⟨hfirst, hrest⟩ := List.forall_mem_cons.1 hitems
    obtain ⟨hfirstl, hrestl⟩ := List.forall_mem_cons.1 hbefore
    obtain ⟨hhead', horder'⟩ := List.pairwise_cons.1 horder
    obtain ⟨hfirst', horder''⟩ := List.pairwise_cons.1 horder'
    obtain ⟨hheadfirst, hheadrest⟩ := List.forall_mem_cons.1 hhead'
    obtain ⟨hinner, hends⟩ := nestArrows hhead hl next rest hrest hrestl hheadl
      (List.pairwise_cons.2 ⟨hheadrest, horder''⟩)
    have hspan : Span.IsInIfAny (Span.cover first.span l.span) cs := by
      intro t ht
      obtain ⟨s, hs, u, hu, rfl⟩ := Span.exists_of_mem_cover ht
      exact (hfirst.span_isIn s hs).cover (hl.span_isIn u hu) (hfirstl s hs u hu)
    constructor
    · refine .list hspan ?_ ?_
      · simpa using ⟨hhead, hfirst, hinner⟩
      · simpa using ⟨⟨hheadfirst, hends head hheadrest hheadl⟩, hends first hfirst' hfirstl⟩
    · intro m _ hml s hs t ht
      obtain ⟨_, _, u, hu, rfl⟩ := Span.exists_of_mem_cover ht
      exact hml s hs u hu

lemma curryList (hspan : Span.IsInIfAny span cs) (hitems : ∀ m ∈ items, m.IsLaid cs)
    (horder : items.Pairwise StartsBefore) : (Node.curryList items span).IsLaid cs := by
  unfold Node.curryList
  split
  · next head only =>
    split
    · exact (hitems only (by simp)).relocated hspan
    · exact .list hspan hitems horder
  · next head first next rest =>
    split
    · obtain ⟨hhead, hrest⟩ := List.forall_mem_cons.1 hitems
      obtain ⟨hfirst, hrest⟩ := List.forall_mem_cons.1 hrest
      obtain ⟨hhead', horder'⟩ := List.pairwise_cons.1 horder
      obtain ⟨hfirst', -⟩ := List.pairwise_cons.1 horder'
      obtain ⟨hheadfirst, hheadrest⟩ := List.forall_mem_cons.1 hhead'
      -- the last type, up to which the nested arrows reach
      obtain ⟨l, hl⟩ : ∃ l, (next :: rest).getLast? = some l :=
        ⟨_, List.getLast?_eq_some_getLast (List.cons_ne_nil next rest)⟩
      have hmem : l ∈ next :: rest := List.mem_of_getLast? hl
      have hlast : (next :: rest).getLastD next = l := by
        rw [List.getLastD_eq_getLast?, hl, Option.getD_some]
      have hbefore : ∀ m ∈ head :: first :: next :: rest, m.StartsBefore l := by
        refine startsBefore_last ?_ hitems horder
        rw [List.getLast?_cons_cons, List.getLast?_cons_cons, hl]
      obtain ⟨hinner, hends⟩ := nestArrows hhead (hrest l hmem) next rest hrest
        (fun m hm => hbefore m (by simp [hm])) (hbefore head (by simp))
        (List.pairwise_cons.2 ⟨hheadrest, (List.pairwise_cons.1 horder').2⟩)
      rw [hlast]
      refine .list hspan ?_ ?_
      · simpa using ⟨hhead, hfirst, hinner⟩
      · simpa using ⟨⟨hheadfirst, hends head hheadrest (hbefore head (by simp))⟩,
          hends first hfirst' (hbefore first (by simp))⟩
    · exact .list hspan hitems horder
  · exact .list hspan hitems horder

/-- Nesting arrows keeps a type laid. -/
theorem curry (h : n.IsLaid cs) : n.curry.IsLaid cs := by
  induction h with
  | @mk kind span type hspan hparts horder ih =>
    cases kind with
    | list items =>
      rw [curry_list]
      refine curryList hspan (List.forall_mem_map.2 ih) (List.pairwise_map.2 (horder.imp ?_))
      intro m n hmn
      rwa [StartsBefore, span_curry, span_curry]
    | quoted | atom | str | null | keyword | value | procedure => exact .mk hspan hparts horder

end IsLaid
end Node
end TypedLisp
