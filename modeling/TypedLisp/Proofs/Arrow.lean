import Mathlib.Tactic.Lemma
import TypedLisp.Proofs.Erasure.Node
import TypedLisp.Proofs.Typing.Tree

/-!
# One-argument arrows

Two ways to say what form types have once `Node.curry` has gone over them.  No list in them is an
arrow of another number of arguments than one.  And up to spans the form of an arrow is a nest of
arrows of one argument, which can be taken apart at any argument.
-/

namespace TypedLisp

variable {H : Type}

namespace Node

/-! ### Arrows of one argument only -/

/-- A part of a type is the type itself or a part of an item of it.  What lies under a quotation or
in an annotation is no part of a type. -/
inductive TypePart (m : Node H) : Node H → Prop where
  | self : TypePart m m
  | item {n : Node H} {items : List (Node H)} (span : Option Span) (type : Option (Node H))
    (hn : n ∈ items) (h : TypePart m n) : TypePart m ⟨.list items, span, type⟩

/-- Every arrow in a type has one argument: no list headed by `->` has one further part or more than
two. -/
def IsCurried (type : Node H) : Prop :=
  ∀ m, TypePart m type → ∀ head tail, m.list? = some (head :: tail) → head.isArrowHead →
    tail.length ≠ 1 ∧ tail.length ≤ 2

lemma isCurried_list_iff {items : List (Node H)} {span : Option Span} {type : Option (Node H)} :
    IsCurried ⟨.list items, span, type⟩ ↔ (∀ n ∈ items, n.IsCurried) ∧
      ∀ head tail, items = head :: tail → head.isArrowHead → tail.length ≠ 1 ∧ tail.length ≤ 2 := by
  constructor
  · intro h
    refine ⟨fun n hn m hm => h m (.item span type hn hm), fun head tail heq => ?_⟩
    exact h _ .self head tail (congrArg some heq)
  · rintro ⟨hitems, hown⟩ m hm head tail hlist
    cases hm with
    | self => exact hown head tail (Option.some.inj hlist)
    | item _ _ hn hm => exact hitems _ hn m hm head tail hlist

lemma isCurried_leaf {kind : Kind H} {span : Option Span} {type : Option (Node H)}
    (hkind : ∀ items, kind ≠ .list items) : IsCurried ⟨kind, span, type⟩ := by
  intro m hm head tail hlist
  cases hm with
  | self =>
    cases kind with
    | list items => exact absurd rfl (hkind items)
    | _ => cases hlist
  | item => exact absurd rfl (hkind _)

lemma isCurried_null : (null : Node H).IsCurried :=
  isCurried_leaf nofun

lemma IsCurried.relocated {type : Node H} (h : type.IsCurried) (span : Option Span) :
    (type.relocated span).IsCurried := by
  obtain ⟨kind, span', type'⟩ := type
  cases kind with
  | list items => exact isCurried_list_iff.2 (isCurried_list_iff.1 h)
  | _ => exact isCurried_leaf nofun

lemma isCurried_nestArrows {head first : Node H} {rest : List (Node H)} (last : Option Span)
    (hhead : head.IsCurried) (hfirst : first.IsCurried) (hrest : ∀ n ∈ rest, n.IsCurried) :
    (nestArrows head last first rest).IsCurried := by
  induction rest generalizing first with
  | nil => exact hfirst
  | cons next rest ih =>
    obtain ⟨hnext, hrest⟩ := List.forall_mem_cons.1 hrest
    refine isCurried_list_iff.2 ⟨?_, ?_⟩
    · simpa using ⟨hhead, hfirst, ih hnext hrest⟩
    · rintro _ _ ⟨⟩ -
      simp

lemma isCurried_curryList {items : List (Node H)} (span : Option Span)
    (h : ∀ n ∈ items, n.IsCurried) : (curryList items span).IsCurried := by
  match items, h with
  | [], h | [_], h => exact isCurried_list_iff.2 ⟨h, by simp⟩
  | [head, only], h =>
    rw [curryList]
    split
    · exact (h only (by simp)).relocated span
    · next hhead => exact isCurried_list_iff.2 ⟨h, by simp [hhead]⟩
  | head :: first :: next :: rest, h =>
    rw [curryList]
    split
    · simp only [List.forall_mem_cons] at h
      obtain ⟨hhead, hfirst, hnext, hrest⟩ := h
      refine isCurried_list_iff.2 ⟨?_, by simp⟩
      simpa using ⟨hhead, hfirst, isCurried_nestArrows _ hhead hnext hrest⟩
    · next hhead => exact isCurried_list_iff.2 ⟨h, by simp [hhead]⟩

/-- A type whose arrows are brought to one argument has no others. -/
theorem isCurried_curry (type : Node H) : type.curry.IsCurried := by
  induction type using Node.induction with
  | list items span type ih =>
    rw [curry_list]
    exact isCurried_curryList span (by simpa using ih)
  | leaf kind span type hkind =>
    rw [curry_leaf hkind]
    exact isCurried_leaf hkind

/-! ### Nests of arrows -/

/-- The arrows of one argument that take the given types in turn, up to a result. -/
def arrows (args : List (Node H)) (result : Node H) : Node H :=
  args.foldr (fun arg rest => .list [.atom arrowName none, arg, rest] none) result

lemma arrows_append (args more : List (Node H)) (result : Node H) :
    arrows (args ++ more) result = arrows args (arrows more result) :=
  List.foldr_append

/-- A type with one-argument arrows only, up to spans. -/
def canonical (type : Node H) : Node H := type.curry.erase .ofSpans

lemma span_canonical (type : Node H) : type.canonical.span = none := by
  rw [canonical, span_erase]
  rfl

lemma nestArrows_eq_arrows (last : Option Span) (first : Node H) (args : List (Node H))
    (result : Node H) (hfirst : first.span = none) (hargs : ∀ arg ∈ args, arg.span = none) :
    nestArrows (.atom arrowName none) last first (args ++ [result]) =
      arrows (first :: args) result := by
  induction args generalizing first with
  | nil => simp [nestArrows, arrows, hfirst, Span.cover]
  | cons next args ih =>
    have hnest := ih next (hargs next (by simp)) fun arg harg => hargs arg (by simp [harg])
    rw [List.cons_append, nestArrows, hnest, hfirst]
    rfl

lemma curryList_eq_arrows (first : Node H) (args : List (Node H)) (result : Node H)
    (hargs : ∀ arg ∈ args, arg.span = none) :
    curryList (.atom arrowName none :: (first :: args ++ [result])) none =
      arrows (first :: args) result := by
  have hhead : (atom arrowName none : Node H).isArrowHead = true := by
    simp [isArrowHead, isAtom, atom?, atom]
  cases args with
  | nil => simp [curryList, hhead, nestArrows, arrows]
  | cons next args =>
    have hnest := fun last => nestArrows_eq_arrows last next args result (hargs next (by simp))
      fun arg harg => hargs arg (by simp [harg])
    simp only [List.cons_append, curryList, hhead, if_true, hnest]
    rfl

/-- Up to spans, an arrow is a nest of arrows of one argument. -/
theorem canonical_arrow (headSpan span : Option Span) {args : List (Node H)} (hargs : args ≠ [])
    (result : Node H) :
    (Node.list (.atom arrowName headSpan :: (args ++ [result])) span).canonical =
      arrows (args.map canonical) result.canonical := by
  obtain ⟨first, args, rfl⟩ := List.exists_cons_of_ne_nil hargs
  have hcurry : (Node.list (.atom arrowName headSpan :: (first :: args ++ [result])) span).curry =
      curryList ((.atom arrowName headSpan :: (first :: args ++ [result])).map curry) span :=
    curry_list _ _ _
  have hmap : ((.atom arrowName headSpan :: (first :: args ++ [result])).map curry).map
        (erase .ofSpans) =
      .atom arrowName none :: (first.canonical :: args.map canonical ++ [result.canonical]) := by
    simp only [List.map_cons, List.map_append, List.map_map, List.map_nil]
    rfl
  rw [canonical, hcurry, erase_curryList, hmap]
  refine curryList_eq_arrows _ _ _ fun arg harg => ?_
  obtain ⟨type, -, rfl⟩ := List.mem_map.1 harg
  exact span_canonical type

end Node

end TypedLisp
