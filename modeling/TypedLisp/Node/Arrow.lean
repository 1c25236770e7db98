import TypedLisp.Node.Basic

/-!
# One-argument arrows

The type of a function is a list `(-> A ... R)` of its argument types and its result type.
`Node.curry` gives a type the form in which every arrow takes one argument: an arrow of several
arguments is nested to the right, and an arrow of none is its result.
-/

namespace TypedLisp

variable {H : Type}

namespace Node

/-- The name at the head of an arrow. -/
def arrowName : String := "->"

/-- Whether a node is the head of an arrow. -/
def isArrowHead (n : Node H) : Bool :=
  n.isAtom arrowName

/-- The types `first, rest...` as one type under one-argument arrows that start with the node
`head`; each of them covers the source from its first type to the span `last`. -/
def nestArrows (head : Node H) (last : Option Span) (first : Node H) : List (Node H) → Node H
  | [] => first
  | next :: rest =>
    .list [head, first, nestArrows head last next rest] (Span.cover first.span last)

/-- A list of the given items, which have one-argument arrows only, as such a type. -/
def curryList (items : List (Node H)) (span : Option Span) : Node H :=
  match items with
  | [head, only] => if head.isArrowHead then only.relocated span else .list items span
  | head :: first :: next :: rest =>
    if head.isArrowHead then
      .list [head, first, nestArrows head ((next :: rest).getLastD next).span next rest] span
    else .list items span
  | _ => .list items span

mutual

/-- A type with one-argument arrows only. -/
def curry : Node H → Node H
  | ⟨.list items, span, _⟩ => curryList (curryAll items) span
  | n => n

/-- The types of a list with one-argument arrows only. -/
def curryAll : List (Node H) → List (Node H)
  | [] => []
  | n :: ns => curry n :: curryAll ns

end

@[simp] theorem curryAll_eq_map (ns : List (Node H)) : curryAll ns = ns.map curry := by
  induction ns with
  | nil => rfl
  | cons n ns ih => simp [curryAll, ih]

theorem curry_list (items : List (Node H)) (span : Option Span) (type : Option (Node H)) :
    (⟨.list items, span, type⟩ : Node H).curry = curryList (items.map curry) span := by
  rw [curry, curryAll_eq_map]

theorem curry_leaf {kind : Kind H} (hkind : ∀ items, kind ≠ .list items) (span : Option Span)
    (type : Option (Node H)) : (⟨kind, span, type⟩ : Node H).curry = ⟨kind, span, type⟩ := by
  cases kind with
  | list items => exact absurd rfl (hkind items)
  | quoted | atom | str | null | keyword | value | procedure => rfl

/-- Whatever is no list is left as it is, with all that lies under it. -/
theorem curry_eq_self {type : Node H} (h : type.list? = none) : type.curry = type := by
  obtain ⟨kind, span, type⟩ := type
  refine curry_leaf ?_ span type
  rintro items rfl
  cases h

end Node
end TypedLisp
