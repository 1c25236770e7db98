import TypedLisp.Proofs.Arrow
import TypedLisp.Proofs.Reading.Faithful

/-!
# Signatures of types

There are many ways to write the type of a function: its arrows can be nested, a head can be an
arrow of none that stands for `->`, and an arrow of no arguments can stand around any type.  The
signature of a type says what all of them have in common, the arguments that the type takes in turn
and what it gives in the end.  It is read from the items of a list before the list itself, and then
along the arrows to the right.

`Node.curry` is the canonical way to write a signature.  It does not change the signature of a type,
what it gives is the nest of arrows that the signature spells out, and it leaves that as it is.
-/

namespace TypedLisp

variable {H : Type}

/-! ### Signatures -/

mutual

/-- What a type takes and gives, however its arrows are nested. -/
structure Signature (H : Type) where
  /-- The arguments, from the first one to the last one. -/
  args : List (Signature H)
  /-- What is left when all arguments are taken. -/
  result : Signature.Result H

/-- A type that is no arrow. -/
inductive Signature.Result (H : Type) where
  /-- A node that is no list, without its span and its annotation. -/
  | leaf (kind : Kind H)
  /-- A list of types. -/
  | list (items : List (Signature H))

end

namespace Signature

/-- Whether a type is the name at the head of an arrow. -/
def isArrowHead : Signature H → Bool
  | ⟨[], .leaf (.atom name)⟩ => name == Node.arrowName
  | _ => false

/-- The signature of an arrow: the arguments of its last part come after its own. -/
def arrow (args : List (Signature H)) (last : Signature H) : Signature H :=
  ⟨args ++ last.args, last.result⟩

/-- The signature of a list with items of the given signatures. -/
def ofItems (items : List (Signature H)) : Signature H :=
  match items with
  | head :: first :: rest =>
    if head.isArrowHead then arrow (first :: rest).dropLast ((first :: rest).getLastD first)
    else ⟨[], .list items⟩
  | _ => ⟨[], .list items⟩

end Signature

namespace Node

mutual

/-- The signature of a type. -/
def signature : Node H → Signature H
  | ⟨.list items, _, _⟩ => .ofItems (signatures items)
  | ⟨kind, _, _⟩ => ⟨[], .leaf (kind.erase .ofBoth)⟩

/-- The signatures of types. -/
def signatures : List (Node H) → List (Signature H)
  | [] => []
  | n :: ns => signature n :: signatures ns

end

@[simp] lemma signatures_eq_map (ns : List (Node H)) : signatures ns = ns.map signature := by
  induction ns with
  | nil => rfl
  | cons n ns ih => rw [signatures, ih, List.map_cons]

/-! ### Writing types in another way -/

lemma signature_list (items : List (Node H)) (span : Option Span) (type : Option (Node H)) :
    (⟨.list items, span, type⟩ : Node H).signature = .ofItems (items.map signature) := by
  rw [signature, signatures_eq_map]

lemma signature_leaf {kind : Kind H} (hkind : ∀ items, kind ≠ .list items) (span : Option Span)
    (type : Option (Node H)) :
    (⟨kind, span, type⟩ : Node H).signature = ⟨[], .leaf (kind.erase .ofBoth)⟩ := by
  cases kind with
  | list items => exact absurd rfl (hkind items)
  | quoted | atom | str | null | keyword | value | procedure => rfl

lemma signature_relocated (n : Node H) (span : Option Span) :
    (n.relocated span).signature = n.signature := by
  obtain ⟨kind, span', type⟩ := n
  cases kind <;> rfl

lemma isArrowHead_signature {head : Node H} (h : head.isArrowHead) :
    head.signature.isArrowHead := by
  obtain ⟨kind, span, type⟩ := head
  cases kind with
  | atom name =>
    obtain rfl : name = arrowName := by simpa [isArrowHead, isAtom, atom?] using h
    rfl
  | quoted | list | str | null | keyword | value | procedure => cases h

end Node

namespace Signature

/-- The parts of an arrow are its arguments and what comes last. -/
lemma ofItems_arrow {head : Signature H} (hhead : head.isArrowHead) (args : List (Signature H))
    (last : Signature H) : ofItems (head :: (args ++ [last])) = arrow args last := by
  cases args with
  | nil => simp [ofItems, hhead]
  | cons first args =>
    rw [List.cons_append, ofItems, if_pos hhead, ← List.cons_append, List.dropLast_concat,
      List.getLastD_concat]

lemma ofItems_of_not_isArrowHead {head : Signature H} (hhead : head.isArrowHead = false)
    (items : List (Signature H)) : ofItems (head :: items) = ⟨[], .list (head :: items)⟩ := by
  cases items <;> simp [ofItems, hhead]

@[simp] lemma arrow_nil (last : Signature H) : arrow [] last = last := by
  cases last
  rfl

lemma arrow_arrow (args more : List (Signature H)) (last : Signature H) :
    arrow args (arrow more last) = arrow (args ++ more) last := by
  simp [arrow]

end Signature

namespace Node

/-- A nest of arrows takes what its parts but the last one say, and then what the last one does. -/
lemma signature_nestArrows {head : Node H} (hhead : head.isArrowHead) (span : Option Span)
    (first : Node H) (rest : List (Node H)) : ∀ args last, first :: rest = args ++ [last] →
      (nestArrows head span first rest).signature = .arrow (args.map signature) last.signature := by
  induction rest generalizing first with
  | nil =>
    intro args last h
    obtain ⟨rfl, h⟩ : args = [] ∧ [first] = [last] := by
      cases args <;> simp_all
    obtain rfl : first = last := by simpa using h
    rw [nestArrows, List.map_nil, Signature.arrow_nil]
  | cons next rest ih =>
    intro args last h
    cases args with
    | nil => simp at h
    | cons arg args =>
      obtain ⟨rfl, hrest⟩ : first = arg ∧ next :: rest = args ++ [last] := List.cons.inj h
      have hnest := Signature.ofItems_arrow (isArrowHead_signature hhead) [first.signature]
        (nestArrows head span next rest).signature
      rw [nestArrows, list, signature_list]
      refine hnest.trans ?_
      rw [ih next args last hrest, Signature.arrow_arrow, List.map_cons, List.singleton_append]

/-- A list whose arrow is nested keeps its signature. -/
lemma signature_curryList (items : List (Node H)) (span : Option Span) :
    (curryList items span).signature = .ofItems (items.map signature) := by
  match items with
  | [] | [_] => exact signature_list _ _ _
  | [head, only] =>
    rw [curryList]
    split
    · next hhead =>
      have hflat := Signature.ofItems_arrow (isArrowHead_signature hhead) [] only.signature
      rw [signature_relocated]
      simpa using hflat.symm
    · exact signature_list _ _ _
  | head :: first :: next :: rest =>
    rw [curryList]
    split
    · next hhead =>
      obtain ⟨args, last, hparts⟩ : ∃ args last, next :: rest = args ++ [last] :=
        ⟨_, _, (List.dropLast_append_getLast (List.cons_ne_nil next rest)).symm⟩
      have hhead' := isArrowHead_signature hhead
      rw [list, signature_list, List.map_cons, List.map_cons, List.map_singleton,
        signature_nestArrows hhead _ next rest args last hparts, hparts]
      have hnest := Signature.ofItems_arrow hhead' [first.signature]
        (.arrow (args.map signature) last.signature)
      have hflat := Signature.ofItems_arrow hhead' (first.signature :: args.map signature)
        last.signature
      rw [Signature.arrow_arrow, List.singleton_append] at hnest
      simpa using hnest.trans hflat.symm
    · exact signature_list _ _ _

/-- To nest the arrows of a type does not change its signature. -/
theorem signature_curry (type : Node H) : type.curry.signature = type.signature := by
  induction type using Node.induction with
  | list items span type ih =>
    rw [curry_list, signature_curryList, signature_list, List.map_map]
    exact congrArg Signature.ofItems (List.map_congr_left ih)
  | leaf kind span type hkind => rw [curry_leaf hkind]

/-- Spans and annotations have no part in a signature. -/
theorem signature_erase (e : Erasure) (type : Node H) :
    (type.erase e).signature = type.signature := by
  induction type using Node.induction with
  | list items span type ih =>
    rw [erase_mk, Kind.erase, eraseAll_eq_map, signature_list, signature_list, List.map_map]
    exact congrArg Signature.ofItems (List.map_congr_left ih)
  | leaf kind span type hkind =>
    have hkind' : ∀ items, kind.erase e ≠ .list items := by
      intro items h
      cases kind with
      | list items' => exact hkind items' rfl
      | quoted | atom | str | null | keyword | value | procedure => cases h
    have herase : (kind.erase e).erase .ofBoth = kind.erase .ofBoth := by
      have h := congrArg Node.kind (erase_erase e .ofBoth ⟨kind, none, none⟩)
      simpa [Erasure.ofBoth, Bool.or_true] using h
    rw [erase_mk, signature_leaf hkind', signature_leaf hkind, herase]

end Node

/-! ### The canonical type of a signature -/

namespace Signature

mutual

/-- The type of a signature, with one-argument arrows only. -/
def node : Signature H → Node H
  | ⟨args, result⟩ => .arrows (nodes args) (resultNode result)

/-- The type of what is no arrow. -/
def resultNode : Result H → Node H
  | .leaf kind => ⟨kind, none, none⟩
  | .list items => .list (nodes items) none

/-- The types of signatures. -/
def nodes : List (Signature H) → List (Node H)
  | [] => []
  | s :: ss => node s :: nodes ss

end

@[simp] lemma nodes_eq_map (ss : List (Signature H)) : nodes ss = ss.map node := by
  induction ss with
  | nil => rfl
  | cons s ss ih => rw [nodes, ih, List.map_cons]

lemma node_arrow (args : List (Signature H)) (last : Signature H) :
    (arrow args last).node = .arrows (args.map node) last.node := by
  obtain ⟨more, result⟩ := last
  rw [arrow, node, node, nodes_eq_map, nodes_eq_map, List.map_append, Node.arrows_append]

lemma span_node (s : Signature H) : s.node.span = none := by
  match s with
  | ⟨[], .leaf kind⟩ | ⟨[], .list items⟩ | ⟨_ :: _, _⟩ => rfl

lemma node_of_isArrowHead {s : Signature H} (h : s.isArrowHead) :
    s.node = .atom Node.arrowName none := by
  unfold isArrowHead at h
  split at h
  · next name =>
    obtain rfl : name = Node.arrowName := by simpa using h
    rfl
  · cases h

lemma isArrowHead_node (s : Signature H) : s.node.isArrowHead = s.isArrowHead := by
  match s with
  | ⟨[], .leaf kind⟩ => cases kind <;> rfl
  | ⟨[], .list items⟩ | ⟨_ :: _, _⟩ => rfl

/-- The canonical type of a list of types. -/
lemma curryList_nodes (items : List (Signature H)) :
    Node.curryList (items.map node) none = (ofItems items).node := by
  match items with
  | [] | [_] => simp [Node.curryList, ofItems, node, resultNode, Node.arrows]
  | head :: first :: rest =>
    cases hhead : head.isArrowHead with
    | false =>
      have hnode : head.node.isArrowHead = false := (isArrowHead_node head).trans hhead
      rw [ofItems_of_not_isArrowHead hhead]
      cases rest <;> simp [Node.curryList, hnode, node, resultNode, Node.arrows]
    | true =>
      obtain ⟨args, last, hparts⟩ : ∃ args last, first :: rest = args ++ [last] :=
        ⟨_, _, (List.dropLast_append_getLast (List.cons_ne_nil first rest)).symm⟩
      rw [hparts, ofItems_arrow hhead, node_arrow, List.map_cons, node_of_isArrowHead hhead,
        List.map_append, List.map_singleton]
      cases args with
      | nil =>
        have hlast := last.span_node
        generalize last.node = n at hlast
        obtain ⟨kind, span, type⟩ := n
        obtain rfl : span = none := hlast
        rfl
      | cons arg args =>
        exact Node.curryList_eq_arrows _ _ _ fun n hn => by
          obtain ⟨s, -, rfl⟩ := List.mem_map.1 hn
          exact s.span_node

end Signature

namespace Node

/-- Up to spans and annotations, the canonical form of a type is the type of its signature. -/
theorem erase_curry_eq_node (type : Node H) :
    type.curry.erase .ofBoth = type.signature.node := by
  induction type using Node.induction with
  | list items span type ih =>
    rw [curry_list, erase_curryList, List.map_map, signature_list, ← Signature.curryList_nodes,
      List.map_map]
    exact congrArg (curryList · none) (List.map_congr_left ih)
  | leaf kind span type hkind =>
    rw [curry_leaf hkind, signature_leaf hkind]
    exact erase_ofBoth _

/-! ### Types that are canonical already -/

lemma relocated_curryList (items : List (Node H)) (span span' : Option Span) :
    (curryList items span).relocated span' = curryList items span' := by
  match items with
  | [] | [_] => rfl
  | [head, only] | head :: first :: next :: rest =>
    rw [curryList, curryList]
    split <;> rfl

lemma curry_relocated (n : Node H) (span : Option Span) :
    (n.relocated span).curry = n.curry.relocated span := by
  obtain ⟨kind, span', type⟩ := n
  cases kind with
  | list items => exact (relocated_curryList _ span' span).symm
  | quoted | atom | str | null | keyword | value | procedure => rfl

lemma curry_of_isArrowHead {head : Node H} (h : head.isArrowHead) : head.curry = head := by
  obtain ⟨kind, span, type⟩ := head
  refine curry_leaf ?_ span type
  rintro items rfl
  cases h

lemma curry_nestArrows {head : Node H} (hhead : head.isArrowHead) (span : Option Span)
    {first : Node H} {rest : List (Node H)} (hfirst : first.curry = first)
    (hrest : ∀ n ∈ rest, n.curry = n) :
    (nestArrows head span first rest).curry = nestArrows head span first rest := by
  induction rest generalizing first with
  | nil => exact hfirst
  | cons next rest ih =>
    obtain ⟨hnext, hrest⟩ := List.forall_mem_cons.1 hrest
    rw [nestArrows, list, curry_list]
    simp [curry_of_isArrowHead hhead, hfirst, ih hnext hrest, curryList, hhead, nestArrows, list]

lemma curry_curryList {items : List (Node H)} (span : Option Span)
    (h : ∀ n ∈ items, n.curry = n) : (curryList items span).curry = curryList items span := by
  have hitems : ∀ span', (Node.list items span').curry = curryList items span' := by
    intro span'
    rw [list, curry_list, (List.map_congr_left h).trans (List.map_id' items)]
  match items, h with
  | [], _ | [_], _ => exact hitems span
  | [head, only], h =>
    have hcurry := hitems span
    rw [curryList] at hcurry ⊢
    split
    · rw [curry_relocated, h only (by simp)]
    · next hhead => simpa [hhead] using hcurry
  | head :: first :: next :: rest, h =>
    have hcurry := hitems span
    rw [curryList] at hcurry ⊢
    split
    · next hhead =>
      obtain ⟨-, hfirst, hrest⟩ : head.curry = head ∧ first.curry = first ∧
          ∀ n ∈ next :: rest, n.curry = n := by simpa using h
      obtain ⟨hnext, hrest⟩ := List.forall_mem_cons.1 hrest
      rw [list, curry_list]
      simp [curry_of_isArrowHead hhead, hfirst, curry_nestArrows hhead _ hnext hrest, curryList,
        hhead, nestArrows, list]
    · next hhead => simpa [hhead] using hcurry

/-- A type whose arrows are nested is left as it is. -/
theorem curry_curry (type : Node H) : type.curry.curry = type.curry := by
  induction type using Node.induction with
  | list items span type ih =>
    rw [curry_list]
    exact curry_curryList span (List.forall_mem_map.2 ih)
  | leaf kind span type hkind => rw [curry_leaf hkind, curry_leaf hkind]

/-! ### The canonical form -/

lemma erase_curry_of_withoutTypes {type : Node H} (h : type.withoutTypes = type) :
    type.curry.erase .ofSpans = type.signature.node := by
  have htypes : type.curry.erase .ofTypes = type.curry := by
    rw [erase_curry, erase_ofTypes, h]
  calc type.curry.erase .ofSpans
      = (type.curry.erase .ofTypes).erase .ofSpans := by rw [htypes]
    _ = type.curry.erase .ofBoth := erase_erase .ofTypes .ofSpans _
    _ = type.signature.node := erase_curry_eq_node type

/-- **Nested arrows are the canonical form of types.**  Every arrow in the canonical form of a type
has one argument, the form is its own canonical form, and two types without annotations have the
same one up to spans if and only if they have the same signature.  A type that is no list is left as
it is, whatever lies under it, and the annotation of a list is left out. -/
theorem curry_isCanonical :
    (∀ type : Node H, type.curry.IsCurried ∧ type.curry.curry = type.curry) ∧
      (∀ t u : Node H, t.withoutTypes = t → u.withoutTypes = u →
        (t.curry.erase .ofSpans = u.curry.erase .ofSpans ↔ t.signature = u.signature)) ∧
      (∀ type : Node H, type.list? = none → type.curry = type) ∧
      ∀ (items : List (Node H)) (span : Option Span) (type : Option (Node H)),
        (⟨.list items, span, type⟩ : Node H).curry = (list items span).curry := by
  refine ⟨fun type => ⟨isCurried_curry type, curry_curry type⟩, fun t u ht hu => ⟨?_, ?_⟩,
    fun type => curry_eq_self, fun items span type => ?_⟩
  · intro h
    calc t.signature
        = (t.curry.erase .ofSpans).signature := by rw [signature_erase, signature_curry]
      _ = (u.curry.erase .ofSpans).signature := by rw [h]
      _ = u.signature := by rw [signature_erase, signature_curry]
  · intro h
    rw [erase_curry_of_withoutTypes ht, erase_curry_of_withoutTypes hu, h]
  · rw [list, curry_list, curry_list]

/-- The type `(-> a b c)`. -/
def flatArrow : Node Empty :=
  .list [.atom "->" none, .atom "a" none, .atom "b" none, .atom "c" none] (some ⟨0, 10⟩)

/-- The type `((-> ->) a (-> b (-> c)))`. -/
def nestedArrow : Node Empty :=
  .list [.list [.atom "->" none, .atom "->" none] none, .atom "a" none,
    .list [.atom "->" none, .atom "b" none, .list [.atom "->" none, .atom "c" none] none] none] none

/-- The type `'(-> a)`. -/
def quotedArrow : Node Empty :=
  .quoted (.list [.atom "->" none, .atom "a" none] none) none

/-- The type `x: (-> a)`. -/
def annotatedName : Node Empty :=
  (Node.atom "x" none).withType (.list [.atom "->" none, .atom "a" none] none)

/-- The type `(a b): t`. -/
def annotatedList : Node Empty :=
  (Node.list [.atom "a" none, .atom "b" none] none).withType (.atom "t" none)

/-- An arrow of two arguments, and one of one argument whose head is an arrow of none; a quotation
and a name with an annotation, and a list with one. -/
theorem curry_isCanonical_nestedArrow :
    (flatArrow.curry.IsCurried ∧ nestedArrow.curry.curry = nestedArrow.curry ∧
      flatArrow.withoutTypes = flatArrow ∧ nestedArrow.withoutTypes = nestedArrow ∧
      flatArrow.curry.erase .ofSpans = nestedArrow.curry.erase .ofSpans) ∧
    (quotedArrow.list? = none ∧ quotedArrow.curry = quotedArrow ∧
      annotatedName.list? = none ∧ annotatedName.curry = annotatedName) ∧
    annotatedList.curry = .list [.atom "a" none, .atom "b" none] none := by
  obtain ⟨hcanonical, hsignature, hleaf, hlist⟩ := curry_isCanonical (H := Empty)
  refine ⟨⟨(hcanonical flatArrow).1, (hcanonical nestedArrow).2, rfl, rfl, ?_⟩,
    ⟨rfl, hleaf quotedArrow rfl, rfl, hleaf annotatedName rfl⟩, ?_⟩
  · exact (hsignature flatArrow nestedArrow rfl rfl).2 rfl
  · exact (hlist _ _ _).trans rfl

/-- Every arrow in a type has one argument, also those under quotations and in annotations. -/
def IsCurriedThroughout (type : Node H) : Prop :=
  ∀ inType m, Occurs [type] inType m → ∀ head tail, m.list? = some (head :: tail) →
    head.isArrowHead → tail.length ≠ 1 ∧ tail.length ≤ 2

/-- Under a quotation and in the annotation of a name an arrow of no arguments is left as it is. -/
theorem not_isCurriedThroughout_curry :
    ¬ quotedArrow.curry.IsCurriedThroughout ∧ ¬ annotatedName.curry.IsCurriedThroughout := by
  constructor
  · intro h
    have hinner := Occurs.inner (.form (List.mem_singleton_self quotedArrow.curry)) rfl
    exact (h _ _ hinner _ _ rfl rfl).1 rfl
  · intro h
    have hown : ¬ annotatedName.curry.HasOwnType (.list [.atom "->" none, .atom "a" none] none) := by
      rintro ⟨⟨text, htext⟩, -⟩
      cases htext
    have htype := Occurs.type (.form (List.mem_singleton_self annotatedName.curry)) rfl hown
    exact (h _ _ htype _ _ rfl rfl).1 rfl

end Node
end TypedLisp
