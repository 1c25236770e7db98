import Mathlib.Tactic.Lemma
import TypedLisp.Node.Arrow
import TypedLisp.Node.Printer

/-!
# Erasure

A node carries spans and types all the way down.  An erasure takes away the ones, the others or
both.  No view of a node but its span and its type depends on them, erasing commutes with every
construction, and a printed text shows neither the spans nor, when it is a plain one, the types.
-/

namespace TypedLisp

variable {H : Type}

/-- What is taken away from nodes. -/
structure Erasure where
  /-- Whether spans are. -/
  spans : Bool
  /-- Whether types are. -/
  types : Bool

/-- A span, where spans are left. -/
def Erasure.span (e : Erasure) (span : Option Span) : Option Span :=
  if e.spans then none else span

mutual

/-- A kind without what is taken away from the nodes in it. -/
def Kind.erase (e : Erasure) : Kind H → Kind H
  | .quoted inner => .quoted (Node.erase e inner)
  | .list items => .list (Node.eraseAll e items)
  | .atom name => .atom name
  | .str text => .str text
  | .null => .null
  | .keyword name => .keyword name
  | .value v => .value v
  | .procedure f => .procedure f

/-- A node without what is taken away from it and from the nodes in it. -/
def Node.erase (e : Erasure) : Node H → Node H
  | ⟨kind, span, type⟩ => ⟨Kind.erase e kind, e.span span, Node.eraseType e type⟩

/-- An optional type without what is taken away from it, where types are left. -/
def Node.eraseType (e : Erasure) : Option (Node H) → Option (Node H)
  | none => none
  | some type => if e.types then none else some (Node.erase e type)

/-- The nodes of a list without what is taken away from them. -/
def Node.eraseAll (e : Erasure) : List (Node H) → List (Node H)
  | [] => []
  | n :: ns => Node.erase e n :: Node.eraseAll e ns

end

namespace Erasure

/-- Spans are taken away. -/
def ofSpans : Erasure := ⟨true, false⟩

/-- Types are taken away. -/
def ofTypes : Erasure := ⟨false, true⟩

/-- Spans and types are taken away. -/
def ofBoth : Erasure := ⟨true, true⟩

/-- Nothing is taken away. -/
def ofNothing : Erasure := ⟨false, false⟩

/-- The node that stands for the type of a node from which something is taken away. -/
def type (e : Erasure) (type : Node H) : Node H :=
  if e.types then .null else type.erase e

lemma span_eq_id {e : Erasure} (h : e.spans = false) : e.span = id := by
  funext span
  simp [Erasure.span, h]

lemma span_eq_none {e : Erasure} (h : e.spans = true) : e.span = fun _ => none := by
  funext span
  simp [Erasure.span, h]

@[simp] lemma span_none (e : Erasure) : e.span none = none := by
  simp [span]

lemma span_span (a b : Erasure) (span : Option Span) :
    b.span (a.span span) = Erasure.span ⟨a.spans || b.spans, a.types || b.types⟩ span := by
  cases ha : a.spans <;> cases hb : b.spans <;> simp [Erasure.span, ha, hb]

lemma span_cover (e : Erasure) (first last : Option Span) :
    e.span (Span.cover first last) = Span.cover (e.span first) (e.span last) := by
  cases h : e.spans <;> simp [span, h, Span.cover]

lemma span_or (e : Erasure) (first last : Option Span) :
    e.span (first.or last) = (e.span first).or (e.span last) := by
  cases h : e.spans <;> simp [span, h]

end Erasure

namespace Node

variable (e : Erasure)

@[simp] lemma eraseAll_eq_map (ns : List (Node H)) : eraseAll e ns = ns.map (erase e) := by
  induction ns with
  | nil => rfl
  | cons n ns ih => simp [eraseAll, ih]

lemma erase_mk (kind : Kind H) (span : Option Span) (type : Option (Node H)) :
    erase e ⟨kind, span, type⟩ = ⟨kind.erase e, e.span span, eraseType e type⟩ := rfl

@[simp] lemma kind_erase (n : Node H) : (n.erase e).kind = n.kind.erase e := by
  cases n; rfl

@[simp] lemma span_erase (n : Node H) : (n.erase e).span = e.span n.span := by
  cases n; rfl

@[simp] lemma type?_erase (n : Node H) : (n.erase e).type? = eraseType e n.type? := by
  cases n; rfl

@[simp] lemma erase_null : erase e (null : Node H) = null := by
  simp [null, erase_mk, Kind.erase, eraseType]

@[simp] lemma erase_atom (name : String) (span : Option Span) :
    erase e (atom name span : Node H) = atom name (e.span span) := rfl

@[simp] lemma erase_list (items : List (Node H)) (span : Option Span) :
    erase e (list items span) = list (items.map (erase e)) (e.span span) := by
  simp [list, erase_mk, Kind.erase, eraseType]

@[simp] lemma erase_quoted (inner : Node H) (span : Option Span) :
    erase e (quoted inner span) = quoted (inner.erase e) (e.span span) := rfl

@[simp] lemma erase_value (v : Value H) (span : Option Span) :
    erase e (value v span) = value v (e.span span) := rfl

@[simp] lemma erase_procedure (f : Variadic H) : erase e (procedure f) = procedure f := by
  simp [procedure, erase_mk, Kind.erase, eraseType]

@[simp] lemma erase_relocated (n : Node H) (span : Option Span) :
    (n.relocated span).erase e = (n.erase e).relocated (e.span span) := by
  cases n; rfl

/-! ### Types -/

lemma getD_eraseType (type : Option (Node H)) :
    (eraseType e type).getD null = e.type (type.getD null) := by
  cases type with
  | none => simp [eraseType, Erasure.type]
  | some type => cases h : e.types <;> simp [eraseType, Erasure.type, h]

@[simp] lemma type_erase (n : Node H) : (n.erase e).type = e.type n.type := by
  rw [type, type?_erase, getD_eraseType, type]

@[simp] lemma isNull_erase (n : Node H) : (n.erase e).isNull = n.isNull := by
  obtain ⟨kind, span, type⟩ := n
  cases kind <;> rfl

@[simp] lemma erase_withType (n type : Node H) :
    (n.withType type).erase e = (n.erase e).withType (e.type type) := by
  have hnull : (null : Node H).isNull = true := rfl
  obtain ⟨kind, span, type'⟩ := n
  cases htype : type.isNull <;> cases h : e.types <;>
    simp [withType, erase, eraseType, Erasure.type, htype, hnull, h]

/-! ### Views -/

@[simp] lemma atom?_erase (n : Node H) : (n.erase e).atom? = n.atom? := by
  obtain ⟨kind, span, type⟩ := n
  cases kind <;> rfl

@[simp] lemma list?_erase (n : Node H) : (n.erase e).list? = n.list?.map (List.map (erase e)) := by
  obtain ⟨kind, span, type⟩ := n
  cases kind <;> simp [list?, Kind.erase]

@[simp] lemma isAtom_erase (n : Node H) (name : String) :
    (n.erase e).isAtom name = n.isAtom name := by
  simp [isAtom]

@[simp] lemma isArrowHead_erase (n : Node H) : (n.erase e).isArrowHead = n.isArrowHead :=
  isAtom_erase e n arrowName

@[simp] lemma kindName_erase (n : Node H) : (n.erase e).kindName = n.kindName := by
  obtain ⟨kind, span, type⟩ := n
  cases kind <;> rfl

@[simp] lemma lambda?_erase (n : Node H) :
    (n.erase e).lambda? = n.lambda?.map fun f => (f.1.map (erase e), f.2.erase e) := by
  obtain ⟨kind, span, type⟩ := n
  match kind with
  | .list [head, params, body] =>
    simp only [lambda?, kind_erase, Kind.erase, eraseAll, isAtom_erase, list?_erase]
    split <;> simp [Function.comp_def]
  | .list [] | .list [_] | .list [_, _] | .list (_ :: _ :: _ :: _ :: _) => rfl
  | .quoted _ | .atom _ | .str _ | .null | .keyword _ | .value _ | .procedure _ => rfl

@[simp] lemma isLambda_erase (n : Node H) : (n.erase e).isLambda = n.isLambda := by
  simp [isLambda]

/-! ### Arrows -/

lemma erase_nestArrows (head : Node H) (last : Option Span) (first : Node H)
    (rest : List (Node H)) :
    (nestArrows head last first rest).erase e =
      nestArrows (head.erase e) (e.span last) (first.erase e) (rest.map (erase e)) := by
  induction rest generalizing first with
  | nil => rfl
  | cons next rest ih => simp [nestArrows, ih, Erasure.span_cover]

lemma erase_curryList (items : List (Node H)) (span : Option Span) :
    (curryList items span).erase e = curryList (items.map (erase e)) (e.span span) := by
  match items with
  | [] | [_] => simp [curryList]
  | [head, only] => cases h : head.isArrowHead <;> simp [curryList, h]
  | head :: first :: next :: rest =>
    have hlast : (((next :: rest).map (erase e)).getLastD (next.erase e)).span =
        e.span ((next :: rest).getLastD next).span := by
      rw [List.getLastD_map, span_erase]
    cases h : head.isArrowHead
    · simp [curryList, h]
    · simp only [curryList, List.map_cons, isArrowHead_erase, h, if_true, erase_list,
        erase_nestArrows, List.map_nil]
      rw [← hlast, List.map_cons]

mutual

/-- Bringing a type to one-argument arrows neither looks at what is taken away nor brings it
back. -/
theorem erase_curry : ∀ n : Node H, n.curry.erase e = (n.erase e).curry
  | ⟨.list items, span, type⟩ => by
    rw [curry, erase_curryList, eraseAll_curryAll items, erase_mk, Kind.erase, eraseAll_eq_map,
      curry]
  | ⟨.quoted _, _, _⟩ | ⟨.atom _, _, _⟩ | ⟨.str _, _, _⟩ | ⟨.null, _, _⟩ | ⟨.keyword _, _, _⟩
  | ⟨.value _, _, _⟩ | ⟨.procedure _, _, _⟩ => rfl

theorem eraseAll_curryAll : ∀ ns : List (Node H),
    (curryAll ns).map (erase e) = curryAll (ns.map (erase e))
  | [] => rfl
  | n :: ns => by
    rw [curryAll, List.map_cons, erase_curry n, eraseAll_curryAll ns, List.map_cons, curryAll]

end

@[simp] lemma type_curry (type : Node H) : e.type type.curry = (e.type type).curry := by
  cases h : e.types
  · simp [Erasure.type, h, erase_curry]
  · simp only [Erasure.type, h]
    rfl

/-! ### Printed texts -/

mutual

theorem print_erase {types : Bool} (h : types = false ∨ e.types = false) : ∀ n : Node H,
    (n.erase e).print types = n.print types
  | ⟨.null, _, _⟩ => rfl
  | ⟨.value v, _, type⟩ | ⟨.procedure f, _, type⟩ | ⟨.atom name, _, type⟩
  | ⟨.keyword name, _, type⟩ | ⟨.str text, _, type⟩ => by
    simp only [erase, Kind.erase, print, printType_eraseType h type]
  | ⟨.quoted inner, _, type⟩ => by
    simp only [erase, Kind.erase, print, print_erase h inner, printType_eraseType h type]
  | ⟨.list items, _, type⟩ => by
    simp only [erase, Kind.erase, print, printItems_eraseAll h items, printType_eraseType h type]

theorem printItems_eraseAll {types : Bool} (h : types = false ∨ e.types = false) :
    ∀ ns : List (Node H), printItems types (eraseAll e ns) = printItems types ns
  | [] => rfl
  | [n] => print_erase h n
  | n :: m :: ns => by
    have hrest := printItems_eraseAll h (m :: ns)
    rw [eraseAll] at hrest
    rw [eraseAll, eraseAll, printItems, print_erase h n, hrest, printItems]

theorem printType_eraseType {types : Bool} (h : types = false ∨ e.types = false) :
    ∀ type : Option (Node H), printType types (eraseType e type) = printType types type
  | none => rfl
  | some type => by
    rcases h with rfl | he
    · cases he : e.types <;> simp [eraseType, he, printType]
    · simp [eraseType, he, printType, print_erase (.inr he) type]

end

/-- A plain text shows nothing of what an erasure takes away. -/
@[simp] lemma plain_erase (n : Node H) : (n.erase e).plain = n.plain :=
  print_erase e (.inl rfl) n

/-! ### The erasures -/

mutual

/-- What two erasures take away one after the other is what one of them does. -/
theorem erase_erase (a b : Erasure) : ∀ n : Node H,
    (n.erase a).erase b = n.erase ⟨a.spans || b.spans, a.types || b.types⟩
  | ⟨.list items, span, type⟩ => by
    simp only [erase, Kind.erase, eraseAll_eraseAll a b items, Erasure.span_span,
      eraseType_eraseType a b type]
  | ⟨.quoted inner, span, type⟩ => by
    simp only [erase, Kind.erase, erase_erase a b inner, Erasure.span_span,
      eraseType_eraseType a b type]
  | ⟨.atom _, span, type⟩ | ⟨.str _, span, type⟩ | ⟨.null, span, type⟩ | ⟨.keyword _, span, type⟩
  | ⟨.value _, span, type⟩ | ⟨.procedure _, span, type⟩ => by
    simp only [erase, Kind.erase, Erasure.span_span, eraseType_eraseType a b type]

theorem eraseAll_eraseAll (a b : Erasure) : ∀ ns : List (Node H),
    eraseAll b (eraseAll a ns) = eraseAll ⟨a.spans || b.spans, a.types || b.types⟩ ns
  | [] => rfl
  | n :: ns => by simp only [eraseAll, erase_erase a b n, eraseAll_eraseAll a b ns]

theorem eraseType_eraseType (a b : Erasure) : ∀ type : Option (Node H),
    eraseType b (eraseType a type) = eraseType ⟨a.spans || b.spans, a.types || b.types⟩ type
  | none => rfl
  | some type => by
    cases ha : a.types <;> cases hb : b.types <;> simp [eraseType, ha, hb, erase_erase a b type]

end

mutual

theorem erase_ofNothing : ∀ n : Node H, n.erase .ofNothing = n
  | ⟨.list items, span, type⟩ => by
    rw [erase, Kind.erase, eraseAll_ofNothing items, eraseType_ofNothing type]
    rfl
  | ⟨.quoted inner, span, type⟩ => by
    rw [erase, Kind.erase, erase_ofNothing inner, eraseType_ofNothing type]
    rfl
  | ⟨.atom _, _, type⟩ | ⟨.str _, _, type⟩ | ⟨.null, _, type⟩ | ⟨.keyword _, _, type⟩
  | ⟨.value _, _, type⟩ | ⟨.procedure _, _, type⟩ => by
    rw [erase, Kind.erase, eraseType_ofNothing type]
    rfl

theorem eraseAll_ofNothing : ∀ ns : List (Node H), eraseAll .ofNothing ns = ns
  | [] => rfl
  | n :: ns => by rw [eraseAll, erase_ofNothing n, eraseAll_ofNothing ns]

theorem eraseType_ofNothing : ∀ type : Option (Node H), eraseType .ofNothing type = type
  | none => rfl
  | some type => congrArg some (erase_ofNothing type)

end

lemma eraseType_ofTypes (type : Option (Node H)) : eraseType .ofTypes type = none := by
  cases type <;> rfl

/-- Without spans and types a node is its kind. -/
lemma erase_ofBoth (n : Node H) : n.erase .ofBoth = ⟨n.kind.erase .ofBoth, none, none⟩ := by
  obtain ⟨kind, span, type⟩ := n
  cases type <;> rfl

mutual

theorem erase_ofTypes : ∀ n : Node H, n.erase .ofTypes = n.withoutTypes
  | ⟨.list items, span, type⟩ => by
    rw [erase, Kind.erase, eraseAll_ofTypes items, eraseType_ofTypes, withoutTypes]
    rfl
  | ⟨.quoted inner, span, type⟩ => by
    rw [erase, Kind.erase, erase_ofTypes inner, eraseType_ofTypes, withoutTypes]
    rfl
  | ⟨.atom _, _, type⟩ | ⟨.str _, _, type⟩ | ⟨.null, _, type⟩ | ⟨.keyword _, _, type⟩
  | ⟨.value _, _, type⟩ | ⟨.procedure _, _, type⟩ => by
    rw [erase, eraseType_ofTypes]
    rfl

theorem eraseAll_ofTypes : ∀ ns : List (Node H), eraseAll .ofTypes ns = withoutTypesAll ns
  | [] => rfl
  | n :: ns => by rw [eraseAll, erase_ofTypes n, eraseAll_ofTypes ns, withoutTypesAll]

end

lemma erase_withoutTypes (n : Node H) : n.withoutTypes.erase e = (n.erase e).withoutTypes := by
  rw [← erase_ofTypes, ← erase_ofTypes, erase_erase, erase_erase]
  simp [Erasure.ofTypes, Bool.or_comm]

end Node

end TypedLisp
