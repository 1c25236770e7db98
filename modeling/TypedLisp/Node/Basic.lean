import TypedLisp.Span
import TypedLisp.Value

/-!
# Nodes

The tree that every stage works on: source code, types and the results of evaluation are all
nodes.  A node has a kind, the span of its text if it has any, and a type, itself a node.  An
untyped node stores no type; asked for it, it answers the null node.
-/

namespace TypedLisp

mutual

/-- What a node is. -/
inductive Kind (H : Type) where
  /-- A value that evaluation leaves alone, as in `'x`. -/
  | quoted (inner : Node H)
  /-- A form in parentheses. -/
  | list (items : List (Node H))
  /-- A bare name. -/
  | atom (name : String)
  /-- A text in quotation marks. -/
  | str (text : String)
  /-- Nothing; as a type, an unknown. -/
  | null
  /-- A name after a period. -/
  | keyword (name : String)
  /-- A value of the host. -/
  | value (v : Value H)
  /-- A function of the host that takes all its arguments at once. -/
  | procedure (f : Variadic H)

/-- A node of the syntax tree. -/
structure Node (H : Type) where
  /-- What the node is. -/
  kind : Kind H
  /-- The source text that the node comes from. -/
  span : Option Span
  /-- The type of the node, if it has one. -/
  type? : Option (Node H)

end

variable {H : Type}

namespace Node

/-! ## Construction -/

/-- The node of no span and no type. -/
def null : Node H := ⟨.null, none, none⟩

instance : Inhabited (Node H) := ⟨null⟩

/-- An untyped atom. -/
def atom (name : String) (span : Option Span) : Node H := ⟨.atom name, span, none⟩

/-- An untyped list. -/
def list (items : List (Node H)) (span : Option Span) : Node H := ⟨.list items, span, none⟩

/-- An untyped quotation. -/
def quoted (inner : Node H) (span : Option Span) : Node H := ⟨.quoted inner, span, none⟩

/-- An untyped text. -/
def str (text : String) (span : Option Span) : Node H := ⟨.str text, span, none⟩

/-- An untyped keyword. -/
def keyword (name : String) (span : Option Span) : Node H := ⟨.keyword name, span, none⟩

/-- An untyped value of the host. -/
def value (v : Value H) (span : Option Span) : Node H := ⟨.value v, span, none⟩

/-- A host function of all its arguments. -/
def procedure (f : Variadic H) : Node H := ⟨.procedure f, none, none⟩

/-! ## Views -/

/-- Whether a node is a null node. -/
def isNull (n : Node H) : Bool :=
  match n.kind with
  | .null => true
  | _ => false

/-- The name of an atom. -/
def atom? (n : Node H) : Option String :=
  match n.kind with
  | .atom name => some name
  | _ => none

/-- The items of a list. -/
def list? (n : Node H) : Option (List (Node H)) :=
  match n.kind with
  | .list items => some items
  | _ => none

/-- Whether a node is the atom of a name. -/
def isAtom (n : Node H) (name : String) : Bool :=
  n.atom? == some name

/-- The name of the atom that a list starts with. -/
def headName? (n : Node H) : Option String :=
  match n.kind with
  | .list (head :: _) => head.atom?
  | _ => none

/-- The parameters and the body of a literal function `(lambda (params ...) body)`. -/
def lambda? (n : Node H) : Option (List (Node H) × Node H) :=
  match n.kind with
  | .list [head, params, body] =>
    if head.isAtom "lambda" then params.list?.map fun ps => (ps, body) else none
  | _ => none

/-- Whether a node is a literal function. -/
def isLambda (n : Node H) : Bool :=
  n.lambda?.isSome

/-- What messages call a node of this kind. -/
def kindName (n : Node H) : String :=
  match n.kind with
  | .quoted _ => "quoted value"
  | .list _ => "list"
  | .atom _ => "atom"
  | .str _ => "string"
  | .null => "null"
  | .keyword _ => "keyword"
  | .value _ | .procedure _ => "host value"

/-- The type of a node: the null node if it has none. -/
def type (n : Node H) : Node H :=
  n.type?.getD null

/-! ## Change of type and place -/

/-- The node with another type.  A null type is not stored. -/
def withType (n type : Node H) : Node H :=
  { n with type? := if type.isNull then none else some type }

/-- The node moved to another span. -/
def relocated (n : Node H) (span : Option Span) : Node H :=
  { n with span }

mutual

/-- The node without its type and without those of the nodes that it is made of. -/
def withoutTypes : Node H → Node H
  | ⟨.list items, span, _⟩ => ⟨.list (withoutTypesAll items), span, none⟩
  | ⟨.quoted inner, span, _⟩ => ⟨.quoted (withoutTypes inner), span, none⟩
  | ⟨kind, span, _⟩ => ⟨kind, span, none⟩

/-- The nodes of a list without their types. -/
def withoutTypesAll : List (Node H) → List (Node H)
  | [] => []
  | n :: ns => withoutTypes n :: withoutTypesAll ns

end

@[simp] theorem withoutTypesAll_eq_map (ns : List (Node H)) :
    withoutTypesAll ns = ns.map withoutTypes := by
  induction ns with
  | nil => rfl
  | cons n ns ih => simp [withoutTypesAll, ih]

@[simp] theorem span_withoutTypes (n : Node H) : n.withoutTypes.span = n.span := by
  obtain ⟨kind, span, type⟩ := n
  cases kind <;> rfl

@[simp] theorem type?_withoutTypes (n : Node H) : n.withoutTypes.type? = none := by
  obtain ⟨kind, span, type⟩ := n
  cases kind <;> rfl

@[simp] theorem isNull_withoutTypes (n : Node H) : n.withoutTypes.isNull = n.isNull := by
  obtain ⟨kind, span, type⟩ := n
  cases kind <;> rfl

@[simp] theorem withoutTypes_withType (n type : Node H) :
    (n.withType type).withoutTypes = n.withoutTypes := by
  obtain ⟨kind, span, type'⟩ := n
  cases kind <;> rfl

@[simp] theorem withType_null (n : Node H) : n.withType null = { n with type? := none } := rfl

end Node

end TypedLisp
