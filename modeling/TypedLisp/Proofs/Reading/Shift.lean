import Mathlib.Tactic.Lemma
import TypedLisp.Proofs.Reading.Grammar

/-!
# Nodes further to the right

A node is moved with all nodes that it is made of, and with their types.  Tokens that are read
further to the right have the same derivation there, of nodes that are moved as far as the tokens
are.
-/

namespace TypedLisp

variable {H : Type}

mutual

/-- The kind with the nodes in it moved `d` bytes to the right. -/
def Kind.shift (d : Nat) : Kind H → Kind H
  | .quoted inner => .quoted (Node.shift d inner)
  | .list items => .list (Node.shiftAll d items)
  | .atom name => .atom name
  | .str text => .str text
  | .null => .null
  | .keyword name => .keyword name
  | .value v => .value v
  | .procedure f => .procedure f

/-- The node moved `d` bytes to the right, with the nodes that it is made of and their types. -/
def Node.shift (d : Nat) : Node H → Node H
  | ⟨kind, span, type⟩ => ⟨Kind.shift d kind, span.map (·.shift d), Node.shiftType d type⟩

/-- An optional type moved `d` bytes to the right. -/
def Node.shiftType (d : Nat) : Option (Node H) → Option (Node H)
  | none => none
  | some type => some (Node.shift d type)

/-- The nodes of a list moved `d` bytes to the right. -/
def Node.shiftAll (d : Nat) : List (Node H) → List (Node H)
  | [] => []
  | n :: ns => Node.shift d n :: Node.shiftAll d ns

end

namespace Node

variable (d : Nat)

@[simp] lemma shiftAll_eq_map (ns : List (Node H)) : shiftAll d ns = ns.map (shift d) := by
  induction ns with
  | nil => rfl
  | cons n ns ih => simp [shiftAll, ih]

@[simp] lemma kind_shift (n : Node H) : (n.shift d).kind = n.kind.shift d := by
  cases n; rfl

@[simp] lemma span_shift (n : Node H) : (n.shift d).span = n.span.map (·.shift d) := by
  cases n; rfl

@[simp] lemma isNull_shift (n : Node H) : (n.shift d).isNull = n.isNull := by
  obtain ⟨kind, span, type⟩ := n
  cases kind <;> rfl

lemma shift_withType (n type : Node H) :
    (n.withType type).shift d = (n.shift d).withType (type.shift d) := by
  cases htype : type.isNull <;> simp [withType, shift, shiftType, htype]

mutual

theorem shift_withoutTypes : ∀ n : Node H, n.withoutTypes.shift d = (n.shift d).withoutTypes
  | ⟨.list items, span, type⟩ => by
    rw [withoutTypes, shift, Kind.shift, shiftAll_withoutTypesAll items]
    rfl
  | ⟨.quoted inner, span, type⟩ => by
    rw [withoutTypes, shift, Kind.shift, shift_withoutTypes inner]
    rfl
  | ⟨.atom _, _, _⟩ | ⟨.str _, _, _⟩ | ⟨.null, _, _⟩ | ⟨.keyword _, _, _⟩
  | ⟨.value _, _, _⟩ | ⟨.procedure _, _, _⟩ => rfl

theorem shiftAll_withoutTypesAll : ∀ ns : List (Node H),
    shiftAll d (withoutTypesAll ns) = withoutTypesAll (shiftAll d ns)
  | [] => rfl
  | n :: ns => by
    rw [withoutTypesAll, shiftAll, shift_withoutTypes n, shiftAll_withoutTypesAll ns, shiftAll,
      withoutTypesAll]

end

end Node

/-! ### Derivations -/

namespace Grammar

variable {d : Nat}

lemma exists_of_map_shift_eq_singleton {t : Token} {us : List Token}
    (h : us.map (·.shift d) = [t]) : ∃ u, us = [u] ∧ u.shift d = t := by
  simpa using h

mutual

/-- Tokens that make up a value further to the right make up a value where they are. -/
theorem Value.exists_of_map_shift_eq : ∀ (v : Value) (us : List Token),
    us.map (·.shift d) = v.tokens →
    ∃ w : Value, w.tokens = us ∧ w.depth = v.depth ∧ w.stop + d = v.stop ∧
      (w.node : Node H).shift d = v.node
  | .atom t ht, us, h => by
    obtain ⟨u, rfl, rfl⟩ := exists_of_map_shift_eq_singleton h
    exact ⟨.atom u ht, rfl, rfl, rfl, rfl⟩
  | .str t ht, us, h => by
    obtain ⟨u, rfl, rfl⟩ := exists_of_map_shift_eq_singleton h
    exact ⟨.str u ht, rfl, rfl, rfl, rfl⟩
  | .keyword t ht hname, us, h => by
    obtain ⟨u, rfl, rfl⟩ := exists_of_map_shift_eq_singleton h
    exact ⟨.keyword u ht hname, rfl, rfl, rfl, rfl⟩
  | .quoted mark hmark value, us, h => by
    obtain ⟨u, us, rfl, rfl, hus⟩ := List.map_eq_cons_iff.1 h
    obtain ⟨w, rfl, hdepth, hstop, hnode⟩ := Value.exists_of_map_shift_eq value us hus
    refine ⟨.quoted u hmark w, rfl, by simp [Value.depth, hdepth], hstop, ?_⟩
    simp [Value.node, Node.quoted, Node.shift, Kind.shift, Node.shiftType, Span.shift, Token.shift,
      hnode, hstop]
  | .list opening hopening items closing hclosing, us, h => by
    obtain ⟨u, us, rfl, rfl, hus⟩ := List.map_eq_cons_iff.1 h
    obtain ⟨vs, rest, rfl, hvs, hrest⟩ := List.map_eq_append_iff.1 hus
    obtain ⟨u', rfl, rfl⟩ := exists_of_map_shift_eq_singleton hrest
    obtain ⟨xs, rfl, hdepth, hnodes⟩ := exists_of_map_shift_eq items vs hvs
    refine ⟨.list u hopening xs u' hclosing, rfl, by simp [Value.depth, hdepth], rfl, ?_⟩
    simp [Value.node, Node.list, Node.shift, Kind.shift, Node.shiftType, Span.shift, Token.shift,
      hnodes]

theorem Typed.exists_of_map_shift_eq : ∀ (x : Typed) (us : List Token),
    us.map (·.shift d) = x.tokens →
    ∃ y : Typed, y.tokens = us ∧ y.depth = x.depth ∧ (y.node : Node H).shift d = x.node
  | .plain value, us, h => by
    obtain ⟨w, hw, hdepth, -, hnode⟩ := Value.exists_of_map_shift_eq value us h
    exact ⟨.plain w, hw, hdepth, hnode⟩
  | .annotated value colon hcolon type, us, h => by
    obtain ⟨vs, rest, rfl, hvs, hrest⟩ := List.map_eq_append_iff.1 h
    obtain ⟨u, us, rfl, rfl, hus⟩ := List.map_eq_cons_iff.1 hrest
    obtain ⟨w, rfl, hdepth, -, hnode⟩ := Value.exists_of_map_shift_eq value vs hvs
    obtain ⟨w', rfl, hdepth', -, hnode'⟩ := Value.exists_of_map_shift_eq type us hus
    refine ⟨.annotated w u hcolon w', rfl, by simp [Typed.depth, hdepth, hdepth'], ?_⟩
    show ((w.node : Node H).withType w'.node.withoutTypes).shift d =
      value.node.withType type.node.withoutTypes
    rw [Node.shift_withType, Node.shift_withoutTypes, hnode, hnode']

theorem exists_of_map_shift_eq : ∀ (xs : Program) (us : List Token),
    us.map (·.shift d) = tokens xs →
    ∃ ys : Program, tokens ys = us ∧ depth ys = depth xs ∧
      (nodes ys : List (Node H)).map (Node.shift d) = nodes xs
  | [], us, h => by
    obtain rfl := List.map_eq_nil_iff.1 h
    exact ⟨[], rfl, rfl, rfl⟩
  | x :: xs, us, h => by
    obtain ⟨vs, us, rfl, hvs, hus⟩ := List.map_eq_append_iff.1 h
    obtain ⟨y, rfl, hdepth, hnode⟩ := Typed.exists_of_map_shift_eq x vs hvs
    obtain ⟨ys, rfl, hdepths, hnodes⟩ := exists_of_map_shift_eq xs us hus
    refine ⟨y :: ys, rfl, by simp [depth, hdepth, hdepths], ?_⟩
    rw [nodes, List.map_cons, hnode, hnodes, nodes]

end

end Grammar
end TypedLisp
