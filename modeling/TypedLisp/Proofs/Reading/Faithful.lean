import Mathlib
import TypedLisp.Proofs.Reading.Derivation
import TypedLisp.Proofs.Reading.Lossless
import TypedLisp.Proofs.Reading.Shift

/-!
# The spans of nodes

The span of a node that is read holds the text of the node: read by itself, this text is the node
again, but for the annotation behind it and for how far to the right it is.  The spans of the nodes
that a node is made of lie in its own one, in order.

A node stands for a value of the derivation of the source, and the tokens of the value lie next to
each other.  Where they lie in the source they are cut out of it, since no token depends on what
comes after it; there they have the same derivation, since this depends on the tokens alone.
-/

namespace TypedLisp

variable {H : Type}

/-! ### Statements about nodes -/

namespace Node

/-- The node as it is without an annotation: a string has the type `str`, other nodes have none. -/
def unannotated (n : Node H) : Node H :=
  match n.kind with
  | .str _ => n.withType (.atom "str" none)
  | _ => n.withType .null

/-- The type of a node is the type `str` of a string, which no annotation gives to it. -/
def HasOwnType (n type : Node H) : Prop := (∃ text, n.kind = .str text) ∧ type = .atom "str" none

/-- The span of one node ends before that of the other one starts. -/
def Precedes (m n : Node H) : Prop :=
  ∃ s t, m.span = some s ∧ n.span = some t ∧ s.stop ≤ t.start

/-- The span of a node is a part of a span. -/
def LiesIn (n : Node H) (s : Span) : Prop :=
  ∃ t, n.span = some t ∧ s.start ≤ t.start ∧ t.stop ≤ s.stop

/-- A node occurs in some forms: it is one of them, or an item of a list, what is quoted, or an
annotation that occurs.  Whether it is in an annotation is kept. -/
inductive Occurs (forms : List (Node H)) : Bool → Node H → Prop
  /-- The form itself. -/
  | form {n : Node H} (hform : n ∈ forms) : Occurs forms false n
  /-- An item of a list. -/
  | item {inType : Bool} {n item : Node H} {items : List (Node H)} (h : Occurs forms inType n)
      (hlist : n.list? = some items) (hitem : item ∈ items) : Occurs forms inType item
  /-- What is quoted. -/
  | inner {inType : Bool} {n inner : Node H} (h : Occurs forms inType n)
      (hquoted : n.kind = .quoted inner) : Occurs forms inType inner
  /-- The type that an annotation gives. -/
  | type {inType : Bool} {n type : Node H} (h : Occurs forms inType n)
      (htype : n.type? = some type) (hown : ¬ n.HasOwnType type) : Occurs forms true type

/-- The span of a node of a source is faithful.  If the node is in an annotation, it has lost the
types that were written in it. -/
structure IsFaithful (source : String) (inType : Bool) (n : Node H) (s : Span) : Prop where
  /-- It is the span of the node. -/
  span : n.span = some s
  /-- There is something in it. -/
  start_lt_stop : s.start < s.stop
  /-- It does not go past the end of the source. -/
  stop_le : s.stop ≤ source.utf8ByteSize
  /-- It starts and ends between characters. -/
  isIn : s.IsIn source.toList
  /-- The spans of the items of a list are in order and do not overlap. -/
  items_pairwise : ∀ items, n.list? = some items → items.Pairwise Precedes
  /-- The spans of the items of a list lie in the span of the list. -/
  items_liesIn : ∀ items, n.list? = some items → ∀ item ∈ items, item.LiesIn s
  /-- The span of what is quoted lies in the span of the quotation. -/
  inner_liesIn : ∀ inner, n.kind = .quoted inner → inner.LiesIn s
  /-- The span of an annotation lies behind that of its value. -/
  type_behind : ∀ type, n.type? = some type → n.HasOwnType type ∨ n.Precedes type
  /-- The text in the span is read as one form, which is the node further to the left. -/
  read_slice : ∃ form,
    read (String.ofList (Text.slice s.start s.stop source.toList)) = .ok [form] ∧
      if inType then (form.shift s.start).withoutTypes = n else form.shift s.start = n.unannotated

lemma list?_withoutTypes (n : Node H) :
    n.withoutTypes.list? = n.list?.map fun items => items.map withoutTypes := by
  obtain ⟨kind, span, type⟩ := n
  cases kind with
  | list items => simp [withoutTypes, list?]
  | _ => rfl

lemma kind_withoutTypes_eq_quoted_iff {n inner : Node H} :
    n.withoutTypes.kind = .quoted inner ↔ ∃ m, n.kind = .quoted m ∧ inner = m.withoutTypes := by
  obtain ⟨kind, span, type⟩ := n
  cases kind <;> simp [withoutTypes, eq_comm]

lemma unannotated_withType (n type : Node H) : (n.withType type).unannotated = n.unannotated := by
  obtain ⟨kind, span, type'⟩ := n
  cases kind <;> rfl

lemma withoutTypes_unannotated (n : Node H) : n.unannotated.withoutTypes = n.withoutTypes := by
  obtain ⟨kind, span, type⟩ := n
  cases kind <;> rfl

lemma LiesIn.withoutTypes {n : Node H} {s : Span} (h : n.LiesIn s) : n.withoutTypes.LiesIn s := by
  rwa [LiesIn, span_withoutTypes]

lemma Precedes.withoutTypes {m n : Node H} (h : m.Precedes n) :
    m.withoutTypes.Precedes n.withoutTypes := by
  rwa [Precedes, span_withoutTypes, span_withoutTypes]

namespace IsFaithful

variable {source : String} {n type : Node H} {s : Span}

/-- A node keeps a faithful span with an annotation behind it. -/
lemma withType (h : n.IsFaithful source false s) (htype : n.Precedes type) :
    (n.withType type).IsFaithful source false s where
  span := h.span
  start_lt_stop := h.start_lt_stop
  stop_le := h.stop_le
  isIn := h.isIn
  items_pairwise := h.items_pairwise
  items_liesIn := h.items_liesIn
  inner_liesIn := h.inner_liesIn
  type_behind type' htype' := by
    cases hnull : type.isNull with
    | true => simp [Node.withType, hnull] at htype'
    | false =>
      obtain rfl : type = type' := by simpa [Node.withType, hnull] using htype'
      exact .inr htype
  read_slice := by
    rw [unannotated_withType]
    exact h.read_slice

/-- A node keeps a faithful span in an annotation. -/
lemma withoutTypes (h : n.IsFaithful source false s) : n.withoutTypes.IsFaithful source true s where
  span := by rw [span_withoutTypes, h.span]
  start_lt_stop := h.start_lt_stop
  stop_le := h.stop_le
  isIn := h.isIn
  items_pairwise items hitems := by
    rw [list?_withoutTypes] at hitems
    obtain ⟨ns, hns, rfl⟩ := Option.map_eq_some_iff.1 hitems
    exact List.pairwise_map.2 ((h.items_pairwise ns hns).imp Precedes.withoutTypes)
  items_liesIn items hitems := by
    rw [list?_withoutTypes] at hitems
    obtain ⟨ns, hns, rfl⟩ := Option.map_eq_some_iff.1 hitems
    exact List.forall_mem_map.2 fun item hitem => (h.items_liesIn ns hns item hitem).withoutTypes
  inner_liesIn inner hinner := by
    obtain ⟨m, hm, rfl⟩ := kind_withoutTypes_eq_quoted_iff.1 hinner
    exact (h.inner_liesIn m hm).withoutTypes
  type_behind type htype := by
    rw [type?_withoutTypes] at htype
    cases htype
  read_slice := by
    obtain ⟨form, hread, hform⟩ := h.read_slice
    refine ⟨form, hread, ?_⟩
    show (form.shift s.start).withoutTypes = n.withoutTypes
    rw [← withoutTypes_unannotated n, ← hform]

end IsFaithful
end Node

/-! ### Tokens in order -/

/-- The spans of tokens are not empty, they are in order and do not overlap. -/
structure Token.InOrder (ts : List Token) : Prop where
  /-- The spans are in order and do not overlap. -/
  pairwise : ts.Pairwise (·.span.stop ≤ ·.span.start)
  /-- The spans are not empty. -/
  start_lt_stop : ∀ t ∈ ts, t.span.start < t.span.stop

namespace Token.InOrder

variable {ts us : List Token}

lemma of_cuts {start : Nat} {cs : List Char} (h : Token.Cuts start cs ts) : InOrder ts where
  pairwise := (IsLaidOut.of_cuts h).pairwise
  start_lt_stop t ht := by
    obtain ⟨hne, xs, zs, -, hspan⟩ := (IsLaidOut.of_cuts h).exists_eq_append ht
    have hpos : 0 < t.text.utf8ByteSize := by
      rw [← Text.width_toList]
      exact Text.width_pos fun h => hne (String.toList_inj.1 h)
    rw [hspan]
    exact Nat.lt_add_of_pos_right hpos

lemma sublist (h : InOrder us) (hts : ts.Sublist us) : InOrder ts where
  pairwise := h.pairwise.sublist hts
  start_lt_stop t ht := h.start_lt_stop t (hts.subset ht)

lemma stop_le_start (h : InOrder (ts ++ us)) : ∀ t ∈ ts, ∀ u ∈ us, t.span.stop ≤ u.span.start :=
  (List.pairwise_append.1 h.pairwise).2.2

end Token.InOrder

/-! ### Values of a derivation -/

namespace Grammar

open Token (InOrder)

lemma Typed.span_node (x : Typed) : (x.node : Node H).span = (x.value.node : Node H).span := by
  cases x <;> rfl

lemma Typed.withoutTypes_node (x : Typed) :
    (x.node : Node H).withoutTypes = x.value.node.withoutTypes := by
  cases x with
  | plain value => rfl
  | annotated value colon hcolon type => exact Node.withoutTypes_withType _ _

lemma Value.unannotated_node (v : Value) : (v.node : Node H).unannotated = v.node := by
  cases v <;> rfl

lemma exists_typed_of_mem_nodes {p : Program} {n : Node H} (h : n ∈ nodes p) :
    ∃ x ∈ p, n = x.node := by
  induction p with
  | nil => cases h
  | cons x p ih =>
    rcases List.mem_cons.1 h with rfl | h
    · exact ⟨x, List.mem_cons_self, rfl⟩
    · obtain ⟨y, hy, rfl⟩ := ih h
      exact ⟨y, List.mem_cons_of_mem x hy, rfl⟩

lemma tokens_infix_of_mem {p : Program} {x : Typed} (h : x ∈ p) : x.tokens <:+: tokens p := by
  induction p with
  | nil => cases h
  | cons y p ih =>
    rcases List.mem_cons.1 h with rfl | h
    · exact (List.prefix_append _ _).isInfix
    · exact (ih h).trans (List.suffix_append _ _).isInfix

lemma depth_le_of_mem {p : Program} {x : Typed} (h : x ∈ p) : x.depth ≤ depth p := by
  induction p with
  | nil => cases h
  | cons y p ih =>
    rcases List.mem_cons.1 h with rfl | h
    · exact Nat.le_max_left _ _
    · exact (ih h).trans (Nat.le_max_right _ _)

lemma Value.head?_tokens (v : Value) : v.tokens.head? = some v.first := by
  cases v <;> rfl

lemma Value.exists_last : ∀ v : Value, ∃ t, v.tokens.getLast? = some t ∧ v.stop = t.span.stop
  | .atom t _ | .str t _ | .keyword t _ _ => ⟨t, rfl, rfl⟩
  | .quoted mark hmark value => by
    obtain ⟨t, ht, hstop⟩ := value.exists_last
    refine ⟨t, ?_, hstop⟩
    rw [tokens, List.getLast?_cons, ht]
    rfl
  | .list opening hopening items closing hclosing => by
    refine ⟨closing, ?_, rfl⟩
    rw [tokens, ← List.cons_append, List.getLast?_concat]

lemma Value.precedes {v w : Value}
    (h : ∀ t ∈ v.tokens, ∀ u ∈ w.tokens, t.span.stop ≤ u.span.start) :
    (v.node : Node H).Precedes w.node := by
  obtain ⟨t, ht, hstop⟩ := v.exists_last
  refine ⟨_, _, v.span_node, w.span_node, ?_⟩
  rw [hstop]
  exact h t (List.mem_of_getLast? ht) w.first (List.mem_of_head? w.head?_tokens)

lemma Value.liesIn {v : Value} {s : Span}
    (h : ∀ t ∈ v.tokens, s.start ≤ t.span.start ∧ t.span.stop ≤ s.stop) :
    (v.node : Node H).LiesIn s := by
  obtain ⟨t, ht, hstop⟩ := v.exists_last
  refine ⟨_, v.span_node, (h v.first (List.mem_of_head? v.head?_tokens)).1, ?_⟩
  rw [hstop]
  exact (h t (List.mem_of_getLast? ht)).2

lemma Typed.precedes {x y : Typed} (h : InOrder (x.tokens ++ y.tokens)) :
    (x.node : Node H).Precedes y.node := by
  have hvalue : (x.value.node : Node H).Precedes y.value.node :=
    Value.precedes fun t ht u hu => h.stop_le_start t (x.tokens_value_isPrefix.subset ht) u
      (y.tokens_value_isPrefix.subset hu)
  rwa [Node.Precedes, x.span_node, y.span_node]

/-- The nodes of typed values are in order. -/
lemma pairwise_precedes_nodes {p : Program} (h : InOrder (tokens p)) :
    (nodes p : List (Node H)).Pairwise Node.Precedes := by
  induction p with
  | nil => exact .nil
  | cons x p ih =>
    refine .cons ?_ (ih (h.sublist (List.sublist_append_right _ _)))
    intro n hn
    obtain ⟨y, hy, rfl⟩ := exists_typed_of_mem_nodes hn
    exact Typed.precedes (h.sublist ((tokens_infix_of_mem hy).sublist.append_left _))

/-- The nodes of typed values lie in a span that all of their tokens lie in. -/
lemma liesIn_of_mem_nodes {p : Program} {s : Span} {n : Node H}
    (h : ∀ t ∈ tokens p, s.start ≤ t.span.start ∧ t.span.stop ≤ s.stop) (hn : n ∈ nodes p) :
    n.LiesIn s := by
  obtain ⟨x, hx, rfl⟩ := exists_typed_of_mem_nodes hn
  have hvalue : (x.value.node : Node H).LiesIn s := Value.liesIn fun t ht =>
    h t ((tokens_infix_of_mem hx).subset (x.tokens_value_isPrefix.subset ht))
  rwa [Node.LiesIn, x.span_node]

/-! ### The parts of a value -/

section Parts

variable {v : Value} {s : Span}

lemma Value.exists_list_of_list? {ns : List (Node H)} (h : v.node.list? = some ns) :
    ∃ opening hopening items closing hclosing,
      v = .list opening hopening items closing hclosing ∧ ns = nodes items := by
  cases v with
  | list opening hopening items closing hclosing =>
    exact ⟨opening, hopening, items, closing, hclosing, rfl, (Option.some.inj h).symm⟩
  | atom | str | keyword | quoted => cases h

lemma Value.exists_quoted_of_kind {n : Node H} (h : v.node.kind = .quoted n) :
    ∃ mark hmark value, v = .quoted mark hmark value ∧ n = value.node := by
  cases v with
  | quoted mark hmark value =>
    exact ⟨mark, hmark, value, rfl, (Kind.quoted.inj h).symm⟩
  | atom | str | keyword | list => cases h

lemma Value.items_pairwise (horder : InOrder v.tokens) {ns : List (Node H)}
    (h : v.node.list? = some ns) : ns.Pairwise Node.Precedes := by
  obtain ⟨opening, hopening, items, closing, hclosing, rfl, rfl⟩ := exists_list_of_list? h
  refine pairwise_precedes_nodes (horder.sublist ?_)
  exact (List.sublist_append_left _ _).trans (List.sublist_cons_self _ _)

lemma Value.items_liesIn (horder : InOrder v.tokens) (hspan : (v.node : Node H).span = some s)
    {ns : List (Node H)} (h : v.node.list? = some ns) : ∀ n ∈ ns, n.LiesIn s := by
  obtain ⟨opening, hopening, items, closing, hclosing, rfl, rfl⟩ := exists_list_of_list? h
  obtain rfl := Option.some.inj hspan
  have hopen : InOrder ([opening] ++ (Grammar.tokens items ++ [closing])) := horder
  have hclose : InOrder ((opening :: Grammar.tokens items) ++ [closing]) := horder
  intro n hn
  refine liesIn_of_mem_nodes ?_ hn
  intro t ht
  have hstart := hopen.stop_le_start opening (by simp) t (by simp [ht])
  have hstop := hclose.stop_le_start t (by simp [ht]) closing (by simp)
  have hopening' := horder.start_lt_stop opening (by simp [Value.tokens])
  have hclosing' := horder.start_lt_stop closing (by simp [Value.tokens])
  constructor
  · exact hopening'.le.trans hstart
  · exact hstop.trans hclosing'.le

lemma Value.inner_liesIn (horder : InOrder v.tokens) (hspan : (v.node : Node H).span = some s)
    {n : Node H} (h : v.node.kind = .quoted n) : n.LiesIn s := by
  obtain ⟨mark, hmark, value, rfl, rfl⟩ := exists_quoted_of_kind h
  obtain rfl := Option.some.inj hspan
  have hmark' : InOrder ([mark] ++ value.tokens) := horder
  have hfirst := hmark'.stop_le_start mark (by simp) value.first
    (List.mem_of_head? value.head?_tokens)
  have hlt := horder.start_lt_stop mark (by simp [Value.tokens])
  exact ⟨_, value.span_node, hlt.le.trans hfirst, Nat.le_refl _⟩

end Parts

/-! ### Nodes of a source -/

/-- A value that the tokens of a source hold, with no more levels than can be read. -/
structure Value.IsPartOf (v : Value) (ts : List Token) : Prop where
  /-- Its tokens lie next to each other. -/
  isInfix : v.tokens <:+: ts
  /-- It can be read. -/
  depth_le : v.depth ≤ maxNesting

/-- A node stands for a value of the source: for a typed one, unless it is in an annotation. -/
def StandsIn (ts : List Token) : Bool → Node H → Prop
  | false, n => ∃ x : Typed, x.tokens <:+: ts ∧ x.depth ≤ maxNesting ∧ n = x.node
  | true, n => ∃ v : Value, v.IsPartOf ts ∧ n = v.node.withoutTypes

variable {ts : List Token}

lemma Typed.isPartOf_value {x : Typed} (hx : x.tokens <:+: ts) (hdepth : x.depth ≤ maxNesting) :
    x.value.IsPartOf ts :=
  ⟨x.tokens_value_isPrefix.isInfix.trans hx, x.depth_value_le.trans hdepth⟩

lemma Value.IsPartOf.item {opening closing : Token} {hopening hclosing} {items : List Typed}
    (h : (Value.list opening hopening items closing hclosing).IsPartOf ts) {x : Typed}
    (hx : x ∈ items) : x.tokens <:+: ts ∧ x.depth ≤ maxNesting := by
  have hitems :
      Grammar.tokens items <:+: (Value.list opening hopening items closing hclosing).tokens :=
    ⟨[opening], [closing], by simp [Value.tokens]⟩
  have hdepth : Grammar.depth items + 1 ≤ maxNesting := h.depth_le
  have hle := depth_le_of_mem hx
  exact ⟨((tokens_infix_of_mem hx).trans hitems).trans h.isInfix, by omega⟩

lemma Value.IsPartOf.inner {mark : Token} {hmark} {v : Value}
    (h : (Value.quoted mark hmark v).IsPartOf ts) : v.IsPartOf ts := by
  have hdepth : v.depth + 1 ≤ maxNesting := h.depth_le
  exact ⟨(List.suffix_cons mark v.tokens).isInfix.trans h.isInfix, by omega⟩

/-- Every node of a source stands for a value of the source. -/
theorem standsIn_of_occurs {p : Program} (hdepth : depth p ≤ maxNesting) {inType : Bool}
    {n : Node H} (h : Node.Occurs (nodes p) inType n) : StandsIn (tokens p) inType n := by
  induction h with
  | form hform =>
    obtain ⟨x, hx, rfl⟩ := exists_typed_of_mem_nodes hform
    exact ⟨x, tokens_infix_of_mem hx, (depth_le_of_mem hx).trans hdepth, rfl⟩
  | @item inType n item ns _ hlist hitem ih =>
    cases inType with
    | false =>
      obtain ⟨x, hx, hle, rfl⟩ := ih
      have hvalue : (x.value.node : Node H).list? = some ns := by
        rwa [Node.list?, ← x.kind_node]
      obtain ⟨opening, hopening, items, closing, hclosing, heq, rfl⟩ :=
        Value.exists_list_of_list? hvalue
      obtain ⟨y, hy, rfl⟩ := exists_typed_of_mem_nodes hitem
      obtain ⟨htokens, hdepth⟩ := (heq ▸ x.isPartOf_value hx hle).item hy
      exact ⟨y, htokens, hdepth, rfl⟩
    | true =>
      obtain ⟨v, hv, rfl⟩ := ih
      rw [Node.list?_withoutTypes] at hlist
      obtain ⟨ns', hlist', rfl⟩ := Option.map_eq_some_iff.1 hlist
      obtain ⟨opening, hopening, items, closing, hclosing, rfl, rfl⟩ :=
        Value.exists_list_of_list? hlist'
      obtain ⟨n, hn, rfl⟩ := List.mem_map.1 hitem
      obtain ⟨y, hy, rfl⟩ := exists_typed_of_mem_nodes hn
      obtain ⟨htokens, hdepth⟩ := hv.item hy
      exact ⟨y.value, y.isPartOf_value htokens hdepth, y.withoutTypes_node⟩
  | @inner inType n m _ hquoted ih =>
    cases inType with
    | false =>
      obtain ⟨x, hx, hle, rfl⟩ := ih
      rw [x.kind_node] at hquoted
      obtain ⟨mark, hmark, value, heq, rfl⟩ := Value.exists_quoted_of_kind hquoted
      have hvalue := (heq ▸ x.isPartOf_value hx hle).inner
      exact ⟨.plain value, hvalue.isInfix, hvalue.depth_le, rfl⟩
    | true =>
      obtain ⟨v, hv, rfl⟩ := ih
      obtain ⟨m, hquoted', rfl⟩ := Node.kind_withoutTypes_eq_quoted_iff.1 hquoted
      obtain ⟨mark, hmark, value, rfl, rfl⟩ := Value.exists_quoted_of_kind hquoted'
      exact ⟨value, hv.inner, rfl⟩
  | @type inType n type _ htype hown ih =>
    cases inType with
    | false =>
      obtain ⟨x, hx, hle, rfl⟩ := ih
      cases x with
      | plain value =>
        -- a value has no type by itself, unless it is a string
        cases value with
        | str t ht => exact absurd ⟨⟨_, rfl⟩, (Option.some.inj htype).symm⟩ hown
        | atom | keyword | quoted | list => cases htype
      | annotated value colon hcolon type' =>
        have htype' : some type'.node.withoutTypes = some type := by
          rw [← htype, Typed.node, Node.withType, Node.isNull_withoutTypes, type'.isNull_node]
          rfl
        have htokens : type'.tokens <:+: value.tokens ++ colon :: type'.tokens :=
          ((List.suffix_cons _ _).trans (List.suffix_append _ _)).isInfix
        exact ⟨type', ⟨htokens.trans hx, (Nat.le_max_right _ _).trans hle⟩,
          (Option.some.inj htype').symm⟩
    | true =>
      obtain ⟨v, hv, rfl⟩ := ih
      rw [Node.type?_withoutTypes] at htype
      cases htype

/-- A value that the tokens of a source hold is a part of the source, and this part by itself is
read as the value. -/
theorem Value.IsPartOf.exists_slice {v : Value} {cs : List Char} (hcuts : Token.Cuts 0 cs ts)
    (h : v.IsPartOf ts) :
    ∃ xs ys zs, cs = xs ++ ys ++ zs ∧ ys ≠ [] ∧
      (v.node : Node H).span = some ⟨Text.width xs, Text.width xs + Text.width ys⟩ ∧
      ∃ form : Node H, read (String.ofList ys) = .ok [form] ∧
        form.shift (Text.width xs) = v.node := by
  obtain ⟨before, after, hts⟩ := h.isInfix
  obtain ⟨last, hlast, hstop⟩ := v.exists_last
  rw [← hts] at hcuts
  obtain ⟨xs, ys, zs, rfl, hys, hfirst, hlast'⟩ := hcuts.exists_of_infix v.head?_tokens hlast
  rw [Nat.zero_add] at hys hfirst hlast'
  refine ⟨xs, ys, zs, rfl, ?_, ?_, ?_⟩
  · rintro rfl
    rw [hys.eq (.nil _)] at hlast
    cases hlast
  · rw [v.span_node, hstop, hfirst, hlast']
  · -- the part has the same tokens by itself, and they have the same derivation
    obtain ⟨us, hus, hshift⟩ := hys.exists_cuts_zero
    obtain ⟨w, rfl, hdepth, -, hnode⟩ := v.exists_of_map_shift_eq us hshift
    refine ⟨w.node, ?_, hnode⟩
    have hlex : lex (String.ofList ys) = .ok w.tokens := by
      rw [lex, String.toList_ofList, hus.scanFrom_eq_ok]
    rw [read, hlex]
    refine readTokens_eq_ok_iff.2 ⟨[.plain w], ?_, ?_, rfl⟩
    · simp [Grammar.tokens, Typed.tokens]
    · simpa [Grammar.depth, Typed.depth, hdepth] using h.depth_le

lemma Value.IsPartOf.exists_isFaithful {v : Value} {source : String}
    (hcuts : Token.Cuts 0 source.toList ts) (h : v.IsPartOf ts) :
    ∃ s, (v.node : Node H).IsFaithful source false s := by
  have horder : InOrder v.tokens := (InOrder.of_cuts hcuts).sublist h.isInfix.sublist
  obtain ⟨xs, ys, zs, hsource, hne, hspan, form, hread, hform⟩ := h.exists_slice (H := H) hcuts
  have hin : Span.IsIn ⟨Text.width xs, Text.width xs + Text.width ys⟩ source.toList := by
    rw [hsource]
    exact .of_append xs ys zs
  refine ⟨⟨Text.width xs, Text.width xs + Text.width ys⟩, ?_⟩
  exact {
    span := hspan
    start_lt_stop := Nat.lt_add_of_pos_right (Text.width_pos hne)
    stop_le := by simpa using hin.stop_le_width
    isIn := hin
    items_pairwise := fun items hitems => Value.items_pairwise horder hitems
    items_liesIn := fun items hitems => Value.items_liesIn horder hspan hitems
    inner_liesIn := fun inner hinner => Value.inner_liesIn horder hspan hinner
    type_behind := by
      intro type htype
      cases v with
      | str t ht => exact .inl ⟨⟨_, rfl⟩, (Option.some.inj htype).symm⟩
      | atom | keyword | quoted | list => cases htype
    read_slice := by
      refine ⟨form, ?_, ?_⟩
      · rw [hsource, Text.slice_width_append]
        exact hread
      · show form.shift (Text.width xs) = v.node.unannotated
        rw [v.unannotated_node, hform] }

lemma Typed.exists_isFaithful {x : Typed} {source : String}
    (hcuts : Token.Cuts 0 source.toList ts) (hx : x.tokens <:+: ts)
    (hdepth : x.depth ≤ maxNesting) : ∃ s, (x.node : Node H).IsFaithful source false s := by
  obtain ⟨s, hs⟩ := (x.isPartOf_value hx hdepth).exists_isFaithful (H := H) hcuts
  cases x with
  | plain value => exact ⟨s, hs⟩
  | annotated value colon hcolon type =>
    have horder : InOrder (value.tokens ++ colon :: type.tokens) :=
      (InOrder.of_cuts hcuts).sublist hx.sublist
    have hprecedes : (value.node : Node H).Precedes type.node :=
      Value.precedes fun t ht u hu => horder.stop_le_start t ht u (List.mem_cons_of_mem colon hu)
    refine ⟨s, hs.withType ?_⟩
    rwa [Node.Precedes, Node.span_withoutTypes]

end Grammar

/-- **Spans are faithful.**  Every node that occurs in the forms of a source has a span.  It is not
empty, it lies in the source and cuts no character of it.  The spans of the items of a list are in
order, do not overlap and lie in the span of the list, that of what is quoted lies in that of the
quotation, and that of an annotation lies behind that of its value.  The text in the span is read by
itself as one form, which is the node without its annotation, further to the left; in an annotation,
the node has lost its types besides. -/
theorem exists_isFaithful_of_occurs {source : String} {forms : List (Node H)}
    (h : read source = .ok forms) {inType : Bool} {n : Node H}
    (hn : Node.Occurs forms inType n) : ∃ s, n.IsFaithful source inType s := by
  obtain ⟨ts, hlex, hread⟩ := Except.exists_of_bind_eq_ok h
  have hcuts := Token.scanFrom_eq_ok_iff.1 hlex
  obtain ⟨p, rfl, hdepth, rfl⟩ := readTokens_eq_ok_iff.1 hread
  have hstands := Grammar.standsIn_of_occurs hdepth hn
  cases inType with
  | false =>
    obtain ⟨x, hx, hle, rfl⟩ := hstands
    exact Grammar.Typed.exists_isFaithful hcuts hx hle
  | true =>
    obtain ⟨v, hv, rfl⟩ := hstands
    obtain ⟨s, hs⟩ := hv.exists_isFaithful (H := H) hcuts
    exact ⟨s, hs.withoutTypes⟩

/-- An atom in an annotation, behind an annotation that is lost. -/
theorem exists_isFaithful_of_occurs_in_type :
    ∃ forms : List (Node Empty), read "(f 'é: (b: c d)) ; x" = .ok forms ∧
      Node.Occurs forms true (.atom "d" (some ⟨14, 15⟩)) ∧
      ∃ s, (Node.atom "d" (some ⟨14, 15⟩) : Node Empty).IsFaithful
        "(f 'é: (b: c d)) ; x" true s := by
  let type : Node Empty :=
    .list [.atom "b" (some ⟨9, 10⟩), .atom "d" (some ⟨14, 15⟩)] (some ⟨8, 16⟩)
  let value : Node Empty := .quoted (.atom "é" (some ⟨4, 6⟩)) (some ⟨3, 6⟩)
  let form : Node Empty := .list [.atom "f" (some ⟨1, 2⟩), value.withType type] (some ⟨0, 17⟩)
  have hread : read "(f 'é: (b: c d)) ; x" = .ok [form] := by cbv
  have hform : Node.Occurs [form] false form := .form (by simp)
  have hvalue : Node.Occurs [form] false (value.withType type) := hform.item rfl (by simp)
  have htype : Node.Occurs [form] true type := by
    refine hvalue.type rfl ?_
    rintro ⟨⟨text, h⟩, -⟩
    cases h
  have hatom : Node.Occurs [form] true (.atom "d" (some ⟨14, 15⟩)) := htype.item rfl (by simp)
  exact ⟨[form], hread, hatom, exists_isFaithful_of_occurs hread hatom⟩

end TypedLisp
