import TypedLisp.Proofs.Reading.RoundTrip

/-!
# Reading what is printed with types

A colon belongs to the outermost of the values that end before it, and a typed text has one after
each typed node.  Under a quotation mark no type is taken, so what stands there has none, unless it
is a string: a string has the type `str` wherever it is.  In the text `'"x": str` of a quoted string
the type has become that of the quotation, and if the quotation has a type of its own there are two,
which is no source at all.

So the typed texts of the forms of a source are read as the same forms if and only if no string
stands directly behind a quotation mark.  In one direction the forms are put together again from
the lexemes.  In the other, what is read has the same typed texts, so that its tokens are those that
its own typed texts are cut into; where a string is quoted there are tokens left over behind it that
no value can start with.
-/

namespace TypedLisp

variable {H : Type}

open Token (Ends IsShaped Lexes lexeme)

/-- Whether a kind is that of strings. -/
def Kind.isStr : Kind H → Bool
  | .str _ => true
  | _ => false

namespace Node

mutual

/-- Whether a string stands directly behind a quotation mark somewhere in a node; its types do not
count. -/
def quotesString : Node H → Bool
  | ⟨.quoted inner, _, _⟩ => inner.kind.isStr || quotesString inner
  | ⟨.list items, _, _⟩ => anyQuotesString items
  | _ => false

/-- Whether a string stands directly behind a quotation mark somewhere in some nodes. -/
def anyQuotesString : List (Node H) → Bool
  | [] => false
  | n :: ns => quotesString n || anyQuotesString ns

end

lemma anyQuotesString_eq_false_iff {ns : List (Node H)} :
    anyQuotesString ns = false ↔ ∀ n ∈ ns, n.quotesString = false := by
  induction ns with
  | nil => simp [anyQuotesString]
  | cons n ns ih => simp [anyQuotesString, ih]

/-- Without spans a node is its kind and its type. -/
lemma erase_ofSpans_eq (n : Node H) :
    n.erase .ofSpans = ⟨n.kind.erase .ofSpans, none, eraseType .ofSpans n.type?⟩ := by
  cases n
  rfl

lemma quotesString_eq_of_kind_eq {n m : Node H} (h : n.kind = m.kind) :
    n.quotesString = m.quotesString := by
  obtain ⟨kind, span, type⟩ := n
  obtain ⟨kind', span', type'⟩ := m
  obtain rfl : kind = kind' := h
  cases kind <;> rfl

@[simp] lemma isStr_erase (e : Erasure) (k : Kind H) : (k.erase e).isStr = k.isStr := by
  cases k <;> rfl

mutual

theorem quotesString_erase (e : Erasure) : ∀ n : Node H, (n.erase e).quotesString = n.quotesString
  | ⟨.quoted inner, _, _⟩ => by
    simp only [erase, Kind.erase, quotesString, kind_erase, isStr_erase,
      quotesString_erase e inner]
  | ⟨.list items, _, _⟩ => by
    simp only [erase, Kind.erase, quotesString, anyQuotesString_eraseAll e items]
  | ⟨.atom _, _, _⟩ | ⟨.str _, _, _⟩ | ⟨.null, _, _⟩ | ⟨.keyword _, _, _⟩ | ⟨.value _, _, _⟩
  | ⟨.procedure _, _, _⟩ => rfl

theorem anyQuotesString_eraseAll (e : Erasure) : ∀ ns : List (Node H),
    anyQuotesString (eraseAll e ns) = anyQuotesString ns
  | [] => rfl
  | n :: ns => by
    rw [eraseAll, anyQuotesString, quotesString_erase e n, anyQuotesString_eraseAll e ns,
      anyQuotesString]

end

/-! ### Types -/

mutual

/-- Without types there is nothing of them to show. -/
theorem print_withoutTypes (types : Bool) : ∀ n : Node H, n.withoutTypes.print types = n.plain
  | ⟨.list items, _, _⟩ => by
    simp only [withoutTypes, plain, print, printItems_withoutTypesAll types items, printType,
      printType_false]
  | ⟨.quoted inner, _, _⟩ => by
    simp only [withoutTypes, print, print_withoutTypes types inner, plain, printType,
      printType_false]
  | ⟨.null, _, _⟩ => rfl
  | ⟨.atom _, _, _⟩ | ⟨.str _, _, _⟩ | ⟨.keyword _, _, _⟩ | ⟨.value _, _, _⟩
  | ⟨.procedure _, _, _⟩ => by
    simp only [withoutTypes, plain, print, printType, printType_false]

theorem printItems_withoutTypesAll (types : Bool) : ∀ ns : List (Node H),
    printItems types (withoutTypesAll ns) = printItems false ns
  | [] => rfl
  | [n] => print_withoutTypes types n
  | n :: m :: ns => by
    have hrest := printItems_withoutTypesAll types (m :: ns)
    rw [withoutTypesAll] at hrest
    rw [withoutTypesAll, withoutTypesAll, printItems, print_withoutTypes types n, hrest, printItems,
      plain]

end

lemma Writable.withoutTypes {d : Nat} {n : Node H} (h : n.Writable d) :
    n.withoutTypes.Writable d := by
  induction h with
  | atom hname => exact .atom hname
  | str => exact .str
  | keyword hne hname => exact .keyword hne hname
  | quoted hinner ih => exact .quoted ih
  | list hitems ih =>
    refine .list fun n hn => ?_
    rw [withoutTypesAll_eq_map] at hn
    obtain ⟨m, hm, rfl⟩ := List.mem_map.1 hn
    exact ih m hm

lemma Writable.isNull {d : Nat} {n : Node H} (h : n.Writable d) : n.isNull = false := by
  cases h <;> rfl

/-- A type that an annotation in a source stands for, with values not more than `d` deep in each
other. -/
structure IsWrittenType (d : Nat) (type : Node H) : Prop where
  writable : type.Writable d
  untyped : type.withoutTypes = type

lemma withoutTypes_withoutTypes (n : Node H) : n.withoutTypes.withoutTypes = n.withoutTypes := by
  rw [← erase_ofTypes, ← erase_ofTypes, erase_erase]
  rfl

/-- The type of every string. -/
lemma isWrittenType_str (d : Nat) : (Node.atom "str" none : Node H).IsWrittenType (d + 1) where
  writable := by
    refine .atom ⟨by decide, ?_, by decide⟩
    intro c hc
    have hstr : c = 's' ∨ c = 't' ∨ c = 'r' := by simpa using hc
    rcases hstr with rfl | rfl | rfl <;> decide
  untyped := rfl

/-! ### The lexemes of a typed text -/

/-- The lexemes of what follows a typed node. -/
def typeLexemes : Option (Node H) → List (TokenKind × String)
  | none => []
  | some type => (.colon, ":") :: type.lexemes

end Node

mutual

/-- The lexemes that the typed text of a node of a kind is cut into, without those of its type. -/
def Kind.typedLexemes : Kind H → List (TokenKind × String)
  | .atom name => [(.atom, name)]
  | .str text => [(.str, quoteText text)]
  | .keyword name => [(.keyword, "." ++ name)]
  | .quoted inner => (.quote, "'") :: Node.typedLexemes inner
  | .list items => (.opening, "(") :: (Node.typedLexemesAll items ++ [(.closing, ")")])
  | _ => []

/-- The lexemes that the typed text of a node is cut into. -/
def Node.typedLexemes : Node H → List (TokenKind × String)
  | ⟨kind, _, type⟩ => Kind.typedLexemes kind ++ Node.typeLexemes type

/-- The lexemes that the typed texts of nodes are cut into. -/
def Node.typedLexemesAll : List (Node H) → List (TokenKind × String)
  | [] => []
  | n :: ns => Node.typedLexemes n ++ Node.typedLexemesAll ns

end

/-- The typed text of a node of a kind, without its type. -/
def Kind.typedText (k : Kind H) : String := (⟨k, none, none⟩ : Node H).typed

namespace Node

lemma typedLexemesAll_eq_flatMap (ns : List (Node H)) :
    typedLexemesAll ns = ns.flatMap typedLexemes := by
  induction ns with
  | nil => rfl
  | cons n ns ih => rw [typedLexemesAll, ih, List.flatMap_cons]

lemma typedLexemes_eq (n : Node H) :
    n.typedLexemes = n.kind.typedLexemes ++ typeLexemes n.type? := by
  cases n
  rfl

lemma typed_eq_append (n : Node H) (h : n.isNull = false) :
    n.typed = n.kind.typedText ++ printType true n.type? := by
  obtain ⟨kind, span, type⟩ := n
  cases kind with
  | null => cases h
  | quoted | list | atom | str | keyword | value | procedure =>
    simp [Kind.typedText, typed, print, printType, String.append_assoc]

/-- What follows a typed node is cut into its lexemes, and does not go on with a name. -/
lemma lexes_printType {d : Nat} {type? : Option (Node H)}
    (htype : ∀ type, type? = some type → type.IsWrittenType d) {rest : List Char}
    {ls : List (TokenKind × String)} (hrest : Ends rest) (h : Lexes rest ls) :
    Ends ((printType true type?).toList ++ rest) ∧
      Lexes ((printType true type?).toList ++ rest) (typeLexemes type? ++ ls) := by
  cases type? with
  | none => exact ⟨hrest, h⟩
  | some type =>
    obtain ⟨hwritable, huntyped⟩ := htype type rfl
    have htext : (printType true (some type)).toList = ':' :: ' ' :: type.plain.toList := by
      have hplain := print_withoutTypes true type
      rw [huntyped] at hplain
      simp [printType, hwritable.isNull, hplain]
    rw [htext]
    refine ⟨Token.ends_cons (by decide), Lexes.colon ?_⟩
    exact Lexes.blank rfl (hwritable.not_isSpace_head rest) (hwritable.lexes rest ls hrest h)

end Node

/-- The typed text of a node of a kind is cut into the lexemes of the kind, before anything that
does not go on with a name. -/
def Kind.IsLexed (k : Kind H) : Prop :=
  ∀ rest ls, Ends rest → Lexes rest ls → Lexes (k.typedText.toList ++ rest) (k.typedLexemes ++ ls)

/-- The typed text of a node is cut into the lexemes of the node, before anything that does not go
on with a name. -/
def Node.IsLexed (n : Node H) : Prop :=
  ∀ rest ls, Ends rest → Lexes rest ls → Lexes (n.typed.toList ++ rest) (n.typedLexemes ++ ls)

lemma Kind.IsLexed.node {d : Nat} {n : Node H} (h : n.kind.IsLexed) (hnull : n.isNull = false)
    (htype : ∀ type, n.type? = some type → type.IsWrittenType d) : n.IsLexed := by
  intro rest ls hrest hls
  obtain ⟨hends, hlexes⟩ := Node.lexes_printType htype hrest hls
  rw [n.typed_eq_append hnull, n.typedLexemes_eq, String.toList_append, List.append_assoc,
    List.append_assoc]
  exact h _ _ hends hlexes

namespace Grammar

/-- Only strings have a type by themselves. -/
lemma Value.type?_node (v : Value) :
    (v.node : Node H).type? =
      if (v.node : Node H).kind.isStr then some (.atom "str" none) else none := by
  cases v <;> rfl

lemma Value.depth_pos (v : Value) : 0 < v.depth := by
  cases v <;> simp [Value.depth]

lemma Typed.quotesString_node (x : Typed) :
    (x.node : Node H).quotesString = (x.value.node : Node H).quotesString :=
  Node.quotesString_eq_of_kind_eq x.kind_node

lemma Typed.isNull_node (x : Typed) : (x.node : Node H).isNull = false := by
  cases x with
  | plain value => exact value.isNull_node
  | annotated value colon hcolon type => exact value.isNull_node

lemma Value.isWrittenType_withoutTypes {v : Value} {d : Nat} (hshape : ∀ t ∈ v.tokens, IsShaped t)
    (hd : v.depth ≤ d) : (v.node : Node H).withoutTypes.IsWrittenType d where
  writable := (v.writable_node hshape hd).withoutTypes
  untyped := Node.withoutTypes_withoutTypes _

lemma Typed.type?_annotated (value : Value) {colon : Token} (hcolon : colon.kind = .colon)
    (type : Value) :
    ((Typed.annotated value colon hcolon type).node : Node H).type? =
      some type.node.withoutTypes := by
  have hnull : (type.node : Node H).withoutTypes.isNull = false := by
    rw [Node.isNull_withoutTypes, type.isNull_node]
  rw [Typed.node, Node.withType, hnull]
  rfl

/-- The type of a typed value is `str`, or that of its annotation. -/
lemma Typed.isWrittenType_of_type? {x : Typed} (hshape : ∀ t ∈ x.tokens, IsShaped t)
    {type : Node H} (htype : x.node.type? = some type) : type.IsWrittenType x.depth := by
  cases x with
  | plain value =>
    rw [Typed.node, value.type?_node] at htype
    split at htype
    · obtain rfl := Option.some.inj htype
      obtain ⟨d, hd⟩ := Nat.exists_eq_add_of_le' value.depth_pos
      rw [Typed.depth, hd]
      exact Node.isWrittenType_str d
    · exact nomatch htype
  | annotated value colon hcolon type' =>
    rw [Typed.type?_annotated] at htype
    obtain rfl := Option.some.inj htype
    exact Value.isWrittenType_withoutTypes (fun t ht => hshape t (by simp [Typed.tokens, ht]))
      (Nat.le_max_right _ _)

/-! ### Typed texts -/

/-- The text of a typed value is that of its value and what follows it. -/
lemma Typed.isLexed_of_value (x : Typed) (hshape : ∀ t ∈ x.tokens, IsShaped t)
    (hvalue : (x.value.node : Node H).kind.IsLexed) : (x.node : Node H).IsLexed := by
  rw [← x.kind_node] at hvalue
  exact hvalue.node x.isNull_node fun _ htype => x.isWrittenType_of_type? hshape htype

mutual

/-- The text of a value is cut into its lexemes. -/
theorem Value.isLexed : ∀ v : Value, (∀ t ∈ v.tokens, IsShaped t) →
    (v.node : Node H).kind.IsLexed
  | .atom t ht, hshape => by
    intro rest ls hrest h
    have hname := (hshape t (by simp [Value.tokens])).1 ht
    simpa [Value.node, Node.atom, Kind.typedText, Node.typed, Node.print, Node.printType,
      Kind.typedLexemes] using Lexes.atom hname hrest h
  | .str t ht, hshape => by
    intro rest ls hrest h
    simpa [Value.node, Node.str, Node.withType, Kind.typedText, Node.typed, Node.print,
      Node.printType, Kind.typedLexemes] using lexes_quoteText _ h
  | .keyword t ht hname, hshape => by
    intro rest ls hrest h
    obtain ⟨name, htext, hall⟩ := (hshape t (by simp [Value.tokens])).2 ht
    simpa [Value.node, htext, Node.keyword, Kind.typedText, Node.typed, Node.print,
      Node.printType, Kind.typedLexemes] using Lexes.keyword hall hrest h
  | .quoted mark hmark value, hshape => by
    intro rest ls hrest h
    have hshape' : ∀ t ∈ value.tokens, IsShaped t :=
      fun t ht => hshape t (List.mem_cons_of_mem mark ht)
    have hvalue : (value.node : Node H).IsLexed :=
      Typed.isLexed_of_value (.plain value) hshape' (Value.isLexed value hshape')
    simpa [Value.node, Node.quoted, Kind.typedText, Node.typed, Node.print, Node.printType,
      Kind.typedLexemes] using (hvalue rest ls hrest h).quote
  | .list opening hopening items closing hclosing, hshape => by
    intro rest ls hrest h
    have hitems := isLexed items fun t ht => hshape t (by simp [Value.tokens, ht])
    have hclosing : Ends (')' :: rest) := Token.ends_cons (by decide)
    have hin := Node.lexes_intercalate_of Node.typed Node.typedLexemes ' ' rfl hclosing h.closing
      (nodes items : List (Node H)) (fun n hn => (hitems n hn).1) fun n hn => (hitems n hn).2
    have htyped : (Node.typed : Node H → String) = Node.print true := rfl
    rw [htyped] at hin
    simpa [Value.node, Node.list, Kind.typedText, Node.typed, Node.print, Node.printType,
      Kind.typedLexemes, Node.typedLexemesAll_eq_flatMap, Node.printItems_eq_intercalate]
      using hin.opening

theorem Typed.isLexed : ∀ x : Typed, (∀ t ∈ x.tokens, IsShaped t) → (x.node : Node H).IsLexed
  | .plain value, hshape =>
    Typed.isLexed_of_value (.plain value) hshape (Value.isLexed value hshape)
  | .annotated value colon hcolon type, hshape =>
    Typed.isLexed_of_value (.annotated value colon hcolon type) hshape
      (Value.isLexed value fun t ht => hshape t (by simp [Typed.tokens, ht]))

theorem isLexed : ∀ p : Program, (∀ t ∈ tokens p, IsShaped t) → ∀ n ∈ (nodes p : List (Node H)),
    (∀ rest, ∀ c ∈ (n.typed.toList ++ rest).head?, ¬ Token.isSpace c) ∧ n.IsLexed
  | [], _ => by simp [nodes]
  | x :: xs, hshape => by
    rw [nodes, List.forall_mem_cons]
    have hx : ∀ t ∈ x.tokens, IsShaped t := fun t ht => hshape t (by simp [tokens, ht])
    have hwritable := Typed.writable_node (H := H) x hx (Nat.le_refl _)
    exact ⟨⟨hwritable.not_isSpace_head_print true, Typed.isLexed x hx⟩,
      isLexed xs fun t ht => hshape t (by simp [tokens, ht])⟩

end

/-! ### Derivations from the lexemes of typed texts -/

/-- What a value stands for is told by its kind, types included. -/
lemma Value.erase_node_eq {v w : Value}
    (h : (w.node : Node H).kind.erase .ofSpans = v.node.kind.erase .ofSpans) :
    (w.node : Node H).erase .ofSpans = v.node.erase .ofSpans := by
  have hstr : (w.node : Node H).kind.isStr = (v.node : Node H).kind.isStr := by
    rw [← Node.isStr_erase .ofSpans, h, Node.isStr_erase]
  have htype := w.type?_node (H := H)
  rw [hstr, ← v.type?_node] at htype
  rw [Node.erase_ofSpans_eq, Node.erase_ofSpans_eq, h, htype]

/-- The value of an annotation is restored as an annotation. -/
lemma exists_writtenType {d : Nat} {type : Node H} (htype : type.IsWrittenType d) {ts : List Token}
    {ls : List (TokenKind × String)} (h : ts.map lexeme = Node.typeLexemes (some type) ++ ls) :
    ∃ (colon : Token) (w : Value) (rest : List Token), colon.kind = .colon ∧
      ts = colon :: (w.tokens ++ rest) ∧ rest.map lexeme = ls ∧ w.depth ≤ d ∧
        (w.node : Node H).withoutTypes.erase .ofSpans = type.erase .ofSpans := by
  obtain ⟨colon, us, rfl, hcolon, -, hus⟩ := Node.exists_token_of_lexeme h
  obtain ⟨w, rest, rfl, hrest, hdepth, hnode⟩ := htype.writable.isRestored us ls hus
  refine ⟨colon, w, rest, hcolon, rfl, hrest, hdepth, ?_⟩
  have herase (n : Node H) : n.withoutTypes.erase .ofSpans = n.erase .ofBoth := by
    rw [← Node.erase_ofTypes, Node.erase_erase]
    rfl
  rw [← htype.untyped, herase, herase, hnode]

/-- A typed value is restored if its value is. -/
lemma Typed.exists_of_value {x : Typed} (hshape : ∀ t ∈ x.tokens, IsShaped t) {w : Value}
    {us : List Token} {ls : List (TokenKind × String)}
    (hus : us.map lexeme = Node.typeLexemes (x.node : Node H).type? ++ ls)
    (hdepth : w.depth ≤ x.depth)
    (hnode : (w.node : Node H).erase .ofSpans = x.value.node.erase .ofSpans) :
    ∃ (y : Typed) (rest : List Token), w.tokens ++ us = y.tokens ++ rest ∧
      rest.map lexeme = ls ∧ y.depth ≤ x.depth ∧
        (y.node : Node H).erase .ofSpans = x.node.erase .ofSpans := by
  cases htype : (x.node : Node H).type? with
  | none =>
    rw [htype] at hus
    cases x with
    | plain value => exact ⟨.plain w, us, rfl, hus, hdepth, hnode⟩
    | annotated value colon hcolon type =>
      rw [Typed.type?_annotated] at htype
      cases htype
  | some type =>
    have hwritten := x.isWrittenType_of_type? hshape htype
    rw [htype] at hus
    obtain ⟨colon, u, rest, hcolon, rfl, hrest, hdepth', hu⟩ := exists_writtenType hwritten hus
    refine ⟨.annotated w colon hcolon u, rest, by simp [Typed.tokens], hrest,
      Nat.max_le.2 ⟨hdepth, hdepth'⟩, ?_⟩
    have hnull : (type.erase .ofSpans).isNull = false := by
      rw [Node.isNull_erase, hwritten.writable.isNull]
    have hx : (x.node : Node H).erase .ofSpans =
        (x.value.node.erase .ofSpans).withType (type.erase .ofSpans) := by
      rw [Node.erase_ofSpans_eq, htype, x.kind_node, Node.withType, hnull, Node.erase_ofSpans_eq]
      rfl
    rw [hx, Typed.node, Node.erase_withType, hnode]
    exact congrArg _ hu

mutual

/-- Tokens that start with the lexemes of a value start with those of a value that stands for the
same node up to spans, unless a string is quoted in it. -/
theorem Value.exists_of_lexemes : ∀ v : Value, (∀ t ∈ v.tokens, IsShaped t) →
    (v.node : Node H).quotesString = false →
    ∀ (ts : List Token) (ls : List (TokenKind × String)),
      ts.map lexeme = (v.node : Node H).kind.typedLexemes ++ ls →
      ∃ (w : Value) (rest : List Token), ts = w.tokens ++ rest ∧ rest.map lexeme = ls ∧
        w.depth ≤ v.depth ∧ (w.node : Node H).erase .ofSpans = v.node.erase .ofSpans
  | .atom t ht, _, _, ts, ls, h => by
    obtain ⟨u, rest, rfl, hkind, htext, hrest⟩ := Node.exists_token_of_lexeme h
    refine ⟨.atom u hkind, rest, rfl, hrest, Nat.le_refl 1, Value.erase_node_eq ?_⟩
    rw [Value.node, htext]
    rfl
  | .str t ht, _, _, ts, ls, h => by
    obtain ⟨u, rest, rfl, hkind, htext, hrest⟩ := Node.exists_token_of_lexeme h
    refine ⟨.str u hkind, rest, rfl, hrest, Nat.le_refl 1, Value.erase_node_eq ?_⟩
    rw [Node.kind_node_str hkind htext]
    rfl
  | .keyword t ht hname, _, _, ts, ls, h => by
    obtain ⟨u, rest, rfl, hkind, htext, hrest⟩ := Node.exists_token_of_lexeme h
    have hkeyword : Reader.keywordName u = Reader.keywordName t := by
      simp [Reader.keywordName, htext]
    refine ⟨.keyword u hkind (hkeyword ▸ hname), rest, rfl, hrest, Nat.le_refl 1,
      Value.erase_node_eq ?_⟩
    exact congrArg Kind.keyword hkeyword
  | .quoted mark hmark value, hshape, hquotes, ts, ls, h => by
    obtain ⟨hstr, hinner⟩ := Bool.or_eq_false_iff.1 hquotes
    obtain ⟨u, us, rfl, hkind, -, hus⟩ := Node.exists_token_of_lexeme h
    rw [Node.typedLexemes_eq, value.type?_node, hstr] at hus
    obtain ⟨w, rest, rfl, hrest, hdepth, hnode⟩ := Value.exists_of_lexemes value
      (fun t ht => hshape t (List.mem_cons_of_mem mark ht)) hinner us ls
      (by simpa [Node.typeLexemes] using hus)
    refine ⟨.quoted u hkind w, rest, rfl, hrest, Nat.succ_le_succ hdepth, Value.erase_node_eq ?_⟩
    exact congrArg Kind.quoted hnode
  | .list opening hopening items closing hclosing, hshape, hquotes, ts, ls, h => by
    obtain ⟨u, us, rfl, hkind, -, hus⟩ := Node.exists_token_of_lexeme h
    obtain ⟨p, vs, rfl, hvs, hdepth, hnodes⟩ := exists_of_lexemes items
      (fun t ht => hshape t (by simp [Value.tokens, ht])) hquotes us ((.closing, ")") :: ls)
      (by simpa using hus)
    obtain ⟨closing', rest, rfl, hclosing', -, hrest⟩ := Node.exists_token_of_lexeme hvs
    refine ⟨.list u hkind p closing' hclosing', rest, by simp [Value.tokens], hrest,
      Nat.succ_le_succ hdepth, Value.erase_node_eq ?_⟩
    simp only [Value.node, Node.list, Kind.erase, Node.eraseAll_eq_map, hnodes]

theorem Typed.exists_of_lexemes : ∀ x : Typed, (∀ t ∈ x.tokens, IsShaped t) →
    (x.node : Node H).quotesString = false →
    ∀ (ts : List Token) (ls : List (TokenKind × String)),
      ts.map lexeme = (x.node : Node H).typedLexemes ++ ls →
      ∃ (y : Typed) (rest : List Token), ts = y.tokens ++ rest ∧ rest.map lexeme = ls ∧
        y.depth ≤ x.depth ∧ (y.node : Node H).erase .ofSpans = x.node.erase .ofSpans
  | .plain value, hshape, hquotes, ts, ls, h => by
    rw [Node.typedLexemes_eq, List.append_assoc] at h
    obtain ⟨w, us, rfl, hus, hdepth, hnode⟩ := Value.exists_of_lexemes value hshape hquotes ts _ h
    exact Typed.exists_of_value hshape hus hdepth hnode
  | .annotated value colon hcolon type, hshape, hquotes, ts, ls, h => by
    rw [Typed.quotesString_node] at hquotes
    rw [Node.typedLexemes_eq, List.append_assoc] at h
    obtain ⟨w, us, rfl, hus, hdepth, hnode⟩ := Value.exists_of_lexemes value
      (fun t ht => hshape t (by simp [Typed.tokens, ht])) hquotes ts _ h
    exact Typed.exists_of_value hshape hus (Nat.le_trans hdepth (Nat.le_max_left _ _)) hnode

theorem exists_of_lexemes : ∀ p : Program, (∀ t ∈ tokens p, IsShaped t) →
    Node.anyQuotesString (nodes p : List (Node H)) = false →
    ∀ (ts : List Token) (ls : List (TokenKind × String)),
      ts.map lexeme = Node.typedLexemesAll (nodes p : List (Node H)) ++ ls →
      ∃ (q : Program) (rest : List Token), ts = tokens q ++ rest ∧ rest.map lexeme = ls ∧
        depth q ≤ depth p ∧
          (nodes q : List (Node H)).map (Node.erase .ofSpans) = (nodes p).map (Node.erase .ofSpans)
  | [], _, _, ts, ls, h => ⟨[], ts, rfl, h, Nat.le_refl 0, rfl⟩
  | x :: xs, hshape, hquotes, ts, ls, h => by
    obtain ⟨hx, hxs⟩ := Bool.or_eq_false_iff.1 hquotes
    rw [nodes, Node.typedLexemesAll, List.append_assoc] at h
    obtain ⟨y, us, rfl, hus, hdepth, hnode⟩ := Typed.exists_of_lexemes x
      (fun t ht => hshape t (by simp [tokens, ht])) hx ts _ h
    obtain ⟨q, rest, rfl, hrest, hdepths, hnodes⟩ := exists_of_lexemes xs
      (fun t ht => hshape t (by simp [tokens, ht])) hxs us ls hus
    refine ⟨y :: q, rest, ?_, hrest, ?_, ?_⟩
    · rw [tokens, List.append_assoc]
    · rw [depth, depth]
      omega
    · rw [nodes, nodes, List.map_cons, List.map_cons, hnode, hnodes]

end

/-! ### Tokens of one's own typed text -/

lemma not_separate_of_lexemes {ts : List Token} {text : String}
    {ls : List (TokenKind × String)} (h : ts.map lexeme = (.colon, text) :: ls) :
    ¬ Separate ts := by
  obtain ⟨t, rest, rfl, ht, -, -⟩ := Node.exists_token_of_lexeme h
  intro hsep
  exact hsep t rfl ht

/-- The tokens of an annotation are told by its lexemes. -/
lemma Value.lexemes_rest_eq {type : Value} (hshape : ∀ t ∈ type.tokens, IsShaped t)
    {rest : List Token} {ls : List (TokenKind × String)}
    (h : (type.tokens ++ rest).map lexeme = (type.node : Node H).withoutTypes.lexemes ++ ls) :
    rest.map lexeme = ls := by
  have hwritten := Value.isWrittenType_withoutTypes (H := H) hshape (Nat.le_refl _)
  obtain ⟨w, rest', heq, hrest', -⟩ := hwritten.writable.isRestored _ ls h
  obtain ⟨-, rfl⟩ := Value.eq_of_tokens_append type w heq
  exact hrest'

/-- An atom by itself is a whole value. -/
lemma Value.tokens_eq_of_atom {v : Value} {t : Token} {rest ts : List Token} (ht : t.kind = .atom)
    (h : v.tokens ++ rest = t :: ts) : rest = ts := by
  obtain ⟨-, hrest⟩ := Value.eq_of_tokens_append v (.atom t ht) h
  exact hrest

mutual

/-- A value that has the lexemes of its typed text quotes no string; or it does, and then the type
of the string stands behind the value. -/
theorem Value.quotesString_or_rest : ∀ v : Value, (∀ t ∈ v.tokens, IsShaped t) →
    ∀ (rest : List Token) (ls : List (TokenKind × String)),
      (v.tokens ++ rest).map lexeme = (v.node : Node H).kind.typedLexemes ++ ls →
      (v.node : Node H).quotesString = false ∧ rest.map lexeme = ls ∨
        rest.map lexeme = (.colon, ":") :: (.atom, "str") :: ls
  | .atom t ht, _, rest, ls, h | .str t ht, _, rest, ls, h
  | .keyword t ht hname, _, rest, ls, h => .inl ⟨rfl, (List.cons.inj h).2⟩
  | .quoted mark hmark value, hshape, rest, ls, h => by
    have hinner : (value.tokens ++ rest).map lexeme =
        (value.node : Node H).kind.typedLexemes ++
          (Node.typeLexemes (value.node : Node H).type? ++ ls) := by
      rw [← List.append_assoc, ← Node.typedLexemes_eq]
      exact (List.cons.inj h).2
    have hvalue := Value.quotesString_or_rest value
      (fun t ht => hshape t (List.mem_cons_of_mem mark ht)) rest _ hinner
    cases hstr : (value.node : Node H).kind.isStr with
    | true =>
      -- the type of the string is still to come
      cases value with
      | str t ht => exact .inr (List.cons.inj hinner).2
      | atom | keyword | quoted | list => cases hstr
    | false =>
      rw [value.type?_node, hstr] at hvalue
      rcases hvalue with ⟨hquotes, hrest⟩ | hrest
      · exact .inl ⟨Bool.or_eq_false_iff.2 ⟨hstr, hquotes⟩, hrest⟩
      · exact .inr hrest
  | .list opening hopening items closing hclosing, hshape, rest, ls, h => by
    have hitems : (tokens items ++ closing :: rest).map lexeme =
        Node.typedLexemesAll (nodes items : List (Node H)) ++ (.closing, ")") :: ls := by
      simpa [Value.tokens, Value.node, Kind.typedLexemes] using (List.cons.inj h).2
    obtain ⟨hquotes, hrest⟩ := quotesString_and_rest items
      (fun t ht => hshape t (by simp [Value.tokens, ht])) _ _ (stops_cons hclosing rest) hitems
    exact .inl ⟨hquotes, (List.cons.inj hrest).2⟩

/-- A program that has the lexemes of its typed texts quotes no string. -/
theorem quotesString_and_rest : ∀ p : Program, (∀ t ∈ tokens p, IsShaped t) →
    ∀ (rest : List Token) (ls : List (TokenKind × String)), Stops rest →
      (tokens p ++ rest).map lexeme = Node.typedLexemesAll (nodes p : List (Node H)) ++ ls →
      Node.anyQuotesString (nodes p : List (Node H)) = false ∧ rest.map lexeme = ls
  | [], _, rest, ls, _, h => ⟨rfl, h⟩
  | .plain value :: xs, hshape, rest, ls, hstops, h => by
    have hsep := separate_of_stops hstops xs
    rw [tokens, nodes, Node.typedLexemesAll, Node.typedLexemes_eq, List.append_assoc,
      List.append_assoc, List.append_assoc] at h
    have hshape' : ∀ t ∈ value.tokens, IsShaped t :=
      fun t ht => hshape t (by simp [tokens, Typed.tokens, ht])
    rcases Value.quotesString_or_rest value hshape' _ _ h with ⟨hquotes, hmore⟩ | hmore
    · rw [Typed.node, value.type?_node] at hmore
      split at hmore
      · exact absurd hsep (not_separate_of_lexemes hmore)
      · obtain ⟨hxs, hrest⟩ := quotesString_and_rest xs
          (fun t ht => hshape t (by simp [tokens, ht])) rest ls hstops hmore
        exact ⟨Bool.or_eq_false_iff.2 ⟨hquotes, hxs⟩, hrest⟩
    · exact absurd hsep (not_separate_of_lexemes hmore)
  | .annotated value colon hcolon type :: xs, hshape, rest, ls, hstops, h => by
    have hsep := separate_of_stops hstops xs
    have htype : ((Typed.annotated value colon hcolon type).node : Node H).type? =
      some type.node.withoutTypes := Typed.type?_annotated value hcolon type
    rw [tokens, nodes, Node.typedLexemesAll, Node.typedLexemes_eq, htype, Typed.tokens,
      List.append_assoc, List.append_assoc, List.append_assoc, List.append_assoc] at h
    have hshape' : ∀ t ∈ value.tokens, IsShaped t :=
      fun t ht => hshape t (by simp [tokens, Typed.tokens, ht])
    rcases Value.quotesString_or_rest value hshape' _ _ h with ⟨hquotes, hmore⟩ | hmore
    · have hmore' := Value.lexemes_rest_eq (H := H)
        (fun t ht => hshape t (by simp [tokens, Typed.tokens, ht])) (List.cons.inj hmore).2
      obtain ⟨hxs, hrest⟩ := quotesString_and_rest xs
        (fun t ht => hshape t (by simp [tokens, ht])) rest ls hstops hmore'
      have hx := (Typed.quotesString_node (.annotated value colon hcolon type)).trans hquotes
      exact ⟨Bool.or_eq_false_iff.2 ⟨hx, hxs⟩, hrest⟩
    · -- the annotation is `str`, and another one would have to follow it
      obtain ⟨t, ts, heq, ht, -, hts⟩ := Node.exists_token_of_lexeme (List.cons.inj hmore).2
      obtain rfl := Value.tokens_eq_of_atom ht heq
      exact absurd hsep (not_separate_of_lexemes hts)

end

end Grammar

/-! ### Printing with types and reading back -/

/-- The typed texts of a program, on a line each, are cut into the lexemes of the nodes. -/
lemma exists_lex_typed {p : Grammar.Program} (hshape : ∀ t ∈ Grammar.tokens p, IsShaped t) :
    ∃ ts, lex ("\n".intercalate ((Grammar.nodes p : List (Node H)).map Node.typed)) = .ok ts ∧
      ts.map lexeme = Node.typedLexemesAll (Grammar.nodes p : List (Node H)) := by
  have hnodes := Grammar.isLexed (H := H) p hshape
  have hlexes := Node.lexes_intercalate_of Node.typed Node.typedLexemes '\n' rfl Token.ends_nil
    Lexes.nil (Grammar.nodes p) (fun n hn => (hnodes n hn).1) fun n hn => (hnodes n hn).2
  obtain ⟨ts, hts, hlexemes⟩ := hlexes 0
  rw [List.append_nil] at hts hlexemes
  exact ⟨ts, hts, hlexemes.trans (Node.typedLexemesAll_eq_flatMap _).symm⟩

lemma isShaped_of_lex {source : String} {ts : List Token} (h : lex source = .ok ts) :
    ∀ t ∈ ts, IsShaped t :=
  Token.isShaped_of_scanFrom 0 source.toList h

/-- What reads back as the same nodes has the same typed texts, and so quotes no string. -/
lemma anyQuotesString_of_read_typed {forms forms' : List (Node H)}
    (h : read ("\n".intercalate (forms.map Node.typed)) = .ok forms')
    (hforms : forms'.map (Node.erase .ofSpans) = forms.map (Node.erase .ofSpans)) :
    Node.anyQuotesString forms = false := by
  have htexts : forms'.map Node.typed = forms.map Node.typed := by
    have htyped (ns : List (Node H)) :
        (ns.map (Node.erase .ofSpans)).map Node.typed = ns.map Node.typed := by
      rw [List.map_map]
      exact List.map_congr_left fun n _ => Node.print_erase .ofSpans (.inr rfl) n
    rw [← htyped, hforms, htyped]
  obtain ⟨tokens, hlex, hread⟩ := Except.exists_of_bind_eq_ok h
  obtain ⟨p, rfl, -, rfl⟩ := readTokens_eq_ok_iff.1 hread
  have hshape := isShaped_of_lex hlex
  obtain ⟨ts, hts, hlexemes⟩ := exists_lex_typed (H := H) hshape
  rw [htexts, hlex] at hts
  obtain rfl := Except.ok.inj hts
  obtain ⟨hquotes, -⟩ := Grammar.quotesString_and_rest (H := H) p hshape [] [] Grammar.stops_nil
    (by simpa using hlexemes)
  rw [← Node.anyQuotesString_eraseAll .ofSpans, Node.eraseAll_eq_map] at hquotes ⊢
  rwa [← hforms]

/-- **What is printed with types reads back, unless it quotes a string.**  The typed texts of the
forms of a source, on a line each, are read again as the same forms up to spans, types included, if
and only if no string stands directly behind a quotation mark in the forms. -/
theorem exists_read_typed_eq_ok_iff {source : String} {forms : List (Node H)}
    (h : read source = .ok forms) :
    (∃ forms', read ("\n".intercalate (forms.map Node.typed)) = .ok forms' ∧
      forms'.map (Node.erase .ofSpans) = forms.map (Node.erase .ofSpans)) ↔
        ∀ n ∈ forms, n.quotesString = false := by
  rw [← Node.anyQuotesString_eq_false_iff]
  constructor
  · rintro ⟨forms', hread, hforms⟩
    exact anyQuotesString_of_read_typed hread hforms
  · intro hquotes
    obtain ⟨tokens, hlex, hread⟩ := Except.exists_of_bind_eq_ok h
    obtain ⟨p, rfl, hdepth, rfl⟩ := readTokens_eq_ok_iff.1 hread
    have hshape := isShaped_of_lex hlex
    obtain ⟨ts, hts, hlexemes⟩ := exists_lex_typed (H := H) hshape
    obtain ⟨q, rest, rfl, hrest, hdepth', hnodes⟩ := Grammar.exists_of_lexemes (H := H) p hshape
      hquotes ts [] (by simpa using hlexemes)
    obtain rfl := List.map_eq_nil_iff.1 hrest
    rw [List.append_nil] at hts
    refine ⟨Grammar.nodes q, ?_, hnodes⟩
    rw [read, hts]
    exact readTokens_eq_ok_iff.2 ⟨q, rfl, Nat.le_trans hdepth' hdepth, rfl⟩

/-- Strings in a quoted list, types of quotations and of strings, and a string in a type. -/
theorem exists_read_typed_of_quotedList :
    ∃ forms : List (Node Empty), read "'(\"a\" b: 'c): t\n\"d\": (e: f \"g\")" = .ok forms ∧
      ∃ forms', read ("\n".intercalate (forms.map Node.typed)) = .ok forms' ∧
        forms'.map (Node.erase .ofSpans) = forms.map (Node.erase .ofSpans) := by
  obtain ⟨forms, hforms, hquotes⟩ : ∃ forms : List (Node Empty),
      read "'(\"a\" b: 'c): t\n\"d\": (e: f \"g\")" = .ok forms ∧
        Node.anyQuotesString forms = false := ⟨_, by cbv, by cbv⟩
  exact ⟨forms, hforms,
    (exists_read_typed_eq_ok_iff hforms).2 (Node.anyQuotesString_eq_false_iff.1 hquotes)⟩

/-- The typed text `'"x": str` of `'"x"` is read as a quotation of type `str`. -/
theorem not_exists_read_typed_of_quotedString :
    ∃ forms : List (Node Empty), read "'\"x\"" = .ok forms ∧
      ¬ ∃ forms', read ("\n".intercalate (forms.map Node.typed)) = .ok forms' ∧
        forms'.map (Node.erase .ofSpans) = forms.map (Node.erase .ofSpans) := by
  let text : Node Empty := ⟨.str "x", some ⟨1, 4⟩, some (.atom "str" none)⟩
  have hread : read "'\"x\"" = .ok [⟨.quoted text, some ⟨0, 4⟩, none⟩] := by cbv
  have hread' : read ("\n".intercalate
      ([⟨.quoted text, some ⟨0, 4⟩, none⟩].map Node.typed)) =
        .ok [⟨.quoted text, some ⟨0, 4⟩, some (.atom "str" (some ⟨6, 9⟩))⟩] := by cbv
  refine ⟨_, hread, ?_⟩
  rintro ⟨forms', hforms', heq⟩
  obtain rfl := Except.ok.inj (hread'.symm.trans hforms')
  have htype := congrArg (List.map Node.type?) heq
  simp [Node.eraseType, Erasure.ofSpans] at htype

end TypedLisp
