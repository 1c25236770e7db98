import Mathlib
import TypedLisp.Proofs.Erasure.Node
import TypedLisp.Proofs.Reading.Derivation

/-!
# Reading what is printed

The plain texts of the forms of a source, one to a line, are a source of the same forms up to spans
and types.  The forms of a source are writable: their names have the characters of names, nothing
but lists and quotations is in them, and they are not nested too deep.  The text of a writable node
is cut into the lexemes of the node, whatever follows that does not go on with a name; and tokens
with these lexemes have a derivation that stands for the node again.
-/

namespace TypedLisp

variable {H : Type}

open Token (IsName IsAtomName Ends IsShaped Lexes)

/-- A node that source code stands for, with values not more than `d` deep in each other. -/
inductive Node.Writable : Nat → Node H → Prop
  | atom {d name span type} (hname : IsAtomName name.toList) :
    Writable (d + 1) ⟨.atom name, span, type⟩
  | str {d text span type} : Writable (d + 1) ⟨.str text, span, type⟩
  | keyword {d name span type} (hne : name ≠ "") (hname : IsName name.toList) :
    Writable (d + 1) ⟨.keyword name, span, type⟩
  | quoted {d inner span type} (hinner : Writable d inner) :
    Writable (d + 1) ⟨.quoted inner, span, type⟩
  | list {d items span type} (hitems : ∀ n ∈ items, Writable d n) :
    Writable (d + 1) ⟨.list items, span, type⟩

lemma Node.Writable.withType {d : Nat} {n : Node H} (h : n.Writable d) (type : Node H) :
    (n.withType type).Writable d := by
  cases h with
  | atom hname => exact .atom hname
  | str => exact .str
  | keyword hne hname => exact .keyword hne hname
  | quoted hinner => exact .quoted hinner
  | list hitems => exact .list hitems

/-! ### The forms of a source -/

namespace Grammar

mutual

theorem Value.writable_node {d : Nat} : ∀ v : Value, (∀ t ∈ v.tokens, IsShaped t) →
    v.depth ≤ d → (v.node : Node H).Writable d
  | .atom t ht, hshape, hd => by
    obtain ⟨d, rfl⟩ := Nat.exists_eq_add_of_le' hd
    exact .atom ((hshape t (by simp [Value.tokens])).1 ht)
  | .str t ht, hshape, hd => by
    obtain ⟨d, rfl⟩ := Nat.exists_eq_add_of_le' hd
    exact .str
  | .keyword t ht hname, hshape, hd => by
    obtain ⟨d, rfl⟩ := Nat.exists_eq_add_of_le' hd
    obtain ⟨name, htext, hall⟩ := (hshape t (by simp [Value.tokens])).2 ht
    refine .keyword hname ?_
    simpa [htext] using hall
  | .quoted mark hmark value, hshape, hd => by
    obtain ⟨d, rfl⟩ := Nat.exists_eq_add_of_le' hd
    exact .quoted (Value.writable_node value
      (fun t ht => hshape t (List.mem_cons_of_mem _ ht)) (Nat.le_add_left _ d))
  | .list opening hopening items closing hclosing, hshape, hd => by
    obtain ⟨d, rfl⟩ := Nat.exists_eq_add_of_le' hd
    exact .list (writable_nodes items (fun t ht => hshape t (by simp [Value.tokens, ht]))
      (Nat.le_add_left _ d))

theorem Typed.writable_node {d : Nat} : ∀ x : Typed, (∀ t ∈ x.tokens, IsShaped t) →
    x.depth ≤ d → (x.node : Node H).Writable d
  | .plain value, hshape, hd => Value.writable_node value hshape hd
  | .annotated value colon hcolon type, hshape, hd =>
    (Value.writable_node value (fun t ht => hshape t (by simp [Typed.tokens, ht]))
      (Nat.le_trans (Nat.le_max_left _ _) hd)).withType _

theorem writable_nodes {d : Nat} : ∀ p : Program, (∀ t ∈ tokens p, IsShaped t) → depth p ≤ d →
    ∀ n ∈ (nodes p : List (Node H)), n.Writable d
  | [], _, _ => by simp [nodes]
  | x :: xs, hshape, hd => by
    rw [nodes, List.forall_mem_cons]
    rw [depth] at hd
    exact ⟨Typed.writable_node x (fun t ht => hshape t (by simp [tokens, ht])) (by omega),
      writable_nodes xs (fun t ht => hshape t (by simp [tokens, ht])) (by omega)⟩

end

end Grammar

/-! ### Strings -/

lemma escapeChar_of_ne {c : Char} (hslash : c ≠ '\\') (hquote : c ≠ '"') : escapeChar c = [c] := by
  simp [escapeChar, hslash, hquote]

lemma stringLength_flatMap_escapeChar (cs rest : List Char) :
    Token.stringLength (cs.flatMap escapeChar ++ '"' :: rest) =
      (cs.flatMap escapeChar).length + 1 := by
  induction cs with
  | nil => rfl
  | cons c cs ih =>
    rw [List.flatMap_cons, List.append_assoc, List.length_append, Nat.add_assoc, ← ih]
    by_cases hslash : c = '\\'
    · subst hslash; rfl
    · by_cases hquote : c = '"'
      · subst hquote; rfl
      · rw [escapeChar_of_ne hslash hquote, List.singleton_append, Token.stringLength]
        · rfl
        all_goals simp [hslash, hquote]

lemma unescape_flatMap_escapeChar (cs rest : List Char) :
    unescape (cs.flatMap escapeChar ++ '"' :: rest) = cs := by
  induction cs with
  | nil => rfl
  | cons c cs ih =>
    rw [List.flatMap_cons, List.append_assoc]
    by_cases hslash : c = '\\'
    · subst hslash
      exact congrArg (List.cons '\\') ih
    · by_cases hquote : c = '"'
      · subst hquote
        exact congrArg (List.cons '"') ih
      · rw [escapeChar_of_ne hslash hquote, List.singleton_append, unescape, ih]
        all_goals simp [hslash, hquote]

lemma toList_quoteText (text : String) :
    (quoteText text).toList = '"' :: (text.toList.flatMap escapeChar ++ ['"']) := by
  simp [quoteText]

lemma lexes_quoteText (text : String) {rest : List Char} {ls : List (TokenKind × String)}
    (h : Lexes rest ls) :
    Lexes ((quoteText text).toList ++ rest) ((.str, quoteText text) :: ls) := by
  have hscan : Token.scan '"' (text.toList.flatMap escapeChar ++ ['"'] ++ rest) =
      some (some .str, (text.toList.flatMap escapeChar ++ ['"']).length) := by
    rw [List.append_assoc, List.singleton_append, List.length_append, List.length_singleton,
      ← stringLength_flatMap_escapeChar]
    rfl
  have htext : String.ofList ('"' :: (text.toList.flatMap escapeChar ++ ['"'])) =
      quoteText text := by
    rw [← toList_quoteText, String.ofList_toList]
  have := Lexes.append _ hscan h
  rwa [htext, ← toList_quoteText] at this

/-! ### The lexemes of a node -/

namespace Node

mutual

/-- The lexemes that the plain text of a node is cut into. -/
def lexemes : Node H → List (TokenKind × String)
  | ⟨.atom name, _, _⟩ => [(.atom, name)]
  | ⟨.str text, _, _⟩ => [(.str, quoteText text)]
  | ⟨.keyword name, _, _⟩ => [(.keyword, "." ++ name)]
  | ⟨.quoted inner, _, _⟩ => (.quote, "'") :: lexemes inner
  | ⟨.list items, _, _⟩ => (.opening, "(") :: (lexemesAll items ++ [(.closing, ")")])
  | _ => []

/-- The lexemes that the plain texts of nodes are cut into. -/
def lexemesAll : List (Node H) → List (TokenKind × String)
  | [] => []
  | n :: ns => lexemes n ++ lexemesAll ns

end

lemma printType_false (type : Option (Node H)) : printType false type = "" := by
  cases type <;> simp [printType]

lemma printItems_eq_intercalate (types : Bool) (ns : List (Node H)) :
    printItems types ns = " ".intercalate (ns.map (print types)) := by
  induction ns with
  | nil => rfl
  | cons n ns ih =>
    cases ns with
    | nil => simp [printItems]
    | cons m ns =>
      rw [printItems, ih, List.map_cons, List.map_cons, List.map_cons,
        String.intercalate_cons_cons]

/-- The text of a writable node does not start with a blank. -/
lemma Writable.not_isSpace_head_print {d : Nat} {n : Node H} (h : n.Writable d) (types : Bool)
    (rest : List Char) : ∀ c ∈ ((n.print types).toList ++ rest).head?, ¬ Token.isSpace c := by
  cases h with
  | atom hname =>
    obtain ⟨hne, hall, -⟩ := hname
    rw [print, String.toList_append, List.append_assoc]
    intro c hc
    rw [List.head?_append_of_ne_nil _ hne] at hc
    have := hall c (List.mem_of_mem_head? hc)
    simp_all [Token.isAtomChar]
  | str | keyword | quoted | list => simp [print, quoteText, Token.isSpace]

lemma Writable.not_isSpace_head {d : Nat} {n : Node H} (h : n.Writable d) (rest : List Char) :
    ∀ c ∈ (n.plain.toList ++ rest).head?, ¬ Token.isSpace c :=
  h.not_isSpace_head_print false rest

/-- Texts with one blank between two of them are cut into their lexemes, if each of them is. -/
lemma lexes_intercalate_of {α : Type} (text : α → String)
    (lexemesOf : α → List (TokenKind × String))
    (blank : Char) (hblank : Token.isSpace blank) {rest : List Char}
    {ls : List (TokenKind × String)} (hrest : Ends rest) (h : Lexes rest ls) :
    ∀ xs : List α,
      (∀ x ∈ xs, ∀ rest, ∀ c ∈ ((text x).toList ++ rest).head?, ¬ Token.isSpace c) →
      (∀ x ∈ xs, ∀ rest ls, Ends rest → Lexes rest ls →
        Lexes ((text x).toList ++ rest) (lexemesOf x ++ ls)) →
      Lexes (((String.singleton blank).intercalate (xs.map text)).toList ++ rest)
        (xs.flatMap lexemesOf ++ ls)
  | [], _, _ => h
  | [x], _, hlexes => by simpa using hlexes x (by simp) rest ls hrest h
  | x :: y :: xs, hhead, hlexes => by
    have hmore := lexes_intercalate_of text lexemesOf blank hblank hrest h (y :: xs)
      (fun z hz => hhead z (by simp [hz])) (fun z hz => hlexes z (by simp [hz]))
    have hstart : ∀ c ∈ (((String.singleton blank).intercalate
        ((y :: xs).map text)).toList ++ rest).head?, ¬ Token.isSpace c := by
      cases xs with
      | nil => simpa using hhead y (by simp) rest
      | cons z xs =>
        rw [List.map_cons, List.map_cons, String.intercalate_cons_cons, String.append_assoc,
          String.toList_append, List.append_assoc]
        exact hhead y (by simp) _
    have hends : Ends (blank :: (((String.singleton blank).intercalate
        ((y :: xs).map text)).toList ++ rest)) :=
      Token.ends_cons (by simp [Token.isAtomChar, hblank])
    have := hlexes x (by simp) _ _ hends (Lexes.blank hblank hstart hmore)
    rw [List.map_cons, List.map_cons, String.intercalate_cons_cons]
    simpa using this

lemma lexemesAll_eq_flatMap (ns : List (Node H)) : lexemesAll ns = ns.flatMap lexemes := by
  induction ns with
  | nil => rfl
  | cons n ns ih => rw [lexemesAll, ih, List.flatMap_cons]

/-- Nodes with one blank between two of them are cut into their lexemes, if each of them is. -/
lemma lexes_intercalate (blank : Char) (hblank : Token.isSpace blank) {rest : List Char}
    {ls : List (TokenKind × String)} (hrest : Ends rest) (h : Lexes rest ls) (ns : List (Node H))
    (hhead : ∀ n ∈ ns, ∀ rest, ∀ c ∈ (n.plain.toList ++ rest).head?, ¬ Token.isSpace c)
    (hlexes : ∀ n ∈ ns, ∀ rest ls, Ends rest → Lexes rest ls →
      Lexes (n.plain.toList ++ rest) (n.lexemes ++ ls)) :
    Lexes (((String.singleton blank).intercalate (ns.map plain)).toList ++ rest)
      (lexemesAll ns ++ ls) := by
  rw [lexemesAll_eq_flatMap]
  exact lexes_intercalate_of plain lexemes blank hblank hrest h ns hhead hlexes

/-- The text of a writable node is cut into the lexemes of the node, before anything that does not
go on with a name. -/
theorem Writable.lexes {d : Nat} {n : Node H} (hn : n.Writable d) :
    ∀ rest ls, Ends rest → Lexes rest ls → Lexes (n.plain.toList ++ rest) (n.lexemes ++ ls) := by
  induction hn with
  | atom hname =>
    intro rest ls hrest h
    simpa [plain, print, printType_false, lexemes] using Lexes.atom hname hrest h
  | str =>
    intro rest ls hrest h
    simpa [plain, print, printType_false, lexemes] using lexes_quoteText _ h
  | keyword hne hname =>
    intro rest ls hrest h
    simpa [plain, print, printType_false, lexemes] using Lexes.keyword hname hrest h
  | quoted hinner ih =>
    intro rest ls hrest h
    simpa [plain, print, printType_false, lexemes] using (ih rest ls hrest h).quote
  | list hitems ih =>
    intro rest ls hrest h
    have hclosing : Ends (')' :: rest) := Token.ends_cons (by decide)
    have hin := lexes_intercalate ' ' rfl hclosing h.closing _
      (fun n hn => (hitems n hn).not_isSpace_head) ih
    have hplain : (plain : Node H → String) = print false := rfl
    rw [hplain] at hin ⊢
    simpa [print, printType_false, lexemes, printItems_eq_intercalate] using hin.opening

end Node

/-! ### Derivations from lexemes -/

namespace Node

open Token (lexeme)

/-- Tokens that start with the lexemes of a node start with those of a value, not more than `d`
deep, that stands for the node up to spans and types. -/
def IsRestored (d : Nat) (n : Node H) : Prop :=
  ∀ (ts : List Token) (ls : List (TokenKind × String)), ts.map lexeme = n.lexemes ++ ls →
    ∃ (v : Grammar.Value) (rest : List Token), ts = v.tokens ++ rest ∧ rest.map lexeme = ls ∧
      v.depth ≤ d ∧ (v.node : Node H).erase .ofBoth = n.erase .ofBoth

lemma exists_token_of_lexeme {ts : List Token} {l : TokenKind × String}
    {ls : List (TokenKind × String)} (h : ts.map lexeme = l :: ls) :
    ∃ t rest, ts = t :: rest ∧ t.kind = l.1 ∧ t.text = l.2 ∧ rest.map lexeme = ls := by
  obtain ⟨t, rest, rfl, rfl, hrest⟩ := List.map_eq_cons_iff.1 h
  exact ⟨t, rest, rfl, rfl, rfl, hrest⟩

/-- The token of an escaped text stands for the text. -/
lemma kind_node_str {t : Token} {text : String} (ht : t.kind = .str)
    (htext : t.text = quoteText text) :
    ((Grammar.Value.str t ht).node : Node H).kind = .str text := by
  have hbody : t.text.toList.drop 1 = text.toList.flatMap escapeChar ++ ['"'] := by
    rw [htext, toList_quoteText, List.drop_one, List.tail_cons]
  rw [Grammar.Value.node, hbody, unescape_flatMap_escapeChar, String.ofList_toList]
  rfl

/-- The nodes of a sequence are restored one after the other. -/
lemma exists_program_of_isRestored {d : Nat} : ∀ ns : List (Node H), (∀ n ∈ ns, n.IsRestored d) →
    ∀ (ts : List Token) (ls : List (TokenKind × String)), ts.map lexeme = lexemesAll ns ++ ls →
      ∃ (p : Grammar.Program) (rest : List Token), ts = Grammar.tokens p ++ rest ∧
        rest.map lexeme = ls ∧ Grammar.depth p ≤ d ∧
          (Grammar.nodes p).map (erase .ofBoth) = ns.map (erase .ofBoth)
  | [], _, ts, ls, h => ⟨[], ts, rfl, h, Nat.zero_le d, rfl⟩
  | n :: ns, hns, ts, ls, h => by
    rw [lexemesAll, List.append_assoc] at h
    obtain ⟨v, us, rfl, hus, hdepth, hnode⟩ := hns n (by simp) ts _ h
    obtain ⟨p, rest, rfl, hrest, hdepths, hnodes⟩ :=
      exists_program_of_isRestored ns (fun n hn => hns n (by simp [hn])) us ls hus
    refine ⟨.plain v :: p, rest, ?_, hrest, Nat.max_le.2 ⟨hdepth, hdepths⟩, ?_⟩
    · rw [Grammar.tokens, List.append_assoc]
      rfl
    · rw [Grammar.nodes, List.map_cons, List.map_cons, hnodes, ← hnode]
      rfl

theorem Writable.isRestored {d : Nat} {n : Node H} (hn : n.Writable d) : n.IsRestored d := by
  induction hn with
  | @atom d name span type hname =>
    intro ts ls h
    obtain ⟨t, rest, rfl, hkind, rfl, hrest⟩ := exists_token_of_lexeme h
    exact ⟨.atom t hkind, rest, rfl, hrest, Nat.le_add_left 1 d, by simp only [erase_ofBoth]; rfl⟩
  | @str d text span type =>
    intro ts ls h
    obtain ⟨t, rest, rfl, hkind, htext, hrest⟩ := exists_token_of_lexeme h
    refine ⟨.str t hkind, rest, rfl, hrest, Nat.le_add_left 1 d, ?_⟩
    rw [erase_ofBoth, erase_ofBoth, kind_node_str hkind htext]
  | @keyword d name span type hne hname =>
    intro ts ls h
    obtain ⟨t, rest, rfl, hkind, htext, hrest⟩ := exists_token_of_lexeme h
    obtain rfl : Reader.keywordName t = name := by simp [Reader.keywordName, htext]
    exact ⟨.keyword t hkind hne, rest, rfl, hrest, Nat.le_add_left 1 d, by
      simp only [erase_ofBoth]; rfl⟩
  | quoted hinner ih =>
    intro ts ls h
    obtain ⟨t, us, rfl, hkind, -, hus⟩ := exists_token_of_lexeme h
    obtain ⟨v, rest, rfl, hrest, hdepth, hnode⟩ := ih us ls hus
    refine ⟨.quoted t hkind v, rest, rfl, hrest, Nat.add_le_add_right hdepth 1, ?_⟩
    rw [Grammar.Value.node, erase_quoted, hnode, erase_ofBoth ⟨_, _, _⟩]
    rfl
  | list hitems ih =>
    intro ts ls h
    obtain ⟨t, us, rfl, hkind, -, hus⟩ := exists_token_of_lexeme h
    obtain ⟨p, vs, rfl, hvs, hdepth, hnodes⟩ :=
      exists_program_of_isRestored _ ih us ((.closing, ")") :: ls) (by simpa using hus)
    obtain ⟨closing, rest, rfl, hclosing, -, hrest⟩ := exists_token_of_lexeme hvs
    refine ⟨.list t hkind p closing hclosing, rest, by simp [Grammar.Value.tokens], hrest,
      Nat.add_le_add_right hdepth 1, ?_⟩
    rw [Grammar.Value.node, erase_list, hnodes, erase_ofBoth ⟨_, _, _⟩, Kind.erase, eraseAll_eq_map]
    rfl

end Node

/-! ### Printing and reading back -/

/-- **What is printed reads back.**  The plain texts of the forms of a source, on a line each, are
read again, as the same forms up to spans and types. -/
theorem exists_read_plain_eq_ok {source : String} {forms : List (Node H)}
    (h : read source = .ok forms) :
    ∃ forms', read ("\n".intercalate (forms.map Node.plain)) = .ok forms' ∧
      forms'.map (Node.erase .ofBoth) = forms.map (Node.erase .ofBoth) := by
  obtain ⟨tokens, hlex, hforms⟩ := Except.exists_of_bind_eq_ok h
  obtain ⟨p, rfl, hdepth, rfl⟩ := readTokens_eq_ok_iff.1 hforms
  have hwritable := Grammar.writable_nodes (H := H) p (Token.isShaped_of_scanFrom _ _ hlex) hdepth
  have hlexes := Node.lexes_intercalate '\n' rfl Token.ends_nil Lexes.nil
    (Grammar.nodes p) (fun n hn => (hwritable n hn).not_isSpace_head)
    fun n hn => (hwritable n hn).lexes
  obtain ⟨ts, hts, hlexemes⟩ := hlexes 0
  obtain ⟨p', rest, rfl, hrest, hdepth', hnodes⟩ := Node.exists_program_of_isRestored
    (Grammar.nodes p) (fun n hn => (hwritable n hn).isRestored) ts [] hlexemes
  obtain rfl := List.map_eq_nil_iff.1 hrest
  rw [List.append_nil, List.append_nil] at hts
  have hlex' : lex ("\n".intercalate ((Grammar.nodes p : List (Node H)).map Node.plain)) =
      .ok (Grammar.tokens p') := hts
  refine ⟨Grammar.nodes p', ?_, hnodes⟩
  rw [read, hlex']
  exact readTokens_eq_ok_iff.2 ⟨p', rfl, hdepth', rfl⟩

/-- Comment signs inside of names, a type, and a string that only the end of the source ends. -/
theorem exists_read_plain_of_unclosed_string :
    ∃ forms : List (Node Empty), read "('a;b .;c) : t \"x\\\"é" = .ok forms ∧
      forms.map (Node.erase .ofBoth) =
        [.list [.quoted (.atom "a;b" none) none, .keyword ";c" none] none, .str "x\"é" none] ∧
      "\n".intercalate (forms.map Node.plain) = "('a;b .;c)\n\"x\\\"é\"" ∧
      ∃ forms', read ("\n".intercalate (forms.map Node.plain)) = .ok forms' ∧
        forms'.map (Node.erase .ofBoth) = forms.map (Node.erase .ofBoth) := by
  obtain ⟨forms, hforms, hnodes, htext⟩ : ∃ forms : List (Node Empty),
      read "('a;b .;c) : t \"x\\\"é" = .ok forms ∧
      forms.map (Node.erase .ofBoth) =
        [.list [.quoted (.atom "a;b" none) none, .keyword ";c" none] none, .str "x\"é" none] ∧
      "\n".intercalate (forms.map Node.plain) = "('a;b .;c)\n\"x\\\"é\"" :=
    ⟨_, by cbv, by cbv, by cbv⟩
  exact ⟨forms, hforms, hnodes, htext, exists_read_plain_eq_ok hforms⟩

end TypedLisp
