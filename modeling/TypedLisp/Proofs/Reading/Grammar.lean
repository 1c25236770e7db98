import Mathlib.Tactic.Lemma
import TypedLisp.Reader.Basic

/-!
# The grammar of programs

    program := typed*        typed := value [":" value]
    value   := "(" typed* ")" | "'" value | atom | string | keyword

A derivation is a tree with the tokens at its leaves; the kinds of the tokens are part of it, so
that every tree is the derivation of its tokens.  This file says how deep values lie inside each
other in a derivation and which nodes it stands for.  A sequence of tokens has one derivation at
most.
-/

namespace TypedLisp
namespace Grammar

mutual

/-- The derivation of a value. -/
inductive Value where
  /-- An atom by itself. -/
  | atom (t : Token) (ht : t.kind = .atom)
  /-- A string by itself. -/
  | str (t : Token) (ht : t.kind = .str)
  /-- A keyword that has a name. -/
  | keyword (t : Token) (ht : t.kind = .keyword) (hname : Reader.keywordName t ≠ "")
  /-- A value after a quotation mark. -/
  | quoted (mark : Token) (hmark : mark.kind = .quote) (value : Value)
  /-- Typed values between parentheses. -/
  | list (opening : Token) (hopening : opening.kind = .opening) (items : List Typed)
    (closing : Token) (hclosing : closing.kind = .closing)

/-- The derivation of a typed value. -/
inductive Typed where
  /-- A value without a type. -/
  | plain (value : Value)
  /-- A value, a colon and the value that is its type. -/
  | annotated (value : Value) (colon : Token) (hcolon : colon.kind = .colon) (type : Value)

end

/-- The derivation of a program. -/
abbrev Program := List Typed

/-! ### Tokens -/

mutual

/-- The tokens of a value. -/
def Value.tokens : Value → List Token
  | .atom t _ | .str t _ | .keyword t _ _ => [t]
  | .quoted mark _ value => mark :: value.tokens
  | .list opening _ items closing _ => opening :: (tokens items ++ [closing])

/-- The tokens of a typed value. -/
def Typed.tokens : Typed → List Token
  | .plain value => value.tokens
  | .annotated value colon _ type => value.tokens ++ colon :: type.tokens

/-- The tokens of a program, or of the items of a list. -/
def tokens : Program → List Token
  | [] => []
  | x :: xs => x.tokens ++ tokens xs

end

/-! ### Nesting -/

mutual

/-- How many values lie inside each other in a value at most, the value itself counted. -/
def Value.depth : Value → Nat
  | .atom _ _ | .str _ _ | .keyword _ _ _ => 1
  | .quoted _ _ value => value.depth + 1
  | .list _ _ items _ _ => depth items + 1

/-- How many values lie inside each other in a typed value; a type counts at the level of the
value that has it. -/
def Typed.depth : Typed → Nat
  | .plain value => value.depth
  | .annotated value _ _ type => max value.depth type.depth

/-- How many values lie inside each other in a program. -/
def depth : Program → Nat
  | [] => 0
  | x :: xs => max x.depth (depth xs)

end

/-! ### Nodes -/

/-- The first token of a value. -/
def Value.first : Value → Token
  | .atom t _ | .str t _ | .keyword t _ _ => t
  | .quoted mark _ _ => mark
  | .list opening _ _ _ _ => opening

/-- The byte after the last token of a value. -/
def Value.stop : Value → Nat
  | .atom t _ | .str t _ | .keyword t _ _ => t.span.stop
  | .quoted _ _ value => value.stop
  | .list _ _ _ closing _ => closing.span.stop

variable {H : Type}

mutual

/-- The node of a value.  Atoms and keywords carry the texts of their tokens, and a string the text
that its token stands for, with the type `str`. -/
def Value.node : Value → Node H
  | .atom t _ => .atom t.text (some t.span)
  | .str t _ =>
    (Node.str (String.ofList (unescape (t.text.toList.drop 1))) (some t.span)).withType
      (.atom "str" none)
  | .keyword t _ _ => .keyword (String.ofList (t.text.toList.drop 1)) (some t.span)
  | .quoted mark _ value => .quoted value.node (some ⟨mark.span.start, value.stop⟩)
  | .list opening _ items closing _ =>
    .list (nodes items) (some ⟨opening.span.start, closing.span.stop⟩)

/-- The node of a typed value: its type is that of the annotation, without the annotations inside
of it. -/
def Typed.node : Typed → Node H
  | .plain value => value.node
  | .annotated value _ _ type => value.node.withType type.node.withoutTypes

/-- The nodes of a program, one for each of its typed values. -/
def nodes : Program → List (Node H)
  | [] => []
  | x :: xs => x.node :: nodes xs

end

/-- The span of a value goes from its first token to its last one. -/
lemma Value.span_node (v : Value) :
    (v.node : Node H).span = some ⟨v.first.span.start, v.stop⟩ := by
  cases v with
  | atom t ht | str t ht | keyword t ht hname => rfl
  | quoted mark hmark value => rfl
  | list opening hopening items closing hclosing => rfl

lemma Value.isNull_node (v : Value) : (v.node : Node H).isNull = false := by
  cases v <;> rfl

/-- A typed value without its annotation. -/
def Typed.value : Typed → Value
  | .plain value => value
  | .annotated value _ _ _ => value

lemma Typed.tokens_value_isPrefix (x : Typed) : x.value.tokens <+: x.tokens := by
  cases x with
  | plain value => exact List.prefix_rfl
  | annotated value colon hcolon type => exact List.prefix_append _ _

lemma Typed.depth_value_le (x : Typed) : x.value.depth ≤ x.depth := by
  cases x with
  | plain value => exact Nat.le_refl _
  | annotated value colon hcolon type => exact Nat.le_max_left _ _

lemma Typed.kind_node (x : Typed) : (x.node : Node H).kind = x.value.node.kind := by
  cases x <;> rfl

/-! ### One derivation at most

A value ends where it ends whatever comes after it, and the items of a list end before the first
token that cannot start one. -/

/-- The kinds of the tokens that a value starts with. -/
def Starts (k : TokenKind) : Prop := k ≠ .colon ∧ k ≠ .closing

/-- What comes after a whole sequence of typed values: nothing, or a closing parenthesis. -/
def Stops (rest : List Token) : Prop := ∀ t ∈ rest.head?, t.kind = .closing

/-- What comes after a typed value does not start with a colon. -/
def Separate (rest : List Token) : Prop := ∀ t ∈ rest.head?, t.kind ≠ .colon

lemma exists_colon_of_not_separate {rest : List Token} (h : ¬ Separate rest) :
    ∃ colon ts, rest = colon :: ts ∧ colon.kind = .colon := by
  cases rest with
  | nil => exact absurd (by simp [Separate]) h
  | cons t ts => exact ⟨t, ts, rfl, by simpa [Separate] using h⟩

lemma stops_nil : Stops [] := by simp [Stops]

lemma stops_cons {t : Token} (h : t.kind = .closing) (rest : List Token) : Stops (t :: rest) := by
  simp [Stops, h]

lemma Value.exists_tokens_eq_cons (v : Value) : ∃ t ts, v.tokens = t :: ts ∧ Starts t.kind := by
  cases v with
  | atom t ht | str t ht | keyword t ht hname => exact ⟨t, [], rfl, by simp [Starts, ht]⟩
  | quoted mark hmark value => exact ⟨mark, value.tokens, rfl, by simp [Starts, hmark]⟩
  | list opening hopening items closing hclosing =>
    exact ⟨opening, _, rfl, by simp [Starts, hopening]⟩

lemma Value.length_tokens_pos (v : Value) : 0 < v.tokens.length := by
  obtain ⟨t, ts, h, -⟩ := v.exists_tokens_eq_cons
  simp [h]

lemma Typed.exists_tokens_eq_cons (x : Typed) : ∃ t ts, x.tokens = t :: ts ∧ Starts t.kind := by
  cases x with
  | plain value => exact value.exists_tokens_eq_cons
  | annotated value colon hcolon type =>
    obtain ⟨t, ts, h, ht⟩ := value.exists_tokens_eq_cons
    exact ⟨t, ts ++ colon :: type.tokens, by simp [Typed.tokens, h], ht⟩

lemma not_stops_of_typed (x : Typed) (rest : List Token) : ¬ Stops (x.tokens ++ rest) := by
  obtain ⟨t, ts, h, ht⟩ := x.exists_tokens_eq_cons
  intro hstops
  exact ht.2 (hstops t (by simp [h]))

/-- Neither an item nor the end of a list starts with a colon. -/
lemma separate_of_stops {rest : List Token} (h : Stops rest) (xs : Program) :
    Separate (tokens xs ++ rest) := by
  intro t ht
  cases xs with
  | nil =>
    have := h t ht
    simp [this]
  | cons x xs =>
    obtain ⟨u, us, hu, hstart⟩ := x.exists_tokens_eq_cons
    obtain rfl : u = t := by simpa [tokens, hu] using ht
    exact hstart.1

/-- The kind of the first token, which is different for each form of values. -/
def Value.firstKind : Value → TokenKind
  | .atom _ _ => .atom
  | .str _ _ => .str
  | .keyword _ _ _ => .keyword
  | .quoted _ _ _ => .quote
  | .list _ _ _ _ _ => .opening

lemma Value.kind_first (v : Value) : v.first.kind = v.firstKind := by
  cases v with
  | atom t ht | str t ht | keyword t ht hname => exact ht
  | quoted mark hmark value => exact hmark
  | list opening hopening items closing hclosing => exact hopening

lemma Value.first_eq_of_tokens_append {v w : Value} {rest rest' : List Token}
    (h : v.tokens ++ rest = w.tokens ++ rest') : v.first = w.first := by
  cases v <;> cases w <;> exact (List.cons.inj h).1

lemma Value.firstKind_eq_of_tokens_append {v w : Value} {rest rest' : List Token}
    (h : v.tokens ++ rest = w.tokens ++ rest') : v.firstKind = w.firstKind := by
  rw [← kind_first, ← kind_first, first_eq_of_tokens_append h]

mutual

theorem Value.eq_of_tokens_append {rest rest' : List Token} : ∀ v w : Value,
    v.tokens ++ rest = w.tokens ++ rest' → v = w ∧ rest = rest'
  | .atom t ht, w, h => by
    have hkind := Value.firstKind_eq_of_tokens_append h
    cases w with
    | atom t' ht' => simpa [Value.tokens] using h
    | str | keyword | quoted | list => cases hkind
  | .str t ht, w, h => by
    have hkind := Value.firstKind_eq_of_tokens_append h
    cases w with
    | str t' ht' => simpa [Value.tokens] using h
    | atom | keyword | quoted | list => cases hkind
  | .keyword t ht hname, w, h => by
    have hkind := Value.firstKind_eq_of_tokens_append h
    cases w with
    | keyword t' ht' hname' => simpa [Value.tokens] using h
    | atom | str | quoted | list => cases hkind
  | .quoted mark hmark value, w, h => by
    have hkind := Value.firstKind_eq_of_tokens_append h
    cases w with
    | quoted mark' hmark' value' =>
      obtain ⟨rfl, hvalue⟩ := List.cons.inj h
      obtain ⟨rfl, hrest⟩ := Value.eq_of_tokens_append value value' hvalue
      exact ⟨rfl, hrest⟩
    | atom | str | keyword | list => cases hkind
  | .list opening hopening items closing hclosing, w, h => by
    have hkind := Value.firstKind_eq_of_tokens_append h
    cases w with
    | list opening' hopening' items' closing' hclosing' =>
      obtain rfl : opening = opening' := Value.first_eq_of_tokens_append h
      have hitems : tokens items ++ closing :: rest = tokens items' ++ closing' :: rest' := by
        simpa [Value.tokens] using h
      obtain ⟨rfl, hrest⟩ := eq_of_tokens_append (stops_cons hclosing rest)
        (stops_cons hclosing' rest') items items' hitems
      obtain ⟨rfl, rfl⟩ := List.cons.inj hrest
      exact ⟨rfl, rfl⟩
    | atom | str | keyword | quoted => cases hkind

theorem Typed.eq_of_tokens_append {rest rest' : List Token} (h : Separate rest)
    (h' : Separate rest') : ∀ x y : Typed,
    x.tokens ++ rest = y.tokens ++ rest' → x = y ∧ rest = rest'
  | .plain value, .plain value', heq => by
    obtain ⟨rfl, hrest⟩ := Value.eq_of_tokens_append value value' heq
    exact ⟨rfl, hrest⟩
  | .plain value, .annotated value' colon' hcolon' type', heq => by
    -- the first value ends before the colon of the second one
    rw [Typed.tokens, Typed.tokens, List.append_assoc] at heq
    obtain ⟨-, rfl⟩ := Value.eq_of_tokens_append value value' heq
    exact absurd hcolon' (h colon' (by simp))
  | .annotated value colon hcolon type, .plain value', heq => by
    rw [Typed.tokens, Typed.tokens, List.append_assoc] at heq
    obtain ⟨-, rfl⟩ := Value.eq_of_tokens_append value value' heq
    exact absurd hcolon (h' colon (by simp))
  | .annotated value colon hcolon type, .annotated value' colon' hcolon' type', heq => by
    rw [Typed.tokens, Typed.tokens, List.append_assoc, List.append_assoc] at heq
    obtain ⟨rfl, htype⟩ := Value.eq_of_tokens_append value value' heq
    obtain ⟨rfl, htype'⟩ := List.cons.inj htype
    obtain ⟨rfl, hrest⟩ := Value.eq_of_tokens_append type type' htype'
    exact ⟨rfl, hrest⟩

theorem eq_of_tokens_append {rest rest' : List Token} (h : Stops rest) (h' : Stops rest') :
    ∀ xs ys : Program, tokens xs ++ rest = tokens ys ++ rest' → xs = ys ∧ rest = rest'
  | [], [], heq => ⟨rfl, heq⟩
  | [], y :: ys, heq => by
    rw [tokens, tokens, List.nil_append, List.append_assoc] at heq
    exact absurd (heq ▸ h) (not_stops_of_typed y _)
  | x :: xs, [], heq => by
    rw [tokens, tokens, List.nil_append, List.append_assoc] at heq
    exact absurd (heq ▸ h') (not_stops_of_typed x _)
  | x :: xs, y :: ys, heq => by
    rw [tokens, tokens, List.append_assoc, List.append_assoc] at heq
    obtain ⟨rfl, hxs⟩ := Typed.eq_of_tokens_append (separate_of_stops h xs)
      (separate_of_stops h' ys) x y heq
    obtain ⟨rfl, hrest⟩ := eq_of_tokens_append h h' xs ys hxs
    exact ⟨rfl, hrest⟩

end

/-- A sequence of tokens has one derivation at most. -/
theorem eq_of_tokens_eq {xs ys : Program} (h : tokens xs = tokens ys) : xs = ys :=
  (eq_of_tokens_append stops_nil stops_nil xs ys (by simpa using h)).1

end Grammar
end TypedLisp
