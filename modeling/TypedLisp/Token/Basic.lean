import TypedLisp.Span

/-!
# Tokens

A source is a sequence of tokens with white space and comments between them.  A token keeps
its text beside its span, so that what follows does not need the source to read it.
-/

namespace TypedLisp

/-- The kinds of tokens. -/
inductive TokenKind where
  /-- An opening parenthesis. -/
  | opening
  /-- A closing parenthesis. -/
  | closing
  /-- A quotation mark `'` before a value. -/
  | quote
  /-- A colon between a value and its type. -/
  | colon
  /-- A bare name. -/
  | atom
  /-- A text between quotation marks. -/
  | str
  /-- A period and the name after it. -/
  | keyword
deriving DecidableEq, Repr

/-- A token. -/
structure Token where
  /-- The kind. -/
  kind : TokenKind
  /-- The characters that the token is made of. -/
  text : String
  /-- Where these are in the source. -/
  span : Span
deriving DecidableEq, Repr

/-- The token moved `n` bytes to the right. -/
def Token.shift (t : Token) (n : Nat) : Token :=
  { t with span := t.span.shift n }

end TypedLisp
