import TypedLisp.Reader.Hint
import TypedLisp.Token.Scan

/-!
# The reader

The reader turns tokens into nodes, from left to right and one token at a time.  Its state is
the place where the next value goes, together with the lists that are still open around it:

    program := typed*        typed := value [":" value]
    value   := "(" typed* ")" | "'" value | atom | string | keyword

A value in the sequence of a list or of the program may be followed by a colon and its type.
Under a quotation mark and after a colon no type is taken, so that a colon always belongs to
the outermost of the values that end before it.
-/

namespace TypedLisp

variable {H : Type}

/-- The text that a string token stands for: what follows its opening quotation mark, up to the
closing one, without the backslashes that escape. -/
def unescape : List Char → List Char
  | [] => []
  | '"' :: _ => []
  | '\\' :: c :: cs => c :: unescape cs
  | c :: cs => c :: unescape cs

/-- A place where a value goes: in a sequence, behind a colon, under quotation marks. -/
structure Place (H : Type) where
  /-- The items of the sequence, the latest first. -/
  items : List (Node H)
  /-- The value that waits for its type, with the span of its colon. -/
  target : Option (Span × Node H)
  /-- The spans of the quotation marks before the value, the latest first. -/
  quotes : List Span

/-- The place at the start of a sequence. -/
def Place.start : Place H := ⟨[], none, []⟩

/-- The state of reading. -/
structure Reader (H : Type) where
  /-- Where the next value goes. -/
  place : Place H
  /-- The open lists, the innermost first: the span of the opening parenthesis and the place
  where the list goes. -/
  enclosing : List (Span × Place H)
  /-- Whether the latest item of the sequence may still be given a type. -/
  typeable : Bool

namespace Reader

/-- The state before the first token. -/
def start : Reader H := ⟨.start, [], false⟩

/-- How many lists and quotation marks the next value lies in. -/
def depth (r : Reader H) : Nat :=
  r.enclosing.foldl (fun n p => n + p.2.quotes.length + 1) r.place.quotes.length

/-- A value under a quotation mark. -/
def quote (value : Node H) (mark : Span) : Node H :=
  .quoted value (some ⟨mark.start, (value.span.map Span.stop).getD mark.stop⟩)

/-- The state after a whole value has been read. -/
def fill (r : Reader H) (value : Node H) : Reader H :=
  let value := r.place.quotes.foldl quote value
  match r.place.target with
  | none => { r with place := ⟨value :: r.place.items, none, []⟩, typeable := true }
  | some (_, typed) =>
    { r with
      place := ⟨typed.withType value.withoutTypes :: r.place.items, none, []⟩, typeable := false }

/-- The name of a keyword token. -/
def keywordName (t : Token) : String :=
  String.ofList (t.text.toList.drop 1)

/-- The node of a string token.  Its type is `str` until it is given another one. -/
def stringNode (t : Token) : Node H :=
  (Node.str (String.ofList (unescape (t.text.toList.drop 1))) (some t.span)).withType
    (.atom "str" none)

/-- The state after a token that starts a value. -/
def stepValue (r : Reader H) (t : Token) : Except Error (Reader H) :=
  if r.depth ≥ maxNesting then .error (.grammar .tooDeep (some t.span) none)
  else match t.kind with
    | .opening => .ok ⟨.start, (t.span, r.place) :: r.enclosing, false⟩
    | .quote => .ok { r with place := { r.place with quotes := t.span :: r.place.quotes } }
    | .atom => .ok (r.fill (.atom t.text (some t.span)))
    | .str => .ok (r.fill (stringNode t))
    | .keyword =>
      if keywordName t = "" then .error (.grammar .lonePeriod (some t.span) none)
      else .ok (r.fill (.keyword (keywordName t) (some t.span)))
    | .closing => .error (.grammar .closingForValue (some t.span) none)
    | .colon => .error (.grammar .colonForValue (some t.span) none)

/-- The state after a token.  A colon after an item starts its type, a closing parenthesis after
an item or an opening one ends the list, and any other token has to start a value. -/
def step (r : Reader H) (t : Token) : Except Error (Reader H) :=
  match t.kind, r.typeable, r.place, r.enclosing with
  | .colon, true, ⟨value :: items, none, []⟩, _ =>
    .ok { r with place := ⟨items, some (t.span, value), []⟩, typeable := false }
  | .closing, _, ⟨items, none, []⟩, (opening, outside) :: enclosing =>
    .ok (fill ⟨outside, enclosing, false⟩
      (.list items.reverse (some ⟨opening.start, t.span.stop⟩)))
  | _, _, _, _ => stepValue { r with typeable := false } t

/-- The forms that have been read when the tokens end, unless something is still open. -/
def finish (source : List Char) (r : Reader H) : Except Error (List (Node H)) :=
  match r.place.quotes, r.place.target, r.enclosing with
  | _ :: _, _, _ => .error (.grammar .valueAtEnd (some (.point (Text.width source))) none)
  | [], some (colon, _), _ => .error (.grammar .missingType (some colon) none)
  | [], none, (opening, _) :: _ =>
    .error (.grammar .unclosedList (some opening)
      (Hint.ofUnclosed source r.place.items.reverse))
  | [], none, [] => .ok r.place.items.reverse

end Reader

/-- The forms of a sequence of tokens of a source. -/
def readTokens (tokens : List Token) (source : String) : Except Error (List (Node H)) :=
  (tokens.foldlM Reader.step Reader.start).bind (Reader.finish source.toList)

/-- The forms of a source. -/
def read (source : String) : Except Error (List (Node H)) :=
  (lex source).bind fun tokens => readTokens tokens source

end TypedLisp
