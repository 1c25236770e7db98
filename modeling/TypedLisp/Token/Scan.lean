import TypedLisp.Error.Basic
import TypedLisp.Text.Bytes
import TypedLisp.Token.Basic

/-!
# From text to tokens

The source is cut from left to right.  What the next piece is follows from its first
character alone, and it reaches as far as it can:

* a run of white space, or a comment from `;` to the end of its line, which are dropped;
* a parenthesis, a quotation mark or a colon by itself;
* an atom, a run of characters that are none of the others' first ones;
* a string, up to its closing quotation mark, to a backslash that escapes nothing, or to the
  end of the source;
* a keyword, a period and the run of atom characters after it.
-/

namespace TypedLisp
namespace Token

/-- The white space between tokens. -/
def isSpace (c : Char) : Bool :=
  c == ' ' || c == '\t' || c == '\x0c' || c == '\r' || c == '\n'

/-- The characters that have a token of their own or start one. -/
def isDelimiter (c : Char) : Bool :=
  c == '(' || c == ')' || c == ':' || c == '\'' || c == '"' || c == '.'

/-- The characters of atoms. -/
def isAtomChar (c : Char) : Bool :=
  !isSpace c && !isDelimiter c

/-- Whether a character ends a line, and so a comment. -/
def isLineEnd (c : Char) : Bool :=
  c == '\n' || c == '\r'

/-- How many characters at the start of a text pass a test. -/
def runLength (p : Char → Bool) (cs : List Char) : Nat :=
  (cs.takeWhile p).length

/-- How many characters after its opening quotation mark belong to a string. -/
def stringLength : List Char → Nat
  | [] => 0
  | '"' :: _ => 1
  | '\\' :: '\\' :: cs => 2 + stringLength cs
  | '\\' :: '"' :: cs => 2 + stringLength cs
  | '\\' :: _ => 0
  | _ :: cs => 1 + stringLength cs

/-- The piece that starts with the character `c` before the text `rest`: its kind, if it is a
token and not dropped, and how many characters of `rest` belong to it. -/
def scan (c : Char) (rest : List Char) : Option (Option TokenKind × Nat) :=
  if c == ';' then some (none, runLength (fun d => !isLineEnd d) rest)
  else if isSpace c then some (none, runLength isSpace rest)
  else if c == '(' then some (some .opening, 0)
  else if c == ')' then some (some .closing, 0)
  else if c == '\'' then some (some .quote, 0)
  else if c == ':' then some (some .colon, 0)
  else if isAtomChar c then some (some .atom, runLength isAtomChar rest)
  else if c == '"' then some (some .str, stringLength rest)
  else if c == '.' then some (some .keyword, runLength isAtomChar rest)
  else none

/-- How much of the text a lexical error shows. -/
def snippetLength : Nat := 16

/-- The tokens of a text that starts at the byte `start` of the source. -/
def scanFrom (start : Nat) : List Char → Except Error (List Token)
  | [] => .ok []
  | c :: rest =>
    match scan c rest with
    | none => .error (.lexical start (String.ofList ((c :: rest).take snippetLength)))
    | some (kind?, n) =>
      let piece := c :: rest.take n
      let stop := start + Text.width piece
      match scanFrom stop (rest.drop n) with
      | .error e => .error e
      | .ok tokens =>
        match kind? with
        | none => .ok tokens
        | some kind => .ok (⟨kind, String.ofList piece, ⟨start, stop⟩⟩ :: tokens)
termination_by cs => cs.length

end Token

/-- The tokens of a source. -/
def lex (source : String) : Except Error (List Token) :=
  Token.scanFrom 0 source.toList

/-- The token of a kind at a span of a source. -/
def Token.ofSource (source : String) (kind : TokenKind) (span : Span) : Token :=
  ⟨kind, String.ofList (Text.slice span.start span.stop source.toList), span⟩

end TypedLisp
