import TypedLisp.Error.Cause
import TypedLisp.Span

/-!
# Errors and failures

An error is what a stage reports about a program; it has a cause and points at the source.
Every stage stops at its first error.  A failure is either an error or the sign that a
computation was cut off because it had no end within the depth that it was given.
-/

namespace TypedLisp

/-- A guess at where a closing parenthesis is missing. -/
structure Hint where
  /-- The guess in words. -/
  message : String
  /-- The byte at which the parenthesis would be put. -/
  offset : Nat
deriving DecidableEq, Repr

/-- What is wrong with a program. -/
inductive Error where
  /-- No token starts at a byte; `snippet` is the text from there on. -/
  | lexical (offset : Nat) (snippet : String)
  /-- The tokens do not form a program. -/
  | grammar (cause : GrammarCause) (span : Option Span) (hint : Option Hint)
  /-- The program has no meaning; the spans are the places in conflict. -/
  | typing (cause : TypeCause) (spans : List Span)
  /-- A name is not defined. -/
  | reference (name : String) (span : Option Span)
deriving DecidableEq, Repr

namespace Error

/-- A type error at those of some places that are known. -/
def typeAt (spans : List (Option Span)) (cause : TypeCause) : Error :=
  .typing cause (spans.filterMap id)

/-- A type error without a place is put at `span`, if that is known. -/
def orAt (e : Error) (span : Option Span) : Error :=
  match e, span with
  | .typing cause [], some s => .typing cause [s]
  | _, _ => e

/-- A grammar error with a hint in place of the one it may have. -/
def withHint (e : Error) (hint : Hint) : Error :=
  match e with
  | .grammar cause span _ => .grammar cause span (some hint)
  | _ => e

/-- The places that an error points at. -/
def spans : Error → List Span
  | .lexical offset _ => [Span.point offset]
  | .grammar _ span _ => span.toList
  | .typing _ spans => spans
  | .reference _ span => span.toList

/-- The hint of an error. -/
def hint? : Error → Option Hint
  | .grammar _ _ hint => hint
  | _ => none

/-! ## Wording -/

/-- A text after the places that it is about. -/
def located (spans : List Span) (text : String) : String :=
  match spans with
  | [] => text
  | _ => " and ".intercalate (spans.map Span.text) ++ " " ++ text

/-- What an error says, with its places. -/
def detail : Error → String
  | .lexical _ snippet => snippet
  | .grammar cause span _ => located span.toList cause.message
  | .typing cause spans => located spans cause.message
  | .reference name span => located span.toList (name ++ " is not defined")

/-- The heading of an error in a report. -/
def title : Error → String
  | .lexical _ _ => "Lexical error"
  | .grammar _ _ _ => "Syntax error"
  | .typing _ _ => "Type error"
  | .reference _ _ => "Reference error"

/-- The whole text of an error. -/
def message (e : Error) : String :=
  match e with
  | .lexical offset snippet =>
    "lexical error: [" ++ toString offset ++ " --> ...] `" ++ snippet ++ "` matches with nothing"
  | .grammar _ _ hint =>
    "syntax error: " ++ e.detail ++ (hint.elim "" fun h => "\n  hint: " ++ h.message)
  | .typing _ _ => "type error: " ++ e.detail
  | .reference _ _ => "reference error: " ++ e.detail

end Error

/-- Why a computation gives no answer. -/
inductive Failure where
  /-- The program is in error. -/
  | raised (e : Error)
  /-- The computation goes deeper than it may. -/
  | endless
deriving DecidableEq, Repr

/-- The answer of a computation, or why it has none. -/
abbrev Outcome (α : Type) := Except Failure α

namespace Outcome

variable {α : Type}

/-- An answer that can only fail with an error. -/
def ofExcept : Except Error α → Outcome α
  | .ok a => .ok a
  | .error e => .error (.raised e)

/-- The failure with an error. -/
def raise (e : Error) : Outcome α := .error (.raised e)

/-- The failure with a type error at those of some places that are known. -/
def typeError (spans : List (Option Span)) (cause : TypeCause) : Outcome α :=
  raise (.typeAt spans cause)

/-- A type error without a place is put at `span`. -/
def orAt (r : Outcome α) (span : Option Span) : Outcome α :=
  match r with
  | .error (.raised e) => .error (.raised (e.orAt span))
  | r => r

end Outcome
end TypedLisp
