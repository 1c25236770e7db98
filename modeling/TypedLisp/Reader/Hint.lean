import TypedLisp.Error.Basic
import TypedLisp.Node.Basic
import TypedLisp.Text.Blank

/-!
# Where a closing parenthesis may be missing

When the source ends inside a list, its layout often shows where the list was meant to end.
We look at the lines on which the items of the list end.  Once their indentation has moved
off that of the first one and settled, a line that is indented less starts something new, so
the parenthesis is missing at the end of the line before it.
-/

namespace TypedLisp
namespace Hint

variable {H : Type}

/-- The line on which an item of an unclosed list ends, with its indentation. -/
structure ItemEnd where
  /-- The number of the line, from 0. -/
  line : Nat
  /-- The indentation of the line. -/
  level : Nat

/-- The line after which the indentation of the item ends drops for the first time: they stay
on the level of the first one, settle on another level, and fall below it. -/
def lineBeforeDrop (ends : List ItemEnd) : Option Nat :=
  match ends with
  | [] => none
  | first :: _ =>
    match ends.dropWhile (fun e => e.level == first.level) with
    | [] => none
    | settled :: rest =>
      let kept := rest.takeWhile (fun e => e.level ≥ settled.level)
      if kept.length = rest.length then none else some (kept.getLastD settled).line

/-- How many closing parentheses the lines from `first` to `last` are short of. -/
def missingClosings (lines : List (List Char)) (first last : Nat) : Nat :=
  let region := ((lines.take (last + 1)).drop first).flatten
  max (region.count '(' - region.count ')') 1

/-- The byte at which the text of a line ends, without a carriage return. -/
def lineEnd (lines : List (List Char)) (line : Nat) : Nat :=
  Text.width ((lines.take line).flatMap (· ++ ['\n'])) +
    Text.width (Text.dropReturn (lines.getD line []))

/-- The guess in words. -/
def wording (text : List Char) (line missing : Nat) : String :=
  let what := if missing = 1 then "a `)`" else toString missing ++ " `)`s"
  "you seem to have forgotten " ++ what ++ " here, at the end of line " ++ toString (line + 1) ++
    ": `" ++ String.ofList (Text.trimStart text) ++
    String.ofList (List.replicate missing ')') ++ "`"

/-- The hint for a list that has the given items when the source ends. -/
def ofUnclosed (source : List Char) (items : List (Node H)) : Option Hint :=
  match items.filterMap Node.span with
  | first :: second :: rest =>
    let spans := first :: second :: rest
    let lines := Text.lines source
    let lineOf (s : Span) := Text.lineAt s.stop source
    let ends := spans.map fun s => ⟨lineOf s, Text.indentation (lines.getD (lineOf s) [])⟩
    match lineBeforeDrop ends with
    | none => none
    | some line =>
      let last := lineOf (spans.getLastD first)
      let missing := missingClosings lines (Text.lineAt first.start source) last
      some ⟨wording (Text.dropReturn (lines.getD line [])) line missing, lineEnd lines line⟩
  | _ => none

end Hint
end TypedLisp
