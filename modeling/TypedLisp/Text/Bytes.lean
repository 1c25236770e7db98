/-!
# Text measured in bytes

A position in a source is a byte offset into its UTF-8 encoding, while the text itself is
handled as a list of characters.  This file goes from one to the other: the width of a text
in bytes, and the cut of a text at a byte offset.  A cut never splits a character: the one
that holds the offset in its middle belongs to the part before it.
-/

namespace TypedLisp
namespace Text

/-- The number of bytes that a text takes in UTF-8. -/
def width : List Char → Nat
  | [] => 0
  | c :: cs => c.utf8Size + width cs

/-- The characters of a text that start before the byte `n`. -/
def before (n : Nat) : List Char → List Char
  | [] => []
  | c :: cs => if n = 0 then [] else c :: before (n - c.utf8Size) cs

/-- The characters of a text that start at the byte `n` or after it. -/
def after (n : Nat) : List Char → List Char
  | [] => []
  | c :: cs => if n = 0 then c :: cs else after (n - c.utf8Size) cs

/-- The characters of a text that start in the bytes from `start` up to `stop`. -/
def slice (start stop : Nat) (cs : List Char) : List Char :=
  before (stop - start) (after start cs)

@[simp] theorem width_nil : width [] = 0 := rfl

@[simp] theorem width_cons (c : Char) (cs : List Char) :
    width (c :: cs) = c.utf8Size + width cs := rfl

theorem width_append (xs ys : List Char) : width (xs ++ ys) = width xs + width ys := by
  induction xs with
  | nil => simp
  | cons c cs ih => simp [ih, Nat.add_assoc]

theorem before_append_after (n : Nat) (cs : List Char) : before n cs ++ after n cs = cs := by
  induction cs generalizing n with
  | nil => rfl
  | cons c cs ih => by_cases h : n = 0 <;> simp [before, after, h, ih]

/-! ## Lines -/

/-- The lines of a text: the parts between its line feeds.  There is one more of them than
there are line feeds. -/
def lines : List Char → List (List Char)
  | [] => [[]]
  | c :: cs =>
    if c = '\n' then [] :: lines cs
    else match lines cs with
      | [] => [[c]]
      | line :: rest => (c :: line) :: rest

/-- The number of the line, counted from 0, that holds the byte `n`. -/
def lineAt (n : Nat) (cs : List Char) : Nat :=
  (before n cs).count '\n'

end Text
end TypedLisp
