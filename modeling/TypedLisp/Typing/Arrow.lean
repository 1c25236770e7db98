import TypedLisp.Node.Arrow
import TypedLisp.Typing.Unify

/-!
# Walking an arrow

An arrow is a list of at least three types that starts with the atom `->`: the head, one type
for each argument and the type of the result.  To walk the type of a function along a list of
arguments is to take the argument types in turn.  Where they run out before the arguments do,
the walk goes on with the result, which has to be an arrow again; where arguments run out first,
an arrow of the argument types that are left is the result.
-/

namespace TypedLisp
namespace Typing

/-- The parts of an arrow: the type of its first argument, those of the others, and the type of
its result. -/
structure Arrow where
  first : Var
  rest : List Var
  result : Var

/-- The parts of a list of variables that is an arrow but for its head. -/
def Arrow.ofTail? : List Var → Option Arrow
  | first :: next :: more => some ⟨first, (next :: more).dropLast, (next :: more).getLastD next⟩
  | _ => none

namespace Store

/-- New variables of which nothing is known. -/
def pushUnknowns (s : Store) : Nat → List Var × Store
  | 0 => ([], s)
  | n + 1 =>
    let (v, s) := s.push .unknown
    let (vs, s) := s.pushUnknowns n
    (v :: vs, s)

/-- A new arrow with the given argument and result types. -/
def pushArrow (s : Store) (types : List Var) : Var × Store :=
  let (head, s) := s.push (.atom Node.arrowName none)
  s.push (.list (head :: types) none)

/-- A new arrow of so many arguments, of which nothing is known. -/
def pushUnknownArrow (s : Store) (arity : Nat) : Var × Store :=
  let (types, s) := s.pushUnknowns (arity + 1)
  s.pushArrow types

/-- The parts of a variable, if it is an arrow. -/
def arrow? (s : Store) (v : Var) : Option Arrow :=
  match s.cell v with
  | .list (head :: tail) _ =>
    match s.cell head with
    | .atom name _ => if name = Node.arrowName then Arrow.ofTail? tail else none
    | _ => none
  | _ => none

/-- The parts of a variable, if it is an arrow.  If nothing is known of it, it becomes an arrow
of so many arguments. -/
def expectArrow (s : Store) (v : Var) (arity : Nat) : Outcome (Option Arrow × Store) :=
  match s.cell v with
  | .unknown => do
    let (fresh, s) := s.pushUnknownArrow arity
    let s ← s.unify (s.root v) fresh
    return (s.arrow? v, s)
  | _ => .ok (s.arrow? v, s)

end Store

variable {α β : Type}

/-- Walks along arguments.  The arrow at hand has the argument types `slots` left and the result
type `result`; `each` is done for an argument and its type, and `notArrow` makes an error of the
type that should have been an arrow.  The answer has what `each` gave for the arguments and the
type that is left over. -/
def walk (each : α → Var → Store → Outcome (β × Store)) (notArrow : Node Empty → Error) :
    List α → List Var → Var → Store → Outcome ((List β × Var) × Store)
  | [], [], result, s => .ok (([], result), s)
  | [], slot :: slots, result, s =>
    let (v, s) := s.pushArrow (slot :: slots ++ [result])
    .ok (([], v), s)
  | arg :: args, slot :: slots, result, s => do
    let (b, s) ← each arg slot s
    let ((bs, v), s) ← walk each notArrow args slots result s
    return ((b :: bs, v), s)
  | arg :: args, [], result, s => do
    let (arrow?, s) ← s.expectArrow result (args.length + 1)
    match arrow? with
    | none =>
      let type ← s.read result
      Outcome.raise (notArrow type)
    | some arrow =>
      let (b, s) ← each arg arrow.first s
      let ((bs, v), s) ← walk each notArrow args arrow.rest arrow.result s
      return ((b :: bs, v), s)

/-- Walks the type of a function along arguments. -/
def walkFrom (each : α → Var → Store → Outcome (β × Store)) (notArrow : Node Empty → Error)
    (function : Var) (args : List α) (s : Store) : Outcome ((List β × Var) × Store) :=
  walk each notArrow args [] function s

end Typing
end TypedLisp
