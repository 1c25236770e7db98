import TypedLisp.Error.Basic
import TypedLisp.Node.Printer

/-!
# The store of types

While types are being inferred, every type is a variable, a number that stands for a cell of
the store.  A cell says what is known: nothing, an atom, or a list of further variables.  A
variable that has been found equal to another one is an alias of it.  Aliases are one step
long: when a class of equal variables is merged into another, all its aliases are redirected,
so the class of a variable is found by looking once.
-/

namespace TypedLisp
namespace Typing

/-- A variable for a type. -/
abbrev Var := Nat

/-- What is known of a variable. -/
inductive Cell where
  /-- Nothing. -/
  | unknown
  /-- It is equal to another variable, which represents their class. -/
  | aliasOf (rep : Var)
  /-- It is the type of a name. -/
  | atom (name : String) (span : Option Span)
  /-- It is a list of types. -/
  | list (items : List Var) (span : Option Span)
deriving DecidableEq, Repr

/-- Whether a cell refers to another variable. -/
def Cell.isAlias : Cell → Bool
  | aliasOf _ => true
  | _ => false

/-- How much a cell counts in a store: the class that it stands for, and the items of a list. -/
def Cell.weight : Cell → Nat
  | aliasOf _ => 0
  | unknown => 1
  | atom _ _ => 1
  | list items _ => items.length + 1

/-- How much the cells of a list count together. -/
def Cell.totalWeight : List Cell → Nat
  | [] => 0
  | c :: cs => c.weight + totalWeight cs

/-- A cell in which aliases of `drop` are aliases of `keep`. -/
def Cell.redirect (keep drop : Var) : Cell → Cell
  | aliasOf rep => aliasOf (if rep = drop then keep else rep)
  | c => c

/-- What is known of all variables. -/
structure Store where
  /-- The cells of the variables `0, 1, ...`. -/
  cells : Array Cell

namespace Store

/-- The store without variables. -/
def empty : Store := ⟨#[]⟩

/-- A new variable with a cell. -/
def push (s : Store) (c : Cell) : Var × Store :=
  (s.cells.size, ⟨s.cells.push c⟩)

/-- The variable that represents the class of a variable. -/
def root (s : Store) (v : Var) : Var :=
  match s.cells[v]? with
  | some (.aliasOf rep) => rep
  | _ => v

/-- What is known of the class of a variable. -/
def cell (s : Store) (v : Var) : Cell :=
  s.cells.getD (s.root v) .unknown

/-- Whether a variable represents a class. -/
def isRoot (s : Store) (v : Var) : Bool :=
  match s.cells[v]? with
  | some c => !c.isAlias
  | none => false

/-- How much all cells count together. -/
def weight (s : Store) : Nat :=
  Cell.totalWeight s.cells.toList

/-- The store in which the class of `drop` is part of that of `keep`, of which `c` is known. -/
def merge (s : Store) (keep drop : Var) (c : Cell) : Store :=
  ⟨((s.cells.map (Cell.redirect keep drop)).setIfInBounds keep c).setIfInBounds drop
    (.aliasOf keep)⟩

/-! ### Types in and out of the store -/

variable {H : Type}

mutual

/-- A new variable for a type.  A null node is a type of which nothing is known. -/
def intern : Node H → Store → Outcome (Var × Store)
  | ⟨.null, _, _⟩, s => .ok (s.push .unknown)
  | ⟨.atom name, span, _⟩, s => .ok (s.push (.atom name span))
  | ⟨.list items, span, _⟩, s => do
    let (vars, s) ← internAll items s
    return s.push (.list vars span)
  | ⟨kind, span, type⟩, _ =>
    Outcome.typeError [span] (.notAType (Node.kindName ⟨kind, span, type⟩))

/-- New variables for types, from left to right. -/
def internAll : List (Node H) → Store → Outcome (List Var × Store)
  | [], s => .ok ([], s)
  | n :: ns, s => do
    let (v, s) ← intern n s
    let (vs, s) ← internAll ns s
    return (v :: vs, s)

end

/-- The type of a variable, read no deeper than `depth` lists. -/
def readTo (s : Store) : Nat → Var → Outcome (Node H)
  | 0, _ => .error .endless
  | depth + 1, v =>
    match s.cell v with
    | .unknown | .aliasOf _ => .ok .null
    | .atom name span => .ok (.atom name span)
    | .list items span => do
      let nodes ← items.mapM (readTo s depth)
      return .list nodes span

/-- The type of a variable.  A finite type is no deeper than the number of variables; on a
class that contains itself there is no answer. -/
def read (s : Store) (v : Var) : Outcome (Node H) :=
  s.readTo (s.cells.size + 1) v

/-- Whether the class of `r` occurs in the type of a variable, looking no deeper than `depth`
lists. -/
def occursTo (s : Store) (r : Var) : Nat → Var → Outcome Bool
  | 0, _ => .error .endless
  | depth + 1, v =>
    if s.root v = r then .ok true
    else match s.cell v with
      | .list items _ => items.anyM (occursTo s r depth)
      | _ => .ok false

/-- Whether the class of `r` occurs in the type of a variable. -/
def occurs (s : Store) (r v : Var) : Outcome Bool :=
  s.occursTo r (s.cells.size + 1) v

end Store
end Typing
end TypedLisp
