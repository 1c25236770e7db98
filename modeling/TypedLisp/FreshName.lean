/-!
# Fresh names

A compilation numbers its temporaries from 0 on, whatever they are called otherwise.
-/

namespace TypedLisp

/-- A supply of fresh names. -/
structure FreshNames where
  /-- The number of the next name. -/
  next : Nat
deriving DecidableEq, Repr

namespace FreshNames

/-- The supply of a new compilation. -/
def start : FreshNames := ⟨0⟩

/-- A fresh name that begins with a text, and the supply without it. -/
def fresh (s : FreshNames) (stem : String) : String × FreshNames :=
  (stem ++ toString s.next, ⟨s.next + 1⟩)

/-- Fresh names that begin with the given texts, in order. -/
def freshAll (s : FreshNames) : List String → List String × FreshNames
  | [] => ([], s)
  | stem :: stems =>
    let (name, s) := s.fresh stem
    let (names, s) := s.freshAll stems
    (name :: names, s)

end FreshNames
end TypedLisp
