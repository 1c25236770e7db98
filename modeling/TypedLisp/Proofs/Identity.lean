import Mathlib
import TypedLisp.Proofs.Application

/-!
# Values that pass through a function

A literal function is applied by substitution: the value of the argument takes the place of the
parameter in the body, and what results is evaluated.  So a value that is given to a function
becomes a part of the program again, and is evaluated where it stands.

With the function that gives back its argument there is nothing else in the body.  What comes back
is therefore what the value evaluates to.  That is the value itself for what evaluation leaves
alone, but a name that comes from a quotation is looked up, and a list that comes from one is
called.
-/

namespace TypedLisp

variable {H α : Type}

/-! ### Depths and places -/

namespace Node

end Node

section

variable [Host H] {env : Scope H} {f e v : Node H} {span : Option Span} {type : Option (Node H)}

end

end TypedLisp
