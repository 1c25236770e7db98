import TypedLisp.Evaluation
import TypedLisp.Interface
import TypedLisp.Reader.Basic
import TypedLisp.Typing.Inference

/-!
# Programs

A program goes through the stages in order: it is read, expanded, typed, and then evaluated or
exported.  Each stage starts where the one before it ends.
-/

namespace TypedLisp

variable {H : Type}

/-- A program that is read and expanded. -/
def expandSource [Host H] (depth : Nat) (source : String) : Outcome (Expansion H) := do
  let forms ← Outcome.ofExcept (read source)
  expandProgram depth .empty forms

/-- An expanded program with its types filled in.  The constants are typed first, in the order of
their names, each one on its own. -/
def typecheck (program : Expansion H) : Outcome (Expansion H) := do
  let consts ← program.consts.mapM Typing.infer
  let forms ← Typing.inferAll program.forms
  return ⟨forms, consts⟩

/-- A program that is read, expanded and typed. -/
def checkSource [Host H] (depth : Nat) (source : String) : Outcome (Expansion H) := do
  let program ← expandSource depth source
  typecheck program

/-- The values of the forms of a program, where its constants hide what `host` binds. -/
def run [Host H] (depth : Nat) (source : String) (host : Scope H) : Outcome (List (Node H)) := do
  let program ← checkSource depth source
  program.forms.mapM (evaluate depth (host.merge program.consts))

/-- How far a program is taken. -/
inductive Stage where
  /-- The expanded forms. -/
  | expand
  /-- The typed forms. -/
  | infer
  /-- The exported functions. -/
  | interface
  /-- The values of the forms. -/
  | eval
deriving DecidableEq, Repr

/-- The stage of a program about which nothing is said. -/
def Stage.default : Stage := .expand

/-- The name of a stage. -/
def Stage.name : Stage → String
  | expand => "expand"
  | infer => "infer"
  | interface => "interface"
  | eval => "eval"

/-- The stage of a name. -/
def Stage.ofName? (name : String) : Option Stage :=
  [expand, infer, interface, eval].find? fun s => s.name == name

/-- What a stage makes of a source, one line for each form, with types if `types` holds.  The
stage `interface` has one line for each function of the module instead. -/
def render (depth : Nat) (source moduleName : String) (stage : Stage) (types : Bool) :
    Outcome (List String) :=
  let line (n : Node Empty) : String := n.print types
  match stage with
  | .expand => do
    let program ← expandSource depth source
    return program.forms.map line
  | .infer => do
    let program ← checkSource depth source
    return program.forms.map line
  | .interface => do
    let program : Expansion Empty ← checkSource depth source
    let interface ← Outcome.ofExcept (Interface.ofConsts moduleName program.consts)
    return interface.functions.map FunctionDecl.line
  | .eval => do
    let values ← run depth source prelude
    return values.map line

end TypedLisp
