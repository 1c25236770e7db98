import TypedLisp.Bindings
import TypedLisp.Error.Basic
import TypedLisp.Node.Printer
import TypedLisp.Symbol

/-!
# Interfaces

The interface of a module lists the functions among its constants, for whoever compiles them
further: each with a symbol, its parameters with their types, and its result.  A chain of
functions of one parameter is one function of several there.  All the types have to be known.
-/

namespace TypedLisp

variable {H : Type}

/-- An exported function. -/
structure FunctionDecl (H : Type) where
  /-- The name in the program. -/
  name : String
  /-- The symbol of the name. -/
  symbol : String
  /-- The names of the parameters with their types. -/
  params : List (String × Node H)
  /-- The type of the result. -/
  ret : Node H
  /-- The innermost body. -/
  body : Node H

/-- What a module exports. -/
structure Interface (H : Type) where
  /-- The name of the module. -/
  name : String
  /-- The functions, in the order of their names. -/
  functions : List (FunctionDecl H)

mutual

/-- Whether a type is known through and through. -/
def Node.isResolved : Node H → Bool
  | ⟨.list items, _, _⟩ => Node.allResolved items
  | ⟨.null, _, _⟩ => false
  | _ => true

/-- Whether all types of a list are known through and through. -/
def Node.allResolved : List (Node H) → Bool
  | [] => true
  | n :: ns => Node.isResolved n && Node.allResolved ns

end

/-- The type of a part of the function `name`, if it is known. -/
def resolvedType (name what : String) (part : Node H) : Except Error (Node H) :=
  if part.type.isResolved then .ok part.type
  else .error (.typeAt [part.span] (.unresolvedExport name what part.type.plain))

/-- A parameter of the function `name` with its type. -/
def declareParam (name : String) (param : Node H) : Except Error (String × Node H) :=
  match param.atom? with
  | none => .error (.typeAt [param.span] .paramsNotAtoms)
  | some p => do
    let type ← resolvedType name ("`" ++ p ++ "`") param
    return (p, type)

/-- The parameters of the function `name` along its chain, and the innermost body. -/
def declareChain (name : String) :
    Node H → Except Error (List (String × Node H) × Node H)
  | ⟨.list [head, ⟨.list params, paramsSpan, paramsType⟩, body], span, type⟩ =>
    if head.isAtom "lambda" then do
      let own ← params.mapM (declareParam name)
      let (inner, innermost) ← declareChain name body
      return (own ++ inner, innermost)
    else .ok ([], ⟨.list [head, ⟨.list params, paramsSpan, paramsType⟩, body], span, type⟩)
  | body => .ok ([], body)

/-- The function that a constant is. -/
def declare (name : String) (lambda : Node H) : Except Error (FunctionDecl H) := do
  let (params, body) ← declareChain name lambda
  let ret ← resolvedType name "its result" body
  return ⟨name, Symbol.ofName name, params, ret, body⟩

/-- The interface of a module with the given constants.  Constants that are no functions are not
exported. -/
def Interface.ofConsts (name : String) (consts : Bindings (Node H)) :
    Except Error (Interface H) := do
  let functions ← (consts.entries.filter fun p => p.2.isLambda).mapM fun p => declare p.1 p.2
  return ⟨name, functions⟩

/-- A function as a line of text. -/
def FunctionDecl.line (f : FunctionDecl H) : String :=
  let params := f.params.map fun p => p.1 ++ ": " ++ p.2.plain
  f.symbol ++ " (" ++ f.name ++ "): " ++ ", ".intercalate params ++ " -> " ++ f.ret.plain

end TypedLisp
