import TypedLisp.Operator

/-!
# Causes of errors

Why a program is refused, as data.  A grammar cause says what the reader could not take; a
type cause says what the expander, the type checker, the evaluator or the export of an
interface could not.  The wording of each is in one place, its `message`.
-/

namespace TypedLisp

/-- How deep lists and quotations may lie inside each other. -/
def maxNesting : Nat := 256

/-- Why a sequence of tokens is no program. -/
inductive GrammarCause where
  /-- The tokens end where a value is due. -/
  | valueAtEnd
  /-- A value is due at a token inside `maxNesting` lists and quotations. -/
  | tooDeep
  /-- A closing parenthesis stands where a value is due. -/
  | closingForValue
  /-- A colon stands where a value is due. -/
  | colonForValue
  /-- The tokens end after a colon. -/
  | missingType
  /-- The tokens end inside a list. -/
  | unclosedList
  /-- A keyword has no name. -/
  | lonePeriod
  /-- Any other text. -/
  | other (text : String)
deriving DecidableEq, Repr

/-- The wording of a grammar cause. -/
def GrammarCause.message : GrammarCause → String
  | valueAtEnd => "i expected a value here, but i cant see any more code"
  | tooDeep => "this code is nested more than " ++ toString maxNesting ++ " levels deep"
  | closingForValue => "i expected a value here, but i found a `)` instead"
  | colonForValue =>
    "i expected a value here, but i found a `:`; the code is certainly typed, but it lacks code in it"
  | missingType => "i expected a type after this `:`, but i cant see any more code"
  | unclosedList =>
    "you seem to have forgotten a `)` somewhere, this list is never closed"
  | lonePeriod => "i expected a keyword here, but i only see a lone period"
  | other text => text

/-- Why a program that can be read does not mean anything.  A `kind` is what messages call
the kind of a node, a `type` is a printed type. -/
inductive TypeCause where
  /-- A binding gives a value to something that is not a name. -/
  | assignToNonAtom (kind : String)
  /-- The value of a binding expands to nothing. -/
  | boundToNothing (name : String)
  /-- A `let` has the wrong number of parts. -/
  | letArity (arity : Nat)
  /-- A `def` has the wrong number of parts. -/
  | defArity (arity : Nat)
  /-- A `lambda` form is not three parts long. -/
  | lambdaParts (parts : Nat)
  /-- The parameters of a `lambda` form are not a list. -/
  | lambdaParamsKind (kind : String)
  /-- A `lambda` form has no parameters. -/
  | lambdaNoParams
  /-- The body of a function expands to nothing. -/
  | bodyExpandsToNothing
  /-- A parameter expands to nothing. -/
  | paramExpandsToNothing
  /-- The header of a macro is not a pair of names. -/
  | macroHeader
  /-- A node stands where a type is due, but cannot be one. -/
  | notAType (kind : String)
  /-- A type would have to contain itself. -/
  | selfContaining (type : String)
  /-- Two types cannot be made equal. -/
  | mismatch (left right : String)
  /-- Two list types have different lengths. -/
  | partsMismatch (left right : Nat)
  /-- The parameters of a function are not a list with something in it. -/
  | paramsEmpty
  /-- A parameter of a function that is checked or exported is not a name. -/
  | paramsNotAtoms
  /-- The type of a function does not take its parameters. -/
  | lambdaType (type : String)
  /-- The type of a callee does not take the arguments. -/
  | uncallableType (type : String)
  /-- An integer literal does not fit in 64 bits. -/
  | literalTooLarge (name : String)
  /-- A call has no callee. -/
  | emptyCall
  /-- A condition is neither true nor false. -/
  | conditionKind (kind : String)
  /-- A callee is not a function. -/
  | notCallable (kind : String)
  /-- A function that is applied does not have exactly one parameter. -/
  | lambdaArity (arity : Nat)
  /-- The parameter of a function that is applied is not a name. -/
  | paramNotAtom
  /-- An operand is a name, but not that of an integer. -/
  | notAnInteger (name : String)
  /-- An operand is no integer. -/
  | integerExpected (kind : String)
  /-- An operator has no answer. -/
  | arithmetic (cause : ArithmeticCause)
  /-- `first` is asked for the first item of something that has none. -/
  | firstOfNothing
  /-- `first` is not given exactly one argument. -/
  | firstArity (arity : Nat)
  /-- An exported function has a type that is not known. -/
  | unresolvedExport (name what type : String)
  /-- Any other text, such as that of a host function of the embedding program. -/
  | other (text : String)
deriving DecidableEq, Repr

/-- The wording of an arithmetic cause. -/
def ArithmeticCause.message : ArithmeticCause → String
  | overflow op => "integer overflow in `" ++ op.symbol ++ "`"
  | divisionByZero => "division by zero"

/-- The wording of a type cause. -/
def TypeCause.message : TypeCause → String
  | assignToNonAtom kind => "i can't assign to non-atoms, and this is a " ++ kind
  | boundToNothing name => "`" ++ name ++ "` is bound to something that expands to nothing"
  | letArity arity => "let called with " ++ toString arity ++ " arguments"
  | defArity arity => "def called with " ++ toString arity ++ " arguments"
  | lambdaParts parts =>
    "a lambda needs a parameter list and a body, but this one has " ++ toString parts ++ " parts"
  | lambdaParamsKind kind => "the parameters of a lambda go in a list, not a " ++ kind
  | lambdaNoParams => "a lambda takes at least one parameter"
  | bodyExpandsToNothing => "this lambda's body expands to nothing"
  | paramExpandsToNothing => "this parameter expands to nothing"
  | macroHeader => "a macro header names exactly two atoms: the environment and the arguments"
  | notAType kind => "a " ++ kind ++ " can't be used as a type"
  | selfContaining type => "this type would have to contain itself: " ++ type
  | mismatch left right => "i can't unify `" ++ left ++ "` with `" ++ right ++ "`"
  | partsMismatch left right =>
    "a type with " ++ toString left ++ " parts can't match one with " ++ toString right
  | paramsEmpty => "a lambda's parameters must be a non-empty list"
  | paramsNotAtoms => "lambda parameters must be atoms"
  | lambdaType type => "invalid type for lambda: " ++ type
  | uncallableType type => "uncallable type: " ++ type
  | literalTooLarge name => name ++ " does not fit in 64 bits"
  | emptyCall => "i can't call an empty list"
  | conditionKind kind => "a condition must evaluate to a host value, not a " ++ kind
  | notCallable kind => "a " ++ kind ++ " is not callable"
  | lambdaArity arity =>
    "a lambda value takes exactly one parameter, not " ++ toString arity
  | paramNotAtom => "a lambda parameter must be an atom"
  | notAnInteger name => "`" ++ name ++ "` is not an integer"
  | integerExpected kind => "i expected an integer, but found a " ++ kind
  | arithmetic cause => cause.message
  | firstOfNothing => "`first` needs a non-empty list"
  | firstArity arity => "`first` takes one argument, not " ++ toString arity
  | unresolvedExport name what type =>
    "i can't export `" ++ name ++ "`: the type of " ++ what ++ " is not known (" ++ type ++ ")"
  | other text => text

end TypedLisp
