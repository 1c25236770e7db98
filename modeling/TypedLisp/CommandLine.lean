import TypedLisp.Program

/-!
# The command line

The program is called with the name of a source file, and maybe with the stage to which it is
taken and with the wish to leave out the types.  What it answers is a value: the exit status,
the lines for the standard output and the complaint for the standard error.
-/

namespace TypedLisp
namespace CommandLine

/-- What the arguments ask for. -/
structure Options where
  /-- The source file. -/
  file : String
  /-- How far the program is taken. -/
  stage : Stage
  /-- Whether types are left out. -/
  plain : Bool
deriving DecidableEq, Repr

/-- What the arguments have asked for so far. -/
structure Request where
  file : Option String
  stage : Option Stage
  plain : Bool

namespace Request

/-- No argument has been seen. -/
def empty : Request := ⟨none, none, false⟩

/-- An argument names the file, unless there is one already. -/
def addFile (r : Request) (name : String) : Option Request :=
  if r.file.isNone && name != "" then some { r with file := some name } else none

/-- An argument names the stage, unless there is one already. -/
def addStage (r : Request) (name : String) : Option Request :=
  match r.stage, Stage.ofName? name with
  | none, some s => some { r with stage := some s }
  | _, _ => none

/-- An argument asks to leave out the types, unless one has already. -/
def addPlain (r : Request) : Option Request :=
  if r.plain then none else some { r with plain := true }

/-- The name of the stage in an argument `--stage=name`. -/
def stageOf? (arg : String) : Option String :=
  let mark := "--stage=".toList
  if mark.isPrefixOf arg.toList then some (String.ofList (arg.toList.drop mark.length)) else none

/-- Whether an argument is an option. -/
def isOption (arg : String) : Bool :=
  arg.toList.head? == some '-' && arg != "-"

/-- The arguments after `--`, which are no options. -/
def addFiles (r : Request) : List String → Option Request
  | [] => some r
  | arg :: args => (r.addFile arg).bind fun r => r.addFiles args

/-- The arguments one after the other. -/
def addAll (r : Request) : List String → Option Request
  | [] => some r
  | "--" :: args => r.addFiles args
  | "--plain" :: args => r.addPlain.bind fun r => r.addAll args
  | "--stage" :: name :: args => (r.addStage name).bind fun r => r.addAll args
  | arg :: args =>
    match stageOf? arg with
    | some name => (r.addStage name).bind fun r => r.addAll args
    | none =>
      if isOption arg then none else (r.addFile arg).bind fun r => r.addAll args

end Request

/-- The options that arguments stand for; none if they are used wrongly. -/
def parse (args : List String) : Option Options := do
  let r ← Request.empty.addAll args
  let file ← r.file
  return ⟨file, r.stage.getD .default, r.plain⟩

/-! ## Answers -/

/-- What the program answers. -/
structure Response where
  /-- The exit status. -/
  status : Nat
  /-- The lines for the standard output. -/
  lines : List String
  /-- What goes to the standard error. -/
  complaint : Option String
deriving DecidableEq, Repr

/-- The standard output as one text. -/
def Response.output (r : Response) : String :=
  String.join (r.lines.map (· ++ "\n"))

/-- The name of a file without the directories before it and the extension after it. -/
def stem? (file : String) : Option String :=
  let parts := (file.toList.splitOn '/').filter fun p => p ≠ [] && p ≠ ['.']
  match parts.getLast? with
  | none => none
  | some name =>
    if name = ['.', '.'] then none
    else
      let extension := name.reverse.takeWhile (· ≠ '.')
      let base := name.take (name.length - extension.length - 1)
      some (String.ofList (if base = [] then name else base))

/-- The name of the module in a file. -/
def moduleName (file : String) : String :=
  (stem? file).getD "main"

/-- The answer to wrong usage. -/
def usage : Response :=
  ⟨2, [], some "usage: FILE [--stage expand|infer|interface|eval] [--plain]"⟩

/-- How deep an evaluation may go. -/
def depthLimit : Nat := 1000000

/-- What is said about a failure. -/
def complaintOf : Failure → String
  | .raised e => e.message
  | .endless => "the program goes too deep"

/-- The answer for a file with the given bytes; none if it cannot be read. -/
def respond (o : Options) (content : Option ByteArray) : Response :=
  match content.bind String.fromUTF8? with
  | none => ⟨1, [], some ("Reading " ++ o.file ++ " failed")⟩
  | some source =>
    match render depthLimit source (moduleName o.file) o.stage (!o.plain) with
    | .ok lines => ⟨0, lines, none⟩
    | .error f => ⟨1, [], some (complaintOf f)⟩

end CommandLine
end TypedLisp
