import TypedLisp.Node.Basic

/-!
# The printed forms of a node

Three texts of a node.  The plain one is source code again, the typed one adds `: type` after
every typed node, and the inspected one spells out the kind, the span and the type of every
node.  Host values and the null node have no source code; they are shown in brackets.
-/

namespace TypedLisp

variable {H : Type}

/-- One character of a text between quotation marks: a quotation mark or a backslash has a
backslash before it. -/
def escapeChar (c : Char) : List Char :=
  if c = '\\' || c = '"' then ['\\', c] else [c]

/-- A text between quotation marks, as source code. -/
def quoteText (text : String) : String :=
  "\"" ++ String.ofList (text.toList.flatMap escapeChar) ++ "\""

namespace Node

mutual

/-- The node as text, with the types of all nodes that have one if `types` holds. -/
def print (types : Bool) : Node H → String
  | ⟨.null, _, _⟩ => "[null]"
  | ⟨.value v, _, type⟩ => "[raw: " ++ v.print ++ "]" ++ printType types type
  | ⟨.procedure _, _, type⟩ => "[raw: <host fn>]" ++ printType types type
  | ⟨.atom name, _, type⟩ => name ++ printType types type
  | ⟨.keyword name, _, type⟩ => "." ++ name ++ printType types type
  | ⟨.str text, _, type⟩ => quoteText text ++ printType types type
  | ⟨.quoted inner, _, type⟩ => "'" ++ print types inner ++ printType types type
  | ⟨.list items, _, type⟩ => "(" ++ printItems types items ++ ")" ++ printType types type

/-- The nodes of a list as text, with a space between two of them. -/
def printItems (types : Bool) : List (Node H) → String
  | [] => ""
  | [n] => print types n
  | n :: m :: ns => print types n ++ " " ++ printItems types (m :: ns)

/-- What follows a typed node. -/
def printType (types : Bool) : Option (Node H) → String
  | none => ""
  | some type => if types && !type.isNull then ": " ++ print types type else ""

end

/-- The node as source code without types. -/
def plain (n : Node H) : String := n.print false

/-- The node as source code with its types. -/
def typed (n : Node H) : String := n.print true

end Node

/-! ## Inspection -/

/-- One character of an inspected text. -/
def inspectChar (c : Char) : List Char :=
  if c = '"' then ['\\', '"']
  else if c = '\\' then ['\\', '\\']
  else if c = '\n' then ['\\', 'n']
  else if c = '\t' then ['\\', 't']
  else if c = '\r' then ['\\', 'r']
  else if c = '\x00' then ['\\', '0']
  else [c]

/-- An inspected text: quotation marks, backslashes and control characters are escaped. -/
def inspectText (text : String) : String :=
  "\"" ++ String.ofList (text.toList.flatMap inspectChar) ++ "\""

/-- A value with the name of its kind. -/
def Value.inspect : Value H → String
  | .int n => "Int(" ++ toString n.toInt ++ ")"
  | .bool b => "Bool(" ++ toString b ++ ")"
  | .str text => "Str(" ++ inspectText text ++ ")"
  | .unit => "Unit"
  | .func _ => "Func(<host fn>)"

/-- A span with the names of its parts. -/
def inspectSpan : Option Span → String
  | none => "None"
  | some s =>
    "Some(Span \x7b start: " ++ toString s.start ++ ", end: " ++ toString s.stop ++ " \x7d)"

mutual

/-- A kind with its name and its parts. -/
def Kind.inspect : Kind H → String
  | .quoted inner => "Quoted(" ++ Node.inspect inner ++ ")"
  | .list items => "List([" ++ Node.inspectAll items ++ "])"
  | .atom name => "Atom(" ++ inspectText name ++ ")"
  | .str text => "Str(" ++ inspectText text ++ ")"
  | .null => "Null"
  | .keyword name => "Keyword(" ++ inspectText name ++ ")"
  | .value v => "Native(" ++ v.inspect ++ ")"
  | .procedure _ => "NativeFn(<host fn>)"

/-- A node with the names of its parts, on one line. -/
def Node.inspect : Node H → String
  | ⟨kind, span, type⟩ =>
    "Node \x7b kind: " ++ Kind.inspect kind ++ ", span: " ++ inspectSpan span ++ ", ty: " ++
      Node.inspectOption type ++ " \x7d"

/-- An optional node with the names of its parts. -/
def Node.inspectOption : Option (Node H) → String
  | none => "None"
  | some n => "Some(" ++ Node.inspect n ++ ")"

/-- Inspected nodes, with a comma between two of them. -/
def Node.inspectAll : List (Node H) → String
  | [] => ""
  | [n] => Node.inspect n
  | n :: m :: ns => Node.inspect n ++ ", " ++ Node.inspectAll (m :: ns)

end

end TypedLisp
