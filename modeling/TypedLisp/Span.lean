/-!
# Spans

A span is a half-open range of bytes of the source.  Nodes, tokens and errors carry the
span of the text that they come from; what the program makes up itself has none.
-/

namespace TypedLisp

/-- The bytes of the source from `start` up to, not including, `stop`. -/
structure Span where
  /-- The first byte. -/
  start : Nat
  /-- The byte after the last one. -/
  stop : Nat
deriving DecidableEq, Repr, Inhabited

namespace Span

/-- The empty span at a byte. -/
def point (n : Nat) : Span := ⟨n, n⟩

/-- The span moved `n` bytes to the right. -/
def shift (s : Span) (n : Nat) : Span := ⟨s.start + n, s.stop + n⟩

/-- The span as messages show it. -/
def text (s : Span) : String :=
  "[" ++ toString s.start ++ " --> " ++ toString s.stop ++ "]"

/-- The span from the start of one optional span to the end of another, if both are known. -/
def cover : Option Span → Option Span → Option Span
  | some first, some last => some ⟨first.start, last.stop⟩
  | _, _ => none

end Span
end TypedLisp
