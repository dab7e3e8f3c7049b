/-!
# Source positions

A span is where a node or a name stands in the text of a program. Spans are data for
messages: nothing that the compiler decides depends on them, and only the line and the
column are ever shown.
-/

namespace BlockLang

/-- A stretch of source text: its line, its column and its length. The all-zero span stands
for no position. -/
structure Span where
  line : Nat
  col : Nat
  len : Nat
  deriving DecidableEq, Repr, Inhabited

namespace Span

/-- No position. -/
def none : Span := ⟨0, 0, 0⟩

/-- The place before a column, of no length. -/
def point (line col : Nat) : Span := ⟨line, col, 0⟩

/-- The start of a line. -/
def ofLine (line : Nat) : Span := ⟨line, 1, 0⟩

def isEmpty (s : Span) : Bool := s.len == 0

/-- Messages give line and column; the length is never shown. -/
def text (s : Span) : String := toString s.line ++ ":" ++ toString s.col

end Span

end BlockLang
