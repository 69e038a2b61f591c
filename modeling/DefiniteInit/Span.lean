/-!
# Spans

The stretch of program text a node was read from.
-/

namespace DefiniteInit

/-- The text from offset `start` up to, and without, offset `stop`. -/
structure Span where
  /-- Offset of the first character. -/
  start : Nat
  /-- Offset just past the last character. -/
  stop : Nat
  /-- A span does not end before it starts. -/
  start_le_stop : start ≤ stop := by decide
deriving DecidableEq

namespace Span

/-- The span of a node no text was written for. -/
def empty : Span := ⟨0, 0, Nat.le_refl 0⟩

instance : Inhabited Span := ⟨empty⟩

/-- The span between two offsets, unless they are out of order. -/
def between? (start stop : Nat) : Option Span :=
  if h : start ≤ stop then some ⟨start, stop, h⟩ else none

end Span

end DefiniteInit
