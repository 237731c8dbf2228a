/-!
# Spans

A span is a half-open range of byte offsets. Moving one by a signed distance stops at the start of
the text.
-/

namespace MuCompletion

/-- The bytes from `start` up to, and without, `stop`. -/
@[ext] structure Span where
  /-- The first byte. -/
  start : Nat
  /-- The byte after the last one. -/
  stop : Nat
  deriving DecidableEq, Repr

/-- An offset moved by a signed distance; it never moves before the start of the text. -/
def shiftOffset (delta : Int) (offset : Nat) : Nat :=
  (offset + delta).toNat

@[simp] theorem shiftOffset_zero (offset : Nat) : shiftOffset 0 offset = offset := by
  simp [shiftOffset]

namespace Span

/-- The number of bytes in the span. -/
def length (span : Span) : Nat :=
  span.stop - span.start

/-- Both ends moved by a signed distance. -/
def shift (delta : Int) (span : Span) : Span :=
  ⟨shiftOffset delta span.start, shiftOffset delta span.stop⟩

@[simp] theorem shift_zero (span : Span) : span.shift 0 = span := by
  simp [shift]

end Span

end MuCompletion
