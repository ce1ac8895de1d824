/-!
# Regions of a text

A span is a half-open range of byte offsets into the UTF-8 form of a source text.
-/
namespace CurveGuess

/-- The bytes from `start` up to, but not including, `stop`. -/
structure Span where
  start : Nat
  stop : Nat
  deriving DecidableEq, Repr, Inhabited

namespace Span

/-- The empty span at an offset. -/
def point (n : Nat) : Span := ⟨n, n⟩

/-- From the start of one span to the end of another. -/
def through (a b : Span) : Span := ⟨a.start, b.stop⟩

@[simp] theorem start_point (n : Nat) : (point n).start = n := rfl
@[simp] theorem stop_point (n : Nat) : (point n).stop = n := rfl
@[simp] theorem start_through (a b : Span) : (a.through b).start = a.start := rfl
@[simp] theorem stop_through (a b : Span) : (a.through b).stop = b.stop := rfl

end Span

end CurveGuess
