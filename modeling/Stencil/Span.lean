/-!
# Spans

A span is a range of byte offsets in a template source.
-/

namespace Stencil

/-- The byte offsets from `start` up to, and not including, `stop`. -/
structure Span where
  start : Nat
  stop : Nat
deriving DecidableEq

namespace Span

/-- The empty span at an offset. -/
def point (n : Nat) : Span := ⟨n, n⟩

/-- A span moved by a number of bytes. -/
def shift (s : Span) (n : Nat) : Span := ⟨s.start + n, s.stop + n⟩

end Span
end Stencil
