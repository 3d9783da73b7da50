/-!
# Source spans

A span is a half-open range of byte offsets into a source text. Offsets are held up to
`maxOffset`; a text longer than that has its far offsets reported as `maxOffset`.
-/
namespace SmallLisp

/-- The greatest offset a span holds. -/
def maxOffset : Nat := 4294967295

structure Span where
  start : Nat
  stop : Nat
deriving DecidableEq, Inhabited

namespace Span

def ofOffsets (start stop : Nat) : Span := ⟨min start maxOffset, min stop maxOffset⟩

/-- The span of no bytes at an offset. -/
def point (offset : Nat) : Span := ofOffsets offset offset

/-- Number of bytes covered; a span whose ends are out of order covers none. -/
def length (s : Span) : Nat := s.stop - s.start

def isEmpty (s : Span) : Bool := s.length == 0

def cover (s t : Span) : Span := ⟨min s.start t.start, max s.stop t.stop⟩

/-- Written as `start..stop`. -/
def text (s : Span) : String := toString s.start ++ ".." ++ toString s.stop

/-- Offsets within the limit are kept as they are. -/
theorem ofOffsets_of_le {start stop : Nat} (h : start ≤ stop) (hs : stop ≤ maxOffset) :
    ofOffsets start stop = ⟨start, stop⟩ := by
  simp [ofOffsets, Nat.min_eq_left hs, Nat.min_eq_left (Nat.le_trans h hs)]

end Span
end SmallLisp
