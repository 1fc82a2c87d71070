/-!
# Spans

A span is a range of byte offsets in a source text. Its ends are not required to be in order;
a reversed span is treated as empty.
-/
namespace LamScope

structure Span where
  start : Nat
  stop : Nat
deriving DecidableEq, Repr, Inhabited

namespace Span

/-- From the earlier start to the later stop. -/
def join (a b : Span) : Span := ⟨min a.start b.start, max a.stop b.stop⟩

def length (a : Span) : Nat := a.stop - a.start

def isEmpty (a : Span) : Bool := a.length == 0

end Span

end LamScope
