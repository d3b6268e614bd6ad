-- Byte ranges of a text.
namespace FieldKernel

structure Span where
  start : Nat
  stop : Nat
  deriving DecidableEq, Repr

namespace Span

def point (offset : Nat) : Span := ⟨offset, offset⟩

def merge (a b : Span) : Span := ⟨min a.start b.start, max a.stop b.stop⟩

def length (span : Span) : Nat := span.stop - span.start

def isEmpty (span : Span) : Bool := span.length = 0

end Span

structure Located (β : Type) where
  node : β
  span : Span
  deriving DecidableEq, Repr

end FieldKernel
