-- Digests of byte strings. Caches are keyed by a digest; which one is left open, so that what depends
-- on its being free of collisions can say so.
namespace FieldKernel

class Digest (δ : Type) where
  ofBytes : List UInt8 → δ

end FieldKernel
