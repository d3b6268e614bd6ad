-- Values of a kernel: the numbered registers its statements define and read.
namespace FieldKernel

-- Counts, and numbers of values, are words of 32 bits.
def shortWord (n : Nat) : Nat := n % 4294967296

structure ShortWord where
  toNat : Nat
  short : toNat < 4294967296
  deriving DecidableEq, Repr

namespace ShortWord

def ofNat (n : Nat) : ShortWord := ⟨shortWord n, Nat.mod_lt n (by decide)⟩

instance : Coe ShortWord Nat := ⟨toNat⟩

instance : Coe Nat ShortWord := ⟨ofNat⟩

instance (n : Nat) : OfNat ShortWord n := ⟨ofNat n⟩

end ShortWord

structure ValueId where
  index : Nat
  deriving DecidableEq, Repr

namespace ValueId

def text (v : ValueId) : String := "%" ++ toString v.index

def listText (vs : List ValueId) : String := String.intercalate ", " (vs.map text)

def word (v : ValueId) : ValueId := ⟨shortWord v.index⟩

def shift (offset : Nat) (v : ValueId) : ValueId := ⟨shortWord (v.index + offset)⟩

end ValueId

end FieldKernel
