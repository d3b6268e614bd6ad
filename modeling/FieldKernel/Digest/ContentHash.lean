import FieldKernel.Digest.Basic
import FieldKernel.Digest.Blake3

-- Content hashes: BLAKE3 digests, shown in full as hexadecimal digits or in short as eight letters.
namespace FieldKernel

structure ContentHash where
  bytes : List UInt8
  deriving DecidableEq, Repr

instance : Digest ContentHash where
  ofBytes bytes := ⟨Blake3.hash bytes⟩

namespace ContentHash

def hexDigits (b : UInt8) : List Char :=
  [Nat.digitChar (b.toNat / 16), Nat.digitChar (b.toNat % 16)]

def hex (hash : ContentHash) : String := String.ofList (hash.bytes.flatMap hexDigits)

def alphabet : List Char := "0123456789abcdefghjkmnpqrstuvwxyz".toList

-- The first forty bits, five to a letter.
def short (hash : ContentHash) : String :=
  let value := (hash.bytes.take 5).foldl (fun n b => 256 * n + b.toNat) 0
  String.ofList ((List.range 8).map fun i => alphabet.getD (value / Nat.pow 32 (7 - i) % 32) '0')

def text (hash : ContentHash) : String := "#" ++ hash.short

end ContentHash

end FieldKernel
