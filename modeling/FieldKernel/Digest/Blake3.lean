-- The BLAKE3 hash of a byte string, thirty-two bytes of it. Chunks of 1024 bytes are hashed block by
-- block; the chunk hashes are joined pairwise in a tree whose left part is as large a power of two
-- of chunks as leaves the right part not empty.
namespace FieldKernel.Blake3

abbrev Words8 := Vector UInt32 8
abbrev Words16 := Vector UInt32 16

def initial : Words8 :=
  #v[0x6A09E667, 0xBB67AE85, 0x3C6EF372, 0xA54FF53A, 0x510E527F, 0x9B05688C, 0x1F83D9AB, 0x5BE0CD19]

def chunkStart : UInt32 := 1
def chunkEnd : UInt32 := 2
def parent : UInt32 := 4
def root : UInt32 := 8

def rotateRight (x : UInt32) (n : UInt32) : UInt32 := (x >>> n) ||| (x <<< (32 - n))

def mix (v : Words16) (a b c d : Fin 16) (x y : UInt32) : Words16 :=
  let va := v[a] + v[b] + x
  let vd := rotateRight (v[d] ^^^ va) 16
  let vc := v[c] + vd
  let vb := rotateRight (v[b] ^^^ vc) 12
  let va := va + vb + y
  let vd := rotateRight (vd ^^^ va) 8
  let vc := vc + vd
  let vb := rotateRight (vb ^^^ vc) 7
  (((v.set a va).set b vb).set c vc).set d vd

def round (v m : Words16) : Words16 :=
  let v := mix v 0 4 8 12 m[0] m[1]
  let v := mix v 1 5 9 13 m[2] m[3]
  let v := mix v 2 6 10 14 m[4] m[5]
  let v := mix v 3 7 11 15 m[6] m[7]
  let v := mix v 0 5 10 15 m[8] m[9]
  let v := mix v 1 6 11 12 m[10] m[11]
  let v := mix v 2 7 8 13 m[12] m[13]
  mix v 3 4 9 14 m[14] m[15]

def permute (m : Words16) : Words16 :=
  #v[m[2], m[6], m[3], m[10], m[7], m[0], m[4], m[13], m[1], m[11], m[12], m[5], m[9], m[14], m[15],
    m[8]]

def rounds : Nat → Words16 → Words16 → Words16
  | 0, v, _ => v
  | left + 1, v, m => rounds left (round v m) (permute m)

structure Node where
  chain : Words8
  block : Words16
  counter : UInt64
  length : UInt32
  flags : UInt32

namespace Node

def compress (node : Node) (flags : UInt32) : Words8 :=
  let h := node.chain
  let v : Words16 :=
    #v[h[0], h[1], h[2], h[3], h[4], h[5], h[6], h[7], initial[0], initial[1], initial[2],
      initial[3], node.counter.toUInt32, (node.counter >>> 32).toUInt32, node.length,
      node.flags ||| flags]
  let v := rounds 7 v node.block
  #v[v[0] ^^^ v[8], v[1] ^^^ v[9], v[2] ^^^ v[10], v[3] ^^^ v[11], v[4] ^^^ v[12], v[5] ^^^ v[13],
    v[6] ^^^ v[14], v[7] ^^^ v[15]]

def chained (node : Node) : Words8 := node.compress 0

def rooted (node : Node) : Words8 := node.compress root

end Node

-- Pieces of `size` bytes, the last one perhaps shorter; `fuel` bounds their number.
def pieces (size : Nat) : Nat → List UInt8 → List (List UInt8)
  | 0, bytes => [bytes]
  | fuel + 1, bytes =>
    if bytes.length ≤ size then [bytes]
    else bytes.take size :: pieces size fuel (bytes.drop size)

def wordAt (bytes : List UInt8) (i : Nat) : UInt32 :=
  let byte (k : Nat) : UInt32 := (bytes.getD (4 * i + k) 0).toUInt32
  byte 0 ||| (byte 1 <<< 8) ||| (byte 2 <<< 16) ||| (byte 3 <<< 24)

def blockWords (bytes : List UInt8) : Words16 := Vector.ofFn fun i => wordAt bytes i.val

-- All blocks of a chunk but the last are chained; the last is left for its parent to finish.
def chunkNode (counter : UInt64) (chain : Words8) (flags : UInt32) : List (List UInt8) → Node
  | [] => ⟨chain, blockWords [], counter, 0, flags ||| chunkEnd⟩
  | [last] => ⟨chain, blockWords last, counter, last.length.toUInt32, flags ||| chunkEnd⟩
  | block :: blocks =>
    let chain := (Node.mk chain (blockWords block) counter 64 flags).chained
    chunkNode counter chain 0 blocks

def chunk (counter : Nat) (bytes : List UInt8) : Node :=
  chunkNode counter.toUInt64 initial chunkStart (pieces 64 16 bytes)

def parentNode (left right : Words8) : Node :=
  ⟨initial, (left ++ right).cast (by decide), 0, 64, parent⟩

-- The greatest power of two below `n`, from `p` up; `fuel` bounds the doublings.
def leftSize (n : Nat) : Nat → Nat → Nat
  | 0, p => p
  | fuel + 1, p => if 2 * p < n then leftSize n fuel (2 * p) else p

def tree : Nat → Nat → List (List UInt8) → Node
  | _, counter, [] => chunk counter []
  | _, counter, [bytes] => chunk counter bytes
  | 0, counter, bytes :: _ => chunk counter bytes
  | fuel + 1, counter, chunks =>
    let left := leftSize chunks.length chunks.length 1
    parentNode (tree fuel counter (chunks.take left)).chained
      (tree fuel (counter + left) (chunks.drop left)).chained

def wordBytes (w : UInt32) : List UInt8 :=
  [w.toUInt8, (w >>> 8).toUInt8, (w >>> 16).toUInt8, (w >>> 24).toUInt8]

def hash (bytes : List UInt8) : List UInt8 :=
  let chunks := pieces 1024 bytes.length bytes
  (tree chunks.length 0 chunks).rooted.toList.flatMap wordBytes

end FieldKernel.Blake3
