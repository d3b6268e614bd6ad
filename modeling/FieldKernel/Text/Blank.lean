-- White space as Unicode has it, and trimming.
namespace FieldKernel.Text

-- The characters with the property White_Space.
def isBlank (c : Char) : Bool :=
  let n := c.toNat
  (9 ≤ n && n ≤ 13) || n = 0x20 || n = 0x85 || n = 0xA0 || n = 0x1680 || (0x2000 ≤ n && n ≤ 0x200A)
    || n = 0x2028 || n = 0x2029 || n = 0x202F || n = 0x205F || n = 0x3000

def trimEnd (p : Char → Bool) (cs : List Char) : List Char := (cs.reverse.dropWhile p).reverse

def trimWith (p : Char → Bool) (cs : List Char) : List Char := trimEnd p (cs.dropWhile p)

def trim (cs : List Char) : List Char := trimWith isBlank cs

def splitOnce (c : Char) : List Char → Option (List Char × List Char)
  | [] => none
  | d :: ds =>
    if d = c then some ([], ds) else (splitOnce c ds).map fun parts => (d :: parts.1, parts.2)

def lines : List Char → List (List Char)
  | [] => []
  | c :: cs =>
    if c = '\n' then [c] :: lines cs
    else match lines cs with
      | [] => [[c]]
      | line :: rest => (c :: line) :: rest

def byteLength (cs : List Char) : Nat := cs.foldl (fun n c => n + c.utf8Size) 0

end FieldKernel.Text
