import FieldKernel.Source.Piece

-- Program texts to lexemes. A text is read byte by byte, each byte as the character of its number, so
-- positions are byte offsets and no byte above ASCII belongs to a lexeme. Blanks and comments from a
-- `#` to the end of the line separate lexemes and are otherwise skipped.
namespace FieldKernel

structure Scan where
  tokens : List (Located Lexeme)
  issues : List Diagnostic
  stop : Nat
  deriving DecidableEq, Repr

namespace Scan

def octets (text : String) : List Char := text.toUTF8.data.toList.map fun b => Char.ofNat b.toNat

def isBlank (c : Char) : Bool := c = ' ' || c = '\t' || c = '\n' || c = '\x0c' || c = '\r'

def addPiece (start : Nat) (piece : Piece) (scan : Scan) : Scan :=
  let span : Span := ⟨start, start + piece.width⟩
  { scan with
    tokens := (piece.lexeme?.map (Located.mk · span)).toList ++ scan.tokens
    issues := (piece.issue?.map (Located.mk · span)).toList ++ scan.issues }

-- Every step takes at least one character, so `fuel` of the text's length suffices.
def ofOctets : Nat → Nat → List Char → Scan
  | _, start, [] => ⟨[], [], start⟩
  | 0, start, _ => ⟨[], [], start⟩
  | fuel + 1, start, c :: rest =>
    if isBlank c then ofOctets fuel (start + 1) rest
    else if c = '#' then
      let comment := rest.takeWhile (· ≠ '\n')
      ofOctets fuel (start + 1 + comment.length) (rest.drop comment.length)
    else
      let piece := Piece.ofHead c rest
      (ofOctets fuel (start + piece.width) ((c :: rest).drop piece.width)).addPiece start piece

def ofText (text : String) : Scan :=
  let cs := octets text
  ofOctets cs.length 0 cs

end Scan

end FieldKernel
