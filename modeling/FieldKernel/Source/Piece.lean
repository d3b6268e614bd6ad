import FieldKernel.Source.Issue

-- The pieces of program texts: the longest lexeme at the head of a text, or what stands there in place of one.
namespace FieldKernel

-- How many characters a piece takes, what they denote, what is wrong with them.
structure Piece where
  width : Nat
  lexeme? : Option Lexeme
  issue? : Option Issue
  deriving DecidableEq, Repr

namespace Piece

def isLetter (c : Char) : Bool := ('a' ≤ c && c ≤ 'z') || ('A' ≤ c && c ≤ 'Z')

def isDigit (c : Char) : Bool := '0' ≤ c && c ≤ '9'

def startsWord (c : Char) : Bool := isLetter c || c = '_'

def continuesWord (c : Char) : Bool := startsWord c || isDigit c

def ofLexeme (width : Nat) (lexeme : Lexeme) : Piece := ⟨width, some lexeme, none⟩

def ofMark (m : Mark) : Piece := ofLexeme m.text.length (.mark m)

def ofIssue (width : Nat) (issue : Issue) : Piece := ⟨width, none, some issue⟩

def word (cs : List Char) : Piece :=
  let word := cs.takeWhile continuesWord
  .ofLexeme word.length (.ofWord (String.ofList word))

-- A point starts the fraction unless a second point follows.
def fraction? : List Char → Option (List Char)
  | '.' :: '.' :: _ => none
  | '.' :: cs => some (cs.takeWhile isDigit)
  | _ => none

-- An exponent without digits is none: its letter starts the next lexeme.
structure Exponent where
  width : Nat
  value : Int
  deriving DecidableEq, Repr

def exponentDigits (negative : Bool) (mark : Nat) (cs : List Char) : Option Exponent :=
  let digits := cs.takeWhile isDigit
  let magnitude : Int := Decimal.natOfDigits digits
  if digits.isEmpty then none
  else some ⟨mark + digits.length, if negative then -magnitude else magnitude⟩

def exponent? : List Char → Option Exponent
  | [] => none
  | e :: cs =>
    if e = 'e' ∨ e = 'E' then
      match cs with
      | '-' :: cs => exponentDigits true 2 cs
      | '+' :: cs => exponentDigits false 2 cs
      | cs => exponentDigits false 1 cs
    else none

def integer (digits : List Char) : Piece :=
  let n := Decimal.natOfDigits digits
  if n ≤ maxInteger then .ofLexeme digits.length (.integer n)
  else ⟨digits.length, some (.integer 0), some (.integerTooLarge (String.ofList digits))⟩

def number (cs : List Char) : Piece :=
  let whole := cs.takeWhile isDigit
  let rest := cs.drop whole.length
  let fraction := fraction? rest
  let fractionWidth := match fraction with
    | some digits => digits.length + 1
    | none => 0
  match fraction, exponent? (rest.drop fractionWidth) with
  | none, none => integer whole
  | some digits, none =>
    .ofLexeme (whole.length + fractionWidth) (.number (.ofParts whole digits 0))
  | digits, some exponent =>
    .ofLexeme (whole.length + fractionWidth + exponent.width)
      (.number (.ofParts whole (digits.getD []) exponent.value))

def value (cs : List Char) : Piece :=
  let digits := cs.takeWhile isDigit
  let n := Decimal.natOfDigits digits
  let width := digits.length + 1
  if digits.isEmpty then .ofIssue 1 .missingValueNumber
  else if n ≤ maxValueNumber then .ofLexeme width (.value n)
  else .ofIssue width (.valueTooLarge (String.ofList ('%' :: digits)))

def symbol (c : Char) (rest : List Char) : Piece :=
  match c, rest with
  | '\x7b', _ => .ofMark .leftBrace
  | '\x7d', _ => .ofMark .rightBrace
  | '[', _ => .ofMark .leftBracket
  | ']', _ => .ofMark .rightBracket
  | ',', _ => .ofMark .comma
  | ':', _ => .ofMark .colon
  | '=', _ => .ofMark .equals
  | '*', _ => .ofMark .star
  | '.', '.' :: _ => .ofMark .dotDot
  | '.', _ => .ofMark .dot
  | '+', '=' :: _ => .ofMark .plusEquals
  | '+', _ => .ofIssue 1 .lonePlus
  | '-', '=' :: _ => .ofMark .minusEquals
  | '-', _ => .ofMark .minus
  | c, _ => .ofIssue 1 (.unexpectedCharacter c)

-- The piece at the head of a text that starts with neither a blank nor a comment.
def ofHead (c : Char) (rest : List Char) : Piece :=
  if startsWord c then word (c :: rest)
  else if isDigit c then number (c :: rest)
  else if c = '%' then value rest
  else symbol c rest

end Piece

end FieldKernel
