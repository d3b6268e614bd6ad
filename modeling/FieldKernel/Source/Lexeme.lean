import FieldKernel.Decimal.Basic

-- The lexemes of program texts.
namespace FieldKernel

inductive Mark where
  | kernel | onDomain | args | field | within | grad | store | branch | otherwise | adj
  | leftBrace | rightBrace | leftBracket | rightBracket | comma | colon | dot | dotDot
  | equals | plusEquals | minusEquals | minus | star
  deriving DecidableEq, Repr

namespace Mark

def keywords : List Mark :=
  [kernel, onDomain, args, field, within, grad, store, branch, otherwise, adj]

def text : Mark → String
  | kernel => "kernel"
  | onDomain => "over"
  | args => "args"
  | field => "field"
  | within => "in"
  | grad => "grad"
  | store => "store"
  | branch => "if"
  | otherwise => "else"
  | adj => "adj"
  | leftBrace => "\x7b"
  | rightBrace => "\x7d"
  | leftBracket => "["
  | rightBracket => "]"
  | comma => ","
  | colon => ":"
  | dot => "."
  | dotDot => ".."
  | equals => "="
  | plusEquals => "+="
  | minusEquals => "-="
  | minus => "-"
  | star => "*"

def ofKeyword? (word : String) : Option Mark := keywords.find? fun mark => mark.text = word

end Mark

inductive Lexeme where
  | mark (m : Mark)
  | integer (n : Nat)
  | number (d : Decimal)
  -- `%n`
  | value (n : Nat)
  | word (name : String)
  deriving DecidableEq, Repr

def Lexeme.ofWord (word : String) : Lexeme :=
  match Mark.ofKeyword? word with
  | some m => .mark m
  | none => .word word

def Lexeme.description : Lexeme → String
  | mark m => "'" ++ m.text ++ "'"
  | integer _ => "integer literal"
  | number _ => "number"
  | value _ => "value"
  | word _ => "identifier"

def describeFound : Option Lexeme → String
  | some lexeme => lexeme.description
  | none => "end of file"

end FieldKernel
