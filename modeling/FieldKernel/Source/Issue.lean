import FieldKernel.Error
import FieldKernel.Source.Lexeme
import FieldKernel.Source.Span

-- What can be wrong with a program text, and the one wording of it.
namespace FieldKernel

inductive Wanted where
  | mark (m : Mark)
  | identifier
  | integer
  | value
  | number
  | item
  deriving DecidableEq, Repr

inductive Issue where
  | unexpectedCharacter (c : Char)
  | lonePlus
  | missingValueNumber
  | valueTooLarge (text : String)
  | integerTooLarge (text : String)
  | expected (wanted : Wanted) (found : Option Lexeme)
  | expectedStatement
  | unknownElementType (name : String)
  | unknownOperation (name : String)
  | nestingTooDeep
  | kernelRefused (error : KernelFault)
  deriving DecidableEq, Repr

def Wanted.description : Wanted → String
  | mark m => (Lexeme.mark m).description
  | identifier => "identifier"
  | integer => "integer literal"
  | value => "value"
  | number => "a number"
  | item => "'field', 'grad' or 'kernel'"

def maxNesting : Nat := 256

def maxInteger : Nat := 18446744073709551615

def maxValueNumber : Nat := 4294967295

-- At least four upper-case hexadecimal digits.
def codePointText (c : Char) : String :=
  let digits := (Nat.toDigits 16 c.toNat).map Char.toUpper
  String.ofList (List.replicate (4 - digits.length) '0' ++ digits)

namespace Issue

def message : Issue → String
  | unexpectedCharacter c =>
    "unexpected character '" ++ c.toString ++ "' (U+" ++ codePointText c ++ ")"
  | lonePlus => "unexpected '+'"
  | missingValueNumber => "expected a value number after '%'"
  | valueTooLarge text => s!"value number '{text}' is too large"
  | integerTooLarge text => s!"integer literal '{text}' is too large"
  | expected wanted found => s!"expected {wanted.description}, found {describeFound found}"
  | expectedStatement => "expected a statement"
  | unknownElementType name => s!"unknown element type '{name}'"
  | unknownOperation name => s!"unknown operation '{name}'"
  | nestingTooDeep => s!"nesting depth exceeded (maximum {maxNesting} levels)"
  | kernelRefused error => error.message

def help? : Issue → Option String
  | unexpectedCharacter _ => some "this character is not part of the kernel text format"
  | lonePlus => some "arithmetic is written as `%2 = add %0, %1`"
  | missingValueNumber => some "values are written `%0`, `%1`, ..."
  | integerTooLarge _ => some s!"maximum integer value is {maxInteger}"
  | expected .item _ =>
    some "a program file declares fields, enables gradients, and defines kernels"
  | unknownElementType _ => some "element types are f32, f64 and i32"
  | unknownOperation _ =>
    some "expected const, index, arg, load, or an operator name such as add or sin"
  | nestingTooDeep => some "flatten deeply nested branches"
  | _ => none

end Issue

abbrev Diagnostic := Located Issue

end FieldKernel
