import FieldKernel.Field.Shape
import FieldKernel.Scalar.Basic

-- Element types of fields, and the signature that kernels are bound against.
namespace FieldKernel

inductive ElementType where
  | f32 | f64 | i32
  deriving DecidableEq, Repr

namespace ElementType

def all : List ElementType := [f32, f64, i32]

def name : ElementType → String
  | f32 => "f32"
  | f64 => "f64"
  | i32 => "i32"

def ofName? (text : String) : Option ElementType := all.find? fun element => element.name = text

def isReal : ElementType → Bool
  | f32 | f64 => true
  | i32 => false

-- What an element of this type holds after a number is written to it.
def cast {α : Type} [Scalar α] : ElementType → α → α
  | f32, a => Scalar.toSingle a
  | f64, a => a
  | i32, a => Scalar.toInt32 a

end ElementType

structure Signature where
  element : ElementType
  shape : Shape
  deriving DecidableEq, Repr

def Signature.text (signature : Signature) : String :=
  signature.element.name ++ signature.shape.text

end FieldKernel
