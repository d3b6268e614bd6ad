import FieldKernel.Scalar.Basic

-- The operators of kernels, their names in texts, and what they compute.
namespace FieldKernel

variable {α : Type} [Scalar α]

inductive BinaryOp where
  | add | sub | mul | div | pow | max | min | mod | floorDiv
  deriving DecidableEq, Repr

inductive UnaryOp where
  | neg | sin | cos | exp | log | sqrt | tanh | abs | sgn
  deriving DecidableEq, Repr

inductive CompareOp where
  | eq | ne | lt | le | gt | ge
  deriving DecidableEq, Repr

namespace BinaryOp

def all : List BinaryOp := [add, sub, mul, div, pow, max, min, mod, floorDiv]

def name : BinaryOp → String
  | add => "add"
  | sub => "sub"
  | mul => "mul"
  | div => "div"
  | pow => "pow"
  | max => "max"
  | min => "min"
  | mod => "mod"
  | floorDiv => "floordiv"

def ofName? (text : String) : Option BinaryOp := all.find? fun op => op.name = text

def apply : BinaryOp → α → α → α
  | add, a, b => a + b
  | sub, a, b => a - b
  | mul, a, b => a * b
  | div, a, b => a / b
  | pow, a, b => Scalar.pow a b
  | max, a, b => Scalar.max a b
  | min, a, b => Scalar.min a b
  | mod, a, b => Scalar.floorMod a b
  | floorDiv, a, b => Scalar.floorDiv a b

end BinaryOp

namespace UnaryOp

def all : List UnaryOp := [neg, sin, cos, exp, log, sqrt, tanh, abs, sgn]

def name : UnaryOp → String
  | neg => "neg"
  | sin => "sin"
  | cos => "cos"
  | exp => "exp"
  | log => "log"
  | sqrt => "sqrt"
  | tanh => "tanh"
  | abs => "abs"
  | sgn => "sgn"

def ofName? (text : String) : Option UnaryOp := all.find? fun op => op.name = text

def apply : UnaryOp → α → α
  | neg, a => -a
  | sin, a => Scalar.sin a
  | cos, a => Scalar.cos a
  | exp, a => Scalar.exp a
  | log, a => Scalar.log a
  | sqrt, a => Scalar.sqrt a
  | tanh, a => Scalar.tanh a
  | abs, a => Scalar.abs a
  | sgn, a => Scalar.sign a

end UnaryOp

namespace CompareOp

def all : List CompareOp := [eq, ne, lt, le, gt, ge]

def name : CompareOp → String
  | eq => "eq"
  | ne => "ne"
  | lt => "lt"
  | le => "le"
  | gt => "gt"
  | ge => "ge"

def ofName? (text : String) : Option CompareOp := all.find? fun op => op.name = text

def holds : CompareOp → α → α → Bool
  | eq, a, b => Scalar.eq a b
  | ne, a, b => !Scalar.eq a b
  | lt, a, b => Scalar.lt a b
  | le, a, b => Scalar.le a b
  | gt, a, b => Scalar.lt b a
  | ge, a, b => Scalar.le b a

def apply (op : CompareOp) (a b : α) : α := Scalar.ofBool (op.holds a b)

end CompareOp

end FieldKernel
