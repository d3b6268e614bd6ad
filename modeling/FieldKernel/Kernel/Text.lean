import FieldKernel.Error
import FieldKernel.Kernel.Basic

-- The text of kernels: one statement a line, nested blocks two blanks further in.
namespace FieldKernel

variable {α : Type} [Scalar α]

def Place.text (place : Place) : String :=
  place.field ++ "[" ++ ValueId.listText place.index ++ "]"

def Expr.text : Expr α → String
  | const value => "const " ++ Scalar.literal value
  | index axis => s!"index {axis}"
  | arg position => s!"arg {position}"
  | load place => "load " ++ place.text
  | binary op lhs rhs => s!"{op.name} {lhs.text}, {rhs.text}"
  | unary op operand => s!"{op.name} {operand.text}"
  | compare op lhs rhs => s!"{op.name} {lhs.text}, {rhs.text}"

def Instr.text : Instr α → String
  | define dst expr => dst.text ++ " = " ++ expr.text
  | store place value => s!"store {place.text}, {value.text}"
  | readGrad target place => s!"adj {target.text} += grad {place.text}"
  | propagate target source .one => s!"adj {target.text} += adj {source.text}"
  | propagate target source .minusOne => s!"adj {target.text} -= adj {source.text}"
  | propagate target source (.value factor) =>
    s!"adj {target.text} += adj {source.text} * {factor.text}"
  | addGrad place source => s!"grad {place.text} += adj {source.text}"

def indent (depth : Nat) : String := String.ofList (List.replicate (2 * depth) ' ')

namespace Block

-- An empty second block is not written.
def lines (depth : Nat) : Block α → List String
  | nil => []
  | instr i rest => (indent depth ++ i.text) :: rest.lines depth
  | branch cond onTrue onFalse rest =>
    (indent depth ++ "if " ++ cond.text ++ " \x7b") :: onTrue.lines (depth + 1)
      ++ (if onFalse.isEmpty then []
          else (indent depth ++ "\x7d else \x7b") :: onFalse.lines (depth + 1))
      ++ (indent depth ++ "\x7d") :: rest.lines depth

end Block

def joinLines (lines : List String) : String := String.join (lines.map (· ++ "\n"))

def Block.text (block : Block α) : String := joinLines (block.lines 0)

namespace Kernel

def header (kernel : Kernel α) : String :=
  "kernel " ++ kernel.name ++ " over " ++ kernel.domain.text
    ++ (if 0 < kernel.argCount then s!" args {kernel.argCount}" else "") ++ " \x7b"

def text (kernel : Kernel α) : String :=
  joinLines (kernel.header :: kernel.body.lines 1 ++ ["\x7d"])

end Kernel

end FieldKernel
