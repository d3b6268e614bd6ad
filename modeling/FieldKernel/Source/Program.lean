import FieldKernel.Field.Element
import FieldKernel.Kernel.Scope
import FieldKernel.Source.Issue

-- Programs: field declarations, the groups whose gradients are enabled, and kernels.
namespace FieldKernel

variable {α : Type}

structure FieldDecl where
  name : String
  element : ElementType
  shape : Shape
  -- the root group if absent
  group? : Option String
  span : Span
  deriving DecidableEq, Repr

structure Program (α : Type) where
  fields : List FieldDecl
  grads : List (Located String)
  kernels : List (Located (Kernel α))
  deriving DecidableEq, Repr

namespace Program

def empty : Program α := ⟨[], [], []⟩

def kernel? (program : Program α) (name : String) : Option (Kernel α) :=
  (program.kernels.map (·.node)).find? fun kernel => kernel.name = name

def refusals (program : Program α) : List Diagnostic :=
  program.kernels.filterMap fun kernel =>
    match kernel.node.check with
    | .ok _ => none
    | .error error => some ⟨.kernelRefused error, kernel.span⟩

end Program

end FieldKernel
