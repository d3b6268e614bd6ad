import FieldKernel.Kernel.Binding
import FieldKernel.Reverse.Basic

-- Gradient kernels by the digest of the bound kernel they were derived from, so that kernels which
-- print alike and see the same fields share one derivation. Failures are kept too.
namespace FieldKernel

variable {α δ : Type} [Scalar α] [DecidableEq δ]

abbrev Derived (α : Type) := Except KernelFault (Kernel α)

structure Derivations (α δ : Type) where
  derived : List (δ × Derived α)
  -- how often a derivation was made
  made : Nat

namespace Derivations

def empty : Derivations α δ := ⟨[], 0⟩

def cached (derivations : Derivations α δ) (digest : δ) : Option (Derived α) :=
  derivations.derived.lookup digest

def size (derivations : Derivations α δ) : Nat := derivations.derived.length

-- The gradient kernel of a bound kernel; derived on the first request for its digest.
def derive (bound : Bound α δ) : StateM (Derivations α δ) (Derived α) := do
  match (← get).cached bound.digest with
  | some derived => return derived
  | none =>
    let derived := bound.kernel.reverse bound.signatures
    modify fun derivations =>
      ⟨(bound.digest, derived) :: derivations.derived, derivations.made + 1⟩
    return derived

end Derivations

end FieldKernel
