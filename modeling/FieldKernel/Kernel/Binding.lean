import FieldKernel.Field.Table
import FieldKernel.Kernel.Access
import FieldKernel.Kernel.Identity
import FieldKernel.Kernel.Scope

-- Bound kernels: well formed, with every field in the table and as many coordinates as it has axes.
namespace FieldKernel

variable {α δ : Type} [Scalar α] [Digest δ]

structure Bound (α δ : Type) where
  kernel : Kernel α
  -- of every field the kernel names
  signatures : Signatures
  access : Access
  digest : δ
  deriving DecidableEq

namespace Kernel

def resolve (table : FieldTable α) : List String → Except KernelFault Signatures
  | [] => .ok .empty
  | name :: names => do
    let field ← table.field name
    return (← resolve table names).insert name field.signature

def accessRankFault? (kernel : Kernel α) (signatures : Signatures) (place : Place) :
    Option KernelFault :=
  match signatures.find? place.field with
  | some signature =>
    if signature.shape.length = place.index.length then none
    else some (.shapeMismatch place.field
      (.accessRank kernel.name place.index.length signature.shape.length))
  | none => none

def accessRanks (kernel : Kernel α) (signatures : Signatures) : Except KernelFault Unit :=
  match (kernel.body.statements.filterMap Statement.place?).findSome?
      (kernel.accessRankFault? signatures) with
  | some error => .error error
  | none => .ok ()

def bind (kernel : Kernel α) (table : FieldTable α) : Except KernelFault (Bound α δ) := do
  kernel.check
  let access := Access.ofBlock kernel.body
  let signatures ← resolve table access.fields.names
  kernel.accessRanks signatures
  return ⟨kernel, signatures, access, kernel.digest signatures⟩

end Kernel

end FieldKernel
