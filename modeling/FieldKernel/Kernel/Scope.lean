import FieldKernel.Error
import FieldKernel.Kernel.Basic

-- Well-formed kernels. Every value is defined once and below the value counter; it is read only after
-- its definition, in the block that defines it or in a block nested there; loop indices stay within
-- the rank of the domain, and argument positions within the argument count.
namespace FieldKernel

variable {α : Type}

namespace Kernel

def operandsInScope (kernel : Kernel α) (visible : List ValueId) (s : Statement α) :
    Except KernelFault Unit :=
  match s.operands.find? fun v => !visible.contains v with
  | some v => .error (.malformed kernel.name (.outOfScope s.mnemonic v))
  | none => .ok ()

def exprInBounds (kernel : Kernel α) : Expr α → Except KernelFault Unit
  | .index axis =>
    if axis < kernel.domain.rank then .ok ()
    else .error (.shapeMismatch kernel.name (.axisBeyondRank axis kernel.domain.rank))
  | .arg position =>
    if position < kernel.argCount then .ok ()
    else .error (.malformed kernel.name (.argumentPosition position kernel.argCount))
  | _ => .ok ()

def definable (kernel : Kernel α) (defined : List ValueId) (dst : ValueId) :
    Except KernelFault Unit :=
  if kernel.counter.toNat ≤ dst.index then
    .error (.malformed kernel.name (.beyondCounter dst kernel.counter))
  else if defined.contains dst then .error (.malformed kernel.name (.redefined dst))
  else .ok ()

def checkInstr (kernel : Kernel α) (visible defined : List ValueId) (i : Instr α) :
    Except KernelFault Unit := do
  kernel.operandsInScope visible (.instr i)
  match i with
  | .define dst expr =>
    kernel.exprInBounds expr
    kernel.definable defined dst
  | _ => pure ()

-- `visible` holds what the block may read, `defined` what any block before has defined; the
-- result is what is defined after it.
def checkBlock (kernel : Kernel α) (visible defined : List ValueId) :
    Block α → Except KernelFault (List ValueId)
  | .nil => .ok defined
  | .instr i rest => do
    kernel.checkInstr visible defined i
    kernel.checkBlock (i.dst?.toList ++ visible) (i.dst?.toList ++ defined) rest
  | .branch cond onTrue onFalse rest => do
    kernel.operandsInScope visible (.branch cond)
    let defined ← kernel.checkBlock visible defined onTrue
    let defined ← kernel.checkBlock visible defined onFalse
    kernel.checkBlock visible defined rest

-- Accepts the well-formed kernels, and names the first fault in reading order.
def check (kernel : Kernel α) : Except KernelFault Unit :=
  (kernel.checkBlock [] [] kernel.body).map fun _ => ()

end Kernel

end FieldKernel
