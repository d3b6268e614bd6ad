import FieldKernel.Kernel.Basic
import FieldKernel.NameMap

-- The fields a block touches, by the storage it touches and by whether it only reads.
namespace FieldKernel

variable {α : Type}

structure Access where
  reads : NameSet
  writes : NameSet
  gradReads : NameSet
  gradWrites : NameSet
  deriving DecidableEq

namespace Access

def empty : Access := ⟨.empty, .empty, .empty, .empty⟩

def addInstr (access : Access) : Instr α → Access
  | .define _ (.load place) => { access with reads := access.reads.add place.field }
  | .define _ _ | .propagate _ _ _ => access
  | .store place _ => { access with writes := access.writes.add place.field }
  | .readGrad _ place => { access with gradReads := access.gradReads.add place.field }
  | .addGrad place _ => { access with gradWrites := access.gradWrites.add place.field }

def addStatement (access : Access) : Statement α → Access
  | .instr i => access.addInstr i
  | .branch _ => access

def ofBlock (block : Block α) : Access := block.statements.foldl addStatement empty

def gradientFields (access : Access) : NameSet := access.gradReads.union access.gradWrites

def allWrites (access : Access) : NameSet := access.writes.union access.gradWrites

def fields (access : Access) : NameSet :=
  (access.reads.union access.writes).union access.gradientFields

end Access

end FieldKernel
