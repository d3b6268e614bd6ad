import FieldKernel.Execution.Machine
import FieldKernel.Kernel.Binding

-- Running a kernel over its domain. A launch that fails leaves every field as it was.
namespace FieldKernel

variable {α δ : Type} [Scalar α]

-- Passes over a field table; a failing pass may leave it changed.
abbrev Pass (α : Type) := EStateM KernelFault (FieldTable α)

namespace Kernel

def runPoint (kernel : Kernel α) (args : List α) (point : Point) : Pass α Unit := fun table =>
  match (Frame.mk kernel args point).block kernel.body (.start table kernel.counter) with
  | .ok _ m => .ok () m.table
  | .error error m => .error error m.table

def execute (kernel : Kernel α) (args : List α) (order : VisitOrder) : Pass α Unit :=
  kernel.domain.visit order (kernel.runPoint args)

end Kernel

def FieldTable.requireGrads (table : FieldTable α) : List String → Except KernelFault Unit
  | [] => .ok ()
  | name :: names => do
    let field ← table.field name
    if field.hasGrad then table.requireGrads names else .error (.ungraded name)

namespace Bound

def launchable (bound : Bound α δ) (args : List α) (table : FieldTable α) :
    Except KernelFault Unit :=
  if args.length = bound.kernel.argCount then
    table.requireGrads bound.access.gradientFields.names
  else .error (.argumentCount bound.kernel.name bound.kernel.argCount args.length)

-- Runs a bound kernel, all or nothing.
def launch (bound : Bound α δ) (args : List α) (order : VisitOrder) : Pass α Unit :=
  fun table =>
    match bound.launchable args table with
    | .error error => .error error table
    | .ok _ =>
      let saved := table.snapshot bound.access.writes bound.access.gradWrites
      match bound.kernel.execute args order table with
      | .ok _ table => .ok () table
      | .error error table => .error error (table.restore saved)

end Bound

end FieldKernel
