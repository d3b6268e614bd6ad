import FieldKernel.Domain

-- Settings of a session.
namespace FieldKernel

structure Settings where
  -- kernels are shown when they are compiled
  printKernels : Bool
  -- gradient kernels are derived when kernels are compiled, not on first use
  eagerGradients : Bool
  forwardOrder : VisitOrder
  gradientOrder : VisitOrder
  -- neighbouring launches that do not touch each other's fields run as one
  fusion : Bool
  deriving DecidableEq, Repr

def Settings.default : Settings := ⟨false, false, .forward, .reverse, true⟩

end FieldKernel
