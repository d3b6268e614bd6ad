import FieldKernel.Execution.Launch

-- Deferred launches. A drain drops the launches that have nothing to do, fuses neighbours that can
-- share one sweep over their domain, and runs the rest in order.
--
-- Two launches can share a sweep if they visit the same points in the same order, take no arguments,
-- and neither writes a field, or gradients of a field, that the other one touches.
namespace FieldKernel

variable {α δ : Type} [Scalar α]

structure Task (α δ : Type) where
  bound : Bound α δ
  args : List α
  order : VisitOrder
  gradient : Bool
  deriving DecidableEq

structure Stats where
  -- kernels run, a fused one once
  launches : Nat
  -- reverse passes among them
  gradientLaunches : Nat
  -- launches taken into a fused kernel
  fused : Nat
  dropped : Nat
  compilations : Nat
  cacheHits : Nat
  deriving DecidableEq, Repr

def Stats.zero : Stats := ⟨0, 0, 0, 0, 0, 0⟩

def Stats.launched (stats : Stats) (gradient : Bool) : Stats :=
  { stats with
    launches := stats.launches + 1
    gradientLaunches := stats.gradientLaunches + if gradient then 1 else 0 }

namespace Task

def isEmpty (task : Task α δ) : Bool :=
  task.bound.kernel.body.isEmpty || task.bound.kernel.domain.isEmpty

def sharesSweep (task next : Task α δ) : Bool :=
  task.order = next.order && task.bound.kernel.domain = next.bound.kernel.domain
    && task.args.isEmpty && next.args.isEmpty
    && task.bound.access.allWrites.disjoint next.bound.access.fields
    && next.bound.access.allWrites.disjoint task.bound.access.fields

end Task

-- One kernel that does at each point what `a` does and then what `b` does.
def Kernel.fused (a b : Kernel α) : Kernel α :=
  { name := s!"fused_{a.name}_{b.name}"
    domain := a.domain
    argCount := 0
    body := a.body ++ b.body.shift a.counter
    counter := .ofNat (a.counter + b.counter) }

structure Compiler (α δ : Type) where
  cache : List (δ × Bound α δ)
  stats : Stats
  deriving DecidableEq

abbrev Compile (α δ : Type) := EStateM KernelFault (Compiler α δ)

namespace Compiler

variable [Digest δ] [DecidableEq δ]

def count (f : Stats → Stats) : Compile α δ Unit :=
  modify fun compiler => { compiler with stats := f compiler.stats }

-- Binds a kernel, or gives the earlier binding of the same digest.
def compile (kernel : Kernel α) (table : FieldTable α) : Compile α δ (Bound α δ) := do
  let digest : δ := kernel.digest (table.signatures (Access.ofBlock kernel.body).fields)
  match (← get).cache.lookup digest with
  | some bound =>
    count fun stats => { stats with cacheHits := stats.cacheHits + 1 }
    return bound
  | none =>
    match kernel.bind table with
    | .error error => throw error
    | .ok bound =>
      count fun stats => { stats with compilations := stats.compilations + 1 }
      modify fun compiler => { compiler with cache := (bound.digest, bound) :: compiler.cache }
      return bound

def fuse (a b : Task α δ) (table : FieldTable α) : Compile α δ (Task α δ) := do
  let bound ← compile (a.bound.kernel.fused b.bound.kernel) table
  count fun stats => { stats with fused := stats.fused + 1 }
  return ⟨bound, [], a.order, a.gradient || b.gradient⟩

def planTask (fusion : Bool) (table : FieldTable α) (planned : List (Task α δ)) (task : Task α δ) :
    Compile α δ (List (Task α δ)) := do
  if task.isEmpty then
    count fun stats => { stats with dropped := stats.dropped + 1 }
    return planned
  match planned with
  | [] => return [task]
  | last :: before =>
    if fusion && last.sharesSweep task then return (← fuse last task table) :: before
    else return task :: last :: before

def plan (fusion : Bool) (table : FieldTable α) (queue : List (Task α δ)) :
    Compile α δ (List (Task α δ)) :=
  List.reverse <$> queue.foldlM (planTask fusion table) []

end Compiler

end FieldKernel
