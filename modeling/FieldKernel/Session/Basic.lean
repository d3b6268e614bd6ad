import FieldKernel.Session.Derivations
import FieldKernel.Session.Schedule
import FieldKernel.Settings.Basic

-- Sessions: a field table, the kernels defined over it, and the launches still to be made. Kernels
-- are compiled, that is bound, on first use and once per name. A launch runs at once or is queued;
-- whatever changes a field by hand drains the queue first, and so does a launch that runs at once.
namespace FieldKernel

variable {α δ : Type} [Scalar α] [Digest δ] [DecidableEq δ]

structure Session (α δ : Type) where
  settings : Settings
  table : FieldTable α
  kernels : NameMap (Kernel α)
  -- compiled kernels by name
  compiled : NameMap (Bound α δ)
  compiler : Compiler α δ
  queue : List (Task α δ)

-- A session and the derivations made so far, which other sessions may share.
structure Host (α δ : Type) where
  session : Session α δ
  derivations : Derivations α δ

abbrev Act (α δ : Type) := EStateM KernelFault (Host α δ)

def Session.start (settings : Settings) : Session α δ :=
  ⟨settings, .empty, .empty, .empty, ⟨[], .zero⟩, []⟩

def Host.start (settings : Settings) : Host α δ := ⟨.start settings, .empty⟩

namespace Session

def session : Act α δ (Session α δ) := return (← get).session

def update (f : Session α δ → Session α δ) : Act α δ Unit :=
  modify fun host => { host with session := f host.session }

def lift {β : Type} : Except KernelFault β → Act α δ β
  | .ok b => pure b
  | .error error => throw error

-- Works on the field table; what a failing pass leaves there stays.
def onTable {β : Type} (pass : Pass α β) : Act α δ β := fun host =>
  match pass host.session.table with
  | .ok b table => .ok b { host with session := { host.session with table := table } }
  | .error error table => .error error { host with session := { host.session with table := table } }

def onCompiler {β : Type} (compile : Compile α δ β) : Act α δ β := fun host =>
  match compile host.session.compiler with
  | .ok b compiler => .ok b { host with session := { host.session with compiler := compiler } }
  | .error error compiler =>
    .error error { host with session := { host.session with compiler := compiler } }

def onDerivations {β : Type} (work : StateM (Derivations α δ) β) : Act α δ β := fun host =>
  let (b, derivations) := work host.derivations
  .ok b { host with derivations := derivations }

def countLaunch (gradient : Bool) : Act α δ Unit :=
  onCompiler (Compiler.count fun stats => stats.launched gradient)

def declare (name : String) (element : ElementType) (shape : Shape) (group : String) :
    Act α δ Unit := do
  let table ← lift ((← session).table.declare name element shape group)
  update fun s => { s with table := table }

def enableGrads (group : String) : Act α δ Nat := do
  update fun s => { s with table := s.table.enableGrads group }
  return (← session).table.gradedCount group

def define (kernel : Kernel α) : Act α δ Unit := do
  if (← session).kernels.contains kernel.name then throw (.alreadyDeclared kernel.name)
  update fun s => { s with kernels := s.kernels.insert kernel.name kernel }

def kernel (name : String) : Act α δ (Kernel α) := do
  match (← session).kernels.find? name with
  | some kernel => return kernel
  | none => throw (.unknownKernel name)

def compile (name : String) : Act α δ (Bound α δ) := do
  match (← session).compiled.find? name with
  | some bound => return bound
  | none =>
    let kernel ← kernel name
    let bound ← onCompiler (Compiler.compile kernel (← session).table)
    if (← session).settings.eagerGradients then
      let _ ← onDerivations (Derivations.derive bound)
    update fun s => { s with compiled := s.compiled.insert name bound }
    return bound

def derive (bound : Bound α δ) : Act α δ (Kernel α) := do
  lift (← onDerivations (Derivations.derive bound))

def reverse (name : String) : Act α δ (Kernel α) := do derive (← compile name)

-- The gradient kernels of all the names: each is derived before a failure of one is told.
def reverseAll (names : List String) : Act α δ (List (Kernel α)) := do
  let bounds ← names.mapM compile
  let derived ← bounds.mapM fun bound => onDerivations (Derivations.derive bound)
  derived.mapM lift

def compileReverse (name : String) : Act α δ (Bound α δ) := do
  let kernel ← reverse name
  onCompiler (Compiler.compile kernel (← session).table)

def runTask (task : Task α δ) : Act α δ Unit := do
  onTable (task.bound.launch task.args task.order)
  countLaunch task.gradient

-- Drains the queue. The first failure stops the drain, and the tasks after it are lost.
def drain : Act α δ Unit := do
  let queue := (← session).queue
  update fun s => { s with queue := [] }
  let tasks ← onCompiler (Compiler.plan (← session).settings.fusion (← session).table queue)
  tasks.forM runTask

def order (settings : Settings) (gradient : Bool) : VisitOrder :=
  if gradient then settings.gradientOrder else settings.forwardOrder

def launched (gradient : Bool) (name : String) : Act α δ (Bound α δ) :=
  if gradient then compileReverse name else compile name

def invoke (gradient : Bool) (name : String) (args : List α) : Act α δ Unit := do
  drain
  let bound ← launched gradient name
  let order := order (← session).settings gradient
  runTask ⟨bound, args, order, gradient⟩

def launch (gradient : Bool) (name : String) (args : List α) : Act α δ Unit := do
  let bound ← launched gradient name
  if args.length ≠ bound.kernel.argCount then
    throw (.argumentCount bound.kernel.name bound.kernel.argCount args.length)
  let order := order (← session).settings gradient
  update fun s => { s with queue := s.queue ++ [⟨bound, args, order, gradient⟩] }

def zeroGrads : Act α δ Unit := do
  drain
  update fun s => { s with table := s.table.zeroGrads }

end Session

end FieldKernel
