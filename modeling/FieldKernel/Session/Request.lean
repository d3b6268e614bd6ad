import FieldKernel.Field.Edit
import FieldKernel.Session.Basic
import FieldKernel.Source.Program

-- What a session can be asked, and its replies, as data.
namespace FieldKernel

variable {α δ : Type} [Scalar α] [Digest δ] [DecidableEq δ]

inductive Request (α : Type) where
  | load (program : Program α)
  | define (kernel : Kernel α)
  | declare (name : String) (element : ElementType) (shape : Shape) (group : String)
  | enableGrads (group : String)
  | compile (kernel : String)
  | kernel (kernel : String)
  | kernelNames
  | reverse (kernel : String)
  | reverseAll (kernels : List String)
  -- whether the derivation for a kernel was made already, and what it gave
  | cached (kernel : String)
  | invoke (gradient : Bool) (kernel : String) (args : List α)
  | launch (gradient : Bool) (kernel : String) (args : List α)
  | drain
  | zeroGrads
  | pending
  | settings
  | stats
  | derivations
  -- all fields as they are now
  | fields
  -- a question to a field does not drain the queue, an edit does
  | ask (field : String) (query : FieldQuery)
  | edit (field : String) (edit : FieldEdit α)
  deriving DecidableEq, Repr

inductive Reply (α δ : Type) where
  | done
  | count (n : Nat)
  | bound (bound : Bound α δ)
  | kernel (kernel : Kernel α)
  | kernels (kernels : List (Kernel α))
  | names (names : List String)
  | derived (derived? : Option (Derived α))
  | settings (settings : Settings)
  | stats (stats : Stats)
  | derivations (size made : Nat)
  | fields (table : FieldTable α)
  | field (answer : FieldAnswer α)

namespace Session

-- Declares a program's fields, enables gradients and defines its kernels, in this order; what was
-- done before a failure stays.
def load (program : Program α) : Act α δ Unit := do
  program.fields.forM fun field =>
    declare field.name field.element field.shape (field.group?.getD rootGroup)
  program.grads.forM fun group => do
    let _ ← enableGrads group.node
  program.kernels.forM fun kernel => define kernel.node

def ask (field : String) (query : FieldQuery) : Act α δ (FieldAnswer α) := do
  lift ((← session).table.answer field query)

def edit (field : String) (edit : FieldEdit α) : Act α δ (FieldAnswer α) := do
  drain
  onTable (FieldTable.edit field edit)

def perform : Request α → Act α δ (Reply α δ)
  | .load program => do
    load program
    return .done
  | .define kernel => do
    define kernel
    return .done
  | .declare name element shape group => do
    declare name element shape group
    return .done
  | .enableGrads group => return .count (← enableGrads group)
  | .compile name => return .bound (← compile name)
  | .kernel name => return .kernel (← kernel name)
  | .kernelNames => return .names (← session).kernels.names
  | .reverse name => return .kernel (← reverse name)
  | .reverseAll names => return .kernels (← reverseAll names)
  | .cached name => do
    let bound ← compile name
    return .derived ((← get).derivations.cached bound.digest)
  | .invoke gradient name args => do
    invoke gradient name args
    return .done
  | .launch gradient name args => do
    launch gradient name args
    return .done
  | .drain => do
    drain
    return .done
  | .zeroGrads => do
    zeroGrads
    return .done
  | .pending => return .count (← session).queue.length
  | .settings => return .settings (← session).settings
  | .stats => return .stats (← session).compiler.stats
  | .derivations => return .derivations (← get).derivations.size (← get).derivations.made
  | .fields => return .fields (← session).table
  | .ask field query => return .field (← ask field query)
  | .edit field e => return .field (← edit field e)

end Session

structure Workspace (α δ : Type) where
  sessions : List (Session α δ)
  derivations : Derivations α δ

namespace Workspace

def ofSettings (settings : List Settings) : Workspace α δ := ⟨settings.map .start, .empty⟩

def start (settings : Settings) (count : Nat) : Workspace α δ := ofSettings (List.replicate count settings)

def perform (workspace : Workspace α δ) (i : Nat) (request : Request α) :
    Option (Except KernelFault (Reply α δ)) × Workspace α δ :=
  match workspace.sessions[i]? with
  | none => (none, workspace)
  | some session =>
    let after (host : Host α δ) : Workspace α δ :=
      ⟨workspace.sessions.set i host.session, host.derivations⟩
    match Session.perform request ⟨session, workspace.derivations⟩ with
    | .ok reply host => (some (.ok reply), after host)
    | .error error host => (some (.error error), after host)

end Workspace

end FieldKernel
