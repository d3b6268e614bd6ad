import FieldKernel.Kernel.Basic

-- Recording kernels call by call. A call appends to the innermost open block; a call that defines a
-- value numbers it with the next unused number, whichever block is open, and returns it.
namespace FieldKernel

variable {α : Type}

structure Recorder (α : Type) where
  -- the open blocks, the innermost first
  blocks : List (Block α)
  counter : Nat
  deriving DecidableEq, Repr

namespace Recorder

def start : Recorder α := ⟨[.nil], 0⟩

def push (tail : Block α) (recorder : Recorder α) : Recorder α :=
  match recorder.blocks with
  | block :: around => { recorder with blocks := (block ++ tail) :: around }
  | [] => recorder

def openBlock (recorder : Recorder α) : Recorder α :=
  { recorder with blocks := .nil :: recorder.blocks }

def closeBlock (recorder : Recorder α) : Block α × Recorder α :=
  match recorder.blocks with
  | block :: around => (block, { recorder with blocks := around })
  | [] => (.nil, recorder)

def body (recorder : Recorder α) : Block α := recorder.blocks.getLast?.getD .nil

end Recorder

abbrev Record (α : Type) := StateM (Recorder α)

namespace Record

def push (tail : Block α) : Record α Unit := modify (·.push tail)

def define (expr : Expr α) : Record α ValueId := do
  let dst : ValueId := ⟨(← get).counter⟩
  modify fun recorder => { recorder with counter := recorder.counter + 1 }
  push (.instr (.define dst expr) .nil)
  return dst

def store (place : Place) (value : ValueId) : Record α Unit :=
  push (.instr (.store place value) .nil)

def nested {β : Type} (record : Record α β) : Record α (β × Block α) := do
  modify (·.openBlock)
  let result ← record
  let inner ← modifyGet (·.closeBlock)
  return (result, inner)

def ifElse {β γ : Type} (cond : ValueId) (onTrue : Record α β) (onFalse : Record α γ) :
    Record α (β × γ) := do
  let (b, onTrue) ← nested onTrue
  let (c, onFalse) ← nested onFalse
  push (.branch cond onTrue onFalse .nil)
  return (b, c)

def kernel {β : Type} (name : String) (domain : Domain) (argCount : Nat) (record : Record α β) :
    β × Kernel α :=
  let (result, recorder) := record.run .start
  (result, ⟨name, domain, argCount, recorder.body, recorder.counter⟩)

end Record

inductive Recording (α : Type) where
  | nil
  | define (expr : Expr α) (rest : Recording α)
  | store (place : Place) (value : ValueId) (rest : Recording α)
  | branch (cond : ValueId) (onTrue onFalse rest : Recording α)
  deriving DecidableEq, Repr

-- Makes the calls and gives the values they define, in the order of the calls.
def Recording.replay : Recording α → Record α (List ValueId)
  | nil => return []
  | define expr rest => do
    let dst ← Record.define expr
    return dst :: (← rest.replay)
  | store place value rest => do
    Record.store place value
    rest.replay
  | branch cond onTrue onFalse rest => do
    let (inTrue, inFalse) ← Record.ifElse cond onTrue.replay onFalse.replay
    return inTrue ++ inFalse ++ (← rest.replay)

end FieldKernel
