import FieldKernel.Field.Table
import FieldKernel.Kernel.Basic

-- What a kernel does at one point of its domain. Values and adjoints belong to the point: values start
-- out unassigned, adjoints at zero, and nothing of them is left for the next point.
namespace FieldKernel

variable {α : Type} [Scalar α]

structure Machine (α : Type) where
  table : FieldTable α
  values : Array (Option α)
  adjoints : Array α
  deriving DecidableEq

-- Steps of a running kernel; a failing step leaves the machine as it found it.
abbrev Exec (α : Type) := EStateM KernelFault (Machine α)

-- What stays the same at one point: the kernel, the arguments of the launch and the point.
structure Frame (α : Type) where
  kernel : Kernel α
  args : List α
  point : Point

namespace Machine

def start (table : FieldTable α) (registers : Nat) : Machine α :=
  ⟨table, Array.replicate registers none, Array.replicate registers Scalar.zero⟩

end Machine

namespace Exec

def lift {β : Type} : Except KernelFault β → Exec α β
  | .ok b => pure b
  | .error error => throw error

def change (f : FieldTable α → FieldTable α) : Exec α Unit :=
  modify fun m => { m with table := f m.table }

end Exec

namespace Frame

variable (frame : Frame α)

def malformed (fault : MalformedFault) : KernelFault := .malformed frame.kernel.name fault

def value (v : ValueId) : Exec α α := do
  match (← get).values[v.index]? with
  | some (some x) => return x
  | some none => throw (frame.malformed (.unassigned v))
  | none => throw (frame.malformed (.noRegister v))

def assign (v : ValueId) (x : α) : Exec α Unit := do
  if v.index < (← get).values.size then
    modify fun m => { m with values := m.values.setIfInBounds v.index (some x) }
  else throw (frame.malformed (.noRegister v))

def adjoint (v : ValueId) : Exec α α := do
  match (← get).adjoints[v.index]? with
  | some x => return x
  | none => throw (frame.malformed (.noRegister v))

def addAdjoint (v : ValueId) (delta : α) : Exec α Unit := do
  let old ← frame.adjoint v
  modify fun m => { m with adjoints := m.adjoints.setIfInBounds v.index (old + delta) }

-- Coordinates are 64-bit words; integers beyond them count as the nearest word.
def clampWord (i : Int) : Int := max (-9223372036854775808) (min i 9223372036854775807)

def coordinate (field : String) (v : ValueId) : Exec α Int := do
  let x ← frame.value v
  match Scalar.integer? x with
  | some i => return clampWord i
  | none => throw (.shapeMismatch field (.nonIntegral (Scalar.message x) v))

def coordinates (place : Place) : Exec α (List Int) :=
  place.index.mapM (frame.coordinate place.field)

def factor : Scale → Exec α α
  | .one => return Scalar.one
  | .minusOne => return Scalar.minusOne
  | .value v => frame.value v

def expr : Expr α → Exec α α
  | .const value => return value
  | .index axis =>
    match frame.point[axis]? with
    | some i => return Scalar.ofInt i
    | none =>
      throw (.shapeMismatch frame.kernel.name (.axisBeyondRank axis frame.point.length))
  | .arg position =>
    match frame.args[position]? with
    | some x => return x
    | none =>
      throw (.argumentCount frame.kernel.name frame.kernel.argCount frame.args.length)
  | .load place => do
    let index ← frame.coordinates place
    Exec.lift ((← get).table.read place.field index)
  | .binary op lhs rhs => return op.apply (← frame.value lhs) (← frame.value rhs)
  | .unary op operand => return op.apply (← frame.value operand)
  | .compare op lhs rhs => return op.apply (← frame.value lhs) (← frame.value rhs)

def instr : Instr α → Exec α Unit
  | .define dst e => do frame.assign dst (← frame.expr e)
  | .store place v => do
    let index ← frame.coordinates place
    let x ← frame.value v
    let position ← Exec.lift ((← get).table.locate place.field index)
    Exec.change fun table => table.setAt place.field position x
  | .readGrad target place => do
    let index ← frame.coordinates place
    frame.addAdjoint target (← Exec.lift ((← get).table.readGrad place.field index))
  | .propagate target source scale => do
    let factor ← frame.factor scale
    frame.addAdjoint target ((← frame.adjoint source) * factor)
  | .addGrad place source => do
    let index ← frame.coordinates place
    let delta ← frame.adjoint source
    let position ← Exec.lift ((← get).table.gradLocate place.field index)
    Exec.change fun table => table.addGradAt place.field position delta

def block : Block α → Exec α Unit
  | .nil => pure ()
  | .instr i rest => do
    frame.instr i
    block rest
  | .branch cond onTrue onFalse rest => do
    let x ← frame.value cond
    if Scalar.isZero x then block onFalse else block onTrue
    block rest

end Frame

end FieldKernel
