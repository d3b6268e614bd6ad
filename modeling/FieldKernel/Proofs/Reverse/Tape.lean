import FieldKernel.Reverse.Basic
import FieldKernel.Proofs.Execution.Step

-- Reverse mode with a tape, as a second account of what gradient kernels compute: nothing is recomputed and
-- no code is derived.
namespace FieldKernel

variable {α : Type} [Scalar α]

inductive Event (α : Type) where
  -- a value that has no derivative: a constant, a loop index, an argument, a comparison
  | plain (dst : ValueId)
  | load (dst : ValueId) (field : String) (position : Nat)
  | store (field : String) (position : Nat) (value : ValueId)
  -- arithmetic, with the operands it had
  | binary (dst : ValueId) (op : BinaryOp) (lhs rhs : ValueId) (a b : α)
  | unary (dst : ValueId) (op : UnaryOp) (operand : ValueId) (a : α)
  deriving DecidableEq, Repr

abbrev Tape (α : Type) := List (Event α)

def Machine.record (m : Machine α) : Instr α → Tape α
  | .define dst (.load place) => (m.position? place).toList.map (.load dst place.field)
  | .define dst (.binary op lhs rhs) =>
    match m.value? lhs, m.value? rhs with
    | some a, some b => [.binary dst op lhs rhs a b]
    | _, _ => []
  | .define dst (.unary op operand) => (m.value? operand).toList.map (.unary dst op operand)
  | .define dst _ => [.plain dst]
  | .store place v => (m.position? place).toList.map fun position => .store place.field position v
  | _ => []

namespace Frame

variable (frame : Frame α)

def trace : Block α → Machine α → Tape α
  | .nil, _ => []
  | .instr i rest, m =>
    match frame.instr i m with
    | .ok _ m' => m.record i ++ trace rest m'
    | .error _ _ => []
  | .branch cond onTrue onFalse rest, m =>
    match m.value? cond with
    | none => []
    | some x =>
      let inner := if Scalar.isZero x then trace onFalse m else trace onTrue m
      match frame.block (taken x onTrue onFalse) m with
      | .ok _ m' => inner ++ trace rest m'
      | .error _ _ => inner

variable {frame} {m m₁ : Machine α}

theorem trace_instr {i : Instr α} (step : frame.Steps m i m₁) (rest : Block α) :
    frame.trace (.instr i rest) m = m.record i ++ frame.trace rest m₁ := by
  have ran : frame.instr i m = .ok () m₁ := instr_exact.mpr step
  rw [trace, ran]

theorem trace_branch {cond : ValueId} {x : α} {onTrue onFalse : Block α} (value : m.value? cond = some x)
    (inner : frame.Runs m (taken x onTrue onFalse) m₁) (rest : Block α) :
    frame.trace (.branch cond onTrue onFalse rest) m =
      frame.trace (taken x onTrue onFalse) m ++ frame.trace rest m₁ := by
  have ran : frame.block (taken x onTrue onFalse) m = .ok () m₁ := block_exact.mpr inner
  rw [trace, value]
  dsimp only
  rw [ran]
  dsimp only
  congr 1
  unfold taken
  split <;> rfl

end Frame

namespace BinaryOp

-- The partial derivatives, in the terms a gradient kernel computes them in. A maximum or minimum of
-- equal operands follows the left one; remainder and rounded quotient have none.
def leftPartial : BinaryOp → α → α → α
  | add, _, _ | sub, _, _ => Scalar.one
  | mul, _, b => b
  | div, _, b => Scalar.one / b
  | pow, a, b => b * Scalar.pow a (b - Scalar.one)
  | max, a, b => CompareOp.ge.apply a b
  | min, a, b => CompareOp.le.apply a b
  | mod, _, _ | floorDiv, _, _ => Scalar.zero

def rightPartial : BinaryOp → α → α → α
  | add, _, _ => Scalar.one
  | sub, _, _ => Scalar.minusOne
  | mul, a, _ => a
  | div, a, b => -(a / b / b)
  | pow, a, b => Scalar.pow a b * Scalar.log a
  | max, a, b => CompareOp.lt.apply a b
  | min, a, b => CompareOp.gt.apply a b
  | mod, _, _ | floorDiv, _, _ => Scalar.zero

end BinaryOp

def UnaryOp.partial_ : UnaryOp → α → α
  | neg, _ => Scalar.minusOne
  | sin, a => Scalar.cos a
  | cos, a => -Scalar.sin a
  | exp, a => Scalar.exp a
  | log, a => Scalar.one / a
  | sqrt, a => Scalar.half / Scalar.sqrt a
  | tanh, a => Scalar.one - Scalar.tanh a * Scalar.tanh a
  | abs, a => Scalar.sign a
  | sgn, _ => Scalar.zero

-- The state of a walk backward: the gradients, and the adjoint of every value of the point.
structure Sweep (α : Type) where
  table : FieldTable α
  adjoint : ValueId → α

namespace Sweep

def start (table : FieldTable α) : Sweep α := ⟨table, fun _ => Scalar.zero⟩

def add (s : Sweep α) (v : ValueId) (delta : α) : Sweep α :=
  { s with adjoint := fun w => if w = v then s.adjoint v + delta else s.adjoint w }

def addIf (s : Sweep α) (needed : Bool) (v : ValueId) (delta : α) : Sweep α :=
  if needed then s.add v delta else s

theorem addIf_table (s : Sweep α) (needed : Bool) (v : ValueId) (delta : α) :
    (s.addIf needed v delta).table = s.table := by
  cases needed <;> rfl

end Sweep

namespace Reversal

variable (r : Reversal α)

def needs (v : ValueId) : Bool := r.activity.carriesAdjoint v

def back : Event α → Sweep α → Sweep α
  | .plain _, s => s
  | .load dst field position, s =>
    if r.needs dst then { s with table := s.table.addGradAt field position (s.adjoint dst) } else s
  | .store field position v, s =>
    s.addIf (r.signatures.isReal field && r.needs v) v (s.table.gradAt field position)
  | .binary dst op lhs rhs a b, s =>
    if r.needs dst then
      let s := s.addIf (r.needs lhs) lhs (s.adjoint dst * op.leftPartial a b)
      s.addIf (r.needs rhs) rhs (s.adjoint dst * op.rightPartial a b)
    else s
  | .unary dst op operand a, s =>
    if r.needs dst then s.addIf (r.needs operand) operand (s.adjoint dst * op.partial_ a) else s

-- A whole tape, the last event first.
def walk (tape : Tape α) (s : Sweep α) : Sweep α := tape.foldr r.back s

def walkPoint (tape : Tape α) (table : FieldTable α) : FieldTable α := (r.walk tape (.start table)).table

def walkPoints (tapeAt : Point → Tape α) (points : List Point) (table : FieldTable α) : FieldTable α :=
  points.foldl (fun table point => r.walkPoint (tapeAt point) table) table

theorem walk_append (first second : Tape α) (s : Sweep α) :
    r.walk (first ++ second) s = r.walk first (r.walk second s) := List.foldr_append ..

end Reversal

namespace Kernel

variable (kernel : Kernel α) (args : List α)

def tapes : List Point → FieldTable α → List (Point × Tape α)
  | [], _ => []
  | point :: points, table =>
    (point, (Frame.mk kernel args point).trace kernel.body (.start table kernel.counter)) ::
      match kernel.runPoint args point table with
      | .ok _ table => tapes points table
      | .error _ _ => []

def tapeAt (order : VisitOrder) (table : FieldTable α) (point : Point) : Tape α :=
  ((kernel.tapes args (kernel.domain.points order) table).lookup point).getD []

def reversal (signatures : Signatures) : Reversal α := ⟨kernel, signatures, .ofKernel kernel signatures⟩

end Kernel

end FieldKernel
