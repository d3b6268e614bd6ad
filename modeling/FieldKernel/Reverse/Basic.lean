import FieldKernel.Error
import FieldKernel.Reverse.Activity

-- Gradient kernels. Reversing a block gives its definitions, unchanged and in order, followed by one
-- rule for each of its statements, the last statement first:
--
-- * a store reads the gradient of the stored element into the adjoint of the value;
-- * a load adds the adjoint of the value to the gradient of the loaded element;
-- * arithmetic passes the adjoint of the result on to the operands, times its partial derivatives;
-- * a branch branches on the same condition into its reversed blocks.
--
-- Adjoints start at zero at every point and are only added to. The definitions recompute all that the
-- rules read; so what they read must not depend on a field that the kernel overwrites.
namespace FieldKernel

variable {α : Type} [Scalar α]

structure Reversal (α : Type) where
  kernel : Kernel α
  signatures : Signatures
  activity : Activity α

-- Numbers fresh values from the counter of the kernel on.
abbrev Fresh := StateT Nat (Except KernelFault)

namespace Reversal

variable (r : Reversal α)

def primal (v : ValueId) : Except KernelFault Unit :=
  match r.activity.overwrittenField? v with
  | some field => .error (.overwrittenPrimal r.kernel.name v field)
  | none => .ok ()

def primals : List ValueId → Except KernelFault Unit
  | [] => .ok ()
  | v :: vs => do
    r.primal v
    primals vs

def fresh : Fresh ValueId := modifyGet fun n => (⟨n⟩, n + 1)

def temp (expr : Expr α) : Fresh (ValueId × List (Instr α)) := do
  let dst ← fresh
  return (dst, [.define dst expr])

-- Passes the adjoint of `source` on to `target` if `target` has an adjoint: reads `needed`, then
-- computes the factor, a last definition and those before it, and multiplies by it.
def scaled (target source : ValueId) (needed : List ValueId)
    (factor : Fresh (ValueId × List (Instr α))) : Fresh (List (Instr α)) := do
  r.primals needed
  let (v, before) ← factor
  return before ++ [.propagate target source (.value v)]

def given (v : ValueId) : Fresh (ValueId × List (Instr α)) := return (v, [])

def when (needed : Bool) (rule : Fresh (List (Instr α))) : Fresh (List (Instr α)) :=
  if needed then rule else return []

def noRule (dst : ValueId) (op : BinaryOp) (lhs rhs : ValueId) : KernelFault :=
  .notDifferentiable r.kernel.name (.noRule dst op lhs rhs)

def reciprocal (b : ValueId) : Fresh (ValueId × List (Instr α)) := do
  let (one, ones) ← temp (.const Scalar.one)
  let (inverse, inverses) ← temp (.binary .div one b)
  return (inverse, ones ++ inverses)

def quotientByDivisor (q b : ValueId) : Fresh (ValueId × List (Instr α)) := do
  let (t, ts) ← temp (.binary .div q b)
  let (n, ns) ← temp (.unary .neg t)
  return (n, ts ++ ns)

def powerByBase (a b : ValueId) : Fresh (ValueId × List (Instr α)) := do
  let (one, ones) ← temp (.const Scalar.one)
  let (b1, b1s) ← temp (.binary .sub b one)
  let (p, ps) ← temp (.binary .pow a b1)
  let (f, fs) ← temp (.binary .mul b p)
  return (f, ones ++ b1s ++ ps ++ fs)

def powerByExponent (a y : ValueId) : Fresh (ValueId × List (Instr α)) := do
  let (ln, lns) ← temp (.unary .log a)
  let (f, fs) ← temp (.binary .mul y ln)
  return (f, lns ++ fs)

def negatedSine (a : ValueId) : Fresh (ValueId × List (Instr α)) := do
  let (s, ss) ← temp (.unary .sin a)
  let (n, ns) ← temp (.unary .neg s)
  return (n, ss ++ ns)

def halfByRoot (y : ValueId) : Fresh (ValueId × List (Instr α)) := do
  let (half, halves) ← temp (.const Scalar.half)
  let (f, fs) ← temp (.binary .div half y)
  return (f, halves ++ fs)

def oneLessSquare (y : ValueId) : Fresh (ValueId × List (Instr α)) := do
  let (square, squares) ← temp (.binary .mul y y)
  let (one, ones) ← temp (.const Scalar.one)
  let (f, fs) ← temp (.binary .sub one square)
  return (f, squares ++ ones ++ fs)

-- The comparisons that send the adjoint of a maximum or minimum to the left and to the right; of
-- equal operands the left one gets it.
def selection : BinaryOp → CompareOp × CompareOp
  | .min => (.le, .gt)
  | _ => (.ge, .lt)

def binary (dst : ValueId) (op : BinaryOp) (lhs rhs : ValueId) : Fresh (List (Instr α)) := do
  let left := when (r.activity.carriesAdjoint lhs)
  let right := when (r.activity.carriesAdjoint rhs)
  match op with
  | .add =>
    return (← left (return [.propagate lhs dst .one])) ++ (← right (return [.propagate rhs dst .one]))
  | .sub =>
    return (← left (return [.propagate lhs dst .one]))
      ++ (← right (return [.propagate rhs dst .minusOne]))
  | .mul =>
    return (← left (r.scaled lhs dst [rhs] (given rhs)))
      ++ (← right (r.scaled rhs dst [lhs] (given lhs)))
  | .div =>
    return (← left (r.scaled lhs dst [rhs] (reciprocal rhs)))
      ++ (← right (r.scaled rhs dst [dst, rhs] (quotientByDivisor dst rhs)))
  | .pow =>
    return (← left (r.scaled lhs dst [lhs, rhs] (powerByBase lhs rhs)))
      ++ (← right (r.scaled rhs dst [lhs, dst] (powerByExponent lhs dst)))
  | .max | .min =>
    r.primals [lhs, rhs]
    let (toLeft, toRight) := selection op
    return (← left (r.scaled lhs dst [] (temp (.compare toLeft lhs rhs))))
      ++ (← right (r.scaled rhs dst [] (temp (.compare toRight lhs rhs))))
  | .mod | .floorDiv => throw (r.noRule dst op lhs rhs)

def unary (dst : ValueId) (op : UnaryOp) (operand : ValueId) : Fresh (List (Instr α)) :=
  match op with
  | .neg => return [.propagate operand dst .minusOne]
  | .sin => r.scaled operand dst [operand] (temp (.unary .cos operand))
  | .cos => r.scaled operand dst [operand] (negatedSine operand)
  | .exp => r.scaled operand dst [dst] (given dst)
  | .log => r.scaled operand dst [operand] (reciprocal operand)
  | .sqrt => r.scaled operand dst [dst] (halfByRoot dst)
  | .tanh => r.scaled operand dst [dst] (oneLessSquare dst)
  | .abs => r.scaled operand dst [operand] (temp (.unary .sgn operand))
  | .sgn => return []

def expr (dst : ValueId) : Expr α → Fresh (List (Instr α))
  | .load place => do
    r.primals place.index
    return [.addGrad place dst]
  | .binary op lhs rhs => r.binary dst op lhs rhs
  | .unary op operand => r.unary dst op operand
  | .const _ | .index _ | .arg _ | .compare _ _ _ => return []

def instr : Instr α → Fresh (List (Instr α))
  | .define dst expr => when (r.activity.carriesAdjoint dst) (r.expr dst expr)
  | .store place value =>
    when (r.signatures.isReal place.field && r.activity.carriesAdjoint value) do
      r.primals place.index
      return [.readGrad value place]
  | i => throw (.notDifferentiable r.kernel.name (.reverseOnly i.mnemonic))

-- A reversed block, from its rules: without any, nothing needs to be recomputed.
def withPrimals (block rules : Block α) : Block α :=
  if rules.isEmpty then .nil else block.definitions ++ rules

def branchRule (cond : ValueId) (onTrue onFalse : Block α) : Block α :=
  if onTrue.isEmpty && onFalse.isEmpty then .nil else .branch cond onTrue onFalse .nil

def rules : Block α → Fresh (Block α)
  | .nil => return .nil
  | .instr i rest => do
    let later ← rules rest
    return later ++ Block.ofInstrs (← r.instr i)
  | .branch cond onTrue onFalse rest => do
    let later ← rules rest
    let inTrue := withPrimals onTrue (← rules onTrue)
    let inFalse := withPrimals onFalse (← rules onFalse)
    return later ++ branchRule cond inTrue inFalse

end Reversal

namespace Kernel

def gradSuffix : String := "_grad"

def forwardOnly (kernel : Kernel α) : Except KernelFault Unit :=
  match kernel.body.statements.find? Statement.isReverseOnly with
  | some s => .error (.notDifferentiable kernel.name (.reverseOnly s.mnemonic))
  | none => .ok ()

def impureCondition? (activity : Activity α) : Statement α → Option (ValueId × String)
  | .branch cond => (activity.overwrittenField? cond).map fun field => (cond, field)
  | .instr _ => none

-- Conditions are evaluated again after the kernel has run, so they must read nothing it writes.
def pureConditions (kernel : Kernel α) (activity : Activity α) : Except KernelFault Unit :=
  match kernel.body.statements.findSome? (impureCondition? activity) with
  | some (cond, field) => .error (.impureCondition kernel.name cond field)
  | none => .ok ()

-- The body of the gradient kernel, with a number of its own for every fresh value, and the first number left.
def backward (kernel : Kernel α) (signatures : Signatures) : Except KernelFault (Block α × Nat) := do
  kernel.forwardOnly
  let activity := Activity.ofKernel kernel signatures
  kernel.pureConditions activity
  let (rules, counter) ← (Reversal.rules ⟨kernel, signatures, activity⟩ kernel.body).run kernel.counter
  return (Reversal.withPrimals kernel.body rules, counter)

-- The gradient kernel of a kernel bound against `signatures`. Past the last word numbers start again at zero.
def reverse (kernel : Kernel α) (signatures : Signatures) : Except KernelFault (Kernel α) := do
  let (body, counter) ← kernel.backward signatures
  return { kernel with
    name := kernel.name ++ gradSuffix
    body := body.words
    counter := counter }

end Kernel

end FieldKernel
