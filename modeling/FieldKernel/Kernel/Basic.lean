import FieldKernel.Domain
import FieldKernel.Operator
import FieldKernel.Value

-- Kernels: a body of statements that runs once at every point of a domain. A statement defines a
-- value, stores to a field, or branches. Three further forms occur in gradient kernels only: they
-- move adjoints between values and the gradient buffers of fields.
namespace FieldKernel

variable {α : Type}

structure Place where
  field : String
  index : List ValueId
  deriving DecidableEq, Repr

-- What an adjoint is multiplied by on its way to another.
inductive Scale where
  | one
  | minusOne
  | value (factor : ValueId)
  deriving DecidableEq, Repr

inductive Expr (α : Type) where
  | const (value : α)
  -- the loop index along an axis of the domain
  | index (axis : Nat)
  -- a scalar argument of the launch
  | arg (position : Nat)
  | load (place : Place)
  | binary (op : BinaryOp) (lhs rhs : ValueId)
  | unary (op : UnaryOp) (operand : ValueId)
  | compare (op : CompareOp) (lhs rhs : ValueId)
  deriving DecidableEq, Repr

inductive Instr (α : Type) where
  | define (dst : ValueId) (expr : Expr α)
  | store (place : Place) (value : ValueId)
  -- `adj target += grad place`
  | readGrad (target : ValueId) (place : Place)
  -- `adj target += adj source * scale`
  | propagate (target source : ValueId) (scale : Scale)
  -- `grad place += adj source`
  | addGrad (place : Place) (source : ValueId)
  deriving DecidableEq, Repr

-- Statements in sequence; a branch runs its first block where the condition is not zero.
inductive Block (α : Type) where
  | nil
  | instr (i : Instr α) (rest : Block α)
  | branch (cond : ValueId) (onTrue onFalse rest : Block α)
  deriving DecidableEq, Repr

inductive Statement (α : Type) where
  | instr (i : Instr α)
  | branch (cond : ValueId)
  deriving DecidableEq, Repr

namespace Scale

def operands : Scale → List ValueId
  | value factor => [factor]
  | _ => []

def rename (f : ValueId → ValueId) : Scale → Scale
  | value factor => value (f factor)
  | scale => scale

end Scale

namespace Place

def rename (f : ValueId → ValueId) (place : Place) : Place := { place with index := place.index.map f }

end Place

namespace Expr

-- The values an expression reads, load indices included.
def operands : Expr α → List ValueId
  | const _ | index _ | arg _ => []
  | load place => place.index
  | binary _ lhs rhs | compare _ lhs rhs => [lhs, rhs]
  | unary _ operand => [operand]

def mnemonic : Expr α → String
  | const _ => "const"
  | index _ => "index"
  | arg _ => "arg"
  | load _ => "load"
  | binary op _ _ => op.name
  | unary op _ => op.name
  | compare op _ _ => op.name

def rename (f : ValueId → ValueId) : Expr α → Expr α
  | const value => const value
  | index axis => index axis
  | arg position => arg position
  | load place => load (place.rename f)
  | binary op lhs rhs => binary op (f lhs) (f rhs)
  | unary op operand => unary op (f operand)
  | compare op lhs rhs => compare op (f lhs) (f rhs)

end Expr

namespace Instr

def dst? : Instr α → Option ValueId
  | define dst _ => some dst
  | _ => none

def operands : Instr α → List ValueId
  | define _ expr => expr.operands
  | store place value => place.index ++ [value]
  | readGrad target place => place.index ++ [target]
  | propagate target source scale => [target, source] ++ scale.operands
  | addGrad place source => place.index ++ [source]

def isPure : Instr α → Bool
  | define _ _ => true
  | _ => false

def isReverseOnly : Instr α → Bool
  | define _ _ | store _ _ => false
  | _ => true

def mnemonic : Instr α → String
  | define _ expr => expr.mnemonic
  | store _ _ => "store"
  | readGrad _ _ => "adj-from-grad"
  | propagate _ _ _ => "adj"
  | addGrad _ _ => "grad-accumulate"

def place? : Instr α → Option Place
  | define _ (.load place) | store place _ | readGrad _ place | addGrad place _ => some place
  | _ => none

def rename (f : ValueId → ValueId) : Instr α → Instr α
  | define dst expr => define (f dst) (expr.rename f)
  | store place value => store (place.rename f) (f value)
  | readGrad target place => readGrad (f target) (place.rename f)
  | propagate target source scale => propagate (f target) (f source) (scale.rename f)
  | addGrad place source => addGrad (place.rename f) (f source)

end Instr

namespace Statement

def dst? : Statement α → Option ValueId
  | instr i => i.dst?
  | branch _ => none

def operands : Statement α → List ValueId
  | instr i => i.operands
  | branch cond => [cond]

def isPure : Statement α → Bool
  | instr i => i.isPure
  | branch _ => false

def isReverseOnly : Statement α → Bool
  | instr i => i.isReverseOnly
  | branch _ => false

def place? : Statement α → Option Place
  | instr i => i.place?
  | branch _ => none

def mnemonic : Statement α → String
  | instr i => i.mnemonic
  | branch _ => "if"

end Statement

namespace Block

def append : Block α → Block α → Block α
  | nil, tail => tail
  | instr i rest, tail => instr i (rest.append tail)
  | branch cond onTrue onFalse rest, tail => branch cond onTrue onFalse (rest.append tail)

instance : Append (Block α) := ⟨append⟩

def isEmpty : Block α → Bool
  | nil => true
  | _ => false

def ofInstrs (instrs : List (Instr α)) : Block α := instrs.foldr instr nil

-- Every statement in preorder: a branch before its blocks, the first block before the second.
def statements : Block α → List (Statement α)
  | nil => []
  | instr i rest => .instr i :: rest.statements
  | branch cond onTrue onFalse rest =>
    .branch cond :: (onTrue.statements ++ onFalse.statements ++ rest.statements)

def topLevel : Block α → List (Block α)
  | nil => []
  | instr i rest => instr i nil :: rest.topLevel
  | branch cond onTrue onFalse rest => branch cond onTrue onFalse nil :: rest.topLevel

-- The definitions of the block itself, without the blocks nested in it.
def definitions : Block α → Block α
  | nil => nil
  | instr i rest => if i.isPure then instr i rest.definitions else rest.definitions
  | branch _ _ _ rest => rest.definitions

def rename (f : ValueId → ValueId) : Block α → Block α
  | nil => nil
  | instr i rest => instr (i.rename f) (rest.rename f)
  | branch cond onTrue onFalse rest =>
    branch (f cond) (onTrue.rename f) (onFalse.rename f) (rest.rename f)

def shift (offset : Nat) : Block α → Block α := rename (·.shift offset)

def words : Block α → Block α := rename (·.word)

-- One past the greatest value in use.
def valueBound (block : Block α) : Nat :=
  (block.statements.flatMap fun s => s.dst?.toList ++ s.operands).foldl
    (fun bound v => Nat.max bound (shortWord (v.index + 1))) 0

end Block

structure Kernel (α : Type) where
  name : String
  domain : Domain
  argCount : Nat
  body : Block α
  -- values from here on are unused
  counter : ShortWord
  deriving DecidableEq, Repr

namespace Kernel

def ofBody (name : String) (domain : Domain) (argCount : Nat) (body : Block α) : Kernel α :=
  ⟨name, domain, argCount, body, body.valueBound⟩

def statementCount (kernel : Kernel α) : Nat := kernel.body.statements.length

end Kernel

end FieldKernel
