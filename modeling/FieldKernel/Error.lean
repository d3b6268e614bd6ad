import FieldKernel.Field.Shape
import FieldKernel.Operator
import FieldKernel.Value

-- Why a kernel is refused or a launch fails, as causes, and the one wording of each cause.
namespace FieldKernel

inductive ShapeFault where
  | axisBeyondRank (axis rank : Nat)
  -- a kernel that indexes a field with the wrong number of coordinates
  | accessRank (kernel : String) (given rank : Nat)
  | index (fault : IndexFault)
  -- an index that is no integer, as messages show it
  | nonIntegral (shown : String) (value : ValueId)
  -- an access beyond the storage of a field, which holds fewer elements than its shape has if these
  -- are too many for a 64-bit word; the program ends with it
  | overrun (position stored : Nat)
  deriving DecidableEq, Repr

inductive MalformedFault where
  | outOfScope (mnemonic : String) (value : ValueId)
  | argumentPosition (position argCount : Nat)
  | beyondCounter (value : ValueId) (counter : Nat)
  | redefined (value : ValueId)
  -- met by a running kernel only, and by none that is well formed
  | unassigned (value : ValueId)
  | noRegister (value : ValueId)
  deriving DecidableEq, Repr

inductive ReversalFault where
  | reverseOnly (mnemonic : String)
  | noRule (dst : ValueId) (op : BinaryOp) (lhs rhs : ValueId)
  deriving DecidableEq, Repr

inductive KernelFault where
  | ungraded (field : String)
  | notDifferentiable (kernel : String) (fault : ReversalFault)
  -- a branch predicate depends on a field that the kernel itself writes
  | impureCondition (kernel : String) (predicate : ValueId) (field : String)
  | shapeMismatch (subject : String) (fault : ShapeFault)
  | unknownField (field : String)
  | unknownKernel (kernel : String)
  | alreadyDeclared (name : String)
  | argumentCount (kernel : String) (expected found : Nat)
  | malformed (kernel : String) (fault : MalformedFault)
  -- a gradient needs a value that depends on a field the kernel overwrites
  | overwrittenPrimal (kernel : String) (value : ValueId) (field : String)
  deriving DecidableEq, Repr

def IndexFault.message : IndexFault → String
  | coordinateCount given rank =>
    s!"indexed with {given} coordinate(s), field has rank {rank}"
  | outOfRange index extent axis =>
    s!"index {index} out of range 0..{extent} on axis {axis}"

def ShapeFault.message : ShapeFault → String
  | overrun position stored => s!"index out of bounds: the len is {stored} but the index is {position}"
  | axisBeyondRank axis rank => s!"index axis {axis} on a domain of rank {rank}"
  | accessRank kernel given rank =>
    s!"kernel '{kernel}' indexes it with {given} coordinate(s), field has rank {rank}"
  | index fault => fault.message
  | nonIntegral shown value => s!"non-integral index {shown} (from {value.text})"

def MalformedFault.message : MalformedFault → String
  | outOfScope mnemonic value => s!"`{mnemonic}` uses {value.text} outside its scope"
  | argumentPosition position argCount =>
    s!"argument {position} requested, kernel takes {argCount}"
  | beyondCounter value counter =>
    s!"{value.text} is beyond the value counter {counter}"
  | redefined value => s!"{value.text} is defined more than once"
  | unassigned value => s!"{value.text} is read before it is assigned"
  | noRegister value => s!"{value.text} has no register"

def binaryText (dst : ValueId) (op : BinaryOp) (lhs rhs : ValueId) : String :=
  s!"{dst.text} = {op.name} {lhs.text}, {rhs.text}"

def ReversalFault.message : ReversalFault → String
  | reverseOnly mnemonic => s!"reverse-only statement `{mnemonic}` in a forward kernel"
  | noRule dst op lhs rhs => s!"`{binaryText dst op lhs rhs}`"

def KernelFault.message : KernelFault → String
  | ungraded field =>
    s!"field '{field}' has no gradient buffer (enable gradients on its group first)"
  | notDifferentiable kernel fault =>
    s!"kernel '{kernel}' is not differentiable: no reversal rule for {fault.message}"
  | impureCondition kernel predicate field =>
    s!"kernel '{kernel}': branch predicate {predicate.text} reads field '{field}', which the kernel mutates"
  | shapeMismatch subject fault => s!"shape mismatch on '{subject}': {fault.message}"
  | unknownField field => s!"unknown field '{field}'"
  | unknownKernel kernel => s!"unknown kernel '{kernel}'"
  | alreadyDeclared name => s!"'{name}' is already declared"
  | argumentCount kernel expected found =>
    s!"kernel '{kernel}' takes {expected} argument(s), {found} given"
  | malformed kernel fault => s!"kernel '{kernel}': malformed IR: {fault.message}"
  | overwrittenPrimal kernel value field =>
    s!"kernel '{kernel}': gradient of {value.text} needs the primal value of field '{field}', which the kernel overwrites"

end FieldKernel
