import FieldKernel.Kernel.Basic
import FieldKernel.NameMap

-- What a value depends on. The cone of a value holds the value, the operands of its definition, the
-- operands of theirs and so on, load indices included. Of several definitions of a value the last in
-- preorder counts; values without a definition end the cone.
namespace FieldKernel

variable {α : Type}

structure Definition (α : Type) where
  dst : ValueId
  expr : Expr α
  deriving DecidableEq, Repr

def Statement.definition? : Statement α → Option (Definition α)
  | instr (.define dst expr) => some ⟨dst, expr⟩
  | _ => none

def Block.definitionsBackward (block : Block α) : List (Definition α) :=
  (block.statements.filterMap Statement.definition?).reverse

def Definition.loaded? (d : Definition α) : Option String :=
  match d.expr with
  | .load place => some place.field
  | _ => none

namespace Cone

-- The definitions reached from the values on `stack`, each once. A step takes one value off; the
-- first definition found of it leaves `unvisited` and puts its operands on. The values on the stack
-- and the operands not yet visited together bound the steps, and so `fuel`.
def reach : Nat → List (Definition α) → List ValueId → List (Definition α)
  | 0, _, _ => []
  | _, _, [] => []
  | fuel + 1, unvisited, v :: stack =>
    match unvisited.find? (·.dst = v) with
    | none => reach fuel unvisited stack
    | some d => d :: reach fuel (unvisited.filter (·.dst ≠ v)) (d.expr.operands ++ stack)

def operandCount (definitions : List (Definition α)) : Nat :=
  (definitions.map fun d => d.expr.operands.length).foldr (· + ·) 0

def of (definitions : List (Definition α)) (v : ValueId) : List (Definition α) :=
  reach (operandCount definitions + 1) definitions [v]

def fields (definitions : List (Definition α)) (v : ValueId) : NameSet :=
  .ofNames ((of definitions v).filterMap Definition.loaded?)

end Cone

end FieldKernel
