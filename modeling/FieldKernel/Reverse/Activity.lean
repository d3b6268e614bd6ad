import FieldKernel.Kernel.Access
import FieldKernel.Kernel.Identity
import FieldKernel.Reverse.Cone

-- Which values of a kernel carry adjoints. A value is active if it depends on a load from a real
-- field through arithmetic that has derivatives, and useful if it is active and flows the same way
-- into a store to a real field. Values that are both get an adjoint; all others have derivative zero.
namespace FieldKernel

variable {α : Type}

abbrev ValueSet := List ValueId

def Signatures.isReal (signatures : Signatures) (field : String) : Bool :=
  (signatures.find? field).any fun signature => signature.element.isReal

namespace Activity

def exprActive (signatures : Signatures) (active : ValueSet) : Expr α → Bool
  | .load place => signatures.isReal place.field
  | .binary _ lhs rhs => active.contains lhs || active.contains rhs
  | .unary op operand => op ≠ .sgn && active.contains operand
  | .const _ | .index _ | .arg _ | .compare _ _ _ => false

-- Definitions precede uses, so that one sweep forward settles activity.
def activeStep (signatures : Signatures) (active : ValueSet) : Statement α → ValueSet
  | .instr (.define dst expr) => if exprActive signatures active expr then dst :: active else active
  | _ => active

def activeValues (signatures : Signatures) (statements : List (Statement α)) : ValueSet :=
  statements.foldl (activeStep signatures) []

def mark (active : ValueSet) (operands : List ValueId) (useful : ValueSet) : ValueSet :=
  operands.filter active.contains ++ useful

-- Uses follow definitions, so that one sweep backward settles usefulness.
def usefulStep (signatures : Signatures) (active : ValueSet) :
    Statement α → ValueSet → ValueSet
  | .instr (.store place value), useful =>
    if signatures.isReal place.field then mark active [value] useful else useful
  | .instr (.define dst (.binary _ lhs rhs)), useful =>
    if useful.contains dst then mark active [lhs, rhs] useful else useful
  | .instr (.define dst (.unary _ operand)), useful =>
    if useful.contains dst then mark active [operand] useful else useful
  | _, useful => useful

def usefulValues (signatures : Signatures) (active : ValueSet) (statements : List (Statement α)) :
    ValueSet :=
  statements.foldr (usefulStep signatures active) []

end Activity

structure Activity (α : Type) where
  -- the last one first
  definitions : List (Definition α)
  written : NameSet
  active : ValueSet
  useful : ValueSet

namespace Activity

def ofKernel (kernel : Kernel α) (signatures : Signatures) : Activity α :=
  let statements := kernel.body.statements
  let active := activeValues signatures statements
  { definitions := kernel.body.definitionsBackward
    written := (Access.ofBlock kernel.body).writes
    active := active
    useful := usefulValues signatures active statements }

def carriesAdjoint (activity : Activity α) (v : ValueId) : Bool :=
  activity.active.contains v && activity.useful.contains v

def overwrittenField? (activity : Activity α) (v : ValueId) : Option String :=
  (Cone.fields activity.definitions v).firstShared activity.written

end Activity

end FieldKernel
