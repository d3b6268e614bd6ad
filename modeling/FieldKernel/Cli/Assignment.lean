import FieldKernel.Scalar.Reader
import FieldKernel.Text.Blank

-- Assignments `NAME=VALUE` on the command line.
namespace FieldKernel

structure Assignment (α : Type) where
  name : String
  value : α
  deriving DecidableEq, Repr

namespace Assignment

inductive Issue where
  | noEquals (text : String)
  | notNumber (text : String)
  deriving DecidableEq, Repr

def Issue.message : Issue → String
  | noEquals text => s!"expected NAME=VALUE, found '{text}'"
  | notNumber text => s!"'{text}' is not a number"

def read {α : Type} [Scalar α] (text : String) : Except Issue (Assignment α) :=
  match Text.splitOnce '=' text.toList with
  | none => .error (.noEquals text)
  | some (name, value) =>
    let value := Text.trim value
    match Scalar.ofText? value with
    | some x => .ok ⟨String.ofList (Text.trim name), x⟩
    | none => .error (.notNumber (String.ofList value))

end Assignment

end FieldKernel
