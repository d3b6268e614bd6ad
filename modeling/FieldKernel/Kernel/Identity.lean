import FieldKernel.Digest.Basic
import FieldKernel.Field.Element
import FieldKernel.Kernel.Text
import FieldKernel.NameMap

-- The bytes that identify a kernel: its text and the signatures of the fields it is bound against.
namespace FieldKernel

variable {α δ : Type} [Scalar α] [Digest δ]

abbrev Signatures := NameMap Signature

def utf8 (text : String) : List UInt8 := text.toUTF8.data.toList

def signatureLine (name : String) (signature : Signature) : String :=
  "field " ++ name ++ ": " ++ signature.text

def Signatures.text (signatures : Signatures) : String :=
  joinLines (signatures.entries.map fun entry => signatureLine entry.1 entry.2)

namespace Kernel

def identityVersion : UInt8 := 1

def identity (kernel : Kernel α) (signatures : Signatures) : List UInt8 :=
  identityVersion :: utf8 (kernel.text ++ signatures.text)

def digest (kernel : Kernel α) (signatures : Signatures) : δ :=
  Digest.ofBytes (kernel.identity signatures)

end Kernel

end FieldKernel
