-- Files as a command sees them: by path, read as a whole or not at all.
namespace FieldKernel

inductive ReadFault where
  | notFound
  | notDirectory
  | isDirectory
  | nameTooLong
  | other (text : String)
  deriving DecidableEq, Repr

def ReadFault.message : ReadFault → String
  | notFound => "No such file or directory (os error 2)"
  | notDirectory => "Not a directory (os error 20)"
  | isDirectory => "Is a directory (os error 21)"
  | nameTooLong => "File name too long (os error 36)"
  | other text => text

structure Files (m : Type → Type) where
  read : String → m (Except ReadFault String)
  -- whether there is a file or a directory of a path
  present : String → m Bool

end FieldKernel
