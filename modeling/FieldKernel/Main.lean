import FieldKernel.Cli.Console

-- The command line.
namespace FieldKernel

def faultOf : IO.Error → ReadFault
  | .noFileOrDirectory _ _ _ => .notFound
  | .inappropriateType _ code _ => if code = 21 then .isDirectory else .notDirectory
  -- all that can be invalid about opening a path for reading
  | .invalidArgument _ _ _ => .nameTooLong
  | error => .other (toString error)

def diskFiles : Files IO where
  read path := do
    try
      return .ok (← IO.FS.readFile path)
    catch error => return .error (faultOf error)
  present path := do
    try
      let _ ← IO.FS.Handle.mk path .read
      return true
    catch _ => return false

end FieldKernel

def main (arguments : List String) : IO UInt32 := do
  let outcome ← FieldKernel.runArguments FieldKernel.diskFiles arguments
  IO.print outcome.stdout
  outcome.notices.forM fun notice => IO.eprintln notice.text
  return outcome.code.toUInt32
