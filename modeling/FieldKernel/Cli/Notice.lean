import FieldKernel.Source.Span

-- What a command tells beside its output.
namespace FieldKernel

inductive Notice where
  | error (message : String)
  -- why a kernel has no gradient kernel
  | noReverse (message : String)
  -- what is wrong at a place of a file
  | problem (path : String) (span : Span) (message : String)
  | usage
  deriving DecidableEq, Repr

def Notice.text : Notice → String
  | error message => "error: " ++ message
  | noReverse message => s!"  (no reverse kernel: {message})"
  | problem path span message => s!"{path}:{span.start}..{span.stop}: {message}"
  | usage => "usage: print | run | hash FILE, see the options of each"

end FieldKernel
