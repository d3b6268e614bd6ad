import FieldKernel.Cli.Arguments

-- The commands of the program.
namespace FieldKernel

variable {α : Type}

structure RunOptions (α : Type) where
  kernel : String
  -- run the gradient kernel in place of the kernel
  grad : Bool
  -- the scalar arguments of the kernel, in order
  args : List α
  -- fields filled before the run, then gradients
  fills : List (Assignment α)
  seeds : List (Assignment α)
  -- the fields written out afterwards; all if none is named
  dump : List String
  -- the settings file
  config? : Option String
  deriving DecidableEq, Repr

inductive Action (α : Type) where
  | print (kernel? : Option String) (grad : Bool)
  | run (options : RunOptions α)
  | hash (full : Bool)
  deriving DecidableEq, Repr

structure Command (α : Type) where
  input : String
  action : Action α
  deriving DecidableEq, Repr

namespace Command

def verbose : OptionSpec := ⟨"verbose", some 'v', .flag, false⟩

def grad : OptionSpec := ⟨"grad", none, .flag, false⟩

def printSpecs : List OptionSpec := [verbose, ⟨"kernel", some 'k', .single, false⟩, grad]

def runSpecs : List OptionSpec :=
  [verbose, ⟨"kernel", some 'k', .single, false⟩, grad, ⟨"arg", none, .repeated, true⟩,
   ⟨"fill", none, .repeated, false⟩, ⟨"seed", none, .repeated, false⟩,
   ⟨"dump", none, .repeated, false⟩, ⟨"config", none, .single, false⟩]

def hashSpecs : List OptionSpec := [verbose, ⟨"full", none, .flag, false⟩]

def input? (given : Given) : Option String :=
  match given.positionals with
  | [input] => if input.isEmpty then none else some input
  | _ => none

def present (given : Given) (long : String) : Bool := !(given.valuesOf long).isEmpty

def single? (given : Given) (long : String) : Option String := (given.valuesOf long).head?

variable [Scalar α]

def assignments? (given : Given) (long : String) : Option (List (Assignment α)) :=
  (given.valuesOf long).mapM fun text => (Assignment.read text).toOption

def printAction? (given : Given) : Option (Action α) :=
  some (.print (single? given "kernel") (present given "grad"))

def runAction? (given : Given) : Option (Action α) := do
  let kernel ← single? given "kernel"
  let args ← (given.valuesOf "arg").mapM fun text => Scalar.ofText? text.toList
  let fills ← assignments? given "fill"
  let seeds ← assignments? given "seed"
  let config? := single? given "config"
  if config? = some "" then none
  return .run ⟨kernel, present given "grad", args, fills, seeds, given.valuesOf "dump", config?⟩

def hashAction? (given : Given) : Option (Action α) := some (.hash (present given "full"))

def ofGiven? (action? : Given → Option (Action α)) (given : Given) : Option (Command α) :=
  return ⟨← input? given, ← action? given⟩

def subcommand? (name : String) (arguments : List String) : Option (Command α) :=
  match name with
  | "print" => Arguments.parse printSpecs arguments >>= ofGiven? printAction?
  | "run" => Arguments.parse runSpecs arguments >>= ofGiven? runAction?
  | "hash" => Arguments.parse hashSpecs arguments >>= ofGiven? hashAction?
  | _ => none

-- The command of all arguments; only flags may stand before its name.
def ofArguments? (arguments : List String) : Option (Command α) :=
  let flags := arguments.takeWhile fun a => startsWithDash a && a ≠ "--"
  match arguments.drop flags.length with
  | name :: rest => do
    let _ ← Arguments.parse [verbose] flags
    subcommand? name rest
  | [] => none

end Command

end FieldKernel
