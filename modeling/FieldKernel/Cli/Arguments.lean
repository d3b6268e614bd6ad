import FieldKernel.Cli.Assignment

-- Command-line arguments. Options are written `--name value`, `--name=value`, `-n value`, `-nvalue` or
-- `-n=value`, flags `--name` or `-n`; short flags may share a dash. What follows `--` is positional. A
-- value that starts with a dash has to be attached, unless the option takes any value.
namespace FieldKernel

inductive OptionKind where
  | flag
  | single
  | repeated
  deriving DecidableEq, Repr

structure OptionSpec where
  long : String
  short? : Option Char
  kind : OptionKind
  -- takes the next argument as its value even if that starts with a dash
  anyValue : Bool
  deriving DecidableEq, Repr

structure Given where
  options : List (String × String)
  positionals : List String
  deriving DecidableEq, Repr

namespace Given

def empty : Given := ⟨[], []⟩

def addOption (given : Given) (spec : OptionSpec) (value : String) : Given :=
  { given with options := (spec.long, value) :: given.options }

def addPositionals (given : Given) (values : List String) : Given :=
  { given with positionals := values ++ given.positionals }

def valuesOf (given : Given) (long : String) : List String :=
  (given.options.filter fun o => o.1 = long).map (·.2)

end Given

def startsWithDash (argument : String) : Bool := argument.startsWith "-" && argument ≠ "-"

def OptionSpec.accepts (spec : OptionSpec) (value : String) : Bool :=
  spec.anyValue || !startsWithDash value

namespace Arguments

variable (specs : List OptionSpec)

def long? (name : String) : Option OptionSpec := specs.find? fun spec => spec.long = name

def short? (c : Char) : Option OptionSpec := specs.find? fun spec => spec.short? = some c

-- What an argument that starts with a dash stands for: flags, and at the end perhaps an option
-- with its value attached or with the value still to come.
structure Dashed where
  flags : List OptionSpec
  attached? : Option (OptionSpec × String)
  awaiting? : Option OptionSpec

def Dashed.flag (spec : OptionSpec) (rest : Dashed) : Dashed :=
  { rest with flags := spec :: rest.flags }

def readLong (body : List Char) : Option Dashed :=
  match Text.splitOnce '=' body with
  | none => do
    let spec ← long? specs (String.ofList body)
    return if spec.kind = .flag then ⟨[spec], none, none⟩ else ⟨[], none, some spec⟩
  | some (name, value) => do
    let spec ← long? specs (String.ofList name)
    if spec.kind = .flag then none else some ⟨[], some (spec, String.ofList value), none⟩

def readShorts : List Char → Option Dashed
  | [] => some ⟨[], none, none⟩
  | c :: cs => do
    let spec ← short? specs c
    if spec.kind = .flag then return (← readShorts cs).flag spec
    match cs with
    | [] => return ⟨[], none, some spec⟩
    | '=' :: value => return ⟨[], some (spec, String.ofList value), none⟩
    | value => return ⟨[], some (spec, String.ofList value), none⟩

def readDashed (argument : String) : Option Dashed :=
  match argument.toList with
  | '-' :: '-' :: body => readLong specs body
  | _ :: body => readShorts specs body
  | [] => none

def Dashed.given (dashed : Dashed) (given : Given) : Given :=
  let given := match dashed.attached? with
    | some (spec, value) => given.addOption spec value
    | none => given
  dashed.flags.foldr (fun spec given => given.addOption spec "") given

-- Sorts the arguments into options and positionals; none if an option is unknown or lacks its
-- value, or if a flag has one.
def sort : List String → Option Given
  | [] => some .empty
  | argument :: rest =>
    if argument = "--" then some (Given.empty.addPositionals rest)
    else if startsWithDash argument then
      match readDashed specs argument with
      | none => none
      | some dashed =>
        match dashed.awaiting? with
        | none => (sort rest).map dashed.given
        | some spec =>
          match rest with
          | [] => none
          | value :: more =>
            if spec.accepts value then
              (sort more).map fun given => dashed.given (given.addOption spec value)
            else none
    else (sort rest).map fun given => given.addPositionals [argument]

def unrepeated (given : Given) : Bool :=
  specs.all fun spec => spec.kind = .repeated || (given.valuesOf spec.long).length ≤ 1

def parse (arguments : List String) : Option Given := do
  let given ← sort specs arguments
  if unrepeated specs given then some given else none

end Arguments

end FieldKernel
