import FieldKernel.Cli.Command
import FieldKernel.Cli.Files
import FieldKernel.Cli.Notice
import FieldKernel.Cli.Path
import FieldKernel.Digest.ContentHash
import FieldKernel.Scalar.Double
import FieldKernel.Session.Request
import FieldKernel.Settings.Reader
import FieldKernel.Source.Reader

-- Carrying out commands. All that a command writes is a function of its arguments and of the files it reads.
namespace FieldKernel

structure Outcome where
  code : Nat
  stdout : String
  notices : List Notice
  deriving DecidableEq, Repr

namespace Outcome

def failed (notices : List Notice) : Outcome := ⟨1, "", notices⟩

def misused : Outcome := ⟨2, "", [.usage]⟩

end Outcome

structure Console where
  host : Host Float ContentHash
  stdout : String
  notices : List Notice

-- Work that may break off; why is then written already.
abbrev Work := EStateM Unit Console

namespace Console

def write (text : String) : Work Unit :=
  modify fun console => { console with stdout := console.stdout ++ text }

def writeLine (line : String) : Work Unit := write (line ++ "\n")

def tell (notice : Notice) : Work Unit :=
  modify fun console => { console with notices := console.notices ++ [notice] }

def complain (error : KernelFault) : Work Unit := tell (.error error.message)

def attempt {β : Type} (act : Act Float ContentHash β) : Work (Except KernelFault β) := fun console =>
  match act console.host with
  | .ok b host => .ok (.ok b) { console with host := host }
  | .error error host => .ok (.error error) { console with host := host }

def require {β : Type} (act : Act Float ContentHash β) : Work β := do
  match ← attempt act with
  | .ok b => return b
  | .error error =>
    complain error
    throw ()

def outcome (result : EStateM.Result Unit Console Unit) : Outcome :=
  match result with
  | .ok _ console => ⟨0, console.stdout, console.notices⟩
  | .error _ console => ⟨1, console.stdout, console.notices⟩

def printed (input : String) (program : Program Float) : Option String → Work (List String)
  | none => return program.kernels.map (·.node.name)
  | some name => do
    if (program.kernel? name).isNone then
      tell (.error s!"no kernel '{name}' in '{input}'")
      throw ()
    return [name]

def printKernel (program : Program Float) (grad : Bool) (name : String) : Work Bool := do
  if let some kernel := program.kernel? name then write kernel.text
  if !grad then return true
  match ← attempt (Session.reverse name) with
  | .ok reverse =>
    writeLine ""
    write reverse.text
    return true
  | .error error =>
    complain error
    return false

def printKernels (program : Program Float) (grad : Bool) : List String → Work Bool
  | [] => return true
  | [name] => printKernel program grad name
  | name :: names => do
    let first ← printKernel program grad name
    writeLine ""
    return (← printKernels program grad names) && first

def print (input : String) (program : Program Float) (kernel? : Option String) (grad : Bool) :
    Work Unit := do
  let names ← printed input program kernel?
  if !(← printKernels program grad names) then throw ()

def numbersText (xs : Array Float) : String :=
  "[" ++ String.intercalate ", " (xs.toList.map Scalar.literal) ++ "]"

def dumpField (name : String) : Work Unit := do
  match ← require (Session.ask name .whole) with
  | .whole field =>
    writeLine (name ++ " = " ++ numbersText field.data)
    if let some grad := field.grad? then
      writeLine (name ++ ".grad = " ++ numbersText grad)
  | _ => pure ()

def run (options : RunOptions Float) : Work Unit := do
  options.fills.forM fun a => do
    let _ ← require (Session.edit a.name (.fill a.value))
  options.seeds.forM fun a => do
    let _ ← require (Session.edit a.name (.fillGrad a.value))
  require (Session.invoke options.grad options.kernel options.args)
  let all := (← get).host.session.table.names
  (if options.dump.isEmpty then all else options.dump).forM dumpField

def hashText (full : Bool) (hash : ContentHash) : String := if full then hash.hex else hash.text

def hashKernel (full : Bool) (name : String) : Work Unit := do
  match ← attempt (Session.compile name) with
  | .error error => complain error
  | .ok bound =>
    writeLine s!"  {hashText full bound.digest} {name}"
    match ← attempt (Session.reverse name) with
    | .ok reverse =>
      writeLine s!"  {hashText full (reverse.digest bound.signatures)} {reverse.name}"
    | .error error => tell (.noReverse error.message)

def hash (full : Bool) : Work Unit := do
  (← get).host.session.kernels.names.forM (hashKernel full)

def perform (command : Command Float) (program : Program Float) : Work Unit := do
  require (Session.load program)
  match command.action with
  | .print kernel? grad => print command.input program kernel? grad
  | .run options => run options
  | .hash full => hash full

end Console

namespace Command

def carryOut (command : Command Float) (program : Program Float) (settings : Settings) : Outcome :=
  Console.outcome ((Console.perform command program).run ⟨.start settings, "", []⟩)

def settingsFile : String := "gradus.toml"

def cannotRead (path : String) (fault : ReadFault) : String :=
  s!"cannot read '{path}': {fault.message}"

variable {m : Type → Type} [Monad m]

def firstPresent (files : Files m) : List String → m (Option String)
  | [] => return none
  | path :: paths => do
    if ← files.present path then return some path else firstPresent files paths

-- The settings file of a command: the one it names, or else the nearest one in the directory of
-- the program file and those above it.
def settingsPath? (files : Files m) (command : Command Float) : m (Option String) :=
  let nearest : m (Option String) :=
    let directory := (Path.parent? command.input).getD "."
    firstPresent files
      ((Path.upward directory.length directory).map fun d => Path.join d settingsFile)
  match command.action with
  | .run { config? := some path, .. } => return some path
  | _ => nearest

def settings (files : Files m) (command : Command Float) : m (Except (List Notice) Settings) := do
  match ← command.settingsPath? files with
  | none => return .ok .default
  | some path =>
    match ← files.read path with
    | .error fault => return .error [.error (cannotRead path fault)]
    | .ok text =>
      match Settings.read text with
      | .ok settings => return .ok settings
      | .error issue => return .error [.problem path issue.span issue.node.message]

def runWith (files : Files m) (command : Command Float) : m Outcome := do
  match ← files.read command.input with
  | .error fault => return .failed [.error (cannotRead command.input fault)]
  | .ok text =>
    match (Program.read text : Except (List Diagnostic) (Program Float)) with
    | .error issues =>
      return .failed (issues.map (fun i => .problem command.input i.span i.node.message)
        ++ [.error s!"{issues.length} problem(s) in '{command.input}'"])
    | .ok program =>
      match ← command.settings files with
      | .error notices => return .failed notices
      | .ok settings => return command.carryOut program settings

end Command

def runArguments {m : Type → Type} [Monad m] (files : Files m) (arguments : List String) :
    m Outcome :=
  match Command.ofArguments? arguments with
  | some command => command.runWith files
  | none => return .misused

end FieldKernel
