import FieldKernel.Settings.Basic
import FieldKernel.Source.Span
import FieldKernel.Text.Blank

-- Settings files: lines `key = value` under the heading `[runtime]`. Other sections are skipped; in
-- this one, a key that is no setting is refused. A `#` after the equals sign starts a comment.
namespace FieldKernel.Settings

inductive Issue where
  | expectedAssignment (line : String)
  | notBoolean (key value : String)
  | notOrder (key value : String)
  | unknownSetting (key : String)
  deriving DecidableEq, Repr

def Issue.message : Issue → String
  | expectedAssignment line => s!"expected 'key = value', found '{line}'"
  | notBoolean key value => s!"'{key}' expects true or false, found '{value}'"
  | notOrder key value => s!"'{key}' expects \"forward\" or \"reverse\", found {value}"
  | unknownSetting key => s!"unknown runtime setting '{key}'"

def Issue.help? : Issue → Option String
  | unknownSetting _ =>
    some "known settings: print_ir, eager_gradients, fusion, forward_order, gradient_order"
  | _ => none

def unquote (cs : List Char) : List Char := Text.trimWith (· = '\x22') cs

def readBool (key value : String) : Except Issue Bool :=
  if value = "true" then .ok true
  else if value = "false" then .ok false
  else .error (.notBoolean key value)

def readOrder (key value : String) : Except Issue VisitOrder :=
  match VisitOrder.ofName? (String.ofList (unquote value.toList)) with
  | some order => .ok order
  | none => .error (.notOrder key value)

def set (settings : Settings) (key value : String) : Except Issue Settings :=
  match key with
  | "print_ir" => return { settings with printKernels := ← readBool key value }
  | "eager_gradients" => return { settings with eagerGradients := ← readBool key value }
  | "fusion" => return { settings with fusion := ← readBool key value }
  | "forward_order" => return { settings with forwardOrder := ← readOrder key value }
  | "gradient_order" => return { settings with gradientOrder := ← readOrder key value }
  | _ => .error (.unknownSetting key)

def heading? (line : List Char) : Option (List Char) :=
  if line.head? = some '[' ∧ line.getLast? = some ']' then
    some (Text.trim ((line.drop 1).dropLast))
  else none

def readAssignment (settings : Settings) (line : List Char) : Except Issue Settings :=
  match Text.splitOnce '=' line with
  | none => .error (.expectedAssignment (String.ofList line))
  | some (key, value) =>
    settings.set (String.ofList (unquote (Text.trim key)))
      (String.ofList (Text.trim (value.takeWhile (· ≠ '#'))))

def readLine (heading : List Char) (settings : Settings) (line : List Char) :
    Except Issue (List Char × Settings) :=
  if line.isEmpty || line.head? = some '#' then .ok (heading, settings)
  else match heading? line with
    | some name => .ok (name, settings)
    | none =>
      if heading = "runtime".toList then do
        return (heading, ← settings.readAssignment line)
      else .ok (heading, settings)

def readLines (start : Nat) (heading : List Char) (settings : Settings) :
    List (List Char) → Except (Located Issue) Settings
  | [] => .ok settings
  | raw :: rest =>
    let line := Text.trimEnd (fun c => c = '\n' || c = '\r') raw
    match readLine heading settings (Text.trim line) with
    | .ok (heading, settings) =>
      readLines (start + Text.byteLength raw) heading settings rest
    | .error issue => .error ⟨issue, ⟨start, start + Text.byteLength line⟩⟩

-- The settings of a text; a key that it does not set keeps its default.
def read (text : String) : Except (Located Issue) Settings :=
  readLines 0 [] .default (Text.lines text.toList)

end FieldKernel.Settings
