import FieldKernel.Source.Program
import FieldKernel.Source.Scan

-- Program texts to programs.
--
--     program   := item*
--     item      := field NAME : ELEMENT [ INT, ... ] (in GROUP)?
--                | grad GROUP
--                | kernel NAME over [ INT .. INT, ... ] (args INT)? BLOCK
--     BLOCK     := the statements that kernels print, in braces
--
-- Reading goes on past what is wrong, so that a text's problems are told together: where something is
-- missing a stand-in takes its place, and an item with a problem is followed by a search for the next
-- one. A text is accepted if nothing was wrong.
namespace FieldKernel.Reader

variable {α : Type}

-- What is left to read, and what was found wrong so far, the newest first.
structure Cursor where
  tokens : List (Located Lexeme)
  -- where the text ends
  stop : Nat
  -- the range of the token read last
  last : Span
  depth : Nat
  issues : List Diagnostic
  deriving DecidableEq, Repr

abbrev Read := StateM Cursor

namespace Cursor

def peek (cursor : Cursor) : Option Lexeme := cursor.tokens.head?.map (·.node)

def here (cursor : Cursor) : Span :=
  match cursor.tokens with
  | token :: _ => token.span
  | [] => .point cursor.stop

def atMark (cursor : Cursor) (m : Mark) : Bool := cursor.peek = some (.mark m)

def advance (cursor : Cursor) : Cursor :=
  match cursor.tokens with
  | token :: rest => { cursor with tokens := rest, last := token.span }
  | [] => cursor

def report (cursor : Cursor) (issue : Issue) (span : Span) : Cursor :=
  { cursor with issues := ⟨issue, span⟩ :: cursor.issues }

end Cursor

def peek : Read (Option Lexeme) := return (← get).peek

def here : Read Span := return (← get).here

def atMark (m : Mark) : Read Bool := return (← get).atMark m

def atEnd : Read Bool := return (← get).tokens.isEmpty

def advance : Read Unit := modify Cursor.advance

def reportAt (issue : Issue) (span : Span) : Read Unit := modify (·.report issue span)

def reportHere (issue : Issue) : Read Unit := do reportAt issue (← here)

def reportMissing (wanted : Wanted) : Read Unit := do reportHere (.expected wanted (← peek))

def eat (m : Mark) : Read Bool := do
  if ← atMark m then
    advance
    return true
  else return false

def expect (m : Mark) : Read Span := do
  let span ← here
  if ← atMark m then advance else reportMissing (.mark m)
  return span

def missingWord : String := "_error_"

def expectWord : Read (Located String) := do
  let span ← here
  match ← peek with
  | some (.word name) =>
    advance
    return ⟨name, span⟩
  | _ =>
    reportMissing .identifier
    return ⟨missingWord, span⟩

def expectInteger : Read Nat := do
  match ← peek with
  | some (.integer n) =>
    advance
    return n
  | _ =>
    reportMissing .integer
    return 0

def expectValue : Read ValueId := do
  match ← peek with
  | some (.value n) =>
    advance
    return ⟨n⟩
  | _ =>
    reportMissing .value
    return ⟨0⟩

-- Elements between commas up to a closing bracket; a comma may follow the last. `fuel` bounds
-- their number: every further element needs a comma.
def commaList {β : Type} (element : Read β) : Nat → Read (List β)
  | 0 => return []
  | fuel + 1 => do
    if (← atMark .rightBracket) || (← atEnd) then return []
    let first ← element
    if ← eat .comma then return first :: (← commaList element fuel)
    else return [first]

def bracketed {β : Type} (element : Read β) : Read (List β × Span) := do
  let _ ← expect .leftBracket
  let elements ← commaList element ((← get).tokens.length + 1)
  let span ← expect .rightBracket
  return (elements, span)

def groupTail : Nat → Located String → Read (Located String)
  | 0, path => return path
  | fuel + 1, path => do
    if ← eat .dot then
      let part ← expectWord
      groupTail fuel ⟨path.node ++ "." ++ part.node, path.span.merge part.span⟩
    else return path

def group : Read (Located String) := do
  let first ← expectWord
  groupTail ((← get).tokens.length + 1) first

def place : Read Place := do
  let field ← expectWord
  let (index, _) ← bracketed expectValue
  return ⟨field.node, index⟩

def valuePair : Read (ValueId × ValueId) := do
  let lhs ← expectValue
  let _ ← expect .comma
  let rhs ← expectValue
  return (lhs, rhs)

-- Integers are 64-bit words, read as signed ones in ranges.
def signedWord (i : Int) : Int := Int.bmod i 18446744073709551616

def signed : Read Int := do
  let negative ← eat .minus
  let n := signedWord (← expectInteger)
  return if negative then signedWord (-n) else n

def axis : Read Axis := do
  let lo ← signed
  let _ ← expect .dotDot
  let hi ← signed
  return ⟨lo, hi⟩

section Scalars

variable [Scalar α]

def magnitude? : Option Lexeme → Option α
  | some (.integer n) => some (Scalar.ofDecimal (.ofNat n))
  | some (.number d) => some (Scalar.ofDecimal d)
  | some (.word name) =>
    if name = "inf" then some Scalar.infinity
    else if name = "NaN" then some Scalar.nan
    else none
  | _ => none

def constant : Read α := do
  let negative ← eat .minus
  match magnitude? (← peek) with
  | some magnitude =>
    advance
    return if negative then -magnitude else magnitude
  | none =>
    reportMissing .number
    return Scalar.zero

def expression : Read (Option (Expr α)) := do
  let operation ← expectWord
  match operation.node with
  | "const" => return some (.const (← constant))
  | "index" => return some (.index (shortWord (← expectInteger)))
  | "arg" => return some (.arg (shortWord (← expectInteger)))
  | "load" => return some (.load (← place))
  | name =>
    match UnaryOp.ofName? name, BinaryOp.ofName? name, CompareOp.ofName? name with
    | some op, _, _ => return some (.unary op (← expectValue))
    | none, some op, _ =>
      let (lhs, rhs) ← valuePair
      return some (.binary op lhs rhs)
    | none, none, some op =>
      let (lhs, rhs) ← valuePair
      return some (.compare op lhs rhs)
    | none, none, none =>
      reportAt (.unknownOperation name) operation.span
      return none

def adjoint : Read (Instr α) := do
  let target ← expectValue
  if ← eat .minusEquals then
    let _ ← expect .adj
    return .propagate target (← expectValue) .minusOne
  let _ ← expect .plusEquals
  if ← eat .grad then return .readGrad target (← place)
  let _ ← expect .adj
  let source ← expectValue
  if ← eat .star then return .propagate target source (.value (← expectValue))
  else return .propagate target source .one

-- A statement without its blocks; none if there is none here, which is reported.
def statement : Read (Option (Statement α)) := do
  match ← peek with
  | some (.value n) =>
    advance
    let _ ← expect .equals
    return (← expression).map fun expr => .instr (.define ⟨n⟩ expr)
  | some (.mark .store) =>
    advance
    let place ← place
    let _ ← expect .comma
    return some (.instr (.store place (← expectValue)))
  | some (.mark .branch) =>
    advance
    return some (.branch (← expectValue))
  | some (.mark .adj) =>
    advance
    return some (.instr (← adjoint))
  | some (.mark .grad) =>
    advance
    let place ← place
    let _ ← expect .plusEquals
    let _ ← expect .adj
    return some (.instr (.addGrad place (← expectValue)))
  | _ =>
    reportHere .expectedStatement
    return none

-- A block in braces, unless it stands too deep; a block that breaks off is left as it is.
def braced {β : Type} (content : Read (Option β)) : Read (Option β) := do
  if maxNesting ≤ (← get).depth then
    reportHere .nestingTooDeep
    return none
  modify fun cursor => { cursor with depth := cursor.depth + 1 }
  let _ ← expect .leftBrace
  let block ← content
  if block.isSome then
    let _ ← expect .rightBrace
  modify fun cursor => { cursor with depth := cursor.depth - 1 }
  return block

-- Statements up to a closing brace. Every statement takes a token, which bounds `fuel`.
def statements : Nat → Read (Option (Block α))
  | 0 => return none
  | fuel + 1 => do
    if (← atMark .rightBrace) || (← atEnd) then return some .nil
    match ← statement with
    | none => return none
    | some (.instr i) => return (← statements fuel).map (.instr i)
    | some (.branch cond) =>
      match ← braced (statements fuel) with
      | none => return none
      | some onTrue =>
        match ← (do if ← eat .otherwise then braced (statements fuel) else return some .nil) with
        | none => return none
        | some onFalse => return (← statements fuel).map (.branch cond onTrue onFalse)

def block : Read (Option (Block α)) := do
  braced (statements ((← get).tokens.length + 1))

def field : Read FieldDecl := do
  let start ← expect .field
  let name ← expectWord
  let _ ← expect .colon
  let elementName ← expectWord
  let element ← match ElementType.ofName? elementName.node with
    | some element => pure element
    | none =>
      reportAt (.unknownElementType elementName.node) elementName.span
      pure .f32
  let (shape, stop) ← bracketed expectInteger
  let group? ← if ← eat .within then some <$> group else pure none
  return ⟨name.node, element, shape, group?.map (·.node), start.merge stop⟩

def kernel : Read (Option (Located (Kernel α))) := do
  let start ← expect .kernel
  let name ← expectWord
  let _ ← expect .onDomain
  let (axes, _) ← bracketed axis
  let argCount ← if ← eat .args then shortWord <$> expectInteger else pure 0
  let body ← block
  let stop := (← get).last
  return body.map fun body =>
    ⟨Kernel.ofBody name.node ⟨axes⟩ argCount body, start.merge stop⟩

-- The tokens from the next item on that stands outside braces opened since.
def skipToItem : Nat → List (Located Lexeme) → List (Located Lexeme)
  | _, [] => []
  | depth, token :: rest =>
    match token.node with
    | .mark .leftBrace => skipToItem (depth + 1) rest
    | .mark .rightBrace => skipToItem (depth - 1) rest
    | .mark .field | .mark .kernel => if depth = 0 then token :: rest else skipToItem depth rest
    | _ => skipToItem depth rest

def item (program : Program α) : Read (Program α) := do
  match ← peek with
  | some (.mark .field) => return { program with fields := program.fields ++ [← field] }
  | some (.mark .grad) =>
    advance
    return { program with grads := program.grads ++ [← group] }
  | some (.mark .kernel) =>
    return { program with kernels := program.kernels ++ (← kernel).toList }
  | _ =>
    reportMissing .item
    return program

def items : Nat → Program α → Read (Program α)
  | 0, program => return program
  | fuel + 1, program => do
    if ← atEnd then return program
    let before := (← get).issues.length
    let program ← item program
    if before < (← get).issues.length then
      modify fun cursor => { cursor with tokens := skipToItem 0 cursor.tokens }
    items fuel program

def program (tokens : List (Located Lexeme)) (stop : Nat) :
    Except (List Diagnostic) (Program α) :=
  let (program, cursor) := (items (tokens.length + 1) .empty).run ⟨tokens, stop, .point 0, 0, []⟩
  if cursor.issues.isEmpty then .ok program else .error cursor.issues.reverse

end Scalars

end FieldKernel.Reader

namespace FieldKernel.Program

variable {α : Type} [Scalar α]

-- Reads a program text. Problems of spelling are told alone, then those of grammar, then the
-- kernels that are not well formed.
def read (text : String) : Except (List Diagnostic) (Program α) :=
  let scan := Scan.ofText text
  if scan.issues.isEmpty then
    match Reader.program scan.tokens scan.stop with
    | .error issues => .error issues
    | .ok program =>
      if program.refusals.isEmpty then .ok program else .error program.refusals
  else .error scan.issues

end FieldKernel.Program
