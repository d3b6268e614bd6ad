import FieldKernel.Source.Reader

-- The grammar of program texts, as the lexemes that each form is written with and what these denote.
namespace FieldKernel

variable {α β : Type}

theorem Reader.signedWord_eq {i : Int} (low : -9223372036854775808 ≤ i) (high : i < 9223372036854775808) :
    signedWord i = i := by
  rw [signedWord, Int.bmod_def]
  omega

theorem Reader.signedWord_neg (i : Int) : signedWord (-signedWord i) = signedWord (-i) := by
  simp only [signedWord, Int.bmod_def]
  omega

-- What a program says, without the places in its text where it says so.
structure FieldForm where
  name : String
  element : ElementType
  shape : Shape
  group? : Option String
  deriving DecidableEq, Repr

def FieldDecl.form (decl : FieldDecl) : FieldForm := ⟨decl.name, decl.element, decl.shape, decl.group?⟩

structure Outline (α : Type) where
  fields : List FieldForm
  grads : List String
  kernels : List (Kernel α)
  deriving DecidableEq, Repr

def Program.outline (program : Program α) : Outline α where
  fields := program.fields.map FieldDecl.form
  grads := program.grads.map (·.node)
  kernels := program.kernels.map (·.node)

def Outline.append (first later : Outline α) : Outline α where
  fields := first.fields ++ later.fields
  grads := first.grads ++ later.grads
  kernels := first.kernels ++ later.kernels

theorem Outline.append_assoc (a b c : Outline α) : (a.append b).append c = a.append (b.append c) := by
  simp [append]

namespace Grammar

def inBrackets (phrase : List Lexeme) : List Lexeme :=
  .mark .leftBracket :: (phrase ++ [.mark .rightBracket])

def inBraces (phrase : List Lexeme) : List Lexeme := .mark .leftBrace :: (phrase ++ [.mark .rightBrace])

inductive IsListed (element : List Lexeme → β → Prop) : List Lexeme → List β → Prop
  | none : IsListed element [] []
  | last {phrase : List Lexeme} {b : β} (first : element phrase b) : IsListed element phrase [b]
  | more {phrase later : List Lexeme} {b : β} {bs : List β} (first : element phrase b)
      (others : IsListed element later bs) : IsListed element (phrase ++ .mark .comma :: later) (b :: bs)

inductive IsBracketed (element : List Lexeme → β → Prop) : List Lexeme → List β → Prop
  | list {phrase : List Lexeme} {bs : List β} (listed : IsListed element phrase bs) :
      IsBracketed element (inBrackets phrase) bs

inductive IsInteger : List Lexeme → Nat → Prop
  | integer (n : Nat) : IsInteger [.integer n] n

inductive IsValue : List Lexeme → ValueId → Prop
  | value (v : ValueId) : IsValue [.value v.index] v

inductive IsGroup : List Lexeme → String → Prop
  | path (first : String) (parts : List String) :
      IsGroup (.word first :: parts.flatMap fun part => [.mark .dot, .word part])
        (".".intercalate (first :: parts))

-- Integers are words of 64 bits. Bounds take these as signed, counts only their low 32 bits.
inductive IsSigned : List Lexeme → Int → Prop
  | plain (n : Nat) : IsSigned [.integer n] (Reader.signedWord n)
  | negative (n : Nat) : IsSigned [.mark .minus, .integer n] (Reader.signedWord (-n))

inductive IsAxis : List Lexeme → Axis → Prop
  | range {low high : List Lexeme} {lo hi : Int} (lower : IsSigned low lo) (upper : IsSigned high hi) :
      IsAxis (low ++ .mark .dotDot :: high) ⟨lo, hi⟩

inductive IsPlace : List Lexeme → Place → Prop
  | access {phrase : List Lexeme} {index : List ValueId} (field : String)
      (indices : IsBracketed IsValue phrase index) : IsPlace (.word field :: phrase) ⟨field, index⟩

section Scalars

variable [Scalar α]

inductive IsMagnitude : Lexeme → α → Prop
  | integer (n : Nat) : IsMagnitude (.integer n) (Scalar.ofDecimal (.ofNat n))
  | number (d : Decimal) : IsMagnitude (.number d) (Scalar.ofDecimal d)
  | infinity : IsMagnitude (.word "inf") Scalar.infinity
  | undefined : IsMagnitude (.word "NaN") Scalar.nan

theorem magnitude?_eq_some {lexeme : Lexeme} {x : α} :
    Reader.magnitude? (some lexeme) = some x ↔ IsMagnitude lexeme x := by
  constructor
  · intro denotes
    unfold Reader.magnitude? at denotes
    split at denotes
    · next same =>
      cases same
      cases denotes
      exact .integer _
    · next same =>
      cases same
      cases denotes
      exact .number _
    · next same =>
      cases same
      split at denotes
      · next named =>
        cases denotes
        rw [named]
        exact .infinity
      · split at denotes
        · next named =>
          cases denotes
          rw [named]
          exact .undefined
        · cases denotes
    · cases denotes
  · intro isMagnitude
    cases isMagnitude <;> rfl

inductive IsConstant : List Lexeme → α → Prop
  | plain {lexeme : Lexeme} {x : α} (magnitude : IsMagnitude lexeme x) : IsConstant [lexeme] x
  | negative {lexeme : Lexeme} {x : α} (magnitude : IsMagnitude lexeme x) :
      IsConstant [.mark .minus, lexeme] (-x)

inductive IsExpr : List Lexeme → Expr α → Prop
  | const {phrase : List Lexeme} {x : α} (constant : IsConstant phrase x) :
      IsExpr (.word "const" :: phrase) (.const x)
  | index (n : Nat) : IsExpr [.word "index", .integer n] (.index (shortWord n))
  | arg (n : Nat) : IsExpr [.word "arg", .integer n] (.arg (shortWord n))
  | load {phrase : List Lexeme} {place : Place} (access : IsPlace phrase place) :
      IsExpr (.word "load" :: phrase) (.load place)
  | unary (op : UnaryOp) (operand : ValueId) :
      IsExpr [.word op.name, .value operand.index] (.unary op operand)
  | binary (op : BinaryOp) (lhs rhs : ValueId) :
      IsExpr [.word op.name, .value lhs.index, .mark .comma, .value rhs.index] (.binary op lhs rhs)
  | compare (op : CompareOp) (lhs rhs : ValueId) :
      IsExpr [.word op.name, .value lhs.index, .mark .comma, .value rhs.index] (.compare op lhs rhs)

inductive IsInstr : List Lexeme → Instr α → Prop
  | define {phrase : List Lexeme} {e : Expr α} (dst : ValueId) (expr : IsExpr phrase e) :
      IsInstr (.value dst.index :: .mark .equals :: phrase) (.define dst e)
  | store {phrase : List Lexeme} {place : Place} (access : IsPlace phrase place) (v : ValueId) :
      IsInstr (.mark .store :: (phrase ++ [.mark .comma, .value v.index])) (.store place v)
  | readGrad {phrase : List Lexeme} {place : Place} (target : ValueId) (access : IsPlace phrase place) :
      IsInstr (.mark .adj :: .value target.index :: .mark .plusEquals :: .mark .grad :: phrase)
        (.readGrad target place)
  | propagate (target source : ValueId) :
      IsInstr [.mark .adj, .value target.index, .mark .plusEquals, .mark .adj, .value source.index]
        (.propagate target source .one)
  | scaled (target source factor : ValueId) :
      IsInstr [.mark .adj, .value target.index, .mark .plusEquals, .mark .adj, .value source.index,
        .mark .star, .value factor.index] (.propagate target source (.value factor))
  | negated (target source : ValueId) :
      IsInstr [.mark .adj, .value target.index, .mark .minusEquals, .mark .adj, .value source.index]
        (.propagate target source .minusOne)
  | addGrad {phrase : List Lexeme} {place : Place} (access : IsPlace phrase place) (source : ValueId) :
      IsInstr (.mark .grad :: (phrase ++ [.mark .plusEquals, .mark .adj, .value source.index]))
        (.addGrad place source)

inductive IsStatement : List Lexeme → Statement α → Prop
  | instr {phrase : List Lexeme} {i : Instr α} (instr : IsInstr phrase i) : IsStatement phrase (.instr i)
  | branch (cond : ValueId) : IsStatement [.mark .branch, .value cond.index] (.branch cond)

theorem IsStatement.length_pos {phrase : List Lexeme} {s : Statement α} (isStatement : IsStatement phrase s) :
    0 < phrase.length := by
  cases isStatement with
  | instr isInstr => cases isInstr <;> exact Nat.succ_pos _
  | branch => exact Nat.succ_pos _

inductive IsBlock : Nat → List Lexeme → Block α → Prop
  | nil {levels : Nat} : IsBlock levels [] .nil
  | instr {levels : Nat} {phrase later : List Lexeme} {i : Instr α} {rest : Block α} (first : IsInstr phrase i)
      (others : IsBlock levels later rest) : IsBlock levels (phrase ++ later) (.instr i rest)
  | branch {levels : Nat} {inTrue later : List Lexeme} {onTrue rest : Block α} (cond : ValueId)
      (true_ : IsBlock levels inTrue onTrue) (others : IsBlock (levels + 1) later rest) :
      IsBlock (levels + 1) (.mark .branch :: .value cond.index :: (inBraces inTrue ++ later))
        (.branch cond onTrue .nil rest)
  | choice {levels : Nat} {inTrue inFalse later : List Lexeme} {onTrue onFalse rest : Block α} (cond : ValueId)
      (true_ : IsBlock levels inTrue onTrue) (false_ : IsBlock levels inFalse onFalse)
      (others : IsBlock (levels + 1) later rest) :
      IsBlock (levels + 1) (.mark .branch :: .value cond.index ::
        (inBraces inTrue ++ .mark .otherwise :: (inBraces inFalse ++ later)))
        (.branch cond onTrue onFalse rest)

inductive IsCount : List Lexeme → Nat → Prop
  | absent : IsCount [] 0
  | args (n : Nat) : IsCount [.mark .args, .integer n] (shortWord n)

inductive IsKernel : List Lexeme → Kernel α → Prop
  | kernel {levels : Nat} {ranges count phrase : List Lexeme} {axes : List Axis} {argCount : Nat} {body : Block α}
      (name : String) (domain : IsBracketed IsAxis ranges axes) (args : IsCount count argCount)
      (nested : levels + 1 = maxNesting) (block : IsBlock levels phrase body) :
      IsKernel (.mark .kernel :: .word name :: .mark .onDomain :: (ranges ++ (count ++ inBraces phrase)))
        (.ofBody name ⟨axes⟩ argCount body)

inductive IsMembership : List Lexeme → Option String → Prop
  | root : IsMembership [] none
  | within {phrase : List Lexeme} {path : String} (group : IsGroup phrase path) :
      IsMembership (.mark .within :: phrase) (some path)

inductive IsField : List Lexeme → FieldForm → Prop
  | field {sizes membership : List Lexeme} {shape : Shape} {group? : Option String} (name : String)
      (element : ElementType) (extents : IsBracketed IsInteger sizes shape)
      (member : IsMembership membership group?) :
      IsField (.mark .field :: .word name :: .mark .colon :: .word element.name :: (sizes ++ membership))
        ⟨name, element, shape, group?⟩

inductive IsItem : List Lexeme → Outline α → Prop
  | field {phrase : List Lexeme} {form : FieldForm} (declared : IsField phrase form) :
      IsItem phrase ⟨[form], [], []⟩
  | grad {phrase : List Lexeme} {path : String} (group : IsGroup phrase path) :
      IsItem (.mark .grad :: phrase) ⟨[], [path], []⟩
  | kernel {phrase : List Lexeme} {k : Kernel α} (kernel : IsKernel phrase k) : IsItem phrase ⟨[], [], [k]⟩

theorem IsItem.length_pos {phrase : List Lexeme} {item : Outline α} (isItem : IsItem phrase item) :
    0 < phrase.length := by
  cases isItem with
  | field isField => cases isField; exact Nat.succ_pos _
  | grad => exact Nat.succ_pos _
  | kernel isKernel => cases isKernel; exact Nat.succ_pos _

inductive IsProgram : List Lexeme → Outline α → Prop
  | nil : IsProgram [] ⟨[], [], []⟩
  | item {phrase later : List Lexeme} {item rest : Outline α} (first : IsItem phrase item)
      (others : IsProgram later rest) : IsProgram (phrase ++ later) (item.append rest)

end Scalars

end Grammar

end FieldKernel
