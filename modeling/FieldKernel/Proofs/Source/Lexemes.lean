import FieldKernel.Proofs.Kernel.Identity
import FieldKernel.Proofs.Source.Spelling
import FieldKernel.Source.Reader

-- The lexemes that kernels are written with, and that their texts are scanned as these.
namespace FieldKernel

variable {α : Type} [Scalar α]

def signed (negative : Bool) (x : α) : α := if negative then -x else x

def signChars (negative : Bool) : List Char := if negative then ['-'] else []

def Numeral.value (n : Numeral) : α :=
  Scalar.ofDecimal (.ofParts n.whole (n.fraction?.getD []) (exponentValue n.exponent?))

-- How a number is written if readers are to find it again: `NaN` for what is no number, else a sign and
-- `inf` or a numeral that denotes the number.
inductive Written (x : α) (cs : List Char) : Prop where
  | undefined (differs : Scalar.eq x x = false) (text : cs = "NaN".toList)
      (again : Scalar.literal (Scalar.nan : α) = "NaN")
  | infinite (equal : Scalar.eq x x = true) (negative : Bool) (value : x = signed negative Scalar.infinity)
      (text : cs = signChars negative ++ "inf".toList)
  | finite (equal : Scalar.eq x x = true) (negative : Bool) (n : Numeral) (legal : n.Legal)
      (value : x = signed negative n.value) (text : cs = signChars negative ++ n.chars)

def Scalar.unified (x : α) : α := if Scalar.eq x x then x else Scalar.nan

def signLexemes (negative : Bool) : List Lexeme := if negative then [.mark .minus] else []

def Scalar.lexemes (x : α) : List Lexeme := (Scan.ofText (Scalar.literal x)).tokens.map (·.node)

def ValueId.lexeme (v : ValueId) : Lexeme := .value v.index

def Lexeme.listed {β : Type} (enc : β → List Lexeme) : List β → List Lexeme
  | [] => []
  | b :: bs => enc b ++ if bs.isEmpty then [] else .mark .comma :: listed enc bs

def Place.lexemes (place : Place) : List Lexeme :=
  .word place.field :: .mark .leftBracket ::
    (Lexeme.listed (fun v => [v.lexeme]) place.index ++ [.mark .rightBracket])

namespace Expr

def operandLexemes : Expr α → List Lexeme
  | .const x => Scalar.lexemes x
  | .index n | .arg n => [.integer n]
  | .load place => place.lexemes
  | .binary _ lhs rhs | .compare _ lhs rhs => [lhs.lexeme, .mark .comma, rhs.lexeme]
  | .unary _ operand => [operand.lexeme]

def lexemes (e : Expr α) : List Lexeme := .word e.mnemonic :: e.operandLexemes

end Expr

def Instr.lexemes : Instr α → List Lexeme
  | .define dst e => dst.lexeme :: .mark .equals :: e.lexemes
  | .store place v => .mark .store :: (place.lexemes ++ [.mark .comma, v.lexeme])
  | .readGrad target place =>
    .mark .adj :: target.lexeme :: .mark .plusEquals :: .mark .grad :: place.lexemes
  | .propagate target source .one =>
    [.mark .adj, target.lexeme, .mark .plusEquals, .mark .adj, source.lexeme]
  | .propagate target source .minusOne =>
    [.mark .adj, target.lexeme, .mark .minusEquals, .mark .adj, source.lexeme]
  | .propagate target source (.value factor) =>
    [.mark .adj, target.lexeme, .mark .plusEquals, .mark .adj, source.lexeme, .mark .star, factor.lexeme]
  | .addGrad place source =>
    .mark .grad :: (place.lexemes ++ [.mark .plusEquals, .mark .adj, source.lexeme])

def Block.lexemes : Block α → List Lexeme
  | .nil => []
  | .instr i rest => i.lexemes ++ rest.lexemes
  | .branch cond onTrue onFalse rest =>
    .mark .branch :: cond.lexeme :: .mark .leftBrace :: (onTrue.lexemes ++ .mark .rightBrace ::
      ((if onFalse.isEmpty then []
        else .mark .otherwise :: .mark .leftBrace :: (onFalse.lexemes ++ [.mark .rightBrace])) ++ rest.lexemes))

def boundLexemes (i : Int) : List Lexeme :=
  if 0 ≤ i then [.integer i.toNat] else [.mark .minus, .integer (-i).toNat]

def Axis.lexemes (axis : Axis) : List Lexeme := boundLexemes axis.lo ++ .mark .dotDot :: boundLexemes axis.hi

def Domain.lexemes (domain : Domain) : List Lexeme :=
  .mark .leftBracket :: (Lexeme.listed Axis.lexemes domain.axes ++ [.mark .rightBracket])

def Kernel.lexemes (kernel : Kernel α) : List Lexeme :=
  .mark .kernel :: .word kernel.name :: .mark .onDomain :: (kernel.domain.lexemes ++
    ((if 0 < kernel.argCount then [.mark .args, .integer kernel.argCount] else []) ++
      .mark .leftBrace :: (kernel.body.lexemes ++ [.mark .rightBrace])))

namespace Statement

def constant? : Statement α → Option α
  | .instr (.define _ (.const x)) => some x
  | _ => none

def count? : Statement α → Option Nat
  | .instr (.define _ (.index n)) | .instr (.define _ (.arg n)) => some n
  | _ => none

structure Printable (s : Statement α) : Prop where
  fields : ∀ place ∈ s.place?, IsName place.field
  values : ∀ v ∈ s.dst?.toList ++ s.operands, v.index < maxValueNumber
  counts : ∀ n ∈ s.count?, n ≤ maxValueNumber
  constants : ∀ x ∈ s.constant?, Written x (Scalar.literal x).toList

end Statement

namespace Block

def Printable (block : Block α) : Prop := ∀ s ∈ block.statements, s.Printable

theorem Printable.part {a b : Block α} (printable : a.Printable) (part : b.statements ⊆ a.statements) :
    b.Printable := fun s member => printable s (part member)

end Block

-- Bounds that a signed word of 64 bits holds along with their negation.
def InWord (i : Int) : Prop := -9223372036854775808 < i ∧ i < 9223372036854775808

namespace Scan.Spells

variable {after : List Char} {later : List Lexeme}

theorem space (rest : Spells after later) : Spells (' ' :: after) later := rest.blank rfl

theorem feed (rest : Spells after later) : Spells ('\n' :: after) later := rest.blank rfl

theorem spaced (m : Mark) (listed : m ∈ Mark.keywords) (rest : Spells after later) :
    Spells (m.text.toList ++ ' ' :: after) (.mark m :: later) := keyword listed (ends_cons rfl) rest.space

theorem indented (depth : Nat) (rest : Spells after later) : Spells ((indent depth).toList ++ after) later := by
  rw [indent, String.toList_ofList]
  generalize 2 * depth = n
  induction n with
  | zero => exact rest
  | succ n ih => exact ih.space

theorem valueText {v : ValueId} (bounded : v.index < maxValueNumber) (ends : Ends after)
    (rest : Spells after later) : Spells (v.text.toList ++ after) (v.lexeme :: later) :=
  value (Nat.le_of_lt bounded) ends rest

theorem listed {β : Type} {enc : β → String} {bs : List β} (lexemes : β → List Lexeme)
    (items : ∀ b ∈ bs, ∀ after later, Breaks after → Spells after later →
      Spells ((enc b).toList ++ after) (lexemes b ++ later))
    (rest : Spells after later) : Spells ((String.intercalate ", " (bs.map enc)).toList ++ ']' :: after)
      (Lexeme.listed lexemes bs ++ .mark .rightBracket :: later) := by
  have close : Spells (']' :: after) (.mark .rightBracket :: later) := symbol (by decide) rest
  induction bs with
  | nil => exact close
  | cons b bs ih =>
    have others := ih fun b member => items b (List.mem_cons_of_mem _ member)
    rw [toList_listed, List.append_assoc, Lexeme.listed, List.append_assoc]
    refine items b List.mem_cons_self _ _ ?_ ?_
    · cases bs with
      | nil => exact ⟨after, .inr rfl⟩
      | cons => exact ⟨_, .inl rfl⟩
    · cases bs with
      | nil => exact close
      | cons => exact symbol (by decide) others.space

theorem placeText {place : Place} (isName : IsName place.field)
    (values : ∀ v ∈ place.index, v.index < maxValueNumber) (rest : Spells after later) :
    Spells (place.text.toList ++ after) (place.lexemes ++ later) := by
  simp only [Place.toList_text, Place.lexemes, List.append_assoc, List.cons_append, List.nil_append]
  refine word isName (ends_cons rfl) (symbol (by decide) ?_)
  refine listed (fun v => [ValueId.lexeme v]) (fun v member after later breaks rest => ?_) rest
  refine valueText (values v member) ?_ rest
  obtain ⟨cs, rfl | rfl⟩ := breaks <;> exact ends_cons rfl

theorem boundText {i : Int} (inWord : InWord i) (ends : Ends after) (closed : Piece.fraction? after = none)
    (rest : Spells after later) : Spells ((toString i).toList ++ after) (boundLexemes i ++ later) := by
  obtain ⟨low, high⟩ := inWord
  rw [Int.toString_eq_repr, Int.repr_eq_if, boundLexemes]
  split
  · next natural =>
    have bounded : i.toNat ≤ maxInteger := by
      unfold maxInteger
      omega
    exact integer bounded ends closed rest
  · next negative =>
    have bounded : (-i).toNat ≤ maxInteger := by
      unfold maxInteger
      omega
    simp only [String.toList_append, List.append_assoc, List.cons_append, List.nil_append]
    refine minus ?_ (integer bounded ends closed rest)
    obtain ⟨nonempty, digits⟩ := digits_repr (-i).toNat
    cases chars : (-i).toNat.repr.toList with
    | nil => exact absurd chars nonempty
    | cons c cs =>
      rw [chars] at digits
      intro d first
      cases first
      rintro rfl
      exact absurd (digits '=' List.mem_cons_self) (by decide)

theorem axisText {axis : Axis} (lo : InWord axis.lo) (hi : InWord axis.hi) (breaks : Breaks after)
    (rest : Spells after later) : Spells (axis.text.toList ++ after) (axis.lexemes ++ later) := by
  simp only [Axis.text, Axis.lexemes, String.toList_append, List.append_assoc, List.cons_append]
  refine boundText lo (ends_cons rfl) rfl (dotDot (boundText hi ?_ ?_ rest))
  · obtain ⟨cs, rfl | rfl⟩ := breaks <;> exact ends_cons rfl
  · obtain ⟨cs, rfl | rfl⟩ := breaks <;> rfl

theorem domainText {domain : Domain} (bounds : ∀ axis ∈ domain.axes, InWord axis.lo ∧ InWord axis.hi)
    (rest : Spells after later) : Spells (domain.text.toList ++ after) (domain.lexemes ++ later) := by
  simp only [Domain.text, Domain.lexemes, String.toList_append, List.append_assoc, List.cons_append]
  refine symbol (by decide) (listed Axis.lexemes (fun axis member after later breaks rest => ?_) rest)
  exact axisText (bounds axis member).1 (bounds axis member).2 breaks rest

theorem sign {negative : Bool} (other : ∀ c ∈ after.head?, c ≠ '=') (rest : Spells after later) :
    Spells (signChars negative ++ after) (signLexemes negative ++ later) := by
  cases negative with
  | false => exact rest
  | true => exact minus other rest

end Scan.Spells

theorem Numeral.magnitude? (n : Numeral) : Reader.magnitude? (some n.lexeme) = some (n.value : α) := by
  obtain ⟨whole, fraction, exponent⟩ := n
  unfold lexeme value
  split
  · next alone =>
    obtain ⟨rfl, rfl⟩ : fraction = none ∧ exponent = none := alone
    simp [Reader.magnitude?, Decimal.ofParts, Decimal.ofNat, exponentValue]
  · rfl

theorem Written.spells {x : α} {cs : List Char} (written : Written x cs) :
    ∃ (negative : Bool) (lexeme : Lexeme) (magnitude : α), Reader.magnitude? (some lexeme) = some magnitude ∧
      Scalar.unified x = signed negative magnitude ∧ lexeme ≠ .mark .minus ∧
      ∀ {after : List Char} {later : List Lexeme}, Ends after → Piece.fraction? after = none →
        Scan.Spells after later → Scan.Spells (cs ++ after) (signLexemes negative ++ [lexeme] ++ later) := by
  cases written with
  | undefined differs text again =>
    refine ⟨false, .word "NaN", Scalar.nan, rfl, by simp [Scalar.unified, differs, signed], by decide, ?_⟩
    intro after later ends _ rest
    subst text
    exact rest.word (by decide) ends
  | infinite equal negative value text =>
    refine ⟨negative, .word "inf", Scalar.infinity, rfl, by rw [Scalar.unified, if_pos equal, value], by decide, ?_⟩
    intro after later ends _ rest
    subst text
    rw [List.append_assoc, List.append_assoc]
    refine .sign ?_ (rest.word (by decide) ends)
    intro c first
    cases first
    decide
  | finite equal negative n legal value text =>
    refine ⟨negative, n.lexeme, n.value, n.magnitude?, by rw [Scalar.unified, if_pos equal, value], ?_, ?_⟩
    · unfold Numeral.lexeme
      split <;> simp
    · intro after later ends closed rest
      subst text
      rw [List.append_assoc, List.append_assoc]
      refine .sign ?_ (rest.numeral legal ends closed)
      obtain ⟨c, cs, chars, digit⟩ := n.chars_cons legal
      intro d first
      rw [chars] at first
      cases first
      rintro rfl
      exact absurd digit (by decide)

theorem Written.lexemes {x : α} (written : Written x (Scalar.literal x).toList) :
    ∃ (negative : Bool) (lexeme : Lexeme) (magnitude : α), Reader.magnitude? (some lexeme) = some magnitude ∧
      Scalar.unified x = signed negative magnitude ∧ lexeme ≠ .mark .minus ∧
      Scalar.lexemes x = signLexemes negative ++ [lexeme] := by
  obtain ⟨negative, lexeme, magnitude, denotes, same, noSign, spells⟩ := written.spells
  refine ⟨negative, lexeme, magnitude, denotes, same, noSign, ?_⟩
  have alone := spells ends_nil rfl .nil
  rw [List.append_nil, List.append_nil] at alone
  exact (Scan.ofText_spells alone).1

namespace Scan.Spells

variable {after : List Char} {later : List Lexeme}

theorem constantText {x : α} (written : Written x (Scalar.literal x).toList) (ends : Ends after)
    (closed : Piece.fraction? after = none) (rest : Spells after later) :
    Spells ((Scalar.literal x).toList ++ after) (Scalar.lexemes x ++ later) := by
  obtain ⟨negative, lexeme, magnitude, denotes, same, noSign, spells⟩ := written.spells
  have alone := spells ends_nil rfl .nil
  rw [List.append_nil, List.append_nil] at alone
  rw [show Scalar.lexemes x = _ from (ofText_spells alone).1]
  exact spells ends closed rest

omit [Scalar α] in
theorem isName_mnemonic (e : Expr α) : IsName e.mnemonic := by
  have binary : ∀ op : BinaryOp, IsName op.name := fun op => by cases op <;> decide
  have unary : ∀ op : UnaryOp, IsName op.name := fun op => by cases op <;> decide
  have compare : ∀ op : CompareOp, IsName op.name := fun op => by cases op <;> decide
  cases e with
  | const => exact (by decide : IsName "const")
  | index => exact (by decide : IsName "index")
  | arg => exact (by decide : IsName "arg")
  | load => exact (by decide : IsName "load")
  | binary op => exact binary op
  | unary op => exact unary op
  | compare op => exact compare op

theorem exprText {dst : ValueId} {e : Expr α} (printable : (Statement.instr (.define dst e)).Printable)
    (rest : Spells after later) : Spells (e.text.toList ++ '\n' :: after) (e.lexemes ++ later) := by
  have rest := rest.feed
  have feedEnds : Ends ('\n' :: after) := ends_cons rfl
  have value : ∀ v ∈ e.operands, v.index < maxValueNumber := fun v member =>
    printable.values v (List.mem_append_right _ member)
  have count : ∀ n ∈ (Statement.instr (.define dst e)).count?, n ≤ maxInteger := fun n member =>
    Nat.le_trans (printable.counts n member) (by decide)
  simp only [Expr.toList_text, Expr.lexemes, List.append_assoc, List.cons_append]
  refine word (isName_mnemonic e) (ends_cons rfl) (space ?_)
  cases e with
  | const x => exact constantText (printable.constants x rfl) feedEnds rfl rest
  | index n | arg n => exact integer (count n rfl) feedEnds rfl rest
  | load place => exact placeText (printable.fields place rfl) value rest
  | binary op lhs rhs | compare op lhs rhs =>
    simp only [Expr.operandText, List.append_assoc, List.cons_append]
    refine valueText (value lhs (by simp [Expr.operands])) (ends_cons rfl) (symbol (by decide) (space ?_))
    exact valueText (value rhs (by simp [Expr.operands])) feedEnds rest
  | unary op operand => exact valueText (value operand (by simp [Expr.operands])) feedEnds rest

theorem instrText {i : Instr α} (printable : (Statement.instr i).Printable) (rest : Spells after later) :
    Spells (i.text.toList ++ '\n' :: after) (i.lexemes ++ later) := by
  have feedEnds : Ends ('\n' :: after) := ends_cons rfl
  have value : ∀ v ∈ i.dst?.toList ++ i.operands, v.index < maxValueNumber := printable.values
  rw [Instr.toList_text]
  cases i with
  | define dst e =>
    simp only [Instr.keyword, Instr.restText, Instr.lexemes, String.toList_empty, List.nil_append,
      List.append_assoc, List.cons_append]
    refine valueText (value dst (by simp [Instr.dst?])) (ends_cons rfl) (space (symbol (by decide) (space ?_)))
    exact exprText printable rest
  | store place v =>
    simp only [Instr.restText, Instr.lexemes, List.append_assoc, List.cons_append, List.nil_append]
    refine spaced .store (by decide) ?_
    refine placeText (printable.fields place rfl) (fun v used => value v (by simp [Instr.operands, used])) ?_
    refine symbol (by decide) (space ?_)
    exact valueText (value v (by simp [Instr.operands])) feedEnds rest.feed
  | readGrad target place =>
    simp only [Instr.restText, Instr.adjointText, Instr.lexemes, List.append_assoc, List.cons_append]
    refine spaced .adj (by decide) ?_
    refine valueText (value target (by simp [Instr.operands])) (ends_cons rfl) (space (plusEquals (space ?_)))
    refine spaced .grad (by decide) ?_
    exact placeText (printable.fields place rfl) (fun v used => value v (by simp [Instr.operands, used])) rest.feed
  | propagate target source scale =>
    have target_ := value target (by simp [Instr.operands])
    have source_ := value source (by simp [Instr.operands])
    cases scale with
    | one =>
      simp only [Instr.restText, Instr.adjointText, Instr.lexemes, List.append_assoc, List.cons_append,
        List.nil_append]
      refine spaced .adj (by decide) (valueText target_ (ends_cons rfl) (space (plusEquals (space ?_))))
      exact spaced .adj (by decide) (valueText source_ feedEnds rest.feed)
    | minusOne =>
      simp only [Instr.restText, Instr.adjointText, Instr.lexemes, List.append_assoc, List.cons_append,
        List.nil_append]
      refine spaced .adj (by decide) (valueText target_ (ends_cons rfl) (space (minusEquals (space ?_))))
      exact spaced .adj (by decide) (valueText source_ feedEnds rest.feed)
    | value factor =>
      have factor_ := value factor (by simp [Instr.operands, Scale.operands])
      simp only [Instr.restText, Instr.adjointText, Instr.lexemes, List.append_assoc, List.cons_append,
        List.nil_append]
      refine spaced .adj (by decide) (valueText target_ (ends_cons rfl) (space (plusEquals (space ?_))))
      refine spaced .adj (by decide) (valueText source_ (ends_cons rfl) (space (symbol (by decide) (space ?_))))
      exact valueText factor_ feedEnds rest.feed
  | addGrad place source =>
    simp only [Instr.restText, Instr.lexemes, List.append_assoc, List.cons_append, List.nil_append]
    refine spaced .grad (by decide) ?_
    refine placeText (printable.fields place rfl) (fun v used => value v (by simp [Instr.operands, used])) ?_
    refine space (plusEquals (space ?_))
    refine spaced .adj (by decide) ?_
    exact valueText (value source (by simp [Instr.operands])) feedEnds rest.feed

-- The characters of some lines, each with its line feed. The induction is on the block.
theorem blockLines {block : Block α} (printable : block.Printable) (depth : Nat) (rest : Spells after later) :
    Spells ((block.lines depth).flatMap (fun line => line.toList ++ ['\n']) ++ after)
      (block.lexemes ++ later) := by
  induction block generalizing depth after later with
  | nil => exact rest
  | instr i block ih =>
    have others := ih (printable.part (List.subset_cons_self _ _)) depth rest
    simp only [Block.lines, Block.lexemes, List.flatMap_cons, String.toList_append, List.append_assoc,
      List.cons_append, List.nil_append]
    exact indented depth (instrText (printable (.instr i) List.mem_cons_self) others)
  | branch cond onTrue onFalse block ihTrue ihFalse ihRest =>
    have true_ : onTrue.Printable := printable.part Block.onTrue_subset
    have false_ : onFalse.Printable := printable.part Block.onFalse_subset
    have others := ihRest (printable.part Block.rest_subset) depth rest
    have condition : cond.index < maxValueNumber :=
      (printable (.branch cond) List.mem_cons_self).values cond (by simp [Statement.operands])
    simp only [lines_branch, Block.lexemes, List.flatMap_cons, List.flatMap_append, String.toList_append,
      List.append_assoc, List.cons_append, List.nil_append]
    refine indented depth (spaced .branch (by decide) ?_)
    refine valueText condition (ends_cons rfl) (space (symbol (by decide) (feed (ihTrue true_ (depth + 1) ?_))))
    have close : Spells ((indent depth).toList ++ '\x7d' :: '\n' ::
        ((block.lines depth).flatMap (fun line => line.toList ++ ['\n']) ++ after))
        (.mark .rightBrace :: (block.lexemes ++ later)) := indented depth (symbol (by decide) others.feed)
    split
    · exact close
    · simp only [List.flatMap_cons, String.toList_append, List.append_assoc, List.cons_append, List.nil_append]
      refine indented depth (symbol (by decide) (space ?_))
      refine spaced .otherwise (by decide) (symbol (by decide) (feed ?_))
      exact ihFalse false_ (depth + 1) close

end Scan.Spells

-- Kernels that can be written down: names that are identifiers, numbers that lexemes hold, constants
-- that are written as what they are, and blocks that nest no deeper than readers go.
def Block.depth : Block α → Nat
  | .nil => 1
  | .instr _ rest => rest.depth
  | .branch _ onTrue onFalse rest => max (max onTrue.depth onFalse.depth + 1) rest.depth

structure Kernel.Printable (kernel : Kernel α) : Prop where
  name : IsName kernel.name
  bounds : ∀ axis ∈ kernel.domain.axes, InWord axis.lo ∧ InWord axis.hi
  argCount : kernel.argCount ≤ maxValueNumber
  body : kernel.body.Printable
  depth : kernel.body.depth ≤ maxNesting

theorem Kernel.Printable.spells {kernel : Kernel α} (printable : kernel.Printable) :
    Scan.Spells kernel.text.toList kernel.lexemes := by
  have arguments : kernel.argCount ≤ maxInteger := Nat.le_trans printable.argCount (by decide)
  have block : Scan.Spells ('\x7b' :: '\n' :: ((kernel.body.lines 1).flatMap (fun line => line.toList ++ ['\n'])
      ++ '\x7d' :: '\n' :: [])) (.mark .leftBrace :: (kernel.body.lexemes ++ [.mark .rightBrace])) :=
    .symbol (by decide) (.feed (.blockLines printable.body 1 (.symbol (by decide) (.feed .nil))))
  simp only [text, header, toList_joinLines, lexemes, List.flatMap_cons, List.flatMap_append, List.flatMap_nil,
    String.toList_append, List.append_assoc, List.cons_append, List.nil_append, List.append_nil]
  refine .spaced .kernel (by decide) ?_
  refine .word printable.name (ends_cons rfl) (.space ?_)
  refine .spaced .onDomain (by decide) ?_
  refine .domainText printable.bounds ?_
  split
  · simp only [toString_string, String.toList_append, List.append_assoc, List.cons_append, List.nil_append]
    refine .space (.spaced .args (by decide) ?_)
    exact .integer arguments (ends_cons rfl) rfl (.space block)
  · exact .space block

end FieldKernel
