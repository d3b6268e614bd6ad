import FieldKernel.Proofs.Source.Grammar
import FieldKernel.Proofs.Source.Lexemes

-- The lexemes that kernels are written with are phrases of the grammar.
namespace FieldKernel

variable {α β : Type}

open Grammar

namespace Grammar

variable {IsElement : List Lexeme → β → Prop} {enc : β → List Lexeme} {bs : List β}

theorem isListed (elements : ∀ b ∈ bs, IsElement (enc b) b) : IsListed IsElement (Lexeme.listed enc bs) bs := by
  induction bs with
  | nil => exact .none
  | cons b bs ih =>
    have first := elements b List.mem_cons_self
    have others := ih fun b member => elements b (List.mem_cons_of_mem _ member)
    cases bs with
    | nil =>
      rw [Lexeme.listed, if_pos List.isEmpty_nil, List.append_nil]
      exact .last first
    | cons => exact .more first others

theorem isPlace (p : Place) : IsPlace p.lexemes p :=
  .access p.field (.list (isListed fun v _ => .value v))

theorem isSigned {i : Int} (inWord : InWord i) : IsSigned (boundLexemes i) i := by
  obtain ⟨low, high⟩ := inWord
  unfold boundLexemes
  split
  · next natural =>
    have plain := IsSigned.plain i.toNat
    rwa [Int.toNat_of_nonneg natural, Reader.signedWord_eq (by omega) high] at plain
  · next negative =>
    have negated := IsSigned.negative (-i).toNat
    rwa [Int.toNat_of_nonneg (by omega), Int.neg_neg, Reader.signedWord_eq (by omega) high] at negated

theorem isAxis {a : Axis} (lo : InWord a.lo) (hi : InWord a.hi) : IsAxis a.lexemes a :=
  .range (isSigned lo) (isSigned hi)

theorem isDomain {domain : Domain} (bounds : ∀ a ∈ domain.axes, InWord a.lo ∧ InWord a.hi) :
    IsBracketed IsAxis domain.lexemes domain.axes :=
  .list (isListed fun a member => isAxis (bounds a member).1 (bounds a member).2)

end Grammar

variable [Scalar α]

-- What readers make of a kernel: everything is as it was written, but `NaN` is one constant.
def Expr.unified : Expr α → Expr α
  | .const x => .const (Scalar.unified x)
  | e => e

def Instr.unified : Instr α → Instr α
  | .define dst e => .define dst e.unified
  | i => i

def Block.unified : Block α → Block α
  | .nil => .nil
  | .instr i rest => .instr i.unified rest.unified
  | .branch cond onTrue onFalse rest => .branch cond onTrue.unified onFalse.unified rest.unified

def Kernel.reread (kernel : Kernel α) : Kernel α :=
  .ofBody kernel.name kernel.domain kernel.argCount kernel.body.unified

namespace Grammar

theorem isConstant {x : α} (written : Written x (Scalar.literal x).toList) :
    IsConstant (Scalar.lexemes x) (Scalar.unified x) := by
  obtain ⟨negative, lexeme, magnitude, denotes, same, -, lexemes⟩ := written.lexemes
  rw [lexemes, same]
  cases negative with
  | true => exact .negative (magnitude?_eq_some.mp denotes)
  | false => exact .plain (magnitude?_eq_some.mp denotes)

theorem isExpr {dst : ValueId} {e : Expr α} (printable : (Statement.instr (.define dst e)).Printable) :
    IsExpr e.lexemes e.unified := by
  have count : ∀ n ∈ (Statement.instr (.define dst e)).count?, shortWord n = n := fun n member =>
    Nat.mod_eq_of_lt (Nat.lt_succ_of_le (printable.counts n member))
  cases e with
  | const x => exact .const (isConstant (printable.constants x rfl))
  | index n =>
    have index := IsExpr.index (α := α) n
    rwa [count n rfl] at index
  | arg n =>
    have arg := IsExpr.arg (α := α) n
    rwa [count n rfl] at arg
  | load p => exact .load (isPlace p)
  | unary op operand => exact .unary op operand
  | binary op lhs rhs => exact .binary op lhs rhs
  | compare op lhs rhs => exact .compare op lhs rhs

theorem isInstr {i : Instr α} (printable : (Statement.instr i).Printable) : IsInstr i.lexemes i.unified := by
  cases i with
  | define dst e => exact .define dst (isExpr printable)
  | store p v => exact .store (isPlace p) v
  | readGrad target p => exact .readGrad target (isPlace p)
  | propagate target source scale =>
    cases scale with
    | one => exact .propagate target source
    | minusOne => exact .negated target source
    | value factor => exact .scaled target source factor
  | addGrad p source => exact .addGrad (isPlace p) source

omit [Scalar α] in
theorem depth_pos (block : Block α) : 0 < block.depth := by
  induction block with
  | nil => exact Nat.one_pos
  | instr _ _ ih => exact ih
  | branch _ _ _ _ _ _ ih => exact Nat.lt_of_lt_of_le ih (Nat.le_max_right _ _)

-- The induction is on the block. A second part without statements is not written.
theorem isBlock {block : Block α} (printable : block.Printable) {levels : Nat} (nested : block.depth ≤ levels + 1) :
    IsBlock levels block.lexemes block.unified := by
  induction block generalizing levels with
  | nil => exact .nil
  | instr i rest ih =>
    have others := ih (printable.part (List.subset_cons_self _ _)) nested
    exact .instr (isInstr (printable (.instr i) List.mem_cons_self)) others
  | branch cond onTrue onFalse rest ihTrue ihFalse ihRest =>
    have true_ : onTrue.Printable := printable.part Block.onTrue_subset
    have false_ : onFalse.Printable := printable.part Block.onFalse_subset
    have rest_ : rest.Printable := printable.part Block.rest_subset
    have positive := depth_pos onTrue
    simp only [Block.depth] at nested
    cases levels with
    | zero => omega
    | succ levels =>
      have isTrue : IsBlock levels _ _ := ihTrue true_ (by omega)
      have isRest : IsBlock (levels + 1) _ _ := ihRest rest_ (by omega)
      cases empty : onFalse.isEmpty with
      | true =>
        have whole := IsBlock.branch cond isTrue isRest
        rw [Block.eq_nil empty]
        simpa [inBraces, Block.lexemes, Block.unified, Block.isEmpty, ValueId.lexeme] using whole
      | false =>
        have isFalse : IsBlock levels _ _ := ihFalse false_ (by omega)
        have whole := IsBlock.choice cond isTrue isFalse isRest
        simpa [inBraces, Block.lexemes, Block.unified, empty, ValueId.lexeme] using whole

theorem isKernel {k : Kernel α} (printable : k.Printable) : IsKernel k.lexemes k.reread := by
  have count : shortWord k.argCount = k.argCount :=
    Nat.mod_eq_of_lt (Nat.lt_succ_of_le printable.argCount)
  have args : IsCount (if 0 < k.argCount then [.mark .args, .integer k.argCount] else []) k.argCount := by
    split
    · have counted := IsCount.args k.argCount
      rwa [count] at counted
    · next none =>
      rw [Nat.eq_zero_of_not_pos none]
      exact .absent
  have body : IsBlock 255 k.body.lexemes k.body.unified := isBlock printable.body printable.depth
  exact .kernel k.name (isDomain printable.bounds) args rfl body

end Grammar

end FieldKernel
