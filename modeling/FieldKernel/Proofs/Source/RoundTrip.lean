import FieldKernel.Proofs.Kernel.Numbering
import FieldKernel.Proofs.Source.Phrases
import FieldKernel.Proofs.Source.Reading

-- Kernels are read back from their texts.
namespace FieldKernel

variable {α : Type} [Scalar α]

namespace Kernel

variable {kernel : Kernel α}

theorem Printable.read_lexemes (printable : kernel.Printable) {tokens : List (Located Lexeme)} (stop : Nat)
    (lexemes : tokens.map (·.node) = kernel.lexemes) :
    ∃ span, Reader.program tokens stop = .ok ⟨[], [], [⟨kernel.reread, span⟩]⟩ := by
  have sentence := Grammar.IsProgram.item (.kernel (Grammar.isKernel printable)) .nil
  rw [List.append_nil, ← lexemes] at sentence
  obtain ⟨⟨fields, grads, kernels⟩, accepted, same⟩ := sentence.read stop
  simp only [Program.outline, Outline.append, Outline.mk.injEq, List.append_nil, List.map_eq_nil_iff,
    List.map_eq_singleton_iff] at same
  obtain ⟨rfl, rfl, ⟨k, span⟩, rfl, rfl⟩ := same
  exact ⟨span, accepted⟩

end Kernel

theorem Written.literal_unified {x : α} (written : Written x (Scalar.literal x).toList) :
    Scalar.literal (Scalar.unified x) = Scalar.literal x := by
  cases written with
  | undefined differs text again =>
    rw [Scalar.unified, if_neg (by simp [differs]), again, String.toList_inj.mp text]
  | infinite equal | finite equal => rw [Scalar.unified, if_pos equal]

theorem Instr.text_unified {i : Instr α} (printable : (Statement.instr i).Printable) :
    i.unified.text = i.text := by
  cases i with
  | define dst e =>
    cases e with
    | const x =>
      simp only [unified, Expr.unified, text, Expr.text, (printable.constants x rfl).literal_unified]
    | index | arg | load | binary | unary | compare => rfl
  | store | readGrad | propagate | addGrad => rfl

@[simp] theorem Instr.dst?_unified (i : Instr α) : i.unified.dst? = i.dst? := by
  cases i <;> rfl

@[simp] theorem Instr.operands_unified (i : Instr α) : i.unified.operands = i.operands := by
  cases i with
  | define dst e => cases e <;> rfl
  | store | readGrad | propagate | addGrad => rfl

theorem Instr.Within.unified {limits : Limits} {i : Instr α} (within : i.Within limits) :
    i.unified.Within limits := by
  cases i with
  | define dst e => cases e <;> exact within
  | store | readGrad | propagate | addGrad => exact within

namespace Block

theorem isEmpty_unified (block : Block α) : block.unified.isEmpty = block.isEmpty := by
  cases block <;> rfl

theorem lines_unified {block : Block α} (printable : block.Printable) (depth : Nat) :
    block.unified.lines depth = block.lines depth := by
  induction block generalizing depth with
  | nil => rfl
  | instr i rest ih =>
    have others := ih (printable.part (List.subset_cons_self _ _)) depth
    rw [unified, lines, lines, others, Instr.text_unified (printable (.instr i) List.mem_cons_self)]
  | branch cond onTrue onFalse rest ihTrue ihFalse ihRest =>
    have inTrue := ihTrue (printable.part Block.onTrue_subset) (depth + 1)
    have inFalse := ihFalse (printable.part Block.onFalse_subset) (depth + 1)
    have others := ihRest (printable.part Block.rest_subset) depth
    rw [unified, lines, lines, inTrue, inFalse, others, isEmpty_unified]

@[simp] theorem assigned_unified (block : Block α) : block.unified.assigned = block.assigned := by
  induction block with
  | nil => rfl
  | instr i rest ih => rw [unified, assigned_instr, assigned_instr, ih, Instr.dst?_unified]
  | branch cond onTrue onFalse rest ihTrue ihFalse ihRest =>
    rw [unified, assigned_branch, assigned_branch, ihTrue, ihFalse, ihRest]

theorem WellFormed.unified {limits : Limits} {block : Block α} {visible defined : List ValueId}
    (formed : block.WellFormed limits visible defined) : block.unified.WellFormed limits visible defined := by
  induction block generalizing visible defined with
  | nil => trivial
  | instr i rest ih =>
    obtain ⟨operands, within, fresh, others⟩ := formed
    refine ⟨?_, within.unified, ?_, ?_⟩
    · rwa [Instr.operands_unified]
    · rwa [Instr.dst?_unified]
    · rw [Instr.dst?_unified]
      exact ih others
  | branch cond onTrue onFalse rest ihTrue ihFalse ihRest =>
    obtain ⟨condition, inTrue, inFalse, others⟩ := formed
    refine ⟨condition, ihTrue inTrue, ?_, ?_⟩
    · rw [assigned_unified]
      exact ihFalse inFalse
    · rw [assigned_unified, assigned_unified]
      exact ihRest others

end Block

namespace Kernel

variable {kernel : Kernel α}

theorem reread_text (printable : kernel.Printable) : kernel.reread.text = kernel.text := by
  have lines : kernel.reread.body.lines 1 = kernel.body.lines 1 := Block.lines_unified printable.body 1
  rw [text, text, lines]
  rfl

theorem reread_check (checked : kernel.check = .ok ()) : kernel.reread.check = .ok () := by
  have formed := (check_ok.mp checked).unified
  refine check_ok.mpr (formed.recount fun v assigned => ?_)
  have short : v.index + 1 < 4294967296 :=
    Nat.lt_of_le_of_lt (Nat.succ_le_of_lt (formed.assigned_lt assigned)) kernel.counter.short
  exact Nat.lt_of_lt_of_eq (Block.index_lt_valueBound (Block.assigned_subset_named _ assigned) short)
    (ofBody_counter _ _ _ _).symm

-- Printing and reading are inverse. The text of a well-formed kernel is read as a program of one kernel,
-- which has the name, domain, argument count and body of the printed one and the text it was read from.
theorem read_text (checked : kernel.check = .ok ()) (printable : kernel.Printable) :
    (∃ span, Program.read kernel.text = .ok ⟨[], [], [⟨kernel.reread, span⟩]⟩) ∧
      kernel.reread.text = kernel.text := by
  refine ⟨?_, reread_text printable⟩
  obtain ⟨lexemes, clean⟩ := Scan.ofText_spells printable.spells
  obtain ⟨span, read⟩ := printable.read_lexemes (Scan.ofText kernel.text).stop lexemes
  refine ⟨span, ?_⟩
  have accepted : Program.refusals (⟨[], [], [⟨kernel.reread, span⟩]⟩ : Program α) = [] := by
    simp [Program.refusals, reread_check checked]
  rw [Program.read]
  simp only [clean, List.isEmpty_nil, if_true, read, accepted]

end Kernel

inductive Amount where
  | undefined
  | infinite (negative : Bool)
  | tenths (n : Int)
  deriving DecidableEq

namespace Amount

def negate : Amount → Amount
  | undefined => undefined
  | infinite negative => infinite !negative
  | tenths n => tenths (-n)

def literal : Amount → String
  | undefined => "NaN"
  | infinite negative => (if negative then "-" else "") ++ "inf"
  | tenths n => (if n < 0 then "-" else "") ++ toString (n.natAbs / 10) ++ "." ++ toString (n.natAbs % 10)

def ofDecimal (d : Decimal) : Amount :=
  tenths <| Int.ofNat <| if 0 ≤ d.exponent + 1 then d.digits * Nat.pow 10 (d.exponent + 1).toNat
    else d.digits / Nat.pow 10 (-d.exponent - 1).toNat

instance : Scalar Amount where
  add a _ := a
  sub a _ := a
  mul a _ := a
  div a _ := a
  neg := negate
  ofInt i := tenths (10 * i)
  ofDecimal := ofDecimal
  infinity := infinite false
  nan := undefined
  pow a _ := a
  max a _ := a
  min a _ := a
  floor := id
  sin := id
  cos := id
  exp := id
  log := id
  sqrt := id
  tanh := id
  abs := id
  eq a b := a ≠ undefined && a = b
  lt _ _ := false
  le a b := a = b
  integer? _ := none
  toSingle := id
  toInt32 := id
  literal := literal
  message := literal

end Amount

-- A gradient kernel with constants of all kinds, a negative range, a block without statements, one that
-- stands second only, and accesses without an index.
namespace Mixture

def body : Block Amount :=
  .instr (.define ⟨0⟩ (.const .undefined)) <| .instr (.define ⟨1⟩ (.const (.infinite true))) <|
  .instr (.define ⟨2⟩ (.const (.tenths (-125)))) <| .instr (.define ⟨3⟩ (.index 0)) <|
  .instr (.define ⟨4⟩ (.load ⟨"inf", []⟩)) <| .instr (.define ⟨5⟩ (.compare .le ⟨2⟩ ⟨4⟩)) <|
  .branch ⟨5⟩ .nil (.instr (.propagate ⟨4⟩ ⟨2⟩ .minusOne) (.branch ⟨3⟩ .nil .nil .nil)) <|
  .instr (.readGrad ⟨2⟩ ⟨"y", [⟨3⟩, ⟨3⟩]⟩) <| .instr (.propagate ⟨4⟩ ⟨2⟩ (.value ⟨1⟩)) <|
  .instr (.propagate ⟨2⟩ ⟨4⟩ .one) <| .instr (.addGrad ⟨"inf", []⟩ ⟨4⟩) .nil

def kernel : Kernel Amount := .ofBody "mixture_grad" ⟨[⟨-2, 3⟩, ⟨4, -1⟩]⟩ 2 body

theorem printable : kernel.Printable where
  name := by decide
  bounds := by
    unfold InWord
    decide
  argCount := by decide
  body := by
    have listed : ∀ s ∈ kernel.body.statements, ∀ x ∈ s.constant?,
        x ∈ [Amount.undefined, .infinite true, .tenths (-125)] := by decide +kernel
    have written : ∀ x ∈ [Amount.undefined, .infinite true, .tenths (-125)],
        Written x (Scalar.literal x).toList := by
      intro x member
      simp only [List.mem_cons, List.not_mem_nil, or_false] at member
      rcases member with rfl | rfl | rfl
      · exact .undefined (by decide) (by decide) (by decide)
      · exact .infinite (by decide) true (by decide) (by decide)
      · have legal : Numeral.Legal ⟨['1', '2'], some ['5'], none⟩ :=
          ⟨by decide, by decide, nofun, nofun⟩
        exact .finite (by decide) true _ legal (by decide) (by decide +kernel)
    have rest : ∀ s ∈ kernel.body.statements, (∀ place ∈ s.place?, IsName place.field) ∧
        (∀ v ∈ s.dst?.toList ++ s.operands, v.index < maxValueNumber) ∧
        ∀ n ∈ s.count?, n ≤ maxValueNumber := by decide +kernel
    intro s member
    obtain ⟨fields, values, counts⟩ := rest s member
    exact ⟨fields, values, counts, fun x constant => written x (listed s member x constant)⟩
  depth := by decide

theorem read_text_mixture : kernel.check = .ok () ∧
    (∃ span, Program.read kernel.text = .ok ⟨[], [], [⟨kernel.reread, span⟩]⟩) ∧
      kernel.reread.text = kernel.text := by
  have checked : kernel.check = .ok () := by decide +kernel
  exact ⟨checked, Kernel.read_text checked printable⟩

end Mixture

end FieldKernel
