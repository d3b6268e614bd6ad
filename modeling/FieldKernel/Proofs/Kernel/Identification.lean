import FieldKernel.Proofs.Scalar.Doubles
import FieldKernel.Proofs.Source.Phrases

-- What the bytes of a kernel identify where numbers are told apart by their spelling, but for those that
-- are no number.
namespace FieldKernel

variable {α : Type} [Scalar α]

theorem Expr.unified_eq_map (e : Expr α) : e.unified = e.map Scalar.unified := by
  cases e <;> rfl

theorem Instr.unified_eq_map (i : Instr α) : i.unified = i.map Scalar.unified := by
  cases i with
  | define dst e => exact congrArg (define dst) e.unified_eq_map
  | store | readGrad | propagate | addGrad => rfl

theorem Block.unified_eq_map (block : Block α) : block.unified = block.map Scalar.unified := by
  induction block with
  | nil => rfl
  | instr i rest ih => rw [unified, map, Instr.unified_eq_map, ih]
  | branch cond onTrue onFalse rest ihTrue ihFalse ihRest =>
    rw [unified, map, ihTrue, ihFalse, ihRest]

theorem Distinct.unified (distinct : Distinct α) (x y : α) (same : Scalar.literal x = Scalar.literal y) :
    Scalar.unified x = Scalar.unified y := by
  rcases distinct.told x y same with rfl | ⟨left, right⟩
  · rfl
  · rw [Scalar.unified, Scalar.unified, left, right]
    rfl

-- The bytes that are hashed identify the kernel and the signatures of the fields it is bound against.
theorem Kernel.identified (distinct : Distinct α) {a b : Kernel α} (wordedA : a.Worded)
    (wordedB : b.Worded) {signaturesA signaturesB : Signatures}
    (wordsA : ∀ name ∈ signaturesA.names, IsWord name) (wordsB : ∀ name ∈ signaturesB.names, IsWord name)
    (same : a.identity signaturesA = b.identity signaturesB) :
    (a.name = b.name ∧ a.domain = b.domain ∧ a.argCount = b.argCount ∧
      a.body.unified = b.body.unified) ∧ signaturesA = signaturesB := by
  obtain ⟨⟨names, domains, counts, spelled⟩, signatures⟩ :=
    identity_spelled distinct.unbroken wordedA wordedB wordsA wordsB same
  refine ⟨⟨names, domains, counts, ?_⟩, signatures⟩
  rw [Block.unified_eq_map, Block.unified_eq_map]
  exact Block.map_coarser distinct.unified spelled

-- A kernel that branches without an else, and the same kernel with another counter.
namespace Clamped

def body : Block Float :=
  .instr (.define ⟨0⟩ (.index 0)) <| .instr (.define ⟨1⟩ (.load ⟨"x", [⟨0⟩]⟩)) <|
  .instr (.define ⟨2⟩ (.const 0.5)) <| .instr (.define ⟨3⟩ (.compare .lt ⟨1⟩ ⟨2⟩)) <|
  .branch ⟨3⟩ (.instr (.store ⟨"x", [⟨0⟩]⟩ ⟨2⟩) .nil) .nil .nil

def kernel (counter : Nat) : Kernel Float := ⟨"clamp", .ofExtents [2], 0, body, counter⟩

def signatures : Signatures := .ofList [("x", ⟨.f64, [2]⟩)]

theorem worded (counter : Nat) : (kernel counter).Worded where
  name := (by decide : IsWord "clamp")
  body := by
    have x : IsWord "x" := by decide
    simp [Block.Worded, kernel, body, Block.statements, Instr.Worded, Expr.Worded, x]

theorem identified_clamped : (kernel 4).identity signatures = (kernel 9).identity signatures ∧
    (kernel 4).body.unified = (kernel 9).body.unified := by
  have same : (kernel 4).identity signatures = (kernel 9).identity signatures := rfl
  have words : ∀ name ∈ signatures.names, IsWord name := by decide
  have whole := Kernel.identified Double.legible.toDistinct (worded 4) (worded 9) words words same
  exact ⟨same, whole.1.2.2.2⟩

end Clamped

end FieldKernel
