import FieldKernel.Proofs.Reverse.Numbering

-- Gradient kernels of well-formed kernels are well formed, as long as there are words for their values.
namespace FieldKernel

variable {α δ : Type} [Scalar α] [Digest δ]

namespace Kernel

variable {kernel grad : Kernel α} {signatures : Signatures} {body : Block α} {counter : Nat}

-- Let the fresh values of a gradient kernel take all the numbers below `counter`. If these are words, it defines
-- every value once and below its own counter, reads only what is in scope, and binds to every table that the
-- kernel binds to; else it is not well formed, as its own counter has started again at zero.
theorem reverse_wellFormed (checked : kernel.check = .ok ())
    (numbered : kernel.backward signatures = .ok (body, counter)) (reversed : kernel.reverse signatures = .ok grad) :
    (grad.check = .ok () ↔ counter < 4294967296) ∧
      (counter < 4294967296 → grad.body.WellFormed grad.limits [] [] ∧ grad.body.assigned.Nodup ∧
        (∀ v ∈ grad.body.assigned, v.index < grad.counter) ∧
        ∀ (table : FieldTable α) (bound : Bound α δ), kernel.bind table = .ok bound →
          ∃ gradBound : Bound α δ, grad.bind table = .ok gradBound) := by
  have verdict := reverse_check_iff checked numbered reversed
  refine ⟨verdict, fun short => ?_⟩
  have gradChecked := verdict.mpr short
  have formed := check_ok.mp gradChecked
  exact ⟨formed, formed.assigned_nodup, fun _ => formed.assigned_lt,
    fun _ _ binds => reverse_binds binds reversed gradChecked⟩

end Kernel

namespace Square

theorem reverse_wellFormed_square :
    kernel.check = .ok () ∧ kernel.backward (bound kernel).signatures = .ok (backward, 5) ∧
      kernel.reverse (bound kernel).signatures = .ok gradient ∧
      gradient.check = .ok () ∧ kernel.bind (fields #[0, 0] #[0, 0]) = .ok (bound kernel) ∧
      ∃ gradBound : Bound ℚ Unit, gradient.bind (fields #[0, 0] #[0, 0]) = .ok gradBound := by
  have checked : kernel.check = .ok () := by decide +kernel
  have numbered : kernel.backward (bound kernel).signatures = .ok (backward, 5) := by decide +kernel
  have reversed : kernel.reverse (bound kernel).signatures = .ok gradient := by decide +kernel
  have binds : kernel.bind (fields #[0, 0] #[0, 0]) = .ok (bound kernel) := by decide +kernel
  obtain ⟨verdict, whole⟩ := Kernel.reverse_wellFormed (δ := Unit) checked numbered reversed
  exact ⟨checked, numbered, reversed, verdict.mpr (by decide), binds, (whole (by decide)).2.2.2 _ _ binds⟩

end Square

-- `y = x / x`, in the last value but one: the rule needs four more.
namespace Edge

def body : Block ℚ :=
  .instr (.define ⟨0⟩ (.index 0)) <| .instr (.define ⟨1⟩ (.load ⟨"x", [⟨0⟩]⟩)) <|
  .instr (.define ⟨4294967294⟩ (.binary .div ⟨1⟩ ⟨1⟩)) <| .instr (.store ⟨"y", [⟨0⟩]⟩ ⟨4294967294⟩) .nil

def kernel : Kernel ℚ := .ofBody "edge" (.ofExtents [1]) 0 body

def gradient : Kernel ℚ := ⟨"edge_grad", .ofExtents [1], 0, body.definitions ++ (
  .instr (.readGrad ⟨4294967294⟩ ⟨"y", [⟨0⟩]⟩) <| .instr (.define ⟨4294967295⟩ (.const 1)) <|
  .instr (.define ⟨0⟩ (.binary .div ⟨4294967295⟩ ⟨1⟩)) <|
  .instr (.propagate ⟨1⟩ ⟨4294967294⟩ (.value ⟨0⟩)) <|
  .instr (.define ⟨1⟩ (.binary .div ⟨4294967294⟩ ⟨1⟩)) <| .instr (.define ⟨2⟩ (.unary .neg ⟨1⟩)) <|
  .instr (.propagate ⟨1⟩ ⟨4294967294⟩ (.value ⟨2⟩)) <| .instr (.addGrad ⟨"x", [⟨0⟩]⟩ ⟨1⟩) .nil), 3⟩

def fields : FieldTable ℚ := .ofList [
  ("x", ⟨rootGroup, .f64, [1], #[3], some #[0]⟩), ("y", ⟨rootGroup, .f64, [1], #[0], some #[1]⟩)]

def bound : Bound ℚ Unit :=
  ⟨kernel, .ofList [("x", ⟨.f64, [1]⟩), ("y", ⟨.f64, [1]⟩)], .ofBlock kernel.body, ()⟩

theorem reverse_strays_edge :
    kernel.check = .ok () ∧ kernel.bind fields = .ok bound ∧ kernel.reverse bound.signatures = .ok gradient ∧
      gradient.check = .error (.malformed "edge_grad" (.beyondCounter ⟨4294967294⟩ 3)) ∧
      (gradient.bind fields : Except KernelFault (Bound ℚ Unit)) =
        .error (.malformed "edge_grad" (.beyondCounter ⟨4294967294⟩ 3)) := by
  refine ⟨?_, ?_, ?_, ?_, ?_⟩ <;> decide +kernel

end Edge

end FieldKernel
