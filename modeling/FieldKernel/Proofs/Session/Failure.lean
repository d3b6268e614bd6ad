import FieldKernel.Proofs.Session.Deferred

-- Drains that fail.
namespace FieldKernel

variable {α δ : Type}

variable [Scalar α] [Digest δ] [DecidableEq δ]

theorem Host.After.reached {settings : Settings} {requests : List (Request α)} {host : Host α δ}
    (worded : ∀ r ∈ requests, r.Worded) (after : Host.After settings requests host) :
    Host.Reached settings host := by
  obtain ⟨replies, ran⟩ := after
  induction requests using List.reverseRecOn generalizing replies host with
  | nil =>
    cases ran
    exact .start settings
  | append_singleton requests request ih =>
    rw [List.mapM_append] at ran
    obtain ⟨before, host₁, ranBefore, others⟩ := bind_ok.mp ran
    obtain ⟨last, host₂, ranLast, rest⟩ := bind_ok.mp others
    rw [List.mapM_cons] at ranLast
    obtain ⟨reply, host₃, performed, ended_⟩ := bind_ok.mp ranLast
    cases ended_
    cases rest
    have reached := ih (fun r member => worded r (List.mem_append_left _ member)) before ranBefore
    have next := reached.next (worded request (by simp))
    rwa [performed] at next

theorem Compiler.plan_unfused (table : FieldTable α) (queue : List (Task α δ)) (compiler : Compiler α δ) :
    ∃ planned compiler', plan false table queue compiler = .ok planned compiler' := by
  have fold : ∀ (planned : List (Task α δ)) (compiler : Compiler α δ), ∃ planned' compiler',
      queue.foldlM (planTask false table) planned compiler = .ok planned' compiler' := by
    induction queue with
    | nil => exact fun planned compiler => ⟨planned, compiler, rfl⟩
    | cons task rest ih =>
      intro planned compiler
      obtain ⟨planned₁, compiler₁, first⟩ :
          ∃ planned₁ compiler₁, planTask false table planned task compiler = .ok planned₁ compiler₁ := by
        unfold planTask
        cases task.isEmpty with
        | true => exact ⟨_, _, rfl⟩
        | false => cases planned <;> exact ⟨_, _, rfl⟩
      obtain ⟨planned', compiler', others⟩ := ih planned₁ compiler₁
      rw [List.foldlM_cons]
      exact ⟨planned', compiler', bind_ok.mpr ⟨_, _, first, others⟩⟩
  obtain ⟨planned, compiler', folded⟩ := fold [] compiler
  rw [plan, map_eq_pure_bind]
  exact ⟨planned.reverse, compiler', bind_ok.mpr ⟨planned, compiler', folded, rfl⟩⟩

theorem Session.Refused.fusion {host : Host α δ} (refused : Refused host) : host.session.settings.fusion = true := by
  obtain ⟨e, compiler, failed, -⟩ := refused
  by_contra unfused
  rw [Bool.eq_false_iff.mpr unfused] at failed
  obtain ⟨planned, compiler', plan⟩ :=
    Compiler.plan_unfused host.session.table host.session.queue host.session.compiler
  cases plan.symm.trans failed

namespace Copies

def beyond (domain : Domain) : Kernel ℚ :=
  .ofBody "beyond" domain 0 (.instr (.define ⟨0⟩ (.const 5)) (.instr (.define ⟨1⟩ (.load ⟨"z", [⟨0⟩]⟩)) .nil))

def task (kernel : Kernel ℚ) (signatures : Signatures) : Task ℚ (List UInt8) :=
  ⟨⟨kernel, signatures, .ofBlock kernel.body, kernel.digest signatures⟩, [], .forward, false⟩

-- How the launches in a queue end one after the other and how a drain ends: whether they fail, and the
-- fields they leave.
def failed {ε σ β : Type} : EStateM.Result ε σ β → Bool
  | .ok _ _ => false
  | .error _ _ => true

def endings (host : Host ℚ (List UInt8)) : (Bool × FieldTable ℚ) × (Bool × FieldTable ℚ) :=
  let apart := host.session.queue.forM Task.run host.session.table
  let drained := Session.drain host
  ((failed apart, ended apart), (failed drained, (ended drained).session.table))

def misspelled : String := "f over [] \x7b\n  %0 = const 1\n  %1 = load g"

end Copies

end FieldKernel
