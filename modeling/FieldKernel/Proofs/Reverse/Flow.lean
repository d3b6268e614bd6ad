import Mathlib.Logic.Relation
import FieldKernel.Proofs.Reverse.Activity
import FieldKernel.Proofs.Scalar.Rational

-- What the two sweeps find, as paths through the definitions of a body.
namespace FieldKernel

variable {α : Type}

def Expr.Conducts : Expr α → ValueId → Prop
  | .binary _ lhs rhs, v => v = lhs ∨ v = rhs
  | .unary op operand, v => op ≠ .sgn ∧ v = operand
  | .const _, _ | .index _, _ | .arg _, _ | .load _, _ | .compare _ _ _, _ => False

theorem Expr.Conducts.operand {e : Expr α} {v : ValueId} (conducts : e.Conducts v) : v ∈ e.operands := by
  cases e with
  | binary op lhs rhs => simpa [operands, Conducts] using conducts
  | unary => exact List.mem_singleton.mpr conducts.2
  | const | index | arg | load | compare => cases conducts

namespace Activity

variable {signatures : Signatures} {active useful : ValueSet} {statements whole : List (Statement α)}
  {v w : ValueId} {e : Expr α}

theorem passes_of_conducts (conducts : e.Conducts v) : Passes e := by
  cases e with
  | binary op lhs rhs => exact .inl ⟨op, lhs, rhs, rfl⟩
  | unary op operand => exact .inr ⟨op, operand, rfl⟩
  | const | index | arg | load | compare => cases conducts

theorem exprActive_iff : exprActive signatures active e = true ↔
    (∃ place, e = .load place ∧ signatures.isReal place.field = true) ∨ ∃ v ∈ active, e.Conducts v := by
  cases e with
  | load place => simp [exprActive, Expr.Conducts]
  | binary op lhs rhs => simp [exprActive, Expr.Conducts, and_or_left, exists_or]
  | unary op operand => simp [exprActive, Expr.Conducts, and_left_comm]
  | const | index | arg | compare => simp [exprActive, Expr.Conducts]

def Step (statements : List (Statement α)) (v w : ValueId) : Prop :=
  ∃ e, .instr (.define w e) ∈ statements ∧ e.Conducts v

def Flows (statements : List (Statement α)) : ValueId → ValueId → Prop :=
  Relation.ReflTransGen (Step statements)

def Active (signatures : Signatures) (statements : List (Statement α)) (v : ValueId) : Prop :=
  ∃ w place, .instr (.define w (.load place)) ∈ statements ∧ signatures.isReal place.field = true ∧
    Flows statements w v

def Feeds (signatures : Signatures) (statements : List (Statement α)) (v : ValueId) : Prop :=
  ∃ w place, .instr (.store place w) ∈ statements ∧ signatures.isReal place.field = true ∧
    Flows statements v w

def Useful (signatures : Signatures) (statements : List (Statement α)) (v : ValueId) : Prop :=
  Active signatures statements v ∧ Feeds signatures statements v

theorem Active.step (active : Active signatures statements v) (step : Step statements v w) :
    Active signatures statements w := by
  obtain ⟨u, place, loaded, real, flows⟩ := active
  exact ⟨u, place, loaded, real, flows.tail step⟩

theorem Feeds.step (feeds : Feeds signatures statements w) (step : Step statements v w) :
    Feeds signatures statements v := by
  obtain ⟨u, place, stored, real, flows⟩ := feeds
  exact ⟨u, place, stored, real, flows.head step⟩

theorem active_of_activeFold (part : statements ⊆ whole) (start : ∀ v ∈ active, Active signatures whole v) :
    ∀ v ∈ statements.foldl (activeStep signatures) active, Active signatures whole v := by
  induction statements generalizing active with
  | nil => exact start
  | cons s rest ih =>
    obtain ⟨here, part⟩ := List.cons_subset.mp part
    apply ih part
    intro v member
    unfold activeStep at member
    split at member
    · next dst e =>
      split at member
      · next isActive =>
        rcases List.mem_cons.mp member with rfl | old
        · rcases exprActive_iff.mp isActive with ⟨place, rfl, real⟩ | ⟨w, before, conducts⟩
          · exact ⟨v, place, here, real, .refl⟩
          · exact (start w before).step ⟨e, here, conducts⟩
        · exact start v old
      · exact start v member
    · exact start v member

theorem mem_activeValues (ordered : Ordered [] statements) :
    v ∈ activeValues signatures statements ↔ Active signatures statements v := by
  constructor
  · exact active_of_activeFold (List.Subset.refl _) (List.forall_mem_nil _) v
  · have settled : ∀ {dst e}, .instr (.define dst e) ∈ statements →
        exprActive signatures (activeValues signatures statements) e = true →
          dst ∈ activeValues signatures statements := fun defined =>
      (activeFold_iff ordered (List.Subset.refl _) defined).mpr
    intro isActive
    obtain ⟨w, place, loaded, real, flows⟩ := isActive
    induction flows with
    | refl => exact settled loaded (exprActive_iff.mpr (.inl ⟨place, rfl, real⟩))
    | tail _ step ih =>
      obtain ⟨e, defined, conducts⟩ := step
      exact settled defined (exprActive_iff.mpr (.inr ⟨_, ih, conducts⟩))

-- The sweep backward does not look at the operator: a result of `sgn` is never active, so never useful.
theorem conducts_of_exprActive (isActive : exprActive signatures active e = true) (passes : Passes e)
    (operand : v ∈ e.operands) : e.Conducts v := by
  rcases passes with ⟨op, lhs, rhs, rfl⟩ | ⟨op, x, rfl⟩
  · simpa [Expr.operands, Expr.Conducts] using operand
  · simp only [exprActive, Bool.and_eq_true, decide_eq_true_eq] at isActive
    exact ⟨isActive.1, List.mem_singleton.mp operand⟩

theorem usefulStep_adds {s : Statement α} (member : v ∈ usefulStep signatures active s useful) :
    v ∈ useful ∨ v ∈ active ∧
      ((∃ place, s = .instr (.store place v) ∧ signatures.isReal place.field = true) ∨
        ∃ dst e, s = .instr (.define dst e) ∧ Passes e ∧ dst ∈ useful ∧ v ∈ e.operands) := by
  have marked : ∀ {operands : List ValueId}, v ∈ mark active operands useful →
      v ∈ useful ∨ v ∈ active ∧ v ∈ operands := fun marked =>
    (mem_mark.mp marked).symm.imp id And.symm
  unfold usefulStep at member
  split at member
  · next place value =>
    split at member
    · next real =>
      refine (marked member).imp id fun new => ⟨new.1, .inl ⟨place, ?_, real⟩⟩
      rw [List.mem_singleton.mp new.2]
    · exact .inl member
  · next dst op lhs rhs =>
    split at member
    · next result =>
      exact (marked member).imp id fun new =>
        ⟨new.1, .inr ⟨dst, _, rfl, .inl ⟨op, lhs, rhs, rfl⟩, List.contains_iff_mem.mp result, new.2⟩⟩
    · exact .inl member
  · next dst op operand =>
    split at member
    · next result =>
      exact (marked member).imp id fun new =>
        ⟨new.1, .inr ⟨dst, _, rfl, .inr ⟨op, operand, rfl⟩, List.contains_iff_mem.mp result, new.2⟩⟩
    · exact .inl member
  · exact .inl member

-- The sweep backward adds active values only, and only what feeds a store.
theorem feeds_of_usefulSweep (ordered : Ordered [] whole) (part : statements ⊆ whole) :
    ∀ v ∈ usefulValues signatures (activeValues signatures whole) statements,
      v ∈ activeValues signatures whole ∧ Feeds signatures whole v := by
  induction statements with
  | nil => exact List.forall_mem_nil _
  | cons s rest ih =>
    obtain ⟨here, inside⟩ := List.cons_subset.mp part
    intro v member
    rcases usefulStep_adds member with old | ⟨isActive, ⟨place, rfl, real⟩ | ⟨dst, e, rfl, passes, result, operand⟩⟩
    · exact ih inside v old
    · exact ⟨isActive, v, place, here, real, .refl⟩
    · obtain ⟨resultActive, feeds⟩ := ih inside dst result
      have settled := (activeFold_iff ordered (List.Subset.refl _) here).mp resultActive
      exact ⟨isActive, feeds.step ⟨e, here, conducts_of_exprActive settled passes operand⟩⟩

theorem mem_usefulValues (ordered : Ordered [] statements) :
    v ∈ usefulValues signatures (activeValues signatures statements) statements ↔
      Useful signatures statements v := by
  constructor
  · intro member
    obtain ⟨isActive, feeds⟩ := feeds_of_usefulSweep ordered (List.Subset.refl _) v member
    exact ⟨(mem_activeValues ordered).mp isActive, feeds⟩
  · intro isUseful
    obtain ⟨isActive, w, place, stored, real, flows⟩ := isUseful
    induction flows using Relation.ReflTransGen.head_induction_on with
    | refl => exact useful_of_stored stored real ((mem_activeValues ordered).mpr isActive)
    | head step _ ih =>
      have result := ih (isActive.step step)
      obtain ⟨e, defined, conducts⟩ := step
      exact useful_of_result ordered (passes_of_conducts conducts) defined conducts.operand
        ((mem_activeValues ordered).mpr isActive) result

end Activity

namespace Kernel

variable {kernel : Kernel α} {signatures : Signatures} {v : ValueId}

theorem ordered (checked : kernel.check = .ok ()) : Ordered [] kernel.body.statements :=
  (check_ok.mp checked).ordered (List.Subset.refl _) fun _ => Iff.rfl

theorem carriesAdjoint_iff (checked : kernel.check = .ok ()) :
    (Activity.ofKernel kernel signatures).carriesAdjoint v = true ↔
      Activity.Useful signatures kernel.body.statements v := by
  rw [Activity.carriesAdjoint, Bool.and_eq_true, List.contains_iff_mem, List.contains_iff_mem]
  have settled := ordered checked
  refine (and_congr (Activity.mem_activeValues settled) (Activity.mem_usefulValues settled)).trans ?_
  exact and_iff_right_of_imp And.left

-- One sweep forward finds every value into which a load from a real field flows, and one sweep backward
-- finds those of them that flow into a store to a real field: these carry adjoints, and no others do.
theorem activity_exact (checked : kernel.check = .ok ()) (signatures : Signatures) (v : ValueId) :
    let activity := Activity.ofKernel kernel signatures
    (v ∈ activity.active ↔ Activity.Active signatures kernel.body.statements v) ∧
      (v ∈ activity.useful ↔ Activity.Active signatures kernel.body.statements v ∧
        Activity.Feeds signatures kernel.body.statements v) ∧
      (activity.carriesAdjoint v = true ↔ Activity.Active signatures kernel.body.statements v ∧
        Activity.Feeds signatures kernel.body.statements v) :=
  ⟨Activity.mem_activeValues (ordered checked), Activity.mem_usefulValues (ordered checked),
    carriesAdjoint_iff checked⟩

end Kernel

-- `y = x * x` where `x` is not zero: the product is taken outside the branch and stored inside it. The sign
-- of `x` is stored as well, but no derivative passes through it.
namespace Signed

def body : Block ℚ :=
  .instr (.define ⟨0⟩ (.index 0)) <| .instr (.define ⟨1⟩ (.load ⟨"x", [⟨0⟩]⟩)) <|
  .instr (.define ⟨2⟩ (.binary .mul ⟨1⟩ ⟨1⟩)) <|
  .branch ⟨1⟩
    (.instr (.store ⟨"y", [⟨0⟩]⟩ ⟨2⟩) <| .instr (.define ⟨3⟩ (.unary .sgn ⟨1⟩)) <|
      .instr (.store ⟨"s", [⟨0⟩]⟩ ⟨3⟩) .nil) .nil .nil

def kernel : Kernel ℚ := .ofBody "signed" (.ofExtents [2]) 0 body

def signatures : Signatures :=
  let real := ⟨.f64, [2]⟩
  .ofList [("x", real), ("y", real), ("s", real)]

theorem activity_exact_signed : kernel.check = .ok () ∧
    (∀ v ∈ [⟨1⟩, ⟨2⟩], Activity.Active signatures body.statements v ∧
      Activity.Feeds signatures body.statements v) ∧
    ∀ v ∈ [⟨0⟩, ⟨3⟩], ¬Activity.Active signatures body.statements v := by
  have checked : kernel.check = .ok () := by decide +kernel
  have carried : ∀ v ∈ [⟨1⟩, ⟨2⟩], (Activity.ofKernel kernel signatures).carriesAdjoint v = true := by
    decide +kernel
  have idle : ∀ v ∈ [⟨0⟩, ⟨3⟩], v ∉ (Activity.ofKernel kernel signatures).active := by decide +kernel
  refine ⟨checked, fun v member => ?_, fun v member => ?_⟩
  · obtain ⟨-, -, carries⟩ := Kernel.activity_exact checked signatures v
    exact carries.mp (carried v member)
  · obtain ⟨active, -, -⟩ := Kernel.activity_exact checked signatures v
    exact mt active.mpr (idle v member)

end Signed

end FieldKernel
