import FieldKernel.Reverse.Activity
import FieldKernel.Proofs.Kernel.Scope

-- The two sweeps over a checked body settle activity and usefulness, although each looks at a statement once.
namespace FieldKernel

variable {α : Type}

def Ordered : List ValueId → List (Statement α) → Prop
  | _, [] => True
  | known, s :: rest =>
    (∀ v ∈ s.operands, v ∈ known) ∧ (∀ v ∈ s.dst?, v ∉ known) ∧ Ordered (s.dst?.toList ++ known) rest

theorem ordered_append {known : List ValueId} {first second : List (Statement α)}
    (left : Ordered known first)
    (right : ∀ known', (∀ v, v ∈ known' ↔ v ∈ first.filterMap Statement.dst? ∨ v ∈ known) →
      Ordered known' second) : Ordered known (first ++ second) := by
  induction first generalizing known with
  | nil => exact right known fun v => by simp
  | cons s rest ih =>
    obtain ⟨operands, fresh, others⟩ := left
    refine ⟨operands, fresh, ih others fun known' members => right known' fun v => ?_⟩
    rw [members]
    cases dst : s.dst? <;> simp [dst, or_left_comm, or_assoc]

theorem Ordered.not_redefined {known : List ValueId} {statements : List (Statement α)}
    (ordered : Ordered known statements) {v : ValueId} (old : v ∈ known) {s : Statement α}
    (member : s ∈ statements) : v ∉ s.dst? := by
  induction statements generalizing known with
  | nil => simp at member
  | cons head rest ih =>
    obtain ⟨-, fresh, others⟩ := ordered
    rcases List.mem_cons.mp member with rfl | later
    · exact fun here => fresh v here old
    · exact ih others (List.mem_append_right _ old) later

namespace Block

theorem WellFormed.ordered {limits : Limits} {block : Block α} {visible defined known : List ValueId}
    (formed : block.WellFormed limits visible defined) (seen : visible ⊆ defined)
    (same : ∀ v, v ∈ known ↔ v ∈ defined) : Ordered known block.statements := by
  induction block generalizing visible defined known with
  | nil => trivial
  | instr i rest ih =>
    obtain ⟨operands, -, fresh, others⟩ := formed
    refine ⟨fun v used => (same v).mpr (seen (operands v used)),
      fun v dst old => fresh v dst ((same v).mp old), ih others ?_ fun v => ?_⟩
    · exact List.append_subset.mpr ⟨List.subset_append_left _ _,
        List.subset_append_of_subset_right _ seen⟩
    · simp [Statement.dst?, same]
  | branch cond onTrue onFalse rest ihTrue ihFalse ihRest =>
    obtain ⟨condition, inTrue, inFalse, others⟩ := formed
    refine ⟨fun v used => ?_, fun v dst => absurd dst (by simp [Statement.dst?]), ?_⟩
    · rw [List.mem_singleton.mp used]
      exact (same _).mpr (seen condition)
    · change Ordered known (onTrue.statements ++ onFalse.statements ++ rest.statements)
      refine ordered_append (ordered_append (ihTrue inTrue seen same) ?_) ?_
      · intro known' members
        refine ihFalse inFalse (List.subset_append_of_subset_right _ seen) fun v => ?_
        rw [members, List.mem_append, same]
        rfl
      · intro known' members
        refine ihRest others
          (List.subset_append_of_subset_right _ (List.subset_append_of_subset_right _ seen)) fun v => ?_
        rw [members, List.filterMap_append, List.mem_append, List.mem_append, List.mem_append, same]
        exact or_assoc.trans or_left_comm

end Block

namespace Activity

variable {signatures : Signatures} {active useful : ValueSet}

theorem exprActive_congr {left right : ValueSet} {e : Expr α}
    (same : ∀ v ∈ e.operands, (v ∈ left ↔ v ∈ right)) :
    exprActive signatures left e = exprActive signatures right e := by
  cases e with
  | binary op lhs rhs =>
    have left := same lhs (by simp [Expr.operands])
    have right := same rhs (by simp [Expr.operands])
    simp [exprActive, left, right]
  | unary op operand =>
    have inner := same operand (by simp [Expr.operands])
    simp [exprActive, inner]
  | const | index | arg | load | compare => rfl

theorem subset_activeStep (s : Statement α) : active ⊆ activeStep signatures active s := by
  intro v member
  unfold activeStep
  split
  · split
    · exact List.mem_cons_of_mem _ member
    · exact member
  · exact member

theorem mem_activeStep {s : Statement α} {v : ValueId}
    (member : v ∈ activeStep signatures active s) : v ∈ active ∨ v ∈ s.dst? := by
  unfold activeStep at member
  split at member
  · split at member
    · rcases List.mem_cons.mp member with rfl | old
      · exact .inr rfl
      · exact .inl old
    · exact .inl member
  · exact .inl member

theorem subset_activeFold (statements : List (Statement α)) :
    active ⊆ statements.foldl (activeStep signatures) active := by
  induction statements generalizing active with
  | nil => exact List.Subset.refl _
  | cons s rest ih => exact List.Subset.trans (subset_activeStep s) ih

theorem activeFold_known {known : List ValueId} {statements : List (Statement α)}
    (ordered : Ordered known statements) {v : ValueId} (old : v ∈ known)
    (member : v ∈ statements.foldl (activeStep signatures) active) : v ∈ active := by
  induction statements generalizing active known with
  | nil => exact member
  | cons s rest ih =>
    obtain ⟨-, fresh, others⟩ := ordered
    rcases mem_activeStep (ih others (List.mem_append_right _ old) member) with before | here
    · exact before
    · exact absurd old (fresh v here)

theorem activeFold_iff {known : List ValueId} {statements : List (Statement α)}
    (ordered : Ordered known statements) (start : active ⊆ known) {dst : ValueId} {e : Expr α}
    (member : .instr (.define dst e) ∈ statements) :
    dst ∈ statements.foldl (activeStep signatures) active ↔
      exprActive signatures (statements.foldl (activeStep signatures) active) e = true := by
  induction statements generalizing active known with
  | nil => simp at member
  | cons s rest ih =>
    have whole := ordered
    obtain ⟨operands, fresh, others⟩ := ordered
    rcases List.mem_cons.mp member with rfl | later
    · -- the operands are settled already, and nothing later defines the value again
      have settled : exprActive signatures ((Statement.instr (.define dst e) :: rest).foldl
          (activeStep signatures) active) e = exprActive signatures active e :=
        exprActive_congr fun v used =>
          ⟨activeFold_known whole (operands v used), fun old => subset_activeFold _ old⟩
      rw [settled, List.foldl_cons]
      constructor
      · intro inFold
        have := activeFold_known others (List.mem_append_left _ (by simp [Statement.dst?, Instr.dst?])) inFold
        rw [activeStep] at this
        split at this
        · assumption
        · exact absurd (start this) (fresh dst rfl)
      · intro isActive
        refine subset_activeFold rest ?_
        simp [activeStep, isActive]
    · refine ih others (fun v inStep => ?_) later
      rcases mem_activeStep inStep with old | here
      · exact List.mem_append_right _ (start old)
      · exact List.mem_append_left _ (Option.mem_toList.mpr here)

theorem mem_mark {operands : List ValueId} {v : ValueId} :
    v ∈ mark active operands useful ↔ (v ∈ operands ∧ v ∈ active) ∨ v ∈ useful := by
  simp [mark]

theorem subset_usefulStep (s : Statement α) : useful ⊆ usefulStep signatures active s useful := by
  intro v member
  unfold usefulStep
  repeat' split
  all_goals first
    | exact member
    | exact mem_mark.mpr (.inr member)

theorem mem_usefulStep {s : Statement α} {v : ValueId}
    (member : v ∈ usefulStep signatures active s useful) : v ∈ useful ∨ v ∈ s.operands := by
  have marked : ∀ {operands : List ValueId}, v ∈ mark active operands useful →
      operands ⊆ s.operands → v ∈ useful ∨ v ∈ s.operands := by
    intro operands marked inside
    rcases mem_mark.mp marked with ⟨operand, -⟩ | old
    · exact .inr (inside operand)
    · exact .inl old
  unfold usefulStep at member
  repeat' split at member
  all_goals first
    | exact .inl member
    | exact marked member (by simp [Statement.operands, Instr.operands, Expr.operands])

theorem useful_of_stored {statements : List (Statement α)} {place : Place} {v : ValueId}
    (member : .instr (.store place v) ∈ statements) (real : signatures.isReal place.field = true)
    (isActive : v ∈ active) : v ∈ usefulValues signatures active statements := by
  induction statements with
  | nil => simp at member
  | cons s rest ih =>
    rw [usefulValues, List.foldr_cons]
    rcases List.mem_cons.mp member with rfl | later
    · rw [usefulStep, if_pos real]
      exact mem_mark.mpr (.inl ⟨List.mem_singleton.mpr rfl, isActive⟩)
    · exact subset_usefulStep s (ih later)

def Passes (e : Expr α) : Prop := (∃ op lhs rhs, e = .binary op lhs rhs) ∨ ∃ op v, e = .unary op v

theorem useful_of_result {known : List ValueId} {statements : List (Statement α)}
    (ordered : Ordered known statements) {dst v : ValueId} {e : Expr α} (passes : Passes e)
    (member : .instr (.define dst e) ∈ statements) (operand : v ∈ e.operands) (isActive : v ∈ active)
    (result : dst ∈ usefulValues signatures active statements) :
    v ∈ usefulValues signatures active statements := by
  induction statements generalizing known with
  | nil => simp at member
  | cons s rest ih =>
    obtain ⟨operands, fresh, others⟩ := ordered
    rw [usefulValues, List.foldr_cons] at result ⊢
    rcases List.mem_cons.mp member with rfl | later
    · -- the statement does not read its own result, so the result was useful before
      have before : dst ∈ rest.foldr (usefulStep signatures active) [] := by
        rcases mem_usefulStep result with before | own
        · exact before
        · exact absurd (operands dst own) (fresh dst rfl)
      rcases passes with ⟨op, lhs, rhs, rfl⟩ | ⟨op, x, rfl⟩
      · rw [usefulStep, if_pos (by simpa using before)]
        exact mem_mark.mpr (.inl ⟨operand, isActive⟩)
      · rw [usefulStep, if_pos (by simpa using before)]
        exact mem_mark.mpr (.inl ⟨operand, isActive⟩)
    · -- what this statement reads is defined before it, so it is not the later result
      have before : dst ∈ usefulValues signatures active rest := by
        rcases mem_usefulStep result with before | read
        · exact before
        · exfalso
          have old : dst ∈ s.dst?.toList ++ known := List.mem_append_right _ (operands dst read)
          exact others.not_redefined old later rfl
      exact subset_usefulStep s (ih others later before)

end Activity

end FieldKernel
