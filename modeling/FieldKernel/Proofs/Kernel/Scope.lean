import FieldKernel.Kernel.Scope
import FieldKernel.Proofs.Outcome

-- What the check of a kernel establishes, as a property of its body and of three limits.
namespace FieldKernel

variable {α : Type}

structure Limits where
  rank : Nat
  argCount : Nat
  counter : Nat

def Kernel.limits (kernel : Kernel α) : Limits :=
  ⟨kernel.domain.rank, kernel.argCount, kernel.counter⟩

def Expr.Within (limits : Limits) : Expr α → Prop
  | .index axis => axis < limits.rank
  | .arg position => position < limits.argCount
  | _ => True

def Instr.Within (limits : Limits) : Instr α → Prop
  | .define dst e => e.Within limits ∧ dst.index < limits.counter
  | _ => True

theorem Instr.Within.dst_lt {limits : Limits} {i : Instr α} (within : i.Within limits) {v : ValueId}
    (dst : v ∈ i.dst?) : v.index < limits.counter := by
  cases i with
  | define w e =>
    cases dst
    exact within.2
  | store | readGrad | propagate | addGrad => cases dst

theorem Instr.Within.below {limits : Limits} {i : Instr α} {visible : List ValueId}
    (within : i.Within limits) (below : ∀ v ∈ visible, v.index < limits.counter) :
    ∀ v ∈ i.dst?.toList ++ visible, v.index < limits.counter :=
  List.forall_mem_append.mpr ⟨fun _ dst => within.dst_lt (Option.mem_toList.mp dst), below⟩

namespace Block

-- The values a block defines, nested blocks included, in preorder.
def assigned (block : Block α) : List ValueId := block.statements.filterMap Statement.dst?

@[simp] theorem assigned_nil : (nil : Block α).assigned = [] := rfl

@[simp] theorem assigned_instr (i : Instr α) (rest : Block α) :
    (instr i rest).assigned = i.dst?.toList ++ rest.assigned := by
  cases dst : i.dst? <;> simp [assigned, statements, Statement.dst?, dst]

@[simp] theorem assigned_branch (cond : ValueId) (onTrue onFalse rest : Block α) :
    (branch cond onTrue onFalse rest).assigned =
      onTrue.assigned ++ onFalse.assigned ++ rest.assigned := by
  have head : (Statement.branch cond : Statement α).dst? = none := rfl
  simp [assigned, statements, head]

def WellFormed (limits : Limits) : List ValueId → List ValueId → Block α → Prop
  | _, _, .nil => True
  | visible, defined, .instr i rest =>
    (∀ v ∈ i.operands, v ∈ visible) ∧ i.Within limits ∧ (∀ v ∈ i.dst?, v ∉ defined) ∧
      WellFormed limits (i.dst?.toList ++ visible) (i.dst?.toList ++ defined) rest
  | visible, defined, .branch cond onTrue onFalse rest =>
    cond ∈ visible ∧ WellFormed limits visible defined onTrue ∧
      WellFormed limits visible (onTrue.assigned ++ defined) onFalse ∧
      WellFormed limits visible (onFalse.assigned ++ (onTrue.assigned ++ defined)) rest

theorem WellFormed.apart {limits : Limits} {block : Block α} {visible visible' defined defined' : List ValueId}
    (formed : block.WellFormed limits visible defined) (seen : visible ⊆ visible')
    (apart : ∀ v ∈ block.assigned, v ∈ defined' → v ∈ defined) :
    block.WellFormed limits visible' defined' := by
  induction block generalizing visible visible' defined defined' with
  | nil => trivial
  | instr i rest ih =>
    obtain ⟨operands, within, fresh, others⟩ := formed
    rw [assigned_instr] at apart
    refine ⟨fun v used => seen (operands v used), within, fun v dst member => ?_, ih others ?_ ?_⟩
    · exact fresh v dst (apart v (List.mem_append_left _ (Option.mem_toList.mpr dst)) member)
    · exact List.append_subset.mpr ⟨List.subset_append_left _ _,
        List.subset_append_of_subset_right _ seen⟩
    · intro v later member
      rcases List.mem_append.mp member with here | before
      · exact List.mem_append_left _ here
      · exact List.mem_append_right _ (apart v (List.mem_append_right _ later) before)
  | branch cond onTrue onFalse rest ihTrue ihFalse ihRest =>
    obtain ⟨condition, inTrue, inFalse, others⟩ := formed
    simp only [assigned_branch, List.mem_append] at apart
    refine ⟨seen condition, ihTrue inTrue seen fun v first => apart v (.inl (.inl first)),
      ihFalse inFalse seen fun v second member => ?_, ihRest others seen fun v later member => ?_⟩
    · rcases List.mem_append.mp member with first | before
      · exact List.mem_append_left _ first
      · exact List.mem_append_right _ (apart v (.inl (.inr second)) before)
    · simp only [List.mem_append] at member ⊢
      exact member.imp id (Or.imp id (apart v (.inr later)))

theorem WellFormed.mono {limits : Limits} {block : Block α} {visible visible' defined defined' : List ValueId}
    (formed : block.WellFormed limits visible defined) (seen : visible ⊆ visible')
    (fewer : defined' ⊆ defined) : block.WellFormed limits visible' defined' :=
  formed.apart seen fun _ _ member => fewer member

theorem WellFormed.recount {limits : Limits} {block : Block α} {visible defined : List ValueId}
    (formed : block.WellFormed limits visible defined) {counter : Nat}
    (inside : ∀ v ∈ block.assigned, v.index < counter) :
    block.WellFormed { limits with counter := counter } visible defined := by
  induction block generalizing visible defined with
  | nil => trivial
  | instr i rest ih =>
    obtain ⟨operands, within, fresh, others⟩ := formed
    rw [assigned_instr, List.forall_mem_append] at inside
    refine ⟨operands, ?_, fresh, ih others inside.2⟩
    cases i with
    | define dst e =>
      refine ⟨?_, inside.1 dst (by simp [Instr.dst?])⟩
      cases e <;> exact within.1
    | store | readGrad | propagate | addGrad => trivial
  | branch cond onTrue onFalse rest ihTrue ihFalse ihRest =>
    obtain ⟨condition, inTrue, inFalse, others⟩ := formed
    rw [assigned_branch, List.forall_mem_append, List.forall_mem_append] at inside
    exact ⟨condition, ihTrue inTrue inside.1.1, ihFalse inFalse inside.1.2, ihRest others inside.2⟩

theorem assigned_definitions_instr (i : Instr α) (rest : Block α) :
    (instr i rest).definitions.assigned = i.dst?.toList ++ rest.definitions.assigned := by
  cases i with
  | define dst e => exact assigned_instr _ _
  | store | readGrad | propagate | addGrad => rfl

theorem WellFormed.followed {limits : Limits} {a b : Block α} {visible defined : List ValueId}
    (first : a.WellFormed limits visible defined)
    (second : b.WellFormed limits (a.definitions.assigned ++ visible) (a.assigned ++ defined)) :
    (a ++ b).WellFormed limits visible defined := by
  change (a.append b).WellFormed limits visible defined
  induction a generalizing visible defined with
  | nil => exact second
  | instr i rest ih =>
    obtain ⟨operands, within, fresh, others⟩ := first
    rw [assigned_definitions_instr, assigned_instr] at second
    refine ⟨operands, within, fresh, ih others (second.mono ?_ ?_)⟩
    all_goals
      intro v member
      simp only [List.mem_append] at member ⊢
      grind
  | branch cond onTrue onFalse rest _ _ ih =>
    obtain ⟨condition, inTrue, inFalse, others⟩ := first
    rw [assigned_branch] at second
    refine ⟨condition, inTrue, inFalse, ih others (second.mono (List.Subset.refl _) ?_)⟩
    intro v member
    simp only [List.mem_append] at member ⊢
    grind

theorem WellFormed.append {limits : Limits} {a b : Block α} {visible defined : List ValueId}
    (first : a.WellFormed limits visible defined)
    (second : b.WellFormed limits visible (a.assigned ++ defined)) :
    (a ++ b).WellFormed limits visible defined :=
  first.followed (second.mono (List.subset_append_right _ _) (List.Subset.refl _))

theorem WellFormed.definitions {limits : Limits} {block : Block α} {visible defined : List ValueId}
    (formed : block.WellFormed limits visible defined) :
    block.definitions.WellFormed limits visible defined := by
  induction block generalizing visible defined with
  | nil => trivial
  | instr i rest ih =>
    obtain ⟨operands, within, fresh, others⟩ := formed
    cases i with
    | define dst e => exact ⟨operands, within, fresh, ih others⟩
    | store | readGrad | propagate | addGrad => exact ih others
  | branch cond onTrue onFalse rest _ _ ih =>
    obtain ⟨-, -, -, others⟩ := formed
    have before : defined ⊆ onFalse.assigned ++ (onTrue.assigned ++ defined) :=
      List.subset_append_of_subset_right _ (List.subset_append_right _ _)
    exact ih (others.mono (List.Subset.refl _) before)

theorem eq_nil {block : Block α} (empty : block.isEmpty = true) : block = .nil := by
  cases block with
  | nil => rfl
  | instr | branch => cases empty

theorem WellFormed.assigned_fresh {limits : Limits} {block : Block α} {visible defined : List ValueId}
    (formed : block.WellFormed limits visible defined) {v : ValueId} (member : v ∈ block.assigned) :
    v ∉ defined := by
  induction block generalizing visible defined with
  | nil => simp at member
  | instr i rest ih =>
    obtain ⟨-, -, fresh, others⟩ := formed
    rcases List.mem_append.mp (assigned_instr i rest ▸ member) with here | later
    · exact fresh v (by simpa using here)
    · exact fun old => ih others later (List.mem_append_right _ old)
  | branch cond onTrue onFalse rest ihTrue ihFalse ihRest =>
    obtain ⟨-, inTrue, inFalse, others⟩ := formed
    simp only [assigned_branch, List.mem_append] at member
    intro old
    rcases member with (first | second) | later
    · exact ihTrue inTrue first old
    · exact ihFalse inFalse second (List.mem_append_right _ old)
    · exact ihRest others later (List.mem_append_right _ (List.mem_append_right _ old))

theorem WellFormed.assigned_lt {limits : Limits} {block : Block α} {visible defined : List ValueId}
    (formed : block.WellFormed limits visible defined) {v : ValueId} (member : v ∈ block.assigned) :
    v.index < limits.counter := by
  induction block generalizing visible defined with
  | nil => simp at member
  | instr i rest ih =>
    obtain ⟨-, within, -, others⟩ := formed
    rcases List.mem_append.mp (assigned_instr i rest ▸ member) with here | later
    · exact within.dst_lt (Option.mem_toList.mp here)
    · exact ih others later
  | branch cond onTrue onFalse rest ihTrue ihFalse ihRest =>
    obtain ⟨-, inTrue, inFalse, others⟩ := formed
    simp only [assigned_branch, List.mem_append] at member
    rcases member with (first | second) | later
    · exact ihTrue inTrue first
    · exact ihFalse inFalse second
    · exact ihRest others later

theorem WellFormed.assigned_nodup {limits : Limits} {block : Block α} {visible defined : List ValueId}
    (formed : block.WellFormed limits visible defined) : block.assigned.Nodup := by
  induction block generalizing visible defined with
  | nil => exact .nil
  | instr i rest ih =>
    obtain ⟨-, -, -, others⟩ := formed
    rw [assigned_instr]
    refine List.nodup_append.mpr ⟨by cases i.dst? <;> simp, ih others, ?_⟩
    rintro v here w later rfl
    exact others.assigned_fresh later (List.mem_append_left _ here)
  | branch cond onTrue onFalse rest ihTrue ihFalse ihRest =>
    obtain ⟨-, inTrue, inFalse, others⟩ := formed
    rw [assigned_branch, List.append_assoc]
    refine List.nodup_append.mpr ⟨ihTrue inTrue,
      List.nodup_append.mpr ⟨ihFalse inFalse, ihRest others, ?_⟩, ?_⟩
    · rintro v second w later rfl
      exact others.assigned_fresh later (List.mem_append_left _ second)
    · rintro v first w member rfl
      rcases List.mem_append.mp member with second | later
      · exact inFalse.assigned_fresh second (List.mem_append_left _ first)
      · exact others.assigned_fresh later
          (List.mem_append_right _ (List.mem_append_left _ first))

theorem WellFormed.operand_known {limits : Limits} {block : Block α} {visible defined : List ValueId}
    (formed : block.WellFormed limits visible defined) {s : Statement α} (member : s ∈ block.statements)
    {v : ValueId} (used : v ∈ s.operands) : v ∈ visible ∨ v ∈ block.assigned := by
  induction block generalizing visible defined with
  | nil => simp [statements] at member
  | instr i rest ih =>
    obtain ⟨operands, -, -, others⟩ := formed
    rw [assigned_instr, List.mem_append]
    rcases List.mem_cons.mp member with rfl | later
    · exact .inl (operands v used)
    · rcases ih others later with seen | inside
      · rcases List.mem_append.mp seen with here | seen
        · exact .inr (.inl here)
        · exact .inl seen
      · exact .inr (.inr inside)
  | branch cond onTrue onFalse rest ihTrue ihFalse ihRest =>
    obtain ⟨condition, inTrue, inFalse, others⟩ := formed
    simp only [assigned_branch, List.mem_append]
    simp only [statements, List.mem_cons, List.mem_append] at member
    rcases member with rfl | (first | second) | later
    · simp only [Statement.operands, List.mem_singleton] at used
      exact .inl (used ▸ condition)
    · exact (ihTrue inTrue first).imp id fun inside => .inl (.inl inside)
    · exact (ihFalse inFalse second).imp id fun inside => .inl (.inr inside)
    · exact (ihRest others later).imp id .inr

end Block

namespace Kernel

theorem operandsInScope_ok {kernel : Kernel α} {visible : List ValueId} {s : Statement α} :
    kernel.operandsInScope visible s = .ok () ↔ ∀ v ∈ s.operands, v ∈ visible := by
  unfold operandsInScope
  cases found : s.operands.find? fun v => !visible.contains v with
  | none => simpa using List.find?_eq_none.mp found
  | some v =>
    have used := List.mem_of_find?_eq_some found
    have hidden := List.find?_some found
    simp only [reduceCtorEq, false_iff]
    intro all
    simp [all v used] at hidden

theorem exprInBounds_ok {kernel : Kernel α} {e : Expr α} :
    kernel.exprInBounds e = .ok () ↔ e.Within kernel.limits := by
  cases e <;> simp only [exprInBounds, Expr.Within, limits]
  · split <;> simp_all
  · split <;> simp_all

theorem definable_ok {kernel : Kernel α} {defined : List ValueId} {dst : ValueId} :
    kernel.definable defined dst = .ok () ↔ dst.index < kernel.counter ∧ dst ∉ defined := by
  unfold definable
  split
  · next beyond => simp [Nat.not_lt.mpr beyond]
  · next below => split <;> simp_all

theorem checkInstr_ok {kernel : Kernel α} {visible defined : List ValueId} {i : Instr α} :
    kernel.checkInstr visible defined i = .ok () ↔
      (∀ v ∈ i.operands, v ∈ visible) ∧ i.Within kernel.limits ∧ ∀ v ∈ i.dst?, v ∉ defined := by
  have scope : kernel.operandsInScope visible (.instr i) = .ok () ↔ ∀ v ∈ i.operands, v ∈ visible :=
    operandsInScope_ok
  cases i with
  | define dst e =>
    simp only [checkInstr, Except.then_ok, scope, exprInBounds_ok, definable_ok, Instr.Within,
      Instr.dst?]
    simp [limits, and_assoc]
  | store | readGrad | propagate | addGrad =>
    simp [checkInstr, Except.then_ok, scope, Instr.Within, Instr.dst?, pure, Except.pure]

theorem checkBlock_ok {kernel : Kernel α} {visible defined after : List ValueId} {block : Block α}
    (checked : kernel.checkBlock visible defined block = .ok after) :
    block.WellFormed kernel.limits visible defined ∧
      ∀ v, v ∈ after ↔ v ∈ block.assigned ∨ v ∈ defined := by
  induction block generalizing visible defined after with
  | nil =>
    cases checked
    simp [Block.WellFormed]
  | instr i rest ih =>
    simp only [checkBlock, Except.then_ok, checkInstr_ok] at checked
    obtain ⟨⟨operands, within, fresh⟩, others⟩ := checked
    obtain ⟨formed, members⟩ := ih others
    refine ⟨⟨operands, within, fresh, formed⟩, fun v => ?_⟩
    rw [members, Block.assigned_instr, List.mem_append, List.mem_append]
    exact or_left_comm.trans or_assoc.symm
  | branch cond onTrue onFalse rest ihTrue ihFalse ihRest =>
    simp only [checkBlock, Except.bind_ok] at checked
    obtain ⟨_, scope, d₁, first, d₂, second, others⟩ := checked
    have condition := operandsInScope_ok.mp scope
    obtain ⟨formedTrue, members₁⟩ := ihTrue first
    obtain ⟨formedFalse, members₂⟩ := ihFalse second
    obtain ⟨formedRest, members₃⟩ := ihRest others
    have seen₁ : onTrue.assigned ++ defined ⊆ d₁ := fun v => by simp [members₁]
    have seen₂ : onFalse.assigned ++ (onTrue.assigned ++ defined) ⊆ d₂ := fun v => by
      simp only [List.mem_append, members₂, members₁]
      exact id
    refine ⟨⟨condition cond (by simp [Statement.operands]), formedTrue,
      formedFalse.mono (List.Subset.refl _) seen₁, formedRest.mono (List.Subset.refl _) seen₂⟩,
      fun v => ?_⟩
    rw [members₃, members₂, members₁, Block.assigned_branch]
    simp only [List.mem_append]
    grind

theorem checkBlock_of_wellFormed {kernel : Kernel α} {visible defined : List ValueId} {block : Block α}
    (formed : block.WellFormed kernel.limits visible defined) :
    ∃ after, kernel.checkBlock visible defined block = .ok after := by
  induction block generalizing visible defined with
  | nil => exact ⟨_, rfl⟩
  | instr i rest ih =>
    obtain ⟨operands, within, fresh, others⟩ := formed
    obtain ⟨after, checked⟩ := ih others
    exact ⟨after, Except.then_ok.mpr ⟨checkInstr_ok.mpr ⟨operands, within, fresh⟩, checked⟩⟩
  | branch cond onTrue onFalse rest ihTrue ihFalse ihRest =>
    obtain ⟨condition, formedTrue, formedFalse, formedRest⟩ := formed
    have scope : kernel.operandsInScope visible (.branch cond) = .ok () :=
      operandsInScope_ok.mpr fun v used => by
        rw [List.mem_singleton.mp used]
        exact condition
    obtain ⟨d₁, first⟩ := ihTrue formedTrue
    have seen₁ : d₁ ⊆ onTrue.assigned ++ defined := fun v => by simp [(checkBlock_ok first).2]
    obtain ⟨d₂, second⟩ := ihFalse (formedFalse.mono (List.Subset.refl _) seen₁)
    have seen₂ : d₂ ⊆ onFalse.assigned ++ (onTrue.assigned ++ defined) := fun v => by
      simp only [List.mem_append, (checkBlock_ok second).2, (checkBlock_ok first).2]
      exact id
    obtain ⟨after, others⟩ := ihRest (formedRest.mono (List.Subset.refl _) seen₂)
    refine ⟨after, ?_⟩
    simp only [checkBlock, Except.bind_ok]
    exact ⟨(), scope, d₁, first, d₂, second, others⟩

theorem check_ok {kernel : Kernel α} :
    kernel.check = .ok () ↔ kernel.body.WellFormed kernel.limits [] [] := by
  rw [check, Except.map_ok]
  constructor
  · rintro ⟨after, checked, -⟩
    exact (checkBlock_ok checked).1
  · intro formed
    obtain ⟨after, checked⟩ := checkBlock_of_wellFormed formed
    exact ⟨after, checked, rfl⟩

end Kernel

end FieldKernel
