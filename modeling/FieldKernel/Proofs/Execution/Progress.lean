import FieldKernel.Proofs.Execution.Effect

-- When a run does not stop: of what is well formed, accesses alone can fail.
namespace FieldKernel

variable {α : Type} [Scalar α]

structure Machine.Holds (limit : Nat) (visible : List ValueId) (m : Machine α) : Prop where
  assigned : ∀ v ∈ visible, ∃ x, m.value? v = some x
  values : limit ≤ m.values.size
  adjoints : m.adjoints.size = m.values.size

structure Frame.Suits (limits : Limits) (frame : Frame α) : Prop where
  rank : frame.point.length = limits.rank
  argCount : frame.args.length = limits.argCount

structure Machine.Serves (m : Machine α) (i : Instr α) : Prop where
  located : ∀ place ∈ i.place?, ∃ p, m.position? place = some p
  graded : i.isReverseOnly = true → ∀ place ∈ i.place?, Frame.HasGrad m place.field

namespace Machine.Holds

variable {limit limit' : Nat} {visible visible' : List ValueId} {m : Machine α}

omit [Scalar α] in
theorem mono (holds : m.Holds limit visible) (fewer : visible' ⊆ visible) (below : limit' ≤ limit) :
    m.Holds limit' visible' :=
  ⟨fun v member => holds.assigned v (fewer member), Nat.le_trans below holds.values, holds.adjoints⟩

omit [Scalar α] in
theorem adjoint? (holds : m.Holds limit visible) {v : ValueId} (member : v ∈ visible) :
    ∃ x, m.adjoint? v = some x := by
  obtain ⟨x, value⟩ := holds.assigned v member
  obtain ⟨room, -⟩ := Array.getElem?_eq_some_iff.mp ((Machine.value?_eq_some m v x).mp value)
  exact ⟨_, Array.getElem?_eq_getElem (holds.adjoints ▸ room)⟩

end Machine.Holds

theorem Machine.Serves.agree {m n : Machine α} {i : Instr α} (serves : m.Serves i)
    (alike : m.table.SameOutside (fun _ => True) n.table)
    (same : ∀ place ∈ i.place?, ∀ v ∈ place.index, n.value? v = m.value? v) : n.Serves i where
  located := fun place addressed => by
    rw [Machine.position?_congr alike.agreeIn (same place addressed)]
    exact serves.located place addressed
  graded := fun only place addressed => by
    obtain ⟨field, found, graded⟩ := serves.graded only place addressed
    obtain ⟨field', found', altered⟩ := alike.find found
    exact ⟨field', found', altered.hasGrad.trans graded⟩

namespace Frame

variable {frame : Frame α} {limits : Limits} {visible defined : List ValueId} {m m' : Machine α}

theorem evaluates_exists {e : Expr α} (holds : m.Holds limits.counter visible) (suits : frame.Suits limits)
    (operands : ∀ v ∈ e.operands, v ∈ visible) (within : e.Within limits)
    (located : ∀ place, e = .load place → ∃ p, m.position? place = some p) :
    ∃ x, frame.Evaluates m e x := by
  cases e with
  | const value => exact ⟨value, rfl⟩
  | index axis =>
    have inside : axis < frame.point.length := suits.rank.symm ▸ within
    exact ⟨_, frame.point[axis], List.getElem?_eq_getElem inside, rfl⟩
  | arg position =>
    have inside : position < frame.args.length := suits.argCount.symm ▸ within
    exact ⟨frame.args[position], List.getElem?_eq_getElem inside⟩
  | load place =>
    obtain ⟨p, at_⟩ := located place rfl
    obtain ⟨_, field, -, found, -⟩ := Machine.position?_eq_some.mp at_
    exact ⟨_, field, p, found, at_, rfl⟩
  | binary op lhs rhs | compare op lhs rhs =>
    obtain ⟨a, left⟩ := holds.assigned lhs (operands lhs (by simp [Expr.operands]))
    obtain ⟨b, right⟩ := holds.assigned rhs (operands rhs (by simp [Expr.operands]))
    exact ⟨_, a, b, left, right, rfl⟩
  | unary op operand =>
    obtain ⟨a, value⟩ := holds.assigned operand (operands operand (by simp [Expr.operands]))
    exact ⟨_, a, value, rfl⟩

theorem steps_exists {i : Instr α} (holds : m.Holds limits.counter visible) (suits : frame.Suits limits)
    (operands : ∀ v ∈ i.operands, v ∈ visible) (within : i.Within limits) (serves : m.Serves i) :
    ∃ m', frame.Steps m i m' := by
  cases i with
  | define dst e =>
    obtain ⟨bounds, below⟩ := within
    have located : ∀ place, e = .load place → ∃ p, m.position? place = some p := by
      rintro place rfl
      exact serves.located place rfl
    obtain ⟨x, evaluates⟩ := evaluates_exists holds suits operands bounds located
    exact ⟨_, .define evaluates (Nat.lt_of_lt_of_le below holds.values)⟩
  | store place v =>
    obtain ⟨p, at_⟩ := serves.located place rfl
    obtain ⟨x, value⟩ := holds.assigned v (operands v (by simp [Instr.operands]))
    exact ⟨_, .store at_ value⟩
  | readGrad target place =>
    obtain ⟨p, at_⟩ := serves.located place rfl
    obtain ⟨old, adjoint⟩ := holds.adjoint? (operands target (by simp [Instr.operands]))
    exact ⟨_, .readGrad at_ (serves.graded rfl place rfl) adjoint⟩
  | propagate target source scale =>
    obtain ⟨a, from_⟩ := holds.adjoint? (operands source (by simp [Instr.operands]))
    obtain ⟨old, adjoint⟩ := holds.adjoint? (operands target (by simp [Instr.operands]))
    have factor : ∃ f, frame.factor scale m = .ok f m := by
      cases scale with
      | one => exact ⟨_, rfl⟩
      | minusOne => exact ⟨_, rfl⟩
      | value v =>
        obtain ⟨x, value⟩ := holds.assigned v (operands v (by simp [Instr.operands, Scale.operands]))
        exact ⟨x, value_ok.mpr ⟨value, rfl⟩⟩
    obtain ⟨f, factor⟩ := factor
    exact ⟨_, .propagate factor from_ adjoint⟩
  | addGrad place source =>
    obtain ⟨p, at_⟩ := serves.located place rfl
    obtain ⟨a, from_⟩ := holds.adjoint? (operands source (by simp [Instr.operands]))
    exact ⟨_, .addGrad at_ (serves.graded rfl place rfl) from_⟩

theorem Steps.holds {limit : Nat} {i : Instr α} (step : frame.Steps m i m') (holds : m.Holds limit visible) :
    m'.Holds limit (i.dst?.toList ++ visible) := by
  cases step with
  | @define dst e x evaluates room =>
    refine ⟨fun v member => ?_, by simpa using holds.values, by simpa using holds.adjoints⟩
    by_cases same : v = dst
    · rw [same]
      exact ⟨x, m.setValue_self _ _ room⟩
    · rw [m.setValue_other _ _ _ same]
      exact holds.assigned v ((List.mem_cons.mp member).resolve_left same)
  | store | addGrad => exact ⟨holds.assigned, holds.values, holds.adjoints⟩
  | readGrad | propagate => exact ⟨holds.assigned, holds.values, by simpa using holds.adjoints⟩

theorem Runs.holds {limit : Nat} {block : Block α} (runs : frame.Runs m block m')
    (holds : m.Holds limit visible) : m'.Holds limit (block.definitions.assigned ++ visible) := by
  induction runs generalizing visible with
  | nil => exact holds
  | instr step _ ih =>
    refine (ih (step.holds holds)).mono (fun v member => ?_) (Nat.le_refl _)
    rw [Block.assigned_definitions_instr] at member
    simp only [List.mem_append] at member ⊢
    grind
  | branch value _ _ ihInner ihRest =>
    exact ihRest ((ihInner holds).mono (List.subset_append_right _ _) (Nat.le_refl _))

theorem instrs_run {instrs : List (Instr α)} (holds : m.Holds limits.counter visible)
    (suits : frame.Suits limits) (formed : (Block.ofInstrs instrs).WellFormed limits visible defined)
    (serves : ∀ i ∈ instrs, m.Serves i ∧ ∀ place ∈ i.place?, place.index ⊆ defined) :
    ∃ m', frame.Runs m (Block.ofInstrs instrs) m' := by
  induction instrs generalizing m visible defined with
  | nil => exact ⟨m, .nil⟩
  | cons i rest ih =>
    obtain ⟨operands, within, fresh, formedRest⟩ := formed
    obtain ⟨first, later⟩ := List.forall_mem_cons.mp serves
    obtain ⟨m₁, step⟩ := steps_exists holds suits operands within first.1
    have altered : m.table.SameOutside (fun _ => True) m₁.table :=
      (Frame.Runs.instr step .nil).altered.table.mono (fun _ _ => trivial) fun _ _ => trivial
    have servesRest : ∀ j ∈ rest, m₁.Serves j ∧ ∀ place ∈ j.place?, place.index ⊆ i.dst?.toList ++ defined := by
      intro j member
      obtain ⟨there, old⟩ := later j member
      refine ⟨there.agree altered fun place addressed v coordinate => ?_, fun place addressed =>
        List.subset_append_of_subset_right _ (old place addressed)⟩
      exact step.value?_other fun dst => fresh v dst (old place addressed coordinate)
    obtain ⟨m', runs⟩ := ih (step.holds holds) formedRest servesRest
    exact ⟨m', .instr step runs⟩

end Frame

end FieldKernel
