import FieldKernel.Proofs.Execution.Launch

-- Two runs of the same code on tables that differ in data which neither branches, addresses elements nor
-- scales adjoints.
namespace FieldKernel

variable {α : Type}

-- What is computed without hidden data: values that are meant to be clean are computed from clean values and
-- from fields that are not hidden, and only these address elements and scale adjoints.
def Instr.Discreet (clean : ValueId → Prop) (hidden : String → Prop) : Instr α → Prop
  | .define dst e => clean dst → (∀ v ∈ e.operands, clean v) ∧ ∀ place, e = .load place → ¬hidden place.field
  | .store _ _ => False
  | .readGrad _ place | .addGrad place _ => ∀ v ∈ place.index, clean v
  | .propagate _ _ scale => ∀ v ∈ scale.operands, clean v

def Statement.Discreet (clean : ValueId → Prop) (hidden : String → Prop) : Statement α → Prop
  | .instr i => i.Discreet clean hidden
  | .branch cond => clean cond

def Block.Discreet (clean : ValueId → Prop) (hidden : String → Prop) (block : Block α) : Prop :=
  ∀ s ∈ block.statements, s.Discreet clean hidden

-- Machines that differ in hidden data and in values that are not clean, if at all.
structure Machine.Indistinct (clean : ValueId → Prop) (hidden : String → Prop) (m n : Machine α) : Prop where
  table : m.table.AgreeBut hidden n.table
  values : ∀ v, clean v → n.value? v = m.value? v
  adjoints : n.adjoints = m.adjoints

variable {clean : ValueId → Prop} {hidden : String → Prop}

theorem Machine.Indistinct.adjoint? {m n : Machine α} (alike : m.Indistinct clean hidden n) (v : ValueId) :
    n.adjoint? v = m.adjoint? v := by
  rw [Machine.adjoint?, alike.adjoints, Machine.adjoint?]

theorem Machine.Indistinct.setAdjoint {m n : Machine α} (alike : m.Indistinct clean hidden n)
    (v : ValueId) (x : α) : (m.setAdjoint v x).Indistinct clean hidden (n.setAdjoint v x) where
  table := alike.table
  values := alike.values
  adjoints := by rw [Machine.setAdjoint, Machine.setAdjoint, alike.adjoints]

variable [Scalar α]

theorem FieldTable.AgreeIn.gradAt {data : String → Prop} {t u : FieldTable α}
    (agree : t.AgreeIn data (fun _ => True) u) (name : String) (position : Nat) :
    u.gradAt name position = t.gradAt name position := by
  unfold FieldTable.gradAt
  cases found : t.find? name with
  | none => rw [answers_missing (agree name) found]
  | some field =>
    obtain ⟨field', found', agrees⟩ := answers_find (agree name) found
    rw [found']
    simp only [Field.gradAt, agrees.grad trivial]

namespace Frame

variable {f g : Frame α} {m n m₁ n₁ : Machine α}

theorem Steps.indistinct (frames : f.Alike g) {i : Instr α} (discreet : i.Discreet clean hidden)
    (alike : m.Indistinct clean hidden n) (left : f.Steps m i m₁) (right : g.Steps n i n₁) :
    m₁.Indistinct clean hidden n₁ := by
  have positions : ∀ place : Place, (∀ v ∈ place.index, clean v) → n.position? place = m.position? place :=
    fun place coordinates =>
      Machine.position?_congr alike.table fun v member => alike.values v (coordinates v member)
  cases left with
  | @define dst e x evaluates room =>
    cases right with
    | @define _ _ y evaluates' room' =>
      refine ⟨alike.table, fun v isClean => ?_, alike.adjoints⟩
      by_cases same : v = dst
      · subst same
        obtain ⟨operands, visible⟩ := discreet isClean
        have equal : y = x := evaluates.agree frames evaluates' alike.table
          (fun w used => alike.values w (operands w used)) visible
        rw [Machine.setValue_self _ _ _ room, Machine.setValue_self _ _ _ room', equal]
      · rw [Machine.setValue_other _ _ _ _ same, Machine.setValue_other _ _ _ _ same, alike.values v isClean]
  | store => exact discreet.elim
  | readGrad at_ graded held =>
    cases right with
    | readGrad at_' graded' held' =>
      cases ((positions _ discreet).symm.trans at_').symm.trans at_
      cases ((alike.adjoint? _).symm.trans held').symm.trans held
      rw [alike.table.gradAt]
      exact alike.setAdjoint _ _
  | @propagate target source scale x a old factor from_ held =>
    cases right with
    | @propagate _ _ _ y _ _ factor' from_' held' =>
      cases ((alike.adjoint? _).symm.trans from_').symm.trans from_
      cases ((alike.adjoint? _).symm.trans held').symm.trans held
      have equal : y = x := by
        obtain ⟨here, -⟩ := factor_ok.mp factor
        obtain ⟨there, -⟩ := factor_ok.mp factor'
        cases scale with
        | one | minusOne => exact there.trans here.symm
        | value v =>
          have same := alike.values v (discreet v (List.mem_singleton_self v))
          exact Option.some.inj (there.symm.trans (same.trans here))
      rw [equal]
      exact alike.setAdjoint _ _
  | addGrad at_ graded from_ =>
    cases right with
    | addGrad at_' graded' from_' =>
      cases ((positions _ discreet).symm.trans at_').symm.trans at_
      cases ((alike.adjoint? _).symm.trans from_').symm.trans from_
      exact ⟨alike.table.addGradAt _ _ _, alike.values, alike.adjoints⟩

-- Whole runs; the induction is on the one run, and as conditions are clean the other takes the same branches.
theorem Runs.indistinct (frames : f.Alike g) {block : Block α} (discreet : block.Discreet clean hidden)
    (left : f.Runs m block m₁) (right : g.Runs n block n₁) (alike : m.Indistinct clean hidden n) :
    m₁.Indistinct clean hidden n₁ := by
  induction left generalizing n n₁ with
  | nil =>
    cases right
    exact alike
  | instr step _ ih =>
    obtain ⟨here, later⟩ := List.forall_mem_cons.mp discreet
    cases right with
    | instr step' others' => exact ih later others' (step.indistinct frames here alike step')
  | @branch _ _ _ cond x onTrue onFalse rest value _ _ ihInner ihRest =>
    have isClean : clean cond := discreet _ List.mem_cons_self
    cases right with
    | branch value' inner' others' =>
      cases ((alike.values cond isClean).symm.trans value').symm.trans value
      have inner : (taken x onTrue onFalse).Discreet clean hidden := fun s member =>
        discreet s (taken_subset cond x onTrue onFalse rest member)
      have others : rest.Discreet clean hidden := fun s member => discreet s (Block.rest_subset member)
      exact ihRest others others' (ihInner inner inner' alike)

end Frame

namespace Kernel

variable {kernel : Kernel α} {args : List α} {t u t' u' : FieldTable α}

theorem runPoint_indistinct (discreet : kernel.body.Discreet clean hidden) {point : Point}
    (agree : t.AgreeBut hidden u)
    (left : kernel.runPoint args point t = .ok () t') (right : kernel.runPoint args point u = .ok () u') :
    t'.AgreeBut hidden u' := by
  obtain ⟨m, runs, rfl⟩ := runPoint_ok.mp left
  obtain ⟨n, runs', rfl⟩ := runPoint_ok.mp right
  have start : (Machine.start t kernel.counter).Indistinct clean hidden (.start u kernel.counter) :=
    ⟨agree, fun _ _ => rfl, rfl⟩
  exact (runs.indistinct ⟨rfl, rfl⟩ discreet runs' start).table

theorem execute_indistinct (discreet : kernel.body.Discreet clean hidden) {order : VisitOrder}
    (agree : t.AgreeBut hidden u)
    (left : kernel.execute args order t = .ok () t') (right : kernel.execute args order u = .ok () u') :
    t'.AgreeBut hidden u' := by
  rw [execute_eq] at left right
  generalize kernel.domain.points order = points at left right
  induction points generalizing t u with
  | nil =>
    cases left
    cases right
    exact agree
  | cons point rest ih =>
    obtain ⟨_, t₁, first, others⟩ := bind_ok.mp left
    obtain ⟨_, u₁, first', others'⟩ := bind_ok.mp right
    exact ih (runPoint_indistinct discreet agree first first') others others'

end Kernel

end FieldKernel
