import FieldKernel.Proofs.Execution.Launch

-- What a kernel does depends on the buffers that its access sets name, and on nothing else in the table.
namespace FieldKernel

variable {α : Type}

def Use.Counts (data grad : String → Prop) : Use → String → Prop
  | .read, name | .write, name => data name
  | .gradRead, name | .gradWrite, name => grad name

structure Machine.AgreeIn (data grad : String → Prop) (m n : Machine α) : Prop where
  table : m.table.AgreeIn data grad n.table
  values : n.values = m.values
  adjoints : n.adjoints = m.adjoints

variable {data grad : String → Prop}

theorem Exec.respects_change {f : FieldTable α → FieldTable α}
    (step : ∀ t u, t.AgreeIn data grad u → (f t).AgreeIn data grad (f u)) :
    Respects (Machine.AgreeIn data grad) (Exec.change f) :=
  Respects.modify fun _ _ agree => ⟨step _ _ agree.table, agree.values, agree.adjoints⟩

theorem Exec.respects_lift {β : Type} (x : Except KernelFault β) :
    Respects (Machine.AgreeIn data grad) (Exec.lift x : Exec α β) := by
  cases x with
  | error fault => exact .throw fault
  | ok b => exact .pure b

namespace Frame

variable [Scalar α] (frame : Frame α)

omit [Scalar α] in
theorem respects_value (v : ValueId) : Respects (Machine.AgreeIn data grad) (frame.value v) := by
  refine .get_bind (fun m n agree => by rw [agree.values]) fun m => ?_
  split
  · exact .pure _
  · exact .throw _
  · exact .throw _

omit [Scalar α] in
theorem respects_assign (v : ValueId) (x : α) : Respects (Machine.AgreeIn data grad) (frame.assign v x) := by
  refine .get_bind (fun m n agree => by rw [agree.values]) fun m => ?_
  split
  · refine .modify fun m n agree => ⟨agree.table, ?_, agree.adjoints⟩
    simp only [agree.values]
  · exact .throw _

omit [Scalar α] in
theorem respects_adjoint (v : ValueId) : Respects (Machine.AgreeIn data grad) (frame.adjoint v) := by
  refine .get_bind (fun m n agree => by rw [agree.adjoints]) fun m => ?_
  split
  · exact .pure _
  · exact .throw _

theorem respects_addAdjoint (v : ValueId) (delta : α) :
    Respects (Machine.AgreeIn data grad) (frame.addAdjoint v delta) := by
  refine .bind (frame.respects_adjoint v) fun old => .modify fun m n agree => ?_
  refine ⟨agree.table, agree.values, ?_⟩
  simp only [agree.adjoints]

theorem respects_coordinates (place : Place) :
    Respects (Machine.AgreeIn data grad) (frame.coordinates place) := by
  refine .mapM fun v _ => .bind (frame.respects_value v) fun x => ?_
  split
  · exact .pure _
  · exact .throw _

theorem respects_factor (scale : Scale) : Respects (Machine.AgreeIn data grad) (frame.factor scale) := by
  cases scale with
  | one | minusOne => exact .pure _
  | value v => exact frame.respects_value v

theorem respects_expr {e : Expr α} (loads : ∀ place, e = .load place → data place.field) :
    Respects (Machine.AgreeIn data grad) (frame.expr e) := by
  cases e with
  | const value => exact .pure _
  | index axis =>
    rw [Frame.expr]
    split
    · exact .pure _
    · exact .throw _
  | arg position =>
    rw [Frame.expr]
    split
    · exact .pure _
    · exact .throw _
  | load place =>
    refine .bind (frame.respects_coordinates place) fun index => ?_
    refine .get_bind (fun m n agree => ?_) fun m => Exec.respects_lift _
    rw [agree.table.read (loads place rfl)]
  | binary op lhs rhs | compare op lhs rhs =>
    exact .bind (frame.respects_value lhs) fun _ => .bind (frame.respects_value rhs) fun _ => .pure _
  | unary op operand => exact .bind (frame.respects_value operand) fun _ => .pure _

theorem respects_instr {i : Instr α}
    (counts : ∀ use name, i.use? = some (use, name) → use.Counts data grad name) :
    Respects (Machine.AgreeIn data grad) (frame.instr i) := by
  cases i with
  | define dst e =>
    have loads : ∀ place, e = .load place → data place.field := fun place load =>
      counts .read place.field (by rw [load]; rfl)
    exact .bind (frame.respects_expr loads) fun x => frame.respects_assign dst x
  | store place v =>
    refine .bind (frame.respects_coordinates place) fun index => ?_
    refine .bind (frame.respects_value v) fun value => ?_
    refine .get_bind (fun m n agree => ?_) fun m => .bind (Exec.respects_lift _) fun position => ?_
    · rw [agree.table.locate]
    · exact Exec.respects_change fun t u agree => agree.setAt place.field position value
  | readGrad target place =>
    refine .bind (frame.respects_coordinates place) fun index => ?_
    refine .get_bind (fun m n agree => ?_) fun m => .bind (Exec.respects_lift _) fun delta => ?_
    · rw [agree.table.readGrad (counts .gradRead place.field rfl)]
    · exact frame.respects_addAdjoint target delta
  | propagate target source scale =>
    refine .bind (frame.respects_factor scale) fun factor => ?_
    exact .bind (frame.respects_adjoint source) fun _ => frame.respects_addAdjoint target _
  | addGrad place source =>
    refine .bind (frame.respects_coordinates place) fun index => ?_
    refine .bind (frame.respects_adjoint source) fun delta => ?_
    refine .get_bind (fun m n agree => ?_) fun m => .bind (Exec.respects_lift _) fun position => ?_
    · rw [agree.table.gradLocate (counts .gradWrite place.field rfl)]
    · exact Exec.respects_change fun t u agree => agree.addGradAt place.field position delta

-- A whole block; the condition of a branch is read off a register, so both runs take the same branch.
theorem respects_block {block : Block α}
    (counts : ∀ use name, block.Uses use name → use.Counts data grad name) :
    Respects (Machine.AgreeIn data grad) (frame.block block) := by
  induction block with
  | nil => exact .pure _
  | instr i rest ih =>
    refine .bind (frame.respects_instr fun use name used => ?_) fun _ => ih fun use name used => ?_
    · exact counts use name ⟨i, List.mem_cons_self, used⟩
    · exact counts use name (used.inside (List.subset_cons_self _ _))
  | branch cond onTrue onFalse rest ihTrue ihFalse ihRest =>
    have inside : ∀ inner : Block α, inner.statements ⊆ (Block.branch cond onTrue onFalse rest).statements →
        ∀ use name, inner.Uses use name → use.Counts data grad name :=
      fun inner part use name used => counts use name (used.inside part)
    rw [block_branch]
    refine .bind (frame.respects_value cond) fun x => .bind ?_ fun _ => ?_
    · unfold taken
      split
      · exact ihFalse (inside _ Block.onFalse_subset)
      · exact ihTrue (inside _ Block.onTrue_subset)
    · exact ihRest (inside _ Block.rest_subset)

end Frame

namespace Kernel

variable [Scalar α] {kernel : Kernel α}

theorem respects_runPoint (counts : ∀ use name, kernel.body.Uses use name → use.Counts data grad name)
    (args : List α) (point : Point) :
    Respects (FieldTable.AgreeIn data grad) (kernel.runPoint args point) := by
  intro t u agree
  have start : (Machine.start t kernel.counter).AgreeIn data grad (.start u kernel.counter) :=
    ⟨agree, rfl, rfl⟩
  have ran := (Frame.mk kernel args point).respects_block counts _ _ start
  unfold runPoint
  revert ran
  generalize (Frame.mk kernel args point).block kernel.body (.start t kernel.counter) = x,
    (Frame.mk kernel args point).block kernel.body (.start u kernel.counter) = y
  intro ran
  cases ran with
  | ok states related => exact .ok states.table related
  | error e states => exact .error e states.table

theorem respects_execute (counts : ∀ use name, kernel.body.Uses use name → use.Counts data grad name)
    (args : List α) (order : VisitOrder) :
    Respects (FieldTable.AgreeIn data grad) (kernel.execute args order) := by
  rw [execute_eq]
  exact .forM fun point _ => respects_runPoint counts args point

end Kernel

namespace Access

def InData (access : Access) (name : String) : Prop :=
  access.reads.contains name = true ∨ access.writes.contains name = true

def InGrads (access : Access) (name : String) : Prop :=
  access.gradReads.contains name = true ∨ access.gradWrites.contains name = true

theorem counts_ofBlock {block : Block α} {use : Use} {name : String} (used : block.Uses use name) :
    use.Counts (ofBlock block).InData (ofBlock block).InGrads name := by
  have held : ((ofBlock block).of use).contains name = true := contains_ofBlock.mpr used
  cases use with
  | read | gradRead => exact .inl held
  | write | gradWrite => exact .inr held

end Access

-- On tables that agree in what its access sets name a kernel comes to the same, on success and on failure,
-- and leaves tables that agree so; and nothing else than what the sets say it writes is changed.
theorem Kernel.execute_footprint [Scalar α] (kernel : Kernel α) (args : List α) (order : VisitOrder) :
    let access := Access.ofBlock kernel.body
    Respects (FieldTable.AgreeIn access.InData access.InGrads) (kernel.execute args order) ∧
      Moves (FieldTable.Altered (access.writes.contains · = true) (access.gradWrites.contains · = true))
        (kernel.execute args order) := by
  intro access
  constructor
  · exact respects_execute (fun _ _ => Access.counts_ofBlock) args order
  · have held : ∀ use name, kernel.body.Uses use name → (access.of use).contains name = true :=
      fun _ _ => Access.contains_ofBlock.mpr
    exact fun t => (kernel.moves_execute args order t).mono (held .write) (held .gradWrite)

end FieldKernel
