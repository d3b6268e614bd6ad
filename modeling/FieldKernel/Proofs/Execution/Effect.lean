import FieldKernel.Proofs.Execution.Step
import FieldKernel.Proofs.Field.Agreement
import FieldKernel.Proofs.Kernel.Access
import FieldKernel.Proofs.Kernel.Scope

-- What running a block can change, also when it fails.
namespace FieldKernel

variable {α : Type} [Scalar α]

def Unchanged {σ : Type} (before after : σ) : Prop := after = before

theorem Unchanged.refl {σ : Type} (s : σ) : Unchanged s s := Eq.refl s

theorem Unchanged.trans {σ : Type} (a b c : σ) (first : Unchanged a b) (second : Unchanged b c) :
    Unchanged a c := Eq.trans second first

-- Computations that leave the state as it is, also when they fail.
abbrev Quiet {ε σ β : Type} (x : EStateM ε σ β) : Prop := Moves Unchanged x

namespace Quiet

variable {ε σ β γ : Type}

theorem pure (b : β) : Quiet (pure b : EStateM ε σ β) := fun _ => rfl

theorem throw (e : ε) : Quiet (throw e : EStateM ε σ β) := fun _ => rfl

theorem bind {x : EStateM ε σ β} {f : β → EStateM ε σ γ} (first : Quiet x) (second : ∀ b, Quiet (f b)) :
    Quiet (x >>= f) := Moves.bind Unchanged.trans first second

theorem mapM {f : β → EStateM ε σ γ} {items : List β} (each : ∀ b, Quiet (f b)) :
    Quiet (items.mapM f) :=
  Moves.mapM Unchanged.refl Unchanged.trans fun b _ => each b

theorem get_bind {f : σ → EStateM ε σ γ} (second : ∀ s, Quiet (f s)) : Quiet (get >>= f) :=
  bind (fun _ => rfl) second

theorem moves {P : σ → σ → Prop} {x : EStateM ε σ β} {f : β → EStateM ε σ γ} (first : Quiet x)
    (refl : ∀ s, P s s) (second : ∀ b, Moves P (f b)) : Moves P (x >>= f) := by
  intro s
  rw [run_bind]
  cases ran : x s with
  | error e s' =>
    have same : s' = s := first.error ran
    exact same ▸ refl s
  | ok b s' =>
    have same : s' = s := first.ok ran
    subst same
    exact second b s'

end Quiet

namespace Frame

variable (frame : Frame α)

omit [Scalar α] in
theorem quiet_value (v : ValueId) : Quiet (frame.value v) := by
  refine .get_bind fun m => ?_
  split
  · exact .pure _
  · exact .throw _
  · exact .throw _

omit [Scalar α] in
theorem quiet_adjoint (v : ValueId) : Quiet (frame.adjoint v) := by
  refine .get_bind fun m => ?_
  split
  · exact .pure _
  · exact .throw _

omit [Scalar α] in
theorem quiet_lift {β : Type} (x : Except KernelFault β) : Quiet (Exec.lift x : Exec α β) := by
  cases x
  · exact .throw _
  · exact .pure _

theorem quiet_coordinate (field : String) (v : ValueId) : Quiet (frame.coordinate field v) := by
  refine .bind (frame.quiet_value v) fun x => ?_
  split
  · exact .pure _
  · exact .throw _

theorem quiet_coordinates (place : Place) : Quiet (frame.coordinates place) :=
  .mapM fun v => frame.quiet_coordinate place.field v

theorem quiet_factor (scale : Scale) : Quiet (frame.factor scale) := by
  cases scale with
  | one => exact .pure _
  | minusOne => exact .pure _
  | value v => exact frame.quiet_value v

theorem quiet_expr (e : Expr α) : Quiet (frame.expr e) := by
  cases e with
  | const value => exact .pure _
  | index axis =>
    rw [Frame.expr]
    split
    · exact .pure _
    · exact .throw _
  | arg position =>
    rw [Frame.expr]
    split
    · exact .pure _
    · exact .throw _
  | load place =>
    exact .bind (frame.quiet_coordinates place) fun _ => .get_bind fun _ => quiet_lift _
  | binary op lhs rhs =>
    exact .bind (frame.quiet_value lhs) fun _ => .bind (frame.quiet_value rhs) fun _ => .pure _
  | unary op operand => exact .bind (frame.quiet_value operand) fun _ => .pure _
  | compare op lhs rhs =>
    exact .bind (frame.quiet_value lhs) fun _ => .bind (frame.quiet_value rhs) fun _ => .pure _

end Frame

-- A change of a machine that keeps to some fields and to the registers there are.
structure Machine.Altered (writes gradWrites : String → Prop) (m m' : Machine α) : Prop where
  table : m.table.Altered writes gradWrites m'.table
  values : m'.values.size = m.values.size
  adjoints : m'.adjoints.size = m.adjoints.size

namespace Machine.Altered

variable {writes gradWrites : String → Prop} {a b c : Machine α}

omit [Scalar α] in
theorem refl (m : Machine α) : Altered writes gradWrites m m := ⟨.refl _, rfl, rfl⟩

omit [Scalar α] in
theorem trans (first : Altered writes gradWrites a b) (second : Altered writes gradWrites b c) :
    Altered writes gradWrites a c :=
  ⟨first.table.trans second.table, second.values.trans first.values,
    second.adjoints.trans first.adjoints⟩

end Machine.Altered

abbrev FieldTable.SameOutside (written : String → Prop) (a b : FieldTable α) : Prop :=
  Altered written (fun _ => True) a b

namespace Machine

variable {m n : Machine α}

theorem coordinates_congr {vs : List ValueId} (same : ∀ v ∈ vs, n.value? v = m.value? v) :
    vs.mapM n.coordinate? = vs.mapM m.coordinate? := by
  induction vs with
  | nil => rfl
  | cons v vs ih =>
    have head : n.coordinate? v = m.coordinate? v := by
      simp only [coordinate?, same v List.mem_cons_self]
    rw [List.mapM_cons, List.mapM_cons, head, ih fun w member => same w (List.mem_cons_of_mem _ member)]

theorem position?_congr {data grad : String → Prop} (agree : m.table.AgreeIn data grad n.table) {place : Place}
    (same : ∀ v ∈ place.index, n.value? v = m.value? v) : n.position? place = m.position? place := by
  unfold position?
  rw [coordinates_congr same]
  simp only [agree.locate]

end Machine

omit [Scalar α] in
theorem Block.Uses.inside {outer inner : Block α} {use : Use} {name : String}
    (part : inner.statements ⊆ outer.statements) (uses : inner.Uses use name) : outer.Uses use name := by
  obtain ⟨i, member, used⟩ := uses
  exact ⟨i, part member, used⟩

namespace Frame

variable (frame : Frame α) {writes gradWrites : String → Prop}

theorem moves_addAdjoint (v : ValueId) (delta : α) :
    Moves (Machine.Altered writes gradWrites) (frame.addAdjoint v delta) :=
  (frame.quiet_adjoint v).moves .refl fun _ =>
    Moves.modify fun m => ⟨.refl _, rfl, by simp⟩

theorem moves_instr {i : Instr α} (stores : ∀ name, i.use? = some (.write, name) → writes name)
    (adds : ∀ name, i.use? = some (.gradWrite, name) → gradWrites name) :
    Moves (Machine.Altered writes gradWrites) (frame.instr i) := by
  cases i with
  | define dst e =>
    refine (frame.quiet_expr e).moves .refl fun x m => ?_
    rw [assign, run_get_bind]
    split
    · have changed : Machine.Altered writes gradWrites m (m.setValue dst x) :=
        ⟨.refl _, m.setValue_values_size dst x, rfl⟩
      exact changed
    · exact .refl m
  | store place v =>
    refine (frame.quiet_coordinates place).moves .refl fun _ => ?_
    refine (frame.quiet_value v).moves .refl fun x => ?_
    refine Quiet.moves (fun _ => rfl) .refl fun m => ?_
    refine (quiet_lift _).moves .refl fun position => Moves.modify fun m => ?_
    exact ⟨FieldTable.altered_setAt (stores _ rfl) _ _ _, rfl, rfl⟩
  | readGrad target place =>
    refine (frame.quiet_coordinates place).moves .refl fun _ => ?_
    refine Quiet.moves (fun _ => rfl) .refl fun m => ?_
    exact (quiet_lift _).moves .refl fun grad => frame.moves_addAdjoint target grad
  | propagate target source scale =>
    refine (frame.quiet_factor scale).moves .refl fun factor => ?_
    exact (frame.quiet_adjoint source).moves .refl fun a => frame.moves_addAdjoint target _
  | addGrad place source =>
    refine (frame.quiet_coordinates place).moves .refl fun _ => ?_
    refine (frame.quiet_adjoint source).moves .refl fun delta => ?_
    refine Quiet.moves (fun _ => rfl) .refl fun m => ?_
    refine (quiet_lift _).moves .refl fun position => Moves.modify fun m => ?_
    exact ⟨FieldTable.altered_addGradAt (adds _ rfl) _ _ _, rfl, rfl⟩

theorem moves_block {block : Block α} (stores : ∀ name, block.Uses .write name → writes name)
    (adds : ∀ name, block.Uses .gradWrite name → gradWrites name) :
    Moves (Machine.Altered writes gradWrites) (frame.block block) := by
  induction block with
  | nil => exact Moves.pure .refl _
  | instr i rest ih =>
    have tail : rest.statements ⊆ (Block.instr i rest).statements := List.subset_cons_self _ _
    refine Moves.bind (fun _ _ _ => .trans) ?_ fun _ => ih ?_ ?_
    · exact frame.moves_instr (fun name uses => stores name ⟨i, List.mem_cons_self, uses⟩)
        fun name uses => adds name ⟨i, List.mem_cons_self, uses⟩
    · exact fun name uses => stores name (uses.inside tail)
    · exact fun name uses => adds name (uses.inside tail)
  | branch cond onTrue onFalse rest ihTrue ihFalse ihRest =>
    rw [block_branch]
    refine (frame.quiet_value cond).moves .refl fun x => Moves.bind (fun _ _ _ => .trans) ?_ fun _ => ?_
    · unfold taken
      split
      · exact ihFalse (fun name uses => stores name (uses.inside Block.onFalse_subset))
          fun name uses => adds name (uses.inside Block.onFalse_subset)
      · exact ihTrue (fun name uses => stores name (uses.inside Block.onTrue_subset))
          fun name uses => adds name (uses.inside Block.onTrue_subset)
    · exact ihRest (fun name uses => stores name (uses.inside Block.rest_subset))
        fun name uses => adds name (uses.inside Block.rest_subset)

theorem Runs.altered {frame : Frame α} {m m' : Machine α} {block : Block α} (runs : frame.Runs m block m') :
    Machine.Altered (block.Uses .write) (block.Uses .gradWrite) m m' := by
  have ran : frame.block block m = .ok () m' := block_exact.mpr runs
  exact (frame.moves_block (fun _ => id) fun _ => id).ok ran

theorem Steps.value?_other {frame : Frame α} {m m' : Machine α} {i : Instr α} (step : frame.Steps m i m')
    {v : ValueId} (other : v ∉ i.dst?) : m'.value? v = m.value? v := by
  cases step with
  | define evaluates room =>
    exact m.setValue_other _ _ _ fun same => other (same ▸ rfl)
  | store | readGrad | propagate | addGrad => rfl

theorem Runs.value?_other {frame : Frame α} {m m' : Machine α} {block : Block α}
    (runs : frame.Runs m block m') {v : ValueId} (other : v ∉ block.assigned) :
    m'.value? v = m.value? v := by
  induction runs with
  | nil => rfl
  | instr step _ ih =>
    rw [Block.assigned_instr, List.mem_append, not_or] at other
    rw [ih other.2, step.value?_other fun here => other.1 (Option.mem_toList.mpr here)]
  | branch value _ _ ihInner ihRest =>
    rw [Block.assigned_branch, List.mem_append, List.mem_append, not_or, not_or] at other
    rw [ihRest other.2, ihInner]
    unfold taken
    split
    · exact other.1.2
    · exact other.1.1

theorem taken_subset (cond : ValueId) (x : α) (onTrue onFalse rest : Block α) :
    (taken x onTrue onFalse).statements ⊆ (Block.branch cond onTrue onFalse rest).statements := by
  unfold taken
  split
  · exact Block.onFalse_subset
  · exact Block.onTrue_subset

theorem taken_untouched {limits : Limits} {visible defined : List ValueId} {onTrue onFalse : Block α}
    (inTrue : onTrue.WellFormed limits visible defined)
    (inFalse : onFalse.WellFormed limits visible (onTrue.assigned ++ defined)) (seen : visible ⊆ defined)
    (x : α) : ∀ v ∈ visible, v ∉ (taken x onTrue onFalse).assigned := by
  intro v old assigned
  unfold taken at assigned
  split at assigned
  · exact inFalse.assigned_fresh assigned (List.mem_append_right _ (seen old))
  · exact inTrue.assigned_fresh assigned (seen old)

theorem Steps.adjoint?_other {frame : Frame α} {m m' : Machine α} {i : Instr α} (step : frame.Steps m i m')
    {v : ValueId} (other : v ∉ i.operands) : m'.adjoint? v = m.adjoint? v := by
  cases step with
  | define | store | addGrad => rfl
  | readGrad | propagate =>
    refine m.setAdjoint_other _ _ _ fun same => other ?_
    rw [same]
    simp [Instr.operands]

theorem Runs.adjoint?_other {frame : Frame α} {m m' : Machine α} {block : Block α}
    (runs : frame.Runs m block m') {v : ValueId} (other : ∀ s ∈ block.statements, v ∉ s.operands) :
    m'.adjoint? v = m.adjoint? v := by
  induction runs with
  | nil => rfl
  | instr step _ ih =>
    rw [ih fun s member => other s (List.mem_cons_of_mem _ member),
      step.adjoint?_other (other _ List.mem_cons_self)]
  | @branch _ _ _ cond x onTrue onFalse rest _ _ _ ihInner ihRest =>
    rw [ihRest fun s member => other s (Block.rest_subset member),
      ihInner fun s member => other s (taken_subset cond x onTrue onFalse rest member)]

theorem Evaluates.agree {data grad : String → Prop} {f g : Frame α} {m n : Machine α} {e : Expr α} {x y : α}
    (frames : f.Alike g) (left : f.Evaluates m e x) (right : g.Evaluates n e y)
    (agree : m.table.AgreeIn data grad n.table) (same : ∀ v ∈ e.operands, n.value? v = m.value? v)
    (counts : ∀ place, e = .load place → data place.field) : y = x := by
  obtain ⟨args, point⟩ := frames
  cases e with
  | const value => exact right.trans left.symm
  | index axis =>
    obtain ⟨i, there, rfl⟩ := left
    obtain ⟨j, here, rfl⟩ := right
    rw [point, there] at here
    cases here
    rfl
  | arg position =>
    simp only [Evaluates, args] at left right
    exact Option.some.inj (right.symm.trans left)
  | load place =>
    obtain ⟨field, p, found, at_, rfl⟩ := left
    obtain ⟨field', p', found', at_', rfl⟩ := right
    rw [Machine.position?_congr agree same, at_] at at_'
    cases at_'
    obtain ⟨other, stored, agrees⟩ := answers_find (agree place.field) found
    cases found'.symm.trans stored
    rw [agrees.data (counts place rfl)]
  | binary op lhs rhs | compare op lhs rhs =>
    obtain ⟨a, b, first, second, rfl⟩ := left
    obtain ⟨a', b', first', second', rfl⟩ := right
    rw [same lhs (by simp [Expr.operands]), first] at first'
    rw [same rhs (by simp [Expr.operands]), second] at second'
    cases first'
    cases second'
    rfl
  | unary op operand =>
    obtain ⟨a, first, rfl⟩ := left
    obtain ⟨a', first', rfl⟩ := right
    rw [same operand (by simp [Expr.operands]), first] at first'
    cases first'
    rfl

end Frame

end FieldKernel
