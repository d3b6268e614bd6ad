import FieldKernel.Proofs.Execution.Effect

-- Launches from end to end. A launch changes what its kernel writes to, and nothing at all if it fails.
namespace FieldKernel

variable {α δ : Type} [Scalar α]

omit [Scalar α] in
theorem Field.restore_altered {data grad : Prop} [Decidable grad] {field field' : Field α}
    (altered : field.Altered data grad field') :
    field'.restore ⟨field.data, if grad then field.grad? else none⟩ = field := by
  have gradient : (if grad then field.grad? else none).or field'.grad? = field.grad? := by
    split
    · cases stored : field.grad? with
      | some g => rfl
      | none =>
        have sizes := altered.gradSize
        rw [stored] at sizes
        exact Option.map_eq_none_iff.mp sizes
    · next kept => exact altered.keepsGrad kept
  obtain ⟨group, element, shape, -, -, -, -⟩ := altered
  cases field
  simp_all [restore]

omit [Scalar α] in
theorem FieldTable.find?_snapshot (table : FieldTable α) (primal grads : NameSet) (name : String) :
    (table.snapshot primal grads).find? name = if name ∈ (primal.union grads).names then
      (table.find? name).map fun field => ⟨field.data, if grads.contains name = true then field.grad? else none⟩
      else none := by
  have saved := NameMap.find?_ofList_filterMap (primal.union grads).names (fun key =>
    (table.find? key).map fun field => (⟨field.data, if grads.contains key = true then field.grad?
      else none⟩ : Snapshot α)) name
  simp only [Option.map_map, Function.comp_def] at saved
  exact saved

omit [Scalar α] in
theorem FieldTable.restore_snapshot {primal grads : NameSet} {table table' : FieldTable α}
    (altered : table.Altered (fun name => primal.contains name = true)
      (fun name => grads.contains name = true) table') :
    table'.restore (table.snapshot primal grads) = table := by
  refine NameMap.ext_find? fun name => ?_
  rw [restore, NameMap.find?_mapEntries, find?_snapshot]
  by_cases changed : name ∈ (primal.union grads).names
  · rw [if_pos changed]
    cases found : table.find? name with
    | none =>
      cases found' : table'.find? name with
      | none => rfl
      | some field' =>
        obtain ⟨field, stored, -⟩ := altered.find_back found'
        cases found.symm.trans stored
    | some field =>
      obtain ⟨field', found', here⟩ := altered.find found
      rw [found']
      exact congrArg some (Field.restore_altered here)
  · rw [if_neg changed, altered.find_eq]
    · exact congrFun Option.map_id _
    · exact fun there => changed (NameMap.mem_names.mpr (by simp [there]))
    · exact fun there => changed (NameMap.mem_names.mpr (by simp [there]))

omit [Scalar α] in
theorem FieldTable.Altered.restored {writes gradWrites : String → Prop} {table table' : FieldTable α}
    (altered : table.Altered writes gradWrites table') (primal grads : NameSet) :
    table.Altered (fun _ => True) (fun _ => True) (table'.restore (table.snapshot primal grads)) := by
  intro name
  rw [restore, NameMap.find?_mapEntries, find?_snapshot]
  have here := altered name
  cases found : table.find? name with
  | none =>
    rw [found] at here
    cases found' : table'.find? name with
    | none => exact .none
    | some field' =>
      rw [found'] at here
      cases here
  | some field =>
    obtain ⟨field', found', changed⟩ := altered.find found
    rw [found']
    refine .some ?_
    by_cases saved : name ∈ (primal.union grads).names
    · rw [if_pos saved]
      refine ⟨changed.group, changed.element, changed.shape, rfl, ?_, fun kept => absurd trivial kept,
        fun kept => absurd trivial kept⟩
      have sizes := changed.gradSize
      simp only [Option.map_some, Field.restore]
      split
      · cases stored : field.grad? with
        | none => rwa [stored] at sizes
        | some g => rfl
      · exact sizes
    · rw [if_neg saved]
      exact changed.mono (fun _ => trivial) fun _ => trivial

namespace Kernel

variable {kernel : Kernel α} {args : List α} {point : Point} {t t' : FieldTable α}

theorem runPoint_ok {u : Unit} :
    kernel.runPoint args point t = .ok u t' ↔ ∃ m,
      (Frame.mk kernel args point).Runs (.start t kernel.counter) kernel.body m ∧ t' = m.table := by
  simp only [← Frame.block_exact (u := ())]
  unfold runPoint
  cases (Frame.mk kernel args point).block kernel.body (.start t kernel.counter) with
  | error e m => simp
  | ok _ m => simp [eq_comm]

theorem runPoint_error {e : KernelFault} : kernel.runPoint args point t = .error e t' ↔
    ∃ m, (Frame.mk kernel args point).block kernel.body (.start t kernel.counter) = .error e m ∧
      t' = m.table := by
  unfold runPoint
  cases (Frame.mk kernel args point).block kernel.body (.start t kernel.counter) with
  | error e' m => simp [and_assoc, eq_comm (a := t')]
  | ok _ m => simp

theorem moves_runPoint (kernel : Kernel α) (args : List α) (point : Point) :
    Moves (FieldTable.Altered (kernel.body.Uses .write) (kernel.body.Uses .gradWrite))
      (kernel.runPoint args point) := by
  intro t
  have moves : Moves (Machine.Altered (kernel.body.Uses .write) (kernel.body.Uses .gradWrite))
      ((Frame.mk kernel args point).block kernel.body) :=
    Frame.moves_block _ (fun _ => id) fun _ => id
  have moves := moves (.start t kernel.counter)
  unfold runPoint
  cases ran : (Frame.mk kernel args point).block kernel.body (.start t kernel.counter) with
  | error e m =>
    rw [ran] at moves
    exact moves.table
  | ok _ m =>
    rw [ran] at moves
    exact moves.table

theorem moves_points (kernel : Kernel α) (args : List α) (points : List Point) :
    Moves (FieldTable.Altered (kernel.body.Uses .write) (kernel.body.Uses .gradWrite))
      (points.forM (kernel.runPoint args)) :=
  Moves.forM FieldTable.Altered.refl (fun _ _ _ => .trans) fun p _ => kernel.moves_runPoint args p

theorem execute_eq (kernel : Kernel α) (args : List α) (order : VisitOrder) :
    kernel.execute args order = (kernel.domain.points order).forM (kernel.runPoint args) :=
  kernel.domain.visit_eq order _

theorem moves_execute (kernel : Kernel α) (args : List α) (order : VisitOrder) :
    Moves (FieldTable.Altered (kernel.body.Uses .write) (kernel.body.Uses .gradWrite))
      (kernel.execute args order) := by
  rw [execute_eq]
  exact kernel.moves_points args _

end Kernel

omit [Scalar α] in
theorem FieldTable.requireGrads_ok {table : FieldTable α} {names : List String} :
    table.requireGrads names = .ok () ↔
      ∀ name ∈ names, ∃ field, table.find? name = some field ∧ field.hasGrad = true := by
  induction names with
  | nil => simp [requireGrads]
  | cons name names ih =>
    simp only [requireGrads, Except.bind_ok, field_ok, List.forall_mem_cons, ← ih]
    constructor
    · rintro ⟨field, found, rest⟩
      split at rest
      · next graded => exact ⟨⟨field, found, graded⟩, rest⟩
      · cases rest
    · rintro ⟨⟨field, found, graded⟩, rest⟩
      exact ⟨field, found, by rw [if_pos graded]; exact rest⟩

def FieldTable.HasGrad (table : FieldTable α) (name : String) : Prop :=
  ∃ field, table.find? name = some field ∧ field.hasGrad = true

omit [Scalar α] in
theorem FieldTable.requireGrads_error {table : FieldTable α} {names : List String}
    (there : ∀ name ∈ names, table.contains name = true) {e : KernelFault} :
    table.requireGrads names = .error e ↔ ∃ before name after, names = before ++ name :: after ∧
      (∀ n ∈ before, table.HasGrad n) ∧ ¬table.HasGrad name ∧ e = .ungraded name := by
  induction names with
  | nil =>
    constructor
    · intro failed
      cases failed
    · intro shown
      obtain ⟨before, name, after, names, -⟩ := shown
      cases before <;> cases names
  | cons first names ih =>
    obtain ⟨field, found⟩ := NameMap.contains_iff.mp (there first List.mem_cons_self)
    have read : table.field first = .ok field := field_ok.mpr found
    have later := ih fun name member => there name (List.mem_cons_of_mem _ member)
    simp only [requireGrads, read, bind, Except.bind]
    split
    · next graded =>
      have here : table.HasGrad first := ⟨field, found, graded⟩
      rw [later]
      constructor
      · intro shown
        obtain ⟨before, name, after, rfl, full, bare, rfl⟩ := shown
        exact ⟨first :: before, name, after, rfl, List.forall_mem_cons.mpr ⟨here, full⟩, bare, rfl⟩
      · intro shown
        obtain ⟨before, name, after, names, full, bare, rfl⟩ := shown
        cases before with
        | nil =>
          cases names
          exact absurd here bare
        | cons n before =>
          cases names
          exact ⟨before, name, after, rfl, (List.forall_mem_cons.mp full).2, bare, rfl⟩
    · next ungraded =>
      have bare : ¬table.HasGrad first := by
        intro has
        obtain ⟨field', found', graded⟩ := has
        cases found.symm.trans found'
        exact ungraded graded
      constructor
      · intro failed
        cases failed
        exact ⟨[], first, names, rfl, List.forall_mem_nil _, bare, rfl⟩
      · intro shown
        obtain ⟨before, name, after, names, full, -, rfl⟩ := shown
        cases before with
        | nil =>
          cases names
          rfl
        | cons n before =>
          cases names
          exact absurd (full first List.mem_cons_self) bare

omit [Scalar α] in
theorem Bound.launchable_ok {bound : Bound α δ} {args : List α} {table : FieldTable α} :
    bound.launchable args table = .ok () ↔ args.length = bound.kernel.argCount ∧
      ∀ name, bound.access.gradientFields.contains name = true →
        ∃ field, table.find? name = some field ∧ field.hasGrad = true := by
  unfold launchable
  split
  · next count =>
    rw [FieldTable.requireGrads_ok]
    simp only [NameMap.mem_names, count, true_and]
  · next other => simp [other]

theorem Bound.launch_ok {bound : Bound α δ} {args : List α} {order : VisitOrder} {s s' : FieldTable α}
    {u : Unit} : bound.launch args order s = .ok u s' ↔
      bound.launchable args s = .ok () ∧ bound.kernel.execute args order s = .ok () s' := by
  unfold launch
  cases bound.launchable args s with
  | error e => simp
  | ok _ =>
    dsimp only
    cases bound.kernel.execute args order s with
    | error e t => simp
    | ok _ t => simp

theorem Bound.launch_error {bound : Bound α δ} {args : List α} {order : VisitOrder}
    {s s' : FieldTable α} {e : KernelFault} (access : bound.access = .ofBlock bound.kernel.body)
    (failed : bound.launch args order s = .error e s') : s' = s := by
  have altered := bound.kernel.moves_points args (bound.kernel.domain.points order)
  rw [← Kernel.execute_eq] at altered
  unfold launch at failed
  split at failed
  · cases failed
    rfl
  · dsimp only at failed
    split at failed
    · cases failed
    · next stopped =>
      cases failed
      refine FieldTable.restore_snapshot ((altered.error stopped).mono ?_ ?_)
      · exact fun name used => by rw [access]; exact Access.contains_ofBlock.mpr used
      · exact fun name used => by rw [access]; exact Access.contains_ofBlock.mpr used

theorem Bound.launch_altered (bound : Bound α δ) (args : List α) (order : VisitOrder) :
    Moves (FieldTable.Altered (fun _ => True) fun _ => True) (bound.launch args order) := by
  intro table
  have altered := bound.kernel.moves_points args (bound.kernel.domain.points order) table
  rw [← Kernel.execute_eq] at altered
  unfold launch
  cases bound.launchable args table with
  | error e => exact .refl table
  | ok _ =>
    dsimp only
    cases ran : bound.kernel.execute args order table with
    | ok _ table' =>
      rw [ran] at altered
      exact altered.mono (fun _ _ => trivial) fun _ _ => trivial
    | error e table' =>
      rw [ran] at altered
      exact altered.restored _ _

theorem Bound.moves_launch {bound : Bound α δ} (access : bound.access = .ofBlock bound.kernel.body)
    (args : List α) (order : VisitOrder) : Moves FieldTable.Keeps (bound.launch args order) := by
  intro s
  cases ran : bound.launch args order s with
  | ok _ s' =>
    have executed := (launch_ok.mp ran).2
    rw [Kernel.execute_eq] at executed
    exact ((bound.kernel.moves_points _ _).ok executed).keeps
  | error e s' =>
    rw [launch_error access ran]
    exact .refl s

end FieldKernel
