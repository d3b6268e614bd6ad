import FieldKernel.Proofs.Execution.Fault
import FieldKernel.Proofs.Execution.Launch
import FieldKernel.Proofs.Kernel.Binding

-- A launch is refused before any statement runs, or it stops at an index, or it succeeds.
namespace FieldKernel

variable {α δ : Type} [Scalar α]

def Block.UsesGrad (block : Block α) (name : String) : Prop :=
  block.Uses .gradRead name ∨ block.Uses .gradWrite name

-- A machine holds what a statement reads, and has a register for what it defines.
structure Machine.Backs (m : Machine α) (s : Statement α) : Prop where
  assigned : ∀ v ∈ s.operands, ∃ x, m.value? v = some x
  adjoints : ∀ v ∈ s.operands, ∃ a, m.adjoint? v = some a
  room : ∀ v ∈ s.dst?, v.index < m.values.size

namespace Bound

variable {bound : Bound α δ} {table : FieldTable α} {args : List α} {order : VisitOrder} {e : KernelFault}

-- Why a launch is refused: the number of arguments, or a missing gradient, of several the first by name.
inductive Refuses (bound : Bound α δ) (args : List α) (table : FieldTable α) : KernelFault → Prop
  | argumentCount (other : args.length ≠ bound.kernel.argCount) :
    Refuses bound args table (.argumentCount bound.kernel.name bound.kernel.argCount args.length)
  | ungraded {name : String} (count : args.length = bound.kernel.argCount)
    (used : bound.kernel.body.UsesGrad name) (bare : ¬table.HasGrad name)
    (first : ∀ before < name, bound.kernel.body.UsesGrad before → table.HasGrad before) :
    Refuses bound args table (.ungraded name)

-- A launch comes to a statement with a machine.
def Meets (bound : Bound α δ) (args : List α) (order : VisitOrder) (table : FieldTable α) (m : Machine α)
    (s : Statement α) : Prop :=
  bound.launchable args table = .ok () ∧ ∃ before point after t,
    bound.kernel.domain.points order = before ++ point :: after ∧
      before.forM (bound.kernel.runPoint args) table = .ok () t ∧
      (Frame.mk bound.kernel args point).Reaches (.start t bound.kernel.counter) bound.kernel.body m s

-- A launch comes to an instruction whose element is missed.
def Stops (bound : Bound α δ) (args : List α) (order : VisitOrder) (table : FieldTable α)
    (e : KernelFault) : Prop :=
  ∃ m i place, bound.Meets args order table m (.instr i) ∧ i.place? = some place ∧ m.Misses place e

theorem mem_gradientFields [Digest δ] (binds : bound.kernel.bind table = .ok bound) {name : String} :
    name ∈ bound.access.gradientFields.names ↔ bound.kernel.body.UsesGrad name := by
  rw [NameMap.mem_names, Access.contains_gradientFields, access_of_binds binds, Access.contains_ofBlock,
    Access.contains_ofBlock, Block.UsesGrad]

theorem contains_of_uses [Digest δ] (binds : bound.kernel.bind table = .ok bound) {use : Use} {name : String}
    (used : bound.kernel.body.Uses use name) : table.contains name = true := by
  obtain ⟨-, -, resolved, -⟩ := Kernel.binds_iff.mp binds
  apply (Kernel.resolve_finds resolved).1 name
  rw [NameMap.mem_names, Access.contains_fields]
  exact ⟨use, Access.contains_ofBlock.mpr used⟩

theorem requireGrads_error_iff [Digest δ] (binds : bound.kernel.bind table = .ok bound) :
    table.requireGrads bound.access.gradientFields.names = .error e ↔
      ∃ name, bound.kernel.body.UsesGrad name ∧ ¬table.HasGrad name ∧
        (∀ before < name, bound.kernel.body.UsesGrad before → table.HasGrad before) ∧ e = .ungraded name := by
  have there : ∀ name ∈ bound.access.gradientFields.names, table.contains name = true := by
    intro name member
    rcases (mem_gradientFields binds).mp member with reads | writes
    · exact contains_of_uses binds reads
    · exact contains_of_uses binds writes
  rw [FieldTable.requireGrads_error there]
  simp only [← mem_gradientFields binds]
  constructor
  · intro shown
    obtain ⟨before, name, after, names, full, bare, fault⟩ := shown
    exact ⟨name, names ▸ List.mem_append_cons_self, bare, (NameMap.forall_before_iff _ names).mp full, fault⟩
  · intro shown
    obtain ⟨name, used, bare, first, fault⟩ := shown
    obtain ⟨before, after, names⟩ := List.append_of_mem used
    exact ⟨before, name, after, names, (NameMap.forall_before_iff _ names).mpr first, bare, fault⟩

theorem refuses_iff [Digest δ] (binds : bound.kernel.bind table = .ok bound) :
    bound.launchable args table = .error e ↔ bound.Refuses args table e := by
  unfold launchable
  split
  · next count =>
    rw [requireGrads_error_iff binds]
    constructor
    · intro shown
      obtain ⟨name, used, bare, first, rfl⟩ := shown
      exact .ungraded count used bare first
    · intro refuses
      cases refuses with
      | argumentCount other => exact absurd count other
      | ungraded _ used bare first => exact ⟨_, used, bare, first, rfl⟩
  · next other =>
    constructor
    · intro failed
      cases failed
      exact .argumentCount other
    · intro refuses
      cases refuses with
      | argumentCount => rfl
      | ungraded count => exact absurd count other

theorem ready [Digest δ] (binds : bound.kernel.bind table = .ok bound)
    (launchable : bound.launchable args table = .ok ()) {m : Machine α}
    (alike : table.SameOutside (fun _ => True) m.table) :
    ∀ i, .instr i ∈ bound.kernel.body.statements → m.Ready i := by
  obtain ⟨-, ranked, resolved, -⟩ := Kernel.binds_iff.mp binds
  obtain ⟨-, graded⟩ := launchable_ok.mp launchable
  intro i member
  have ready : (Machine.start table 0 : Machine α).Ready i := by
    refine ⟨fun place addressed => ?_, fun only place addressed => ?_⟩
    · obtain ⟨use, used⟩ := Block.uses_of_place member addressed
      obtain ⟨field, found⟩ := NameMap.contains_iff.mp (contains_of_uses binds used)
      exact ⟨field, found, (Kernel.ranked_iff resolved).mp ranked _ member place addressed field found⟩
    · apply graded
      refine NameMap.mem_names.mp ((mem_gradientFields binds).mpr ?_)
      cases i with
      | define | store => cases only
      | readGrad target p =>
        cases addressed
        exact .inl ⟨_, member, rfl⟩
      | propagate => cases addressed
      | addGrad p source =>
        cases addressed
        exact .inr ⟨_, member, rfl⟩
  exact ready.agree alike

theorem start_holds (t : FieldTable α) (registers : Nat) : (Machine.start t registers).Holds registers [] :=
  ⟨List.forall_mem_nil _, by simp [Machine.start], by simp [Machine.start]⟩

theorem stops_iff [Digest δ] (binds : bound.kernel.bind table = .ok bound)
    (launchable : bound.launchable args table = .ok ()) :
    (∃ t', bound.kernel.execute args order table = .error e t') ↔ bound.Stops args order table e := by
  have formed := Kernel.check_ok.mp (Kernel.binds_iff.mp binds).1
  obtain ⟨count, -⟩ := launchable_ok.mp launchable
  rw [Kernel.execute_eq]
  have each : ∀ {before point after t}, bound.kernel.domain.points order = before ++ point :: after →
      before.forM (bound.kernel.runPoint args) table = .ok () t → ∀ {m},
        ((Frame.mk bound.kernel args point).block bound.kernel.body (.start t bound.kernel.counter) =
            .error e m ↔
          (Frame.mk bound.kernel args point).Halts (.start t bound.kernel.counter) bound.kernel.body m e) := by
    intro before point after t points ran m
    have member : point ∈ bound.kernel.domain.points order := points ▸ List.mem_append_cons_self
    have suits : (Frame.mk bound.kernel args point).Suits bound.kernel.limits :=
      ⟨Domain.length_of_mem_points member, count⟩
    have alike : table.SameOutside (fun _ => True) t :=
      ((bound.kernel.moves_points args before).ok ran).mono (fun _ _ => trivial) fun _ _ => trivial
    exact Frame.block_error formed (start_holds t _) suits (ready binds launchable alike)
  constructor
  · intro failed
    obtain ⟨t', failed⟩ := failed
    obtain ⟨before, point, after, t, points, ran, failed⟩ := forM_error.mp failed
    obtain ⟨m, failed, -⟩ := Kernel.runPoint_error.mp failed
    obtain ⟨i, place, reaches, shown⟩ := (each points ran).mp failed
    exact ⟨m, i, place, ⟨launchable, before, point, after, t, points, ran, reaches⟩, shown⟩
  · intro stops
    obtain ⟨m, i, place, ⟨-, before, point, after, t, points, ran, reaches⟩, shown⟩ := stops
    have failed := (each points ran).mpr ⟨i, place, reaches, shown⟩
    exact ⟨m.table, forM_error.mpr ⟨before, point, after, t, points, ran,
      Kernel.runPoint_error.mpr ⟨m, failed, rfl⟩⟩⟩

theorem Stops.launchable (stops : bound.Stops args order table e) : bound.launchable args table = .ok () := by
  obtain ⟨m, i, place, meets, -⟩ := stops
  exact meets.1

theorem launch_fails_iff [Digest δ] (binds : bound.kernel.bind table = .ok bound)
    (launchable : bound.launchable args table = .ok ()) : bound.launch args order table = .error e table ↔
      ∃ t', bound.kernel.execute args order table = .error e t' := by
  constructor
  · intro failed
    rw [launch, launchable] at failed
    dsimp only at failed
    split at failed
    · cases failed
    · next t' stopped =>
      obtain ⟨rfl, -⟩ := EStateM.Result.error.inj failed
      exact ⟨t', stopped⟩
  · intro stopped
    obtain ⟨t', stopped⟩ := stopped
    have failed : ∃ after, bound.launch args order table = .error e after := by
      rw [launch, launchable]
      dsimp only
      rw [stopped]
      exact ⟨_, rfl⟩
    obtain ⟨after, failed⟩ := failed
    have kept : after = table := launch_error (access_of_binds binds) failed
    rw [failed, kept]

theorem launch_error_iff [Digest δ] (binds : bound.kernel.bind table = .ok bound)
    {after : FieldTable α} : bound.launch args order table = .error e after ↔
      after = table ∧ (bound.Refuses args table e ∨ bound.Stops args order table e) := by
  constructor
  · intro failed
    cases launch_error (access_of_binds binds) failed
    refine ⟨rfl, ?_⟩
    cases launchable : bound.launchable args table with
    | error e' =>
      rw [launch, launchable] at failed
      cases failed
      exact .inl ((refuses_iff binds).mp launchable)
    | ok _ =>
      exact .inr ((stops_iff binds launchable).mp ((launch_fails_iff binds launchable).mp failed))
  · intro shown
    obtain ⟨rfl, refuses | stops⟩ := shown
    · rw [launch, (refuses_iff binds).mpr refuses]
    · exact (launch_fails_iff binds stops.launchable).mpr ((stops_iff binds stops.launchable).mpr stops)

theorem Stops.fault {bound : Bound α δ} (stops : bound.Stops args order table e) :
    ∃ field, (∃ shown v, e = .shapeMismatch field (.nonIntegral shown v)) ∨
      (∃ i extent axis, e = .shapeMismatch field (.index (.outOfRange i extent axis))) ∨
        table.Oversized field ∧ ∃ position stored, e = .shapeMismatch field (.overrun position stored) := by
  obtain ⟨m, i, place, ⟨-, before, point, after, t, -, ran, reaches⟩, -, misses⟩ := stops
  refine ⟨place.field, ?_⟩
  cases misses with
  | nonIntegral => exact .inl ⟨_, _, rfl⟩
  | @unlocated index field _ _ found missed =>
    cases missed with
    | outOfRange => exact .inr (.inl ⟨_, _, _, rfl⟩)
    | overrun position beyond =>
      have altered := ((bound.kernel.moves_points args before).ok ran).mono (fun _ _ => trivial) fun _ _ => trivial
      obtain ⟨field', found', changed⟩ := (altered.trans reaches.altered).find_back found
      refine .inr (.inr ⟨⟨field', found', Nat.le_of_not_lt fun small => ?_⟩, _, _, rfl⟩)
      rw [← changed.shape] at small
      exact absurd (field.position_lt small position) (Nat.not_lt.mpr beyond)

end Bound

end FieldKernel
