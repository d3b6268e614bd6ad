import FieldKernel.Proofs.Execution.Progress

-- Where a run stops, and at what: at an instruction that misses its element.
namespace FieldKernel

variable {α : Type} [Scalar α]

structure Shape.Misses (shape : Shape) (index : List Int) (i : Int) (extent axis : Nat) : Prop where
  coordinate : index[axis]? = some i
  bound : shape[axis]? = some extent
  outside : i < 0 ∨ (extent : Int) ≤ i
  inside : ∀ before < axis, ∀ j ∈ index[before]?, ∀ n ∈ shape[before]?, 0 ≤ j ∧ j < (n : Int)

namespace Shape

theorem misses_cons {shape : Shape} {index : List Int} {n : Nat} {j i : Int} {extent k : Nat} :
    Misses (n :: shape) (j :: index) i extent k ↔
      (k = 0 ∧ i = j ∧ extent = n ∧ (j < 0 ∨ (n : Int) ≤ j)) ∨
        ∃ l, k = l + 1 ∧ ¬(j < 0 ∨ (n : Int) ≤ j) ∧ Misses shape index i extent l := by
  constructor
  · intro misses
    cases k with
    | zero =>
      have coordinate : j = i := Option.some.inj misses.coordinate
      have bound : n = extent := Option.some.inj misses.bound
      exact .inl ⟨rfl, coordinate.symm, bound.symm, coordinate ▸ bound ▸ misses.outside⟩
    | succ l =>
      have first := misses.inside 0 (Nat.succ_pos l) j rfl n rfl
      refine .inr ⟨l, rfl, by omega, misses.coordinate, misses.bound, misses.outside, ?_⟩
      intro before earlier
      exact misses.inside (before + 1) (Nat.succ_lt_succ earlier)
  · intro shown
    rcases shown with ⟨rfl, rfl, rfl, outside⟩ | ⟨l, rfl, here, misses⟩
    · exact ⟨rfl, rfl, outside, fun before earlier => absurd earlier (Nat.not_lt_zero before)⟩
    · refine ⟨misses.coordinate, misses.bound, misses.outside, ?_⟩
      intro before earlier
      cases before with
      | zero =>
        intro j' same n' same'
        have first : j = j' := Option.some.inj same
        have second : n = n' := Option.some.inj same'
        omega
      | succ before => exact misses.inside before (Nat.lt_of_succ_lt_succ earlier)

theorem offsetFrom_error {shape : Shape} {index : List Int} {offset axis : Nat} {fault : IndexFault} :
    shape.offsetFrom offset axis index = .error fault ↔
      ∃ i extent k, fault = .outOfRange i extent (axis + k) ∧ shape.Misses index i extent k := by
  induction shape generalizing index offset axis with
  | nil =>
    constructor
    · intro stopped
      cases stopped
    · intro shown
      obtain ⟨i, extent, k, -, misses⟩ := shown
      cases misses.bound
  | cons n shape ih =>
    cases index with
    | nil =>
      constructor
      · intro stopped
        cases stopped
      · intro shown
        obtain ⟨i, extent, k, -, misses⟩ := shown
        cases misses.coordinate
    | cons j index =>
      rw [offsetFrom]
      split
      · next outside =>
        constructor
        · intro stopped
          cases stopped
          exact ⟨j, n, 0, rfl, misses_cons.mpr (.inl ⟨rfl, rfl, rfl, outside⟩)⟩
        · intro shown
          obtain ⟨i, extent, k, rfl, misses⟩ := shown
          rcases misses_cons.mp misses with ⟨rfl, rfl, rfl, -⟩ | ⟨l, -, inside, -⟩
          · rfl
          · exact absurd outside inside
      · next inside =>
        rw [ih]
        constructor
        · intro shown
          obtain ⟨i, extent, k, rfl, misses⟩ := shown
          exact ⟨i, extent, k + 1, by rw [Nat.add_right_comm, Nat.add_assoc],
            misses_cons.mpr (.inr ⟨k, rfl, inside, misses⟩)⟩
        · intro shown
          obtain ⟨i, extent, k, rfl, misses⟩ := shown
          rcases misses_cons.mp misses with ⟨-, -, -, outside⟩ | ⟨l, rfl, -, misses⟩
          · exact absurd outside inside
          · exact ⟨i, extent, l, by rw [Nat.add_right_comm, Nat.add_assoc], misses⟩

theorem offset_error {shape : Shape} {index : List Int} {fault : IndexFault}
    (rank : index.length = shape.length) : shape.offset index = .error fault ↔
      ∃ i extent axis, fault = .outOfRange i extent axis ∧ shape.Misses index i extent axis := by
  rw [offset, if_pos rank, offsetFrom_error]
  simp only [Nat.zero_add]

end Shape

-- Why a field has nothing in its buffers for an index of its rank.
inductive Field.Misses (field : Field α) (index : List Int) : FieldFault → Prop
  | outOfRange {i : Int} {extent axis : Nat} (outside : field.shape.Misses index i extent axis) :
    Misses field index (.index (.outOfRange i extent axis))
  | overrun {position : Nat} (counted : field.position index = .ok position)
    (beyond : field.shape.stored ≤ position) : Misses field index (.overrun position field.shape.stored)

omit [Scalar α] in
theorem Field.position_error {field : Field α} {index : List Int} {fault : FieldFault} :
    field.position index = .error fault ↔ ∃ missed, fault = .index missed ∧ field.shape.offset index = .error missed := by
  rw [position, Field.offset]
  cases field.shape.offset index with
  | ok => simp
  | error missed => simp [eq_comm]

omit [Scalar α] in
theorem Field.locate_error {field : Field α} {index : List Int} {fault : FieldFault}
    (rank : index.length = field.shape.length) : field.locate index = .error fault ↔ field.Misses index fault := by
  constructor
  · intro failed
    cases counted : field.position index with
    | error fault' =>
      rw [locate, counted] at failed
      cases failed
      obtain ⟨missed, rfl, at_⟩ := position_error.mp counted
      obtain ⟨i, extent, axis, rfl, outside⟩ := (Shape.offset_error rank).mp at_
      exact .outOfRange outside
    | ok p =>
      rw [locate, counted] at failed
      by_cases within : p < field.shape.stored
      · cases failed.symm.trans (if_pos within)
      · cases failed.symm.trans (if_neg within)
        exact .overrun counted (Nat.le_of_not_lt within)
  · intro misses
    cases misses with
    | outOfRange outside =>
      have missed := (Shape.offset_error rank).mpr ⟨_, _, _, rfl, outside⟩
      rw [locate, position_error.mpr ⟨_, rfl, missed⟩]
      rfl
    | overrun counted beyond =>
      rw [locate, counted]
      exact if_neg (Nat.not_lt.mpr beyond)

theorem Machine.length_coordinates {m : Machine α} {vs : List ValueId} {index : List Int}
    (coordinates : vs.mapM m.coordinate? = some index) : index.length = vs.length := by
  induction vs generalizing index with
  | nil =>
    cases coordinates
    rfl
  | cons v vs ih =>
    rw [List.mapM_cons, Option.bind_eq_bind, Option.bind_eq_some_iff] at coordinates
    obtain ⟨i, -, coordinates⟩ := coordinates
    obtain ⟨others, held, same⟩ := Option.bind_eq_some_iff.mp coordinates
    cases same
    exact congrArg (· + 1) (ih held)

theorem FieldTable.access_error {table : FieldTable α} {name : String} {field : Field α} {index : List Int}
    {fault : FieldFault} (found : table.find? name = some field)
    (missed : field.locate index = .error fault) :
    table.read name index = .error (fault.error name) ∧
      table.locate name index = .error (fault.error name) ∧
      (field.hasGrad = true → table.readGrad name index = .error (fault.error name) ∧
        table.gradLocate name index = .error (fault.error name)) := by
  have there : table.field name = .ok field := FieldTable.field_ok.mpr found
  refine ⟨?_, ?_, fun graded => ?_⟩
  · rw [read, there]
    simp only [bind, Except.bind, Field.read, missed]
    rfl
  · rw [locate, there]
    simp only [bind, Except.bind, missed]
    rfl
  · obtain ⟨grad, stored⟩ := Option.isSome_iff_exists.mp graded
    have kept : field.grad = .ok grad := Field.grad_ok.mpr stored
    constructor
    · rw [readGrad, there]
      simp only [bind, Except.bind, Field.readGrad, kept, missed]
      rfl
    · rw [gradLocate, there]
      simp only [bind, Except.bind, Field.gradLocate, kept, missed]
      rfl

inductive Machine.Misses (m : Machine α) (place : Place) : KernelFault → Prop
  | nonIntegral {before after : List ValueId} {v : ValueId} {x : α} {index : List Int}
    (coordinate : place.index = before ++ v :: after) (value : m.value? v = some x)
    (fraction : Scalar.integer? x = none) (integral : before.mapM m.coordinate? = some index) :
    Misses m place (.shapeMismatch place.field (.nonIntegral (Scalar.message x) v))
  | unlocated {index : List Int} {field : Field α} {fault : FieldFault}
    (coordinates : place.index.mapM m.coordinate? = some index)
    (found : m.table.find? place.field = some field) (missed : field.Misses index fault) :
    Misses m place (fault.error place.field)

structure Machine.Ready (m : Machine α) (i : Instr α) : Prop where
  found : ∀ place ∈ i.place?, ∃ field, m.table.find? place.field = some field ∧
    field.shape.length = place.index.length
  graded : i.isReverseOnly = true → ∀ place ∈ i.place?, Frame.HasGrad m place.field

omit [Scalar α] in
theorem Machine.Ready.agree {m n : Machine α} {i : Instr α} (ready : m.Ready i)
    (alike : m.table.SameOutside (fun _ => True) n.table) : n.Ready i where
  found := fun place addressed => by
    obtain ⟨field, found, rank⟩ := ready.found place addressed
    obtain ⟨field', found', altered⟩ := alike.find found
    exact ⟨field', found', altered.shape ▸ rank⟩
  graded := fun only place addressed => by
    obtain ⟨field, found, graded⟩ := ready.graded only place addressed
    obtain ⟨field', found', altered⟩ := alike.find found
    exact ⟨field', found', altered.hasGrad.trans graded⟩

omit [Scalar α] in
theorem Exec.lift_error {β : Type} {x : Except KernelFault β} {e : KernelFault} {m m' : Machine α} :
    Exec.lift x m = .error e m' ↔ x = .error e ∧ m' = m := by
  cases x <;> simp [Exec.lift, eq_comm]

namespace Frame

variable {frame : Frame α} {limits : Limits} {visible : List ValueId} {m m' : Machine α} {e : KernelFault}

theorem coordinate_fraction {field : String} {v : ValueId} {x : α} (value : m.value? v = some x)
    (fraction : Scalar.integer? x = none) : frame.coordinate field v m =
      .error (.shapeMismatch field (.nonIntegral (Scalar.message x) v)) m := by
  have read : frame.value v m = .ok x m := value_ok.mpr ⟨value, rfl⟩
  rw [coordinate, bind_after read, fraction]
  rfl

theorem coordinates_fraction {field : String} {before after : List ValueId} {v : ValueId} {x : α}
    {index : List Int} (integral : before.mapM m.coordinate? = some index) (value : m.value? v = some x)
    (fraction : Scalar.integer? x = none) : (before ++ v :: after).mapM (frame.coordinate field) m =
      .error (.shapeMismatch field (.nonIntegral (Scalar.message x) v)) m := by
  induction before generalizing index with
  | nil =>
    rw [List.nil_append, List.mapM_cons, run_bind, coordinate_fraction value fraction]
  | cons w before ih =>
    rw [List.mapM_cons, Option.bind_eq_bind, Option.bind_eq_some_iff] at integral
    obtain ⟨i, first, integral⟩ := integral
    obtain ⟨others, integral, -⟩ := Option.bind_eq_some_iff.mp integral
    have here : frame.coordinate field w m = .ok i m := coordinate_ok.mpr ⟨first, rfl⟩
    rw [List.cons_append, List.mapM_cons, bind_after here, run_bind, ih integral]

theorem instr_unread {i : Instr α} {place : Place} (addressed : i.place? = some place)
    (stopped : frame.coordinates place m = .error e m) : frame.instr i m = .error e m := by
  cases i with
  | define dst expr =>
    cases expr with
    | load =>
      cases addressed
      exact bind_error.mpr (.inl (bind_error.mpr (.inl stopped)))
    | const | index | arg | binary | unary | compare => cases addressed
  | store | readGrad | addGrad =>
    cases addressed
    exact bind_error.mpr (.inl stopped)
  | propagate => cases addressed

theorem instr_beyond {i : Instr α} {place : Place} {index : List Int} {field : Field α} {fault : FieldFault}
    (holds : m.Holds limits.counter visible) (operands : ∀ v ∈ i.operands, v ∈ visible)
    (addressed : i.place? = some place) (read : frame.coordinates place m = .ok index m)
    (found : m.table.find? place.field = some field) (graded : i.isReverseOnly = true → field.hasGrad = true)
    (missed : field.locate index = .error fault) : frame.instr i m = .error (fault.error place.field) m := by
  obtain ⟨load, store, gradients⟩ := FieldTable.access_error found missed
  cases i with
  | define dst expr =>
    cases expr with
    | load =>
      cases addressed
      refine bind_error.mpr (.inl ?_)
      rw [expr, bind_after read, run_get_bind, Exec.lift_error]
      exact ⟨load, rfl⟩
    | const | index | arg | binary | unary | compare => cases addressed
  | store p v =>
    cases addressed
    obtain ⟨x, value⟩ := holds.assigned v (operands v (by simp [Instr.operands]))
    have held : frame.value v m = .ok x m := value_ok.mpr ⟨value, rfl⟩
    rw [instr, bind_after read, bind_after held, run_get_bind]
    exact bind_error.mpr (.inl (Exec.lift_error.mpr ⟨store, rfl⟩))
  | readGrad target p =>
    cases addressed
    rw [instr, bind_after read, run_get_bind]
    exact bind_error.mpr (.inl (Exec.lift_error.mpr ⟨(gradients (graded rfl)).1, rfl⟩))
  | propagate => cases addressed
  | addGrad p source =>
    cases addressed
    obtain ⟨a, from_⟩ := holds.adjoint? (operands source (by simp [Instr.operands]))
    have held : frame.adjoint source m = .ok a m := adjoint_ok.mpr ⟨from_, rfl⟩
    rw [instr, bind_after read, bind_after held, run_get_bind]
    exact bind_error.mpr (.inl (Exec.lift_error.mpr ⟨(gradients (graded rfl)).2, rfl⟩))

theorem instr_misses {i : Instr α} {place : Place} (holds : m.Holds limits.counter visible)
    (operands : ∀ v ∈ i.operands, v ∈ visible) (ready : m.Ready i) (addressed : i.place? = some place)
    (misses : m.Misses place e) : frame.instr i m = .error e m := by
  cases misses with
  | nonIntegral coordinate value fraction integral =>
    apply instr_unread addressed
    rw [coordinates, coordinate]
    exact coordinates_fraction integral value fraction
  | @unlocated index field fault coordinates found missed =>
    have read : frame.coordinates place m = .ok index m := coordinates_ok.mpr ⟨coordinates, rfl⟩
    have missed : field.locate index = .error fault := by
      obtain ⟨field', found', rank⟩ := ready.found place addressed
      cases found.symm.trans found'
      refine (Field.locate_error ?_).mpr missed
      rw [rank]
      exact Machine.length_coordinates coordinates
    refine instr_beyond holds operands addressed read found (fun only => ?_) missed
    obtain ⟨field', found', graded⟩ := ready.graded only place addressed
    cases found.symm.trans found'
    exact graded

end Frame

theorem Machine.coordinates_or {m : Machine α} {vs : List ValueId}
    (assigned : ∀ v ∈ vs, ∃ x, m.value? v = some x) : (∃ index, vs.mapM m.coordinate? = some index) ∨
      ∃ before v after x index, vs = before ++ v :: after ∧ m.value? v = some x ∧
        Scalar.integer? x = none ∧ before.mapM m.coordinate? = some index := by
  induction vs with
  | nil => exact .inl ⟨[], rfl⟩
  | cons v vs ih =>
    obtain ⟨x, value⟩ := assigned v List.mem_cons_self
    cases whole : Scalar.integer? x with
    | none => exact .inr ⟨[], v, vs, x, [], rfl, value, whole, rfl⟩
    | some i =>
      have first : m.coordinate? v = some (Frame.clampWord i) := by
        rw [coordinate?, value, Option.bind_some, whole, Option.map_some]
      have extend : ∀ {ws index}, ws.mapM m.coordinate? = some index →
          (v :: ws).mapM m.coordinate? = some (Frame.clampWord i :: index) := by
        intro ws index held
        rw [List.mapM_cons, first, held]
        rfl
      rcases ih fun w member => assigned w (List.mem_cons_of_mem _ member) with
        ⟨index, held⟩ | ⟨before, w, after, y, index, same, value, fraction, held⟩
      · exact .inl ⟨_, extend held⟩
      · exact .inr ⟨v :: before, w, after, y, _, congrArg (v :: ·) same, value, fraction, extend held⟩

theorem Machine.misses_exists {m : Machine α} {place : Place}
    (assigned : ∀ v ∈ place.index, ∃ x, m.value? v = some x) {field : Field α}
    (found : m.table.find? place.field = some field) (rank : field.shape.length = place.index.length)
    (unlocated : m.position? place = none) : ∃ e, m.Misses place e := by
  rcases coordinates_or assigned with
    ⟨index, coordinates⟩ | ⟨before, v, after, x, index, coordinate, value, fraction, integral⟩
  · have given : index.length = field.shape.length := (length_coordinates coordinates).trans rank.symm
    cases missed : field.locate index with
    | ok p =>
      have located := position?_eq_some.mpr ⟨index, field, coordinates, found, missed⟩
      rw [unlocated] at located
      cases located
    | error fault => exact ⟨_, .unlocated coordinates found ((Field.locate_error given).mp missed)⟩
  · exact ⟨_, .nonIntegral coordinate value fraction integral⟩

namespace Frame

variable {frame : Frame α} {limits : Limits} {visible : List ValueId} {m m' : Machine α} {e : KernelFault}

theorem instr_error {i : Instr α} (holds : m.Holds limits.counter visible) (suits : frame.Suits limits)
    (operands : ∀ v ∈ i.operands, v ∈ visible) (within : i.Within limits) (ready : m.Ready i) :
    frame.instr i m = .error e m' ↔ m' = m ∧ ∃ place, i.place? = some place ∧ m.Misses place e := by
  constructor
  · intro failed
    have unserved : ¬m.Serves i := by
      intro serves
      obtain ⟨m₁, step⟩ := steps_exists holds suits operands within serves
      have ran := instr_exact (u := ()).mpr step
      rw [failed] at ran
      cases ran
    cases addressed : i.place? with
    | none => exact absurd ⟨by simp [addressed], ready.graded⟩ unserved
    | some place =>
      cases located : m.position? place with
      | some p => exact absurd ⟨by simp [addressed, located], ready.graded⟩ unserved
      | none =>
        obtain ⟨field, found, rank⟩ := ready.found place addressed
        have assigned : ∀ v ∈ place.index, ∃ x, m.value? v = some x :=
          fun v member => holds.assigned v (operands v (Instr.index_subset addressed member))
        obtain ⟨e', misses⟩ := Machine.misses_exists assigned found rank located
        have stopped : frame.instr i m = .error e' m := instr_misses holds operands ready addressed misses
        rw [failed] at stopped
        cases stopped
        exact ⟨rfl, place, rfl, misses⟩
  · intro shown
    obtain ⟨rfl, place, addressed, misses⟩ := shown
    exact instr_misses holds operands ready addressed misses

-- A run of a block that has come to a statement, and the machine it has come there with.
inductive Reaches (frame : Frame α) : Machine α → Block α → Machine α → Statement α → Prop
  | instr {m : Machine α} {i rest} : Reaches frame m (.instr i rest) m (.instr i)
  | branch {m : Machine α} {cond onTrue onFalse rest} :
    Reaches frame m (.branch cond onTrue onFalse rest) m (.branch cond)
  | later {m m₁ m' : Machine α} {i rest s} (step : frame.Steps m i m₁)
    (others : Reaches frame m₁ rest m' s) : Reaches frame m (.instr i rest) m' s
  | inside {m m' : Machine α} {cond x onTrue onFalse rest s} (value : m.value? cond = some x)
    (inner : Reaches frame m (taken x onTrue onFalse) m' s) :
    Reaches frame m (.branch cond onTrue onFalse rest) m' s
  | after {m m₁ m' : Machine α} {cond x onTrue onFalse rest s} (value : m.value? cond = some x)
    (inner : frame.Runs m (taken x onTrue onFalse) m₁) (others : Reaches frame m₁ rest m' s) :
    Reaches frame m (.branch cond onTrue onFalse rest) m' s

theorem Reaches.member {block : Block α} {s : Statement α} (reaches : frame.Reaches m block m' s) :
    s ∈ block.statements := by
  induction reaches with
  | instr | branch => exact List.mem_cons_self
  | later _ _ ih => exact List.mem_cons_of_mem _ ih
  | inside _ _ ih => exact taken_subset _ _ _ _ _ ih
  | after _ _ _ ih => exact List.mem_cons_of_mem _ (List.mem_append_right _ ih)

theorem taken_wellFormed {defined : List ValueId} {onTrue onFalse : Block α}
    (inTrue : onTrue.WellFormed limits visible defined)
    (inFalse : onFalse.WellFormed limits visible (onTrue.assigned ++ defined)) (x : α) :
    (taken x onTrue onFalse).WellFormed limits visible defined := by
  unfold taken
  split
  · exact inFalse.mono (List.Subset.refl _) (List.subset_append_right _ _)
  · exact inTrue

theorem Reaches.holds {block : Block α} {s : Statement α} (reaches : frame.Reaches m block m' s)
    {defined : List ValueId} (formed : block.WellFormed limits visible defined)
    (holds : m.Holds limits.counter visible) : ∃ seen, m'.Holds limits.counter seen ∧
      (∀ v ∈ s.operands, v ∈ seen) ∧ ∀ v ∈ s.dst?, v.index < limits.counter := by
  induction reaches generalizing visible defined with
  | instr => exact ⟨visible, holds, formed.1, fun v dst => formed.2.1.dst_lt dst⟩
  | branch =>
    refine ⟨visible, holds, fun v used => ?_, fun v dst => nomatch dst⟩
    rw [List.mem_singleton.mp used]
    exact formed.1
  | later step _ ih => exact ih formed.2.2.2 (step.holds holds)
  | inside value _ ih => exact ih (taken_wellFormed formed.2.1 formed.2.2.1 _) holds
  | after value inner _ ih =>
    exact ih formed.2.2.2 ((inner.holds holds).mono (List.subset_append_right _ _) (Nat.le_refl _))

theorem Runs.sameOutside {block : Block α} (runs : frame.Runs m block m') :
    m.table.SameOutside (fun _ => True) m'.table :=
  runs.altered.table.mono (fun _ _ => trivial) fun _ _ => trivial

theorem Reaches.altered {block : Block α} {s : Statement α} (reaches : frame.Reaches m block m' s) :
    m.table.SameOutside (fun _ => True) m'.table := by
  induction reaches with
  | instr | branch => exact .refl _
  | later step _ ih => exact (Runs.instr step .nil).sameOutside.trans ih
  | inside _ _ ih => exact ih
  | after _ inner _ ih => exact inner.sameOutside.trans ih

-- A run of a block comes to an instruction whose element is missed.
def Halts (frame : Frame α) (m : Machine α) (block : Block α) (m' : Machine α) (e : KernelFault) : Prop :=
  ∃ i place, frame.Reaches m block m' (.instr i) ∧ i.place? = some place ∧ m'.Misses place e

theorem halts_instr {i : Instr α} {rest : Block α} : frame.Halts m (.instr i rest) m' e ↔
    (m' = m ∧ ∃ place, i.place? = some place ∧ m.Misses place e) ∨
      ∃ m₁, frame.Steps m i m₁ ∧ frame.Halts m₁ rest m' e := by
  constructor
  · intro halts
    obtain ⟨j, place, reaches, missed⟩ := halts
    cases reaches with
    | instr => exact .inl ⟨rfl, place, missed⟩
    | later step others => exact .inr ⟨_, step, j, place, others, missed⟩
  · intro shown
    rcases shown with ⟨rfl, place, missed⟩ | ⟨m₁, step, j, place, others, missed⟩
    · exact ⟨i, place, .instr, missed⟩
    · exact ⟨j, place, .later step others, missed⟩

theorem halts_branch {cond : ValueId} {x : α} {onTrue onFalse rest : Block α}
    (value : m.value? cond = some x) : frame.Halts m (.branch cond onTrue onFalse rest) m' e ↔
      frame.Halts m (taken x onTrue onFalse) m' e ∨
        ∃ m₁, frame.Runs m (taken x onTrue onFalse) m₁ ∧ frame.Halts m₁ rest m' e := by
  constructor
  · intro halts
    obtain ⟨i, place, reaches, missed⟩ := halts
    cases reaches with
    | inside value' inner =>
      cases value.symm.trans value'
      exact .inl ⟨i, place, inner, missed⟩
    | after value' inner others =>
      cases value.symm.trans value'
      exact .inr ⟨_, inner, i, place, others, missed⟩
  · intro shown
    rcases shown with ⟨i, place, inner, missed⟩ | ⟨m₁, inner, i, place, others, missed⟩
    · exact ⟨i, place, .inside value inner, missed⟩
    · exact ⟨i, place, .after value inner others, missed⟩

theorem block_error {block : Block α} {defined : List ValueId}
    (formed : block.WellFormed limits visible defined) (holds : m.Holds limits.counter visible)
    (suits : frame.Suits limits) (ready : ∀ i, .instr i ∈ block.statements → m.Ready i) :
    frame.block block m = .error e m' ↔ frame.Halts m block m' e := by
  induction block generalizing m visible defined with
  | nil =>
    constructor
    · intro failed
      cases failed
    · intro halts
      obtain ⟨i, place, reaches, -⟩ := halts
      cases reaches
  | instr i rest ih =>
    obtain ⟨operands, within, -, formedRest⟩ := formed
    have next : ∀ {m₁}, frame.Steps m i m₁ → (frame.block rest m₁ = .error e m' ↔ frame.Halts m₁ rest m' e) :=
      fun step => ih formedRest (step.holds holds) fun j member =>
        (ready j (List.mem_cons_of_mem _ member)).agree (Runs.instr step .nil).sameOutside
    rw [Frame.block, bind_error, halts_instr,
      instr_error holds suits operands within (ready i List.mem_cons_self)]
    refine or_congr Iff.rfl ⟨fun failed => ?_, fun halts => ?_⟩
    · obtain ⟨_, m₁, first, later⟩ := failed
      have step := instr_exact.mp first
      exact ⟨m₁, step, (next step).mp later⟩
    · obtain ⟨m₁, step, others⟩ := halts
      exact ⟨(), m₁, instr_exact.mpr step, (next step).mpr others⟩
  | branch cond onTrue onFalse rest ihTrue ihFalse ihRest =>
    obtain ⟨condition, formedTrue, formedFalse, formedRest⟩ := formed
    obtain ⟨x, value⟩ := holds.assigned cond condition
    have read : frame.value cond m = .ok x m := value_ok.mpr ⟨value, rfl⟩
    have inner : frame.block (taken x onTrue onFalse) m = .error e m' ↔
        frame.Halts m (taken x onTrue onFalse) m' e := by
      have readyInner : ∀ i, .instr i ∈ (taken x onTrue onFalse).statements → m.Ready i :=
        fun i member => ready i (taken_subset cond x onTrue onFalse rest member)
      unfold taken at readyInner ⊢
      split at readyInner
      · next zero =>
        rw [if_pos zero]
        exact ihFalse formedFalse holds readyInner
      · next nonzero =>
        rw [if_neg nonzero]
        exact ihTrue formedTrue holds readyInner
    have next : ∀ {m₁}, frame.Runs m (taken x onTrue onFalse) m₁ →
        (frame.block rest m₁ = .error e m' ↔ frame.Halts m₁ rest m' e) := by
      intro m₁ ran
      refine ihRest formedRest ((ran.holds holds).mono (List.subset_append_right _ _) (Nat.le_refl _)) ?_
      exact fun i member => (ready i (Block.rest_subset member)).agree ran.sameOutside
    rw [block_branch, bind_after read, bind_error, inner, halts_branch value]
    refine or_congr Iff.rfl ⟨fun failed => ?_, fun halts => ?_⟩
    · obtain ⟨_, m₁, first, later⟩ := failed
      have ran := block_exact.mp first
      exact ⟨m₁, ran, (next ran).mp later⟩
    · obtain ⟨m₁, ran, others⟩ := halts
      exact ⟨(), m₁, block_exact.mpr ran, (next ran).mpr others⟩

end Frame

end FieldKernel
