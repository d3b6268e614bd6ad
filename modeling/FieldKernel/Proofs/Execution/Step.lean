import FieldKernel.Execution.Launch
import FieldKernel.Proofs.Domain
import FieldKernel.Proofs.Field.Table

-- What each step of a running kernel does when it succeeds.
namespace FieldKernel

variable {α : Type} [Scalar α]

namespace Machine

def value? (m : Machine α) (v : ValueId) : Option α := m.values[v.index]?.join

def adjoint? (m : Machine α) (v : ValueId) : Option α := m.adjoints[v.index]?

def setValue (m : Machine α) (v : ValueId) (x : α) : Machine α :=
  { m with values := m.values.setIfInBounds v.index (some x) }

def setAdjoint (m : Machine α) (v : ValueId) (x : α) : Machine α :=
  { m with adjoints := m.adjoints.setIfInBounds v.index x }

def setTable (m : Machine α) (table : FieldTable α) : Machine α := { m with table := table }

variable (m : Machine α) (v w : ValueId) (x : α) (table : FieldTable α)

omit [Scalar α] in
theorem value?_eq_some : m.value? v = some x ↔ m.values[v.index]? = some (some x) := by
  simp [value?, Option.join_eq_some_iff]

omit [Scalar α] in
theorem setValue_self (room : v.index < m.values.size) : (m.setValue v x).value? v = some x := by
  simp [value?, setValue, room]

omit [Scalar α] in
theorem setValue_other (other : w ≠ v) : (m.setValue v x).value? w = m.value? w := by
  have : v.index ≠ w.index := fun same => other (by cases v; cases w; simp_all)
  simp [value?, setValue, Array.getElem?_setIfInBounds_ne this]

omit [Scalar α] in
theorem setAdjoint_self (room : v.index < m.adjoints.size) :
    (m.setAdjoint v x).adjoint? v = some x := by
  simp [adjoint?, setAdjoint, room]

omit [Scalar α] in
theorem setAdjoint_other (other : w ≠ v) : (m.setAdjoint v x).adjoint? w = m.adjoint? w := by
  have : v.index ≠ w.index := fun same => other (by cases v; cases w; simp_all)
  simp [adjoint?, setAdjoint, Array.getElem?_setIfInBounds_ne this]

omit [Scalar α] in
@[simp] theorem setValue_table : (m.setValue v x).table = m.table := rfl
omit [Scalar α] in
@[simp] theorem setValue_adjoint? : (m.setValue v x).adjoint? w = m.adjoint? w := rfl
omit [Scalar α] in
@[simp] theorem setValue_values_size : (m.setValue v x).values.size = m.values.size := by
  simp [setValue]
omit [Scalar α] in
@[simp] theorem setValue_adjoints : (m.setValue v x).adjoints = m.adjoints := rfl
omit [Scalar α] in
@[simp] theorem setAdjoint_table : (m.setAdjoint v x).table = m.table := rfl
omit [Scalar α] in
@[simp] theorem setAdjoint_value? : (m.setAdjoint v x).value? w = m.value? w := rfl
omit [Scalar α] in
@[simp] theorem setAdjoint_values : (m.setAdjoint v x).values = m.values := rfl
omit [Scalar α] in
@[simp] theorem setAdjoint_adjoints_size : (m.setAdjoint v x).adjoints.size = m.adjoints.size := by
  simp [setAdjoint]
omit [Scalar α] in
@[simp] theorem setTable_table : (m.setTable table).table = table := rfl
omit [Scalar α] in
@[simp] theorem setTable_value? : (m.setTable table).value? v = m.value? v := rfl
omit [Scalar α] in
@[simp] theorem setTable_adjoint? : (m.setTable table).adjoint? v = m.adjoint? v := rfl
omit [Scalar α] in
@[simp] theorem setTable_values : (m.setTable table).values = m.values := rfl
omit [Scalar α] in
@[simp] theorem setTable_adjoints : (m.setTable table).adjoints = m.adjoints := rfl

def coordinate? (v : ValueId) : Option Int :=
  (m.value? v).bind fun x => (Scalar.integer? x).map Frame.clampWord

def position? (place : Place) : Option Nat :=
  (place.index.mapM m.coordinate?).bind fun index => (m.table.locate place.field index).toOption

end Machine

omit [Scalar α] in
theorem Exec.lift_ok {β : Type} {x : Except KernelFault β} {b : β} {m m' : Machine α} :
    Exec.lift x m = .ok b m' ↔ x = .ok b ∧ m' = m := by
  cases x <;> simp [Exec.lift]

theorem Machine.position?_eq_some {m : Machine α} {place : Place} {position : Nat} :
    m.position? place = some position ↔
      ∃ index field, place.index.mapM m.coordinate? = some index ∧
        m.table.find? place.field = some field ∧ field.locate index = .ok position := by
  simp only [position?, Option.bind_eq_some_iff]
  constructor
  · rintro ⟨index, coordinates, found⟩
    cases at_ : m.table.locate place.field index with
    | error fault => simp [at_, Except.toOption] at found
    | ok p =>
      simp only [at_, Except.toOption, Option.some.injEq] at found
      subst found
      obtain ⟨field, stored, inside⟩ := FieldTable.locate_ok.mp at_
      exact ⟨index, field, coordinates, stored, inside⟩
  · rintro ⟨index, field, coordinates, stored, inside⟩
    refine ⟨index, coordinates, ?_⟩
    rw [FieldTable.locate_ok.mpr ⟨field, stored, inside⟩]
    rfl

namespace Block

omit [Scalar α] in
@[simp] theorem nil_append (b : Block α) : Block.nil ++ b = b := rfl

omit [Scalar α] in
@[simp] theorem instr_append (i : Instr α) (a b : Block α) : Block.instr i a ++ b = .instr i (a ++ b) := rfl

omit [Scalar α] in
@[simp] theorem branch_append (cond : ValueId) (onTrue onFalse a b : Block α) :
    Block.branch cond onTrue onFalse a ++ b = .branch cond onTrue onFalse (a ++ b) := rfl

omit [Scalar α] in
theorem ofInstrs_append (first second : List (Instr α)) :
    ofInstrs (first ++ second) = ofInstrs first ++ ofInstrs second := by
  induction first with
  | nil => rfl
  | cons i rest ih =>
    change Block.instr i (ofInstrs (rest ++ second)) = _
    rw [ih]
    rfl

end Block

def Frame.Alike (f g : Frame α) : Prop := g.args = f.args ∧ g.point = f.point

namespace Frame

variable {frame : Frame α} {m m' : Machine α}

omit [Scalar α] in
theorem value_ok {v : ValueId} {x : α} :
    frame.value v m = .ok x m' ↔ m.value? v = some x ∧ m' = m := by
  rw [value, run_get_bind, Machine.value?_eq_some]
  cases m.values[v.index]? with
  | none => simp
  | some register => cases register <;> simp

omit [Scalar α] in
theorem assign_ok {v : ValueId} {x : α} {u : Unit} :
    frame.assign v x m = .ok u m' ↔ v.index < m.values.size ∧ m' = m.setValue v x := by
  rw [assign, run_get_bind]
  split
  · next room => simp [room, Machine.setValue]
  · next noRoom => simp [noRoom]

omit [Scalar α] in
theorem adjoint_ok {v : ValueId} {x : α} :
    frame.adjoint v m = .ok x m' ↔ m.adjoint? v = some x ∧ m' = m := by
  rw [adjoint, run_get_bind, Machine.adjoint?]
  cases m.adjoints[v.index]? <;> simp

theorem addAdjoint_ok {v : ValueId} {delta : α} {u : Unit} :
    frame.addAdjoint v delta m = .ok u m' ↔
      ∃ old, m.adjoint? v = some old ∧ m' = m.setAdjoint v (old + delta) := by
  simp only [addAdjoint, bind_ok, adjoint_ok, modify_ok]
  constructor
  · rintro ⟨old, _, ⟨read, rfl⟩, rfl⟩
    exact ⟨old, read, rfl⟩
  · rintro ⟨old, read, rfl⟩
    exact ⟨old, m, ⟨read, rfl⟩, rfl⟩

theorem coordinate_ok {field : String} {v : ValueId} {i : Int} :
    frame.coordinate field v m = .ok i m' ↔ m.coordinate? v = some i ∧ m' = m := by
  simp only [coordinate, bind_ok, value_ok, Machine.coordinate?, Option.bind_eq_some_iff,
    Option.map_eq_some_iff]
  constructor
  · rintro ⟨x, _, ⟨read, rfl⟩, step⟩
    cases exact_ : Scalar.integer? x with
    | none => simp [exact_] at step
    | some j =>
      simp only [exact_, pure_ok] at step
      obtain ⟨rfl, rfl⟩ := step
      exact ⟨⟨x, read, j, exact_, rfl⟩, rfl⟩
  · rintro ⟨⟨x, read, j, exact_, rfl⟩, rfl⟩
    refine ⟨x, m', ⟨read, rfl⟩, ?_⟩
    rw [exact_]
    rfl

theorem mapM_coordinate_ok {field : String} {vs : List ValueId} {index : List Int} :
    vs.mapM (frame.coordinate field) m = .ok index m' ↔
      vs.mapM m.coordinate? = some index ∧ m' = m := by
  induction vs generalizing index m m' with
  | nil => simp [eq_comm]
  | cons v vs ih =>
    simp only [List.mapM_cons, bind_ok, coordinate_ok, ih, Option.bind_eq_bind,
      Option.bind_eq_some_iff, pure_ok, Option.pure_def, Option.some.injEq]
    constructor
    · rintro ⟨i, _, ⟨first, rfl⟩, rest, _, ⟨others, rfl⟩, rfl, rfl⟩
      exact ⟨⟨i, first, rest, others, rfl⟩, rfl⟩
    · rintro ⟨⟨i, first, rest, others, rfl⟩, rfl⟩
      exact ⟨i, m', ⟨first, rfl⟩, rest, m', ⟨others, rfl⟩, rfl, rfl⟩

theorem coordinates_ok {place : Place} {index : List Int} :
    frame.coordinates place m = .ok index m' ↔
      place.index.mapM m.coordinate? = some index ∧ m' = m := mapM_coordinate_ok

theorem factor_ok {scale : Scale} {x : α} :
    frame.factor scale m = .ok x m' ↔
      (match scale with
        | .one => x = Scalar.one
        | .minusOne => x = Scalar.minusOne
        | .value v => m.value? v = some x) ∧ m' = m := by
  cases scale <;> simp [factor, value_ok, eq_comm (a := x)]


variable (frame m)

-- The numbers an expression may evaluate to: one, or none if the evaluation fails.
def Evaluates : Expr α → α → Prop
  | .const value, x => x = value
  | .index axis, x => ∃ i, frame.point[axis]? = some i ∧ x = Scalar.ofInt i
  | .arg position, x => frame.args[position]? = some x
  | .load place, x => ∃ field position, m.table.find? place.field = some field ∧
      m.position? place = some position ∧ x = field.data.getD position Scalar.zero
  | .binary op lhs rhs, x => ∃ a b, m.value? lhs = some a ∧ m.value? rhs = some b ∧ x = op.apply a b
  | .unary op operand, x => ∃ a, m.value? operand = some a ∧ x = op.apply a
  | .compare op lhs rhs, x =>
    ∃ a b, m.value? lhs = some a ∧ m.value? rhs = some b ∧ x = op.apply a b

def HasGrad (name : String) : Prop :=
  ∃ field, m.table.find? name = some field ∧ field.hasGrad = true

-- What each instruction does, instruction by instruction.
inductive Steps : Instr α → Machine α → Prop
  | define {dst e x} (evaluates : frame.Evaluates m e x) (room : dst.index < m.values.size) :
    Steps (.define dst e) (m.setValue dst x)
  | store {place v p x} (at_ : m.position? place = some p) (value : m.value? v = some x) :
    Steps (.store place v) (m.setTable (m.table.setAt place.field p x))
  | readGrad {target place p old} (at_ : m.position? place = some p)
    (graded : HasGrad m place.field) (adjoint : m.adjoint? target = some old) :
    Steps (.readGrad target place) (m.setAdjoint target (old + m.table.gradAt place.field p))
  | propagate {target source scale f a old} (factor : frame.factor scale m = .ok f m)
    (from_ : m.adjoint? source = some a) (adjoint : m.adjoint? target = some old) :
    Steps (.propagate target source scale) (m.setAdjoint target (old + a * f))
  | addGrad {place source p a} (at_ : m.position? place = some p)
    (graded : HasGrad m place.field) (from_ : m.adjoint? source = some a) :
    Steps (.addGrad place source) (m.setTable (m.table.addGradAt place.field p a))

variable {frame m}

theorem read_ok {place : Place} {x : α} :
    (∃ index, place.index.mapM m.coordinate? = some index ∧
        m.table.read place.field index = .ok x) ↔ frame.Evaluates m (.load place) x := by
  simp only [Evaluates, FieldTable.read_ok, Machine.position?_eq_some]
  constructor
  · rintro ⟨index, coordinates, field, position, found, at_, rfl⟩
    exact ⟨field, position, found, ⟨index, field, coordinates, found, at_⟩, rfl⟩
  · rintro ⟨field, position, found, ⟨index, field', coordinates, found', at_⟩, rfl⟩
    cases found.symm.trans found'
    exact ⟨index, coordinates, field, position, found, at_, rfl⟩

theorem expr_ok {e : Expr α} {x : α} :
    frame.expr e m = .ok x m' ↔ frame.Evaluates m e x ∧ m' = m := by
  cases e with
  | const value => simp [expr, Evaluates, eq_comm (a := x)]
  | index axis =>
    simp only [expr, Evaluates]
    cases frame.point[axis]? <;> simp [eq_comm (a := x)]
  | arg position =>
    simp only [expr, Evaluates]
    cases frame.args[position]? <;> simp
  | load place =>
    rw [← read_ok]
    simp only [expr, bind_ok, coordinates_ok, run_get_bind, Exec.lift_ok]
    constructor
    · rintro ⟨index, _, ⟨coordinates, rfl⟩, loaded, rfl⟩
      exact ⟨⟨index, coordinates, loaded⟩, rfl⟩
    · rintro ⟨⟨index, coordinates, loaded⟩, rfl⟩
      exact ⟨index, m', ⟨coordinates, rfl⟩, loaded, rfl⟩
  | binary op lhs rhs =>
    simp only [expr, Evaluates, bind_ok, value_ok, pure_ok]
    constructor
    · rintro ⟨a, _, ⟨left, rfl⟩, b, _, ⟨right, rfl⟩, rfl, rfl⟩
      exact ⟨⟨a, b, left, right, rfl⟩, rfl⟩
    · rintro ⟨⟨a, b, left, right, rfl⟩, rfl⟩
      exact ⟨a, m', ⟨left, rfl⟩, b, m', ⟨right, rfl⟩, rfl, rfl⟩
  | unary op operand =>
    simp only [expr, Evaluates, bind_ok, value_ok, pure_ok]
    constructor
    · rintro ⟨a, _, ⟨read, rfl⟩, rfl, rfl⟩
      exact ⟨⟨a, read, rfl⟩, rfl⟩
    · rintro ⟨⟨a, read, rfl⟩, rfl⟩
      exact ⟨a, m', ⟨read, rfl⟩, rfl, rfl⟩
  | compare op lhs rhs =>
    simp only [expr, Evaluates, bind_ok, value_ok, pure_ok]
    constructor
    · rintro ⟨a, _, ⟨left, rfl⟩, b, _, ⟨right, rfl⟩, rfl, rfl⟩
      exact ⟨⟨a, b, left, right, rfl⟩, rfl⟩
    · rintro ⟨⟨a, b, left, right, rfl⟩, rfl⟩
      exact ⟨a, m', ⟨left, rfl⟩, b, m', ⟨right, rfl⟩, rfl, rfl⟩

theorem located_ok {place : Place} {p : Nat} :
    (∃ index, place.index.mapM m.coordinate? = some index ∧
        m.table.locate place.field index = .ok p) ↔ m.position? place = some p := by
  simp only [FieldTable.locate_ok, Machine.position?_eq_some]
  exact ⟨fun ⟨i, c, f, rest⟩ => ⟨i, f, c, rest⟩, fun ⟨i, f, c, rest⟩ => ⟨i, c, f, rest⟩⟩

theorem gradLocated_ok {place : Place} {p : Nat} :
    (∃ index, place.index.mapM m.coordinate? = some index ∧
        m.table.gradLocate place.field index = .ok p) ↔
      m.position? place = some p ∧ HasGrad m place.field := by
  simp only [FieldTable.gradLocate_ok, Machine.position?_eq_some, HasGrad]
  constructor
  · rintro ⟨index, coordinates, field, found, graded, at_⟩
    exact ⟨⟨index, field, coordinates, found, at_⟩, field, found, graded⟩
  · rintro ⟨⟨index, field, coordinates, found, at_⟩, field', found', graded⟩
    cases found.symm.trans found'
    exact ⟨index, coordinates, field, found, graded, at_⟩

theorem gradRead_ok {place : Place} {x : α} :
    (∃ index, place.index.mapM m.coordinate? = some index ∧
        m.table.readGrad place.field index = .ok x) ↔
      ∃ p, m.position? place = some p ∧ HasGrad m place.field ∧ x = m.table.gradAt place.field p := by
  simp only [FieldTable.readGrad_ok, Machine.position?_eq_some, HasGrad]
  constructor
  · rintro ⟨index, coordinates, field, p, found, graded, at_, rfl⟩
    exact ⟨p, ⟨index, field, coordinates, found, at_⟩, ⟨field, found, graded⟩, rfl⟩
  · rintro ⟨p, ⟨index, field, coordinates, found, at_⟩, ⟨field', found', graded⟩, rfl⟩
    cases found.symm.trans found'
    exact ⟨index, coordinates, field, p, found, graded, at_, rfl⟩

theorem instr_exact {i : Instr α} {u : Unit} : frame.instr i m = .ok u m' ↔ frame.Steps m i m' := by
  cases i with
  | define dst e =>
    simp only [instr, bind_ok, expr_ok, assign_ok]
    constructor
    · rintro ⟨x, _, ⟨evaluates, rfl⟩, room, rfl⟩
      exact .define evaluates room
    · rintro ⟨evaluates, room⟩
      exact ⟨_, m, ⟨evaluates, rfl⟩, room, rfl⟩
  | store place v =>
    simp only [instr, bind_ok, coordinates_ok, value_ok, run_get_bind, Exec.lift_ok, Exec.change,
      modify_ok]
    constructor
    · rintro ⟨index, _, ⟨coordinates, rfl⟩, x, _, ⟨value, rfl⟩, p, _, ⟨at_, rfl⟩, rfl⟩
      exact .store (located_ok.mp ⟨index, coordinates, at_⟩) value
    · rintro (⟨⟩ | ⟨at_, value⟩)
      obtain ⟨index, coordinates, at_⟩ := located_ok.mpr at_
      exact ⟨index, m, ⟨coordinates, rfl⟩, _, m, ⟨value, rfl⟩, _, m, ⟨at_, rfl⟩, rfl⟩
  | readGrad target place =>
    simp only [instr, bind_ok, coordinates_ok, run_get_bind, Exec.lift_ok, addAdjoint_ok]
    constructor
    · rintro ⟨index, _, ⟨coordinates, rfl⟩, g, _, ⟨read, rfl⟩, old, adjoint, rfl⟩
      obtain ⟨p, at_, graded, rfl⟩ := gradRead_ok.mp ⟨index, coordinates, read⟩
      exact .readGrad at_ graded adjoint
    · intro step
      cases step with
      | readGrad at_ graded adjoint =>
        obtain ⟨index, coordinates, read⟩ := gradRead_ok.mpr ⟨_, at_, graded, rfl⟩
        exact ⟨index, m, ⟨coordinates, rfl⟩, _, m, ⟨read, rfl⟩, _, adjoint, rfl⟩
  | propagate target source scale =>
    simp only [instr, bind_ok, adjoint_ok, addAdjoint_ok]
    constructor
    · rintro ⟨f, m1, factor, a, _, ⟨from_, rfl⟩, old, adjoint, rfl⟩
      obtain ⟨-, rfl⟩ := factor_ok.mp factor
      exact .propagate factor from_ adjoint
    · intro step
      cases step with
      | propagate factor from_ adjoint =>
        exact ⟨_, m, factor, _, m, ⟨from_, rfl⟩, _, adjoint, rfl⟩
  | addGrad place source =>
    simp only [instr, bind_ok, coordinates_ok, adjoint_ok, run_get_bind, Exec.lift_ok, Exec.change,
      modify_ok]
    constructor
    · rintro ⟨index, _, ⟨coordinates, rfl⟩, a, _, ⟨from_, rfl⟩, p, _, ⟨at_, rfl⟩, rfl⟩
      obtain ⟨at_, graded⟩ := gradLocated_ok.mp ⟨index, coordinates, at_⟩
      exact .addGrad at_ graded from_
    · intro step
      cases step with
      | addGrad at_ graded from_ =>
        obtain ⟨index, coordinates, at_⟩ := gradLocated_ok.mpr ⟨at_, graded⟩
        exact ⟨index, m, ⟨coordinates, rfl⟩, _, m, ⟨from_, rfl⟩, _, m, ⟨at_, rfl⟩, rfl⟩

def taken (x : α) (onTrue onFalse : Block α) : Block α :=
  if Scalar.isZero x then onFalse else onTrue

-- Successful runs of a block, statement by statement.
inductive Runs (frame : Frame α) : Machine α → Block α → Machine α → Prop
  | nil {m : Machine α} : Runs frame m .nil m
  | instr {m m₁ m₂ : Machine α} {i rest} (step : frame.Steps m i m₁) (others : Runs frame m₁ rest m₂) :
    Runs frame m (.instr i rest) m₂
  | branch {m m₁ m₂ : Machine α} {cond x onTrue onFalse rest} (value : m.value? cond = some x)
    (inner : Runs frame m (taken x onTrue onFalse) m₁) (others : Runs frame m₁ rest m₂) :
    Runs frame m (.branch cond onTrue onFalse rest) m₂

theorem block_branch (cond : ValueId) (onTrue onFalse rest : Block α) :
    frame.block (.branch cond onTrue onFalse rest) = (do
      let x ← frame.value cond
      frame.block (taken x onTrue onFalse)
      frame.block rest) := by
  rw [Frame.block]
  congr 1
  funext x
  unfold taken
  split <;> rfl

theorem block_exact {block : Block α} {u : Unit} :
    frame.block block m = .ok u m' ↔ frame.Runs m block m' := by
  induction block generalizing m m' with
  | nil =>
    simp only [Frame.block, pure_ok, true_and]
    exact ⟨fun same => same ▸ .nil, fun ran => by cases ran; rfl⟩
  | instr i rest ih =>
    simp only [Frame.block, bind_ok, instr_exact, ih]
    constructor
    · rintro ⟨_, m₁, step, others⟩
      exact .instr step others
    · intro ran
      cases ran with
      | instr step others => exact ⟨(), _, step, others⟩
  | branch cond onTrue onFalse rest ihTrue ihFalse ihRest =>
    have inner : ∀ (x : α) (m m₁ : Machine α),
        frame.block (taken x onTrue onFalse) m = .ok () m₁ ↔
          frame.Runs m (taken x onTrue onFalse) m₁ := by
      intro x m m₁
      unfold taken
      split
      · exact ihFalse
      · exact ihTrue
    simp only [block_branch, bind_ok, value_ok, ihRest, inner]
    constructor
    · rintro ⟨x, _, ⟨value, rfl⟩, _, m₁, ran, others⟩
      exact .branch value ran others
    · intro ran
      cases ran with
      | branch value ran others => exact ⟨_, m, ⟨value, rfl⟩, (), _, ran, others⟩

theorem runs_append {first second : Block α} :
    frame.Runs m (first ++ second) m' ↔ ∃ m₁, frame.Runs m first m₁ ∧ frame.Runs m₁ second m' := by
  induction first generalizing m with
  | nil =>
    constructor
    · intro runs
      exact ⟨m, .nil, runs⟩
    · rintro ⟨m₁, first, second⟩
      cases first
      exact second
  | instr i rest ih =>
    constructor
    · intro runs
      cases runs with
      | instr step others =>
        obtain ⟨m₁, inRest, inSecond⟩ := ih.mp others
        exact ⟨m₁, .instr step inRest, inSecond⟩
    · rintro ⟨m₁, inFirst, inSecond⟩
      cases inFirst with
      | instr step inRest => exact .instr step (ih.mpr ⟨m₁, inRest, inSecond⟩)
  | branch cond onTrue onFalse rest _ _ ih =>
    constructor
    · intro runs
      cases runs with
      | branch value inner others =>
        obtain ⟨m₁, inRest, inSecond⟩ := ih.mp others
        exact ⟨m₁, .branch value inner inRest, inSecond⟩
    · rintro ⟨m₁, inFirst, inSecond⟩
      cases inFirst with
      | branch value inner inRest => exact .branch value inner (ih.mpr ⟨m₁, inRest, inSecond⟩)

end Frame

end FieldKernel
