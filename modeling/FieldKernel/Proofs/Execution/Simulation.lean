import Mathlib.Data.List.Forall2
import FieldKernel.Proofs.Execution.Launch

-- Running a body under other names for its values, on another table.
namespace FieldKernel

variable {α : Type}

-- Renamings give a value one name, and no name twice.
def OneToOne (R : ValueId → ValueId → Prop) : Prop :=
  ∀ ⦃v w v' w'⦄, R v w → R v' w' → (v = v' ↔ w = w')

variable {R : ValueId → ValueId → Prop}

structure Place.Renamed (R : ValueId → ValueId → Prop) (place place' : Place) : Prop where
  field : place'.field = place.field
  index : List.Forall₂ R place.index place'.index

inductive Scale.Renamed (R : ValueId → ValueId → Prop) : Scale → Scale → Prop
  | one : Renamed R .one .one
  | minusOne : Renamed R .minusOne .minusOne
  | value {v w} (factor : R v w) : Renamed R (.value v) (.value w)

inductive Expr.Renamed (R : ValueId → ValueId → Prop) : Expr α → Expr α → Prop
  | const (x : α) : Renamed R (.const x) (.const x)
  | index (axis : Nat) : Renamed R (.index axis) (.index axis)
  | arg (position : Nat) : Renamed R (.arg position) (.arg position)
  | load {p q} (place : p.Renamed R q) : Renamed R (.load p) (.load q)
  | binary {op v w v' w'} (lhs : R v v') (rhs : R w w') : Renamed R (.binary op v w) (.binary op v' w')
  | unary {op v v'} (operand : R v v') : Renamed R (.unary op v) (.unary op v')
  | compare {op v w v' w'} (lhs : R v v') (rhs : R w w') :
    Renamed R (.compare op v w) (.compare op v' w')

inductive Instr.Renamed (R : ValueId → ValueId → Prop) : Instr α → Instr α → Prop
  | define {v w e e'} (dst : R v w) (expr : e.Renamed R e') : Renamed R (.define v e) (.define w e')
  | store {p q v w} (place : p.Renamed R q) (value : R v w) : Renamed R (.store p v) (.store q w)
  | readGrad {p q v w} (target : R v w) (place : p.Renamed R q) :
    Renamed R (.readGrad v p) (.readGrad w q)
  | propagate {v w v' w' s s'} (target : R v w) (source : R v' w') (scale : s.Renamed R s') :
    Renamed R (.propagate v v' s) (.propagate w w' s')
  | addGrad {p q v w} (place : p.Renamed R q) (source : R v w) : Renamed R (.addGrad p v) (.addGrad q w)

inductive Block.Renamed (R : ValueId → ValueId → Prop) : Block α → Block α → Prop
  | nil : Renamed R .nil .nil
  | instr {i j rest rest'} (first : i.Renamed R j) (others : Renamed R rest rest') :
    Renamed R (.instr i rest) (.instr j rest')
  | branch {v w a a' b b' rest rest'} (cond : R v w) (onTrue : Renamed R a a') (onFalse : Renamed R b b')
    (others : Renamed R rest rest') : Renamed R (.branch v a b rest) (.branch w a' b' rest')

theorem OneToOne.symm (one : OneToOne R) : OneToOne fun v w => R w v :=
  fun _ _ _ _ left right => (one left right).symm

theorem Place.Renamed.symm {p q : Place} (renamed : p.Renamed R q) : q.Renamed (fun v w => R w v) p :=
  ⟨renamed.field.symm, renamed.index.flip⟩

theorem Expr.Renamed.symm {e e' : Expr α} (renamed : e.Renamed R e') :
    e'.Renamed (fun v w => R w v) e := by
  cases renamed with
  | const => exact .const _
  | index => exact .index _
  | arg => exact .arg _
  | load place => exact .load place.symm
  | binary lhs rhs => exact .binary lhs rhs
  | unary operand => exact .unary operand
  | compare lhs rhs => exact .compare lhs rhs

theorem Instr.Renamed.symm {i j : Instr α} (renamed : i.Renamed R j) :
    j.Renamed (fun v w => R w v) i := by
  cases renamed with
  | define dst expr => exact .define dst expr.symm
  | store place value => exact .store place.symm value
  | readGrad target place => exact .readGrad target place.symm
  | propagate target source scale =>
    cases scale with
    | one => exact .propagate target source .one
    | minusOne => exact .propagate target source .minusOne
    | value factor => exact .propagate target source (.value factor)
  | addGrad place source => exact .addGrad place.symm source

theorem Block.Renamed.symm {a b : Block α} (renamed : a.Renamed R b) :
    b.Renamed (fun v w => R w v) a := by
  induction renamed with
  | nil => exact .nil
  | instr first _ ih => exact .instr first.symm ih
  | branch cond _ _ _ ihTrue ihFalse ihRest => exact .branch cond ihTrue ihFalse ihRest

structure Field.Serves (use : Use) (field field' : Field α) : Prop where
  shape : field'.shape = field.shape
  data : use = .read → field'.data = field.data
  grad : use = .gradRead ∨ use = .gradWrite → ∀ grad, field.grad? = some grad → field'.grad? = some grad

variable [Scalar α]

-- A relation between tables that no use in a range ends.
structure FieldTable.Sustained (T : FieldTable α → FieldTable α → Prop) (uses : Use → String → Prop) :
    Prop where
  serves {t t' use name field} (related : T t t') (used : uses use name)
    (found : t.find? name = some field) : ∃ field', t'.find? name = some field' ∧ field.Serves use field'
  store {t t' name} (related : T t t') (used : uses .write name) (position : Nat) (x : α) :
    T (t.setAt name position x) (t'.setAt name position x)
  add {t t' name field} (related : T t t') (used : uses .gradWrite name)
    (found : t.find? name = some field) (graded : field.hasGrad = true) (position : Nat) (x : α) :
    T (t.addGradAt name position x) (t'.addGradAt name position x)

structure Machine.Linked (R : ValueId → ValueId → Prop) (T : FieldTable α → FieldTable α → Prop)
    (m m' : Machine α) : Prop where
  table : T m.table m'.table
  values {v w} : R v w → m'.value? w = m.value? v
  adjoints {v w} : R v w → m'.adjoint? w = m.adjoint? v
  room {v w} : R v w → v.index < m.values.size → w.index < m'.values.size

namespace Machine.Linked

variable {T : FieldTable α → FieldTable α → Prop} {uses : Use → String → Prop} {m m' : Machine α}

omit [Scalar α] in
theorem adjoint_room {v : ValueId} {x : α} (held : m.adjoint? v = some x) : v.index < m.adjoints.size :=
  (Array.getElem?_eq_some_iff.mp held).1

omit [Scalar α] in
theorem setValue (linked : m.Linked R T m') (one : OneToOne R) {v w : ValueId} (named : R v w)
    (room : v.index < m.values.size) (x : α) : (m.setValue v x).Linked R T (m'.setValue w x) where
  table := linked.table
  values {v' w'} named' := by
    by_cases same : v' = v
    · have same' : w' = w := (one named' named).mp same
      rw [same, same', Machine.setValue_self _ _ _ room, Machine.setValue_self _ _ _ (linked.room named room)]
    · have other : w' ≠ w := mt (one named' named).mpr same
      rw [Machine.setValue_other _ _ _ _ same, Machine.setValue_other _ _ _ _ other, linked.values named']
  adjoints := linked.adjoints
  room named' room' := by
    rw [Machine.setValue_values_size] at room' ⊢
    exact linked.room named' room'

omit [Scalar α] in
theorem setAdjoint (linked : m.Linked R T m') (one : OneToOne R) {v w : ValueId} (named : R v w)
    {old : α} (held : m.adjoint? v = some old) (x : α) :
    (m.setAdjoint v x).Linked R T (m'.setAdjoint w x) where
  table := linked.table
  values := linked.values
  adjoints {v' w'} named' := by
    have held' : m'.adjoint? w = some old := (linked.adjoints named).trans held
    by_cases same : v' = v
    · have same' : w' = w := (one named' named).mp same
      rw [same, same', Machine.setAdjoint_self _ _ _ (adjoint_room held),
        Machine.setAdjoint_self _ _ _ (adjoint_room held')]
    · have other : w' ≠ w := mt (one named' named).mpr same
      rw [Machine.setAdjoint_other _ _ _ _ same, Machine.setAdjoint_other _ _ _ _ other,
        linked.adjoints named']
  room := linked.room

omit [Scalar α] in
theorem setTable (linked : m.Linked R T m') {t t' : FieldTable α} (related : T t t') :
    (m.setTable t).Linked R T (m'.setTable t') :=
  ⟨related, linked.values, linked.adjoints, linked.room⟩

theorem coordinates (linked : m.Linked R T m') {vs ws : List ValueId} (named : List.Forall₂ R vs ws) :
    ws.mapM m'.coordinate? = vs.mapM m.coordinate? := by
  induction named with
  | nil => rfl
  | cons head _ ih =>
    rw [List.mapM_cons, List.mapM_cons, ih, Machine.coordinate?, Machine.coordinate?, linked.values head]

theorem position? (linked : m.Linked R T m') (sustained : FieldTable.Sustained T uses) {use : Use}
    {p q : Place} (renamed : p.Renamed R q) (used : uses use p.field) {position : Nat}
    (at_ : m.position? p = some position) : m'.position? q = some position := by
  obtain ⟨index, field, held, found, inside⟩ := Machine.position?_eq_some.mp at_
  obtain ⟨field', found', serves⟩ := sustained.serves linked.table used found
  refine Machine.position?_eq_some.mpr ⟨index, field', ?_, ?_, ?_⟩
  · exact (linked.coordinates renamed.index).trans held
  · rwa [renamed.field]
  · rwa [Field.locate_shape serves.shape]

theorem hasGrad (linked : m.Linked R T m') (sustained : FieldTable.Sustained T uses) {use : Use}
    {name : String} (used : uses use name) (grad : use = .gradRead ∨ use = .gradWrite)
    (graded : Frame.HasGrad m name) : Frame.HasGrad m' name := by
  obtain ⟨field, found, has⟩ := graded
  obtain ⟨field', found', serves⟩ := sustained.serves linked.table used found
  obtain ⟨g, stored⟩ := Option.isSome_iff_exists.mp has
  refine ⟨field', found', ?_⟩
  rw [Field.hasGrad, serves.grad grad g stored]
  rfl

theorem gradAt (linked : m.Linked R T m') (sustained : FieldTable.Sustained T uses) {name : String}
    (used : uses .gradRead name) (graded : Frame.HasGrad m name) (position : Nat) :
    m'.table.gradAt name position = m.table.gradAt name position := by
  obtain ⟨field, found, has⟩ := graded
  obtain ⟨field', found', serves⟩ := sustained.serves linked.table used found
  obtain ⟨g, stored⟩ := Option.isSome_iff_exists.mp has
  simp only [FieldTable.gradAt, found, found', Field.gradAt, stored, serves.grad (.inl rfl) g stored]

end Machine.Linked

theorem Block.Renamed.taken {a a' b b' : Block α} (onTrue : a.Renamed R a') (onFalse : b.Renamed R b') (x : α) :
    (Frame.taken x a b).Renamed R (Frame.taken x a' b') := by
  unfold Frame.taken
  split
  · exact onFalse
  · exact onTrue

namespace Frame

variable {T : FieldTable α → FieldTable α → Prop} {uses : Use → String → Prop} {f g : Frame α}
  {m m' m₁ : Machine α}

theorem Evaluates.linked (frames : f.Alike g) (sustained : FieldTable.Sustained T uses)
    (linked : m.Linked R T m') {e e' : Expr α} (renamed : e.Renamed R e')
    (loads : ∀ p, e = .load p → uses .read p.field) {x : α} (evaluates : f.Evaluates m e x) :
    g.Evaluates m' e' x := by
  cases renamed with
  | const => exact evaluates
  | index axis =>
    obtain ⟨i, there, rfl⟩ := evaluates
    exact ⟨i, frames.2 ▸ there, rfl⟩
  | arg position =>
    have there : f.args[position]? = some x := evaluates
    exact (congrArg (·[position]?) frames.1).trans there
  | load place =>
    obtain ⟨field, p, found, at_, rfl⟩ := evaluates
    have used := loads _ rfl
    obtain ⟨field', found', serves⟩ := sustained.serves linked.table used found
    refine ⟨field', p, ?_, linked.position? sustained place used at_, ?_⟩
    · rwa [place.field]
    · rw [serves.data rfl]
  | binary lhs rhs | compare lhs rhs =>
    obtain ⟨a, b, left, right, rfl⟩ := evaluates
    exact ⟨a, b, (linked.values lhs).trans left, (linked.values rhs).trans right, rfl⟩
  | unary operand =>
    obtain ⟨a, read, rfl⟩ := evaluates
    exact ⟨a, (linked.values operand).trans read, rfl⟩

theorem Steps.linked (frames : f.Alike g) (one : OneToOne R) (sustained : FieldTable.Sustained T uses)
    (linked : m.Linked R T m') {i j : Instr α} (renamed : i.Renamed R j)
    (used : ∀ use name, i.use? = some (use, name) → uses use name) (step : f.Steps m i m₁) :
    ∃ m₁', g.Steps m' j m₁' ∧ m₁.Linked R T m₁' := by
  cases step with
  | @define dst e x evaluates room =>
    cases renamed with
    | define dst expr =>
      have loads : ∀ p, e = .load p → uses .read p.field := fun p load => used _ _ (by rw [load]; rfl)
      exact ⟨_, .define (evaluates.linked frames sustained linked expr loads) (linked.room dst room),
        linked.setValue one dst room _⟩
  | store at_ value =>
    cases renamed with
    | store place named =>
      have writes := used _ _ rfl
      refine ⟨_, .store (linked.position? sustained place writes at_)
        ((linked.values named).trans value), linked.setTable ?_⟩
      rw [place.field]
      exact sustained.store linked.table writes _ _
  | @readGrad target p at_ old here graded held =>
    cases renamed with
    | readGrad named place =>
      have reads := used _ _ rfl
      refine ⟨_, .readGrad (linked.position? sustained place reads here) ?_
        ((linked.adjoints named).trans held), ?_⟩
      · rw [place.field]
        exact linked.hasGrad sustained reads (.inl rfl) graded
      · rw [place.field, linked.gradAt sustained reads graded]
        exact linked.setAdjoint one named held _
  | propagate factor from_ held =>
    cases renamed with
    | propagate target source scale =>
      refine ⟨_, .propagate (factor_ok.mpr ⟨?_, rfl⟩) ((linked.adjoints source).trans from_)
        ((linked.adjoints target).trans held), linked.setAdjoint one target held _⟩
      obtain ⟨there, -⟩ := factor_ok.mp factor
      cases scale with
      | one | minusOne => exact there
      | value named => exact (linked.values named).trans there
  | addGrad at_ graded from_ =>
    cases renamed with
    | addGrad place source =>
      have adds := used _ _ rfl
      obtain ⟨field, found, has⟩ := graded
      refine ⟨_, .addGrad (linked.position? sustained place adds at_) ?_
        ((linked.adjoints source).trans from_), linked.setTable ?_⟩
      · rw [place.field]
        exact linked.hasGrad sustained adds (.inr rfl) ⟨field, found, has⟩
      · rw [place.field]
        exact sustained.add linked.table adds found has _ _

-- A whole run under other names; the induction is on the run, and each statement moves both machines.
theorem Runs.linked (frames : f.Alike g) (one : OneToOne R) (sustained : FieldTable.Sustained T uses)
    {a b : Block α} (runs : f.Runs m a m₁) (linked : m.Linked R T m') (renamed : a.Renamed R b)
    (used : ∀ use name, a.Uses use name → uses use name) :
    ∃ m₁', g.Runs m' b m₁' ∧ m₁.Linked R T m₁' := by
  induction runs generalizing m' b with
  | nil =>
    cases renamed
    exact ⟨m', .nil, linked⟩
  | @instr m m₁ m₂ i rest step others ih =>
    cases renamed with
    | instr first renamedRest =>
      obtain ⟨n₁, step', linked₁⟩ := step.linked frames one sustained linked first fun use name uses =>
        used use name ⟨i, List.mem_cons_self, uses⟩
      obtain ⟨n₂, others', linked₂⟩ := ih linked₁ renamedRest fun use name uses =>
        used use name (uses.inside (List.subset_cons_self _ _))
      exact ⟨n₂, .instr step' others', linked₂⟩
  | @branch m m₁ m₂ v x onTrue onFalse rest value inner others ihInner ihRest =>
    cases renamed with
    | @branch _ w _ a' _ b' _ _ cond renamedTrue renamedFalse renamedRest =>
      obtain ⟨n₁, inner', linked₁⟩ := ihInner linked (renamedTrue.taken renamedFalse x) fun use name uses =>
        used use name (uses.inside (taken_subset v x onTrue onFalse rest))
      obtain ⟨n₂, others', linked₂⟩ := ihRest linked₁ renamedRest fun use name uses =>
        used use name (uses.inside Block.rest_subset)
      exact ⟨n₂, .branch ((linked.values cond).trans value) inner' others', linked₂⟩

end Frame

end FieldKernel
