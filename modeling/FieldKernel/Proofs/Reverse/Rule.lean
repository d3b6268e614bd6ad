import FieldKernel.Proofs.Reverse.Factor
import FieldKernel.Proofs.Reverse.Recompute
import FieldKernel.Proofs.Reverse.Tape

-- The rule of a statement does to a machine what the event of the statement does to the walk it mirrors.
namespace FieldKernel

variable {α : Type} [Scalar α]

-- A machine in the state of a walk, with an adjoint for each value below the limit.
structure Mirrors (limit : Nat) (m : Machine α) (s : Sweep α) : Prop where
  table : m.table = s.table
  adjoints : ∀ v, v.index < limit → m.adjoint? v = some (s.adjoint v)

omit [Scalar α] in
theorem Mirrors.extended {limit k : Nat} {m m' : Machine α} {s : Sweep α} (mirrors : Mirrors limit m s)
    (extended : m.Extended k m') : Mirrors limit m' s where
  table := extended.table.trans mirrors.table
  adjoints := fun v inside => by
    rw [Machine.adjoint?, extended.adjoints]
    exact mirrors.adjoints v inside

theorem Mirrors.add {limit : Nat} {m : Machine α} {s : Sweep α} (mirrors : Mirrors limit m s) {v : ValueId}
    {old delta : α} (inside : v.index < limit) (there : m.adjoint? v = some old) :
    Mirrors limit (m.setAdjoint v (old + delta)) (s.add v delta) where
  table := mirrors.table
  adjoints := fun w below => by
    by_cases same : w = v
    · subst same
      cases there.symm.trans (mirrors.adjoints w below)
      have room : w.index < m.adjoints.size := by
        have := there
        rw [Machine.adjoint?, Array.getElem?_eq_some_iff] at this
        exact this.1
      simp [Machine.setAdjoint_self _ _ _ room, Sweep.add]
    · rw [Machine.setAdjoint_other _ _ _ _ same, mirrors.adjoints w below]
      simp [Sweep.add, same]

def Reversal.Recalls (r : Reversal α) (k : Nat) (m : Machine α) (v : ValueId) (x : α) : Prop :=
  v.index < k ∧ (r.activity.Clean v → m.value? v = some x)

-- Code that, numbered from `k` on and run on a machine, does to every walk that the machine mirrors
-- what a function does, and keeps the values from before.
def Performs (frame : Frame α) (limit k : Nat) (m : Machine α) (code : Fresh (List (Instr α)))
    (f : Sweep α → Sweep α) : Prop :=
  ∀ instrs k' m' s, code.run k = .ok (instrs, k') → frame.Runs m (Block.ofInstrs instrs) m' →
    Mirrors limit m s → Mirrors limit m' (f s) ∧ ∀ v, v.index < k → m'.value? v = m.value? v

namespace Reversal

variable {r : Reversal α} {frame : Frame α} {limit k : Nat} {m : Machine α} {f g : Sweep α → Sweep α}

omit [Scalar α] in
theorem Recalls.later {k' : Nat} {m' : Machine α} {v : ValueId} {x : α} (recalls : r.Recalls k m v x)
    (later : k ≤ k') (kept : ∀ v, v.index < k → m'.value? v = m.value? v) : r.Recalls k' m' v x :=
  ⟨Nat.lt_of_lt_of_le recalls.1 later, fun clean => (kept v recalls.1).trans (recalls.2 clean)⟩

omit [Scalar α] in
theorem primals_ok {vs : List ValueId} :
    r.primals vs = .ok () ↔ ∀ v ∈ vs, r.activity.Clean v := by
  induction vs with
  | nil => simp [primals]
  | cons v vs ih =>
    have head : r.primal v = .ok () ↔ r.activity.Clean v := by
      unfold primal Activity.Clean
      split <;> simp_all
    simp only [primals, Except.then_ok, head, ih, List.forall_mem_cons]

theorem performs_none : Performs frame limit k m (return []) (fun s => s) := by
  intro instrs k' m' s ran runs mirrors
  obtain ⟨rfl, rfl⟩ := Fresh.run_pure_ok.mp ran
  cases runs
  exact ⟨mirrors, fun _ _ => rfl⟩

theorem performs_when {code : Fresh (List (Instr α))} {needed : Bool}
    (performs : needed = true → Performs frame limit k m code f) :
    Performs frame limit k m (when needed code) (fun s => if needed then f s else s) := by
  cases needed with
  | true => exact performs rfl
  | false => exact performs_none

theorem performs_guarded {vs : List ValueId} {code : Fresh (List (Instr α))}
    (performs : (∀ v ∈ vs, r.activity.Clean v) → Performs frame limit k m code f) :
    Performs frame limit k m (do r.primals vs; code) f := by
  intro instrs k' m' s ran runs mirrors
  obtain ⟨_, _, guarded, ranCode⟩ := Fresh.run_bind_ok.mp ran
  obtain ⟨clean, rfl⟩ := Fresh.run_lift_ok.mp guarded
  exact performs (primals_ok.mp clean) instrs k' m' s ranCode runs mirrors

theorem performs_both {first second : Fresh (List (Instr α))} (grows : first.Grows)
    (left : Performs frame limit k m first f)
    (right : ∀ k' m', k ≤ k' → (∀ v, v.index < k → m'.value? v = m.value? v) →
      Performs frame limit k' m' second g) :
    Performs frame limit k m (do return (← first) ++ (← second)) (g ∘ f) := by
  intro instrs k'' m'' s ran runs mirrors
  obtain ⟨before, k', ranFirst, rest⟩ := Fresh.run_bind_ok.mp ran
  obtain ⟨after, l, ranSecond, same⟩ := Fresh.run_bind_ok.mp rest
  obtain ⟨rfl, rfl⟩ := Fresh.run_pure_ok.mp same
  rw [Block.ofInstrs_append] at runs
  obtain ⟨m', runsFirst, runsSecond⟩ := Frame.runs_append.mp runs
  have later := grows k _ k' ranFirst
  obtain ⟨mirrors', kept⟩ := left before k' m' s ranFirst runsFirst mirrors
  obtain ⟨mirrors'', kept'⟩ := right k' m' later kept after _ m'' _ ranSecond runsSecond mirrors'
  exact ⟨mirrors'', fun v old =>
    (kept' v (Nat.lt_of_lt_of_le old later)).trans (kept v old)⟩

variable {target source : ValueId} {x : α}

theorem performs_propagate {scale : Scale} (inside : target.index < limit) (from_ : source.index < limit)
    (factor : ∀ y, frame.factor scale m = .ok y m → y = x) :
    Performs frame limit k m (return [.propagate target source scale])
      (fun s => s.add target (s.adjoint source * x)) := by
  intro instrs k' m' s ran runs mirrors
  obtain ⟨rfl, rfl⟩ := Fresh.run_pure_ok.mp ran
  cases runs with
  | instr step others =>
    cases others
    cases step with
    | propagate scaled there adjoint =>
      cases factor _ scaled
      cases there.symm.trans (mirrors.adjoints source from_)
      exact ⟨mirrors.add inside adjoint, fun _ _ => rfl⟩

theorem performs_scaled {needed : List ValueId} {factor : Fresh (ValueId × List (Instr α))}
    (inside : target.index < limit) (from_ : source.index < limit)
    (yields : (∀ v ∈ needed, r.activity.Clean v) → Yields frame k m factor x) :
    Performs frame limit k m (r.scaled target source needed factor)
      (fun s => s.add target (s.adjoint source * x)) := by
  refine performs_guarded fun clean => ?_
  intro instrs k' m' s ran runs mirrors
  obtain ⟨⟨v, before⟩, l, ranFactor, same⟩ := Fresh.run_bind_ok.mp ran
  obtain ⟨rfl, rfl⟩ := Fresh.run_pure_ok.mp same
  rw [Block.ofInstrs_append] at runs
  obtain ⟨m₁, runsFactor, runsLast⟩ := Frame.runs_append.mp runs
  obtain ⟨-, extended, value⟩ := yields clean v before _ m₁ ranFactor runsFactor
  have last : Performs frame limit k m₁ (return [.propagate target source (.value v)])
      (fun s => s.add target (s.adjoint source * x)) :=
    performs_propagate inside from_ fun y scaled => by
      obtain ⟨held, -⟩ := Frame.factor_ok.mp scaled
      exact Option.some.inj (held.symm.trans value)
  obtain ⟨mirrors', kept⟩ := last _ k m' s rfl runsLast (mirrors.extended extended)
  exact ⟨mirrors', fun w old => (kept w old).trans (extended.values w old)⟩

omit [Scalar α] in
theorem when_grows {needed : Bool} {code : Fresh (List (Instr α))} (grows : code.Grows) :
    (when needed code).Grows := by
  cases needed with
  | true => exact grows
  | false => exact Fresh.grows_pure _

omit [Scalar α] in
theorem scaled_grows {needed : List ValueId} {factor : Fresh (ValueId × List (Instr α))}
    (grows : factor.Grows) : (r.scaled target source needed factor).Grows :=
  Fresh.grows_bind (Fresh.grows_lift _) fun _ =>
    Fresh.grows_bind grows fun (_, _) => Fresh.grows_pure _

variable {dst lhs rhs operand : ValueId} {a b : α}

theorem performs_binary {op : BinaryOp} (left : r.Recalls k m lhs a) (right : r.Recalls k m rhs b)
    (result : r.Recalls k m dst (op.apply a b)) (insideLeft : lhs.index < limit)
    (insideRight : rhs.index < limit) (inside : dst.index < limit) :
    Performs frame limit k m (r.binary dst op lhs rhs)
      ((fun s => s.addIf (r.needs rhs) rhs (s.adjoint dst * op.rightPartial a b)) ∘
        (fun s => s.addIf (r.needs lhs) lhs (s.adjoint dst * op.leftPartial a b))) := by
  have one : ∀ (m : Machine α) y, frame.factor .one m = .ok y m → y = Scalar.one :=
    fun m y factor => (Frame.factor_ok.mp factor).1
  have minusOne : ∀ (m : Machine α) y, frame.factor .minusOne m = .ok y m → y = Scalar.minusOne :=
    fun m y factor => (Frame.factor_ok.mp factor).1
  cases op with
  | add =>
    refine performs_both (when_grows (Fresh.grows_pure _))
      (performs_when fun _ => performs_propagate insideLeft inside (one m)) fun k' m' later kept => ?_
    exact performs_when fun _ => performs_propagate insideRight inside (one m')
  | sub =>
    refine performs_both (when_grows (Fresh.grows_pure _))
      (performs_when fun _ => performs_propagate insideLeft inside (one m)) fun k' m' later kept => ?_
    exact performs_when fun _ => performs_propagate insideRight inside (minusOne m')
  | mul =>
    refine performs_both (when_grows (scaled_grows (Fresh.grows_pure _)))
      (performs_when fun _ => performs_scaled insideLeft inside fun clean => ?_)
      fun k' m' later kept => performs_when fun _ => performs_scaled insideRight inside fun clean => ?_
    · exact given_yields (right.2 (clean rhs (by simp))) right.1
    · have left := left.later later kept
      exact given_yields (left.2 (clean lhs (by simp))) left.1
  | div =>
    refine performs_both (when_grows (scaled_grows (reciprocal_grows rhs)))
      (performs_when fun _ => performs_scaled insideLeft inside fun clean => ?_)
      fun k' m' later kept => performs_when fun _ => performs_scaled insideRight inside fun clean => ?_
    · exact reciprocal_yields (right.2 (clean rhs (by simp))) right.1
    · have right := right.later later kept
      have result := result.later later kept
      exact quotientByDivisor_yields (result.2 (clean dst (by simp))) (right.2 (clean rhs (by simp)))
  | pow =>
    refine performs_both (when_grows (scaled_grows (powerByBase_grows lhs rhs)))
      (performs_when fun _ => performs_scaled insideLeft inside fun clean => ?_)
      fun k' m' later kept => performs_when fun _ => performs_scaled insideRight inside fun clean => ?_
    · exact powerByBase_yields (left.2 (clean lhs (by simp))) (right.2 (clean rhs (by simp)))
        left.1 right.1
    · have left := left.later later kept
      have result := result.later later kept
      exact powerByExponent_yields (left.2 (clean lhs (by simp))) (result.2 (clean dst (by simp)))
        result.1
  | max | min =>
    refine performs_guarded fun clean => performs_both (when_grows (scaled_grows (temp_grows _)))
      (performs_when fun _ => performs_scaled insideLeft inside fun _ => ?_)
      fun k' m' later kept => performs_when fun _ => performs_scaled insideRight inside fun _ => ?_
    · exact temp_yields_compare (left.2 (clean lhs (by simp))) (right.2 (clean rhs (by simp)))
    · have left := left.later later kept
      have right := right.later later kept
      exact temp_yields_compare (left.2 (clean lhs (by simp))) (right.2 (clean rhs (by simp)))
  | mod | floorDiv =>
    intro instrs k' m' s ran
    cases ran

theorem performs_unary {op : UnaryOp} (value : r.Recalls k m operand a)
    (result : r.Recalls k m dst (op.apply a)) (insideOperand : operand.index < limit)
    (inside : dst.index < limit) (passes : op ≠ .sgn) :
    Performs frame limit k m (r.unary dst op operand)
      (fun s => s.add operand (s.adjoint dst * op.partial_ a)) := by
  cases op with
  | neg =>
    exact performs_propagate insideOperand inside fun y factor => (Frame.factor_ok.mp factor).1
  | sin =>
    refine performs_scaled insideOperand inside fun clean => ?_
    exact temp_yields_unary (value.2 (clean operand (by simp)))
  | cos =>
    refine performs_scaled insideOperand inside fun clean => ?_
    exact negatedSine_yields (value.2 (clean operand (by simp)))
  | exp =>
    refine performs_scaled insideOperand inside fun clean => ?_
    exact given_yields (result.2 (clean dst (by simp))) result.1
  | log =>
    refine performs_scaled insideOperand inside fun clean => ?_
    exact reciprocal_yields (value.2 (clean operand (by simp))) value.1
  | sqrt =>
    refine performs_scaled insideOperand inside fun clean => ?_
    exact halfByRoot_yields (result.2 (clean dst (by simp))) result.1
  | tanh =>
    refine performs_scaled insideOperand inside fun clean => ?_
    exact oneLessSquare_yields (result.2 (clean dst (by simp)))
  | abs =>
    refine performs_scaled insideOperand inside fun clean => ?_
    exact temp_yields_unary (value.2 (clean operand (by simp)))
  | sgn => exact absurd rfl passes

omit [Scalar α] in
theorem guarded_grows {vs : List ValueId} {code : Fresh (List (Instr α))} (grows : code.Grows) :
    Fresh.Grows (do r.primals vs; code) := Fresh.grows_bind (Fresh.grows_lift _) fun _ => grows

omit [Scalar α] in
theorem both_grows {first second : Fresh (List (Instr α))} (left : first.Grows) (right : second.Grows) :
    Fresh.Grows (do return (← first) ++ (← second)) :=
  Fresh.grows_bind left fun _ => Fresh.grows_bind right fun _ => Fresh.grows_pure _

theorem binary_grows (op : BinaryOp) : (r.binary dst op lhs rhs).Grows := by
  have given : ∀ v, (given v : Fresh (ValueId × List (Instr α))).Grows := fun v => Fresh.grows_pure _
  cases op with
  | add | sub => exact both_grows (when_grows (Fresh.grows_pure _)) (when_grows (Fresh.grows_pure _))
  | mul => exact both_grows (when_grows (scaled_grows (given _))) (when_grows (scaled_grows (given _)))
  | div =>
    refine both_grows (when_grows (scaled_grows (reciprocal_grows _))) (when_grows (scaled_grows ?_))
    exact andThen_grows (temp_grows _) fun _ => temp_grows _
  | pow =>
    refine both_grows (when_grows (scaled_grows (powerByBase_grows _ _))) (when_grows (scaled_grows ?_))
    exact andThen_grows (temp_grows _) fun _ => temp_grows _
  | max | min =>
    exact guarded_grows (both_grows (when_grows (scaled_grows (temp_grows _)))
      (when_grows (scaled_grows (temp_grows _))))
  | mod | floorDiv =>
    intro k b k' ran
    cases ran

theorem unary_grows (op : UnaryOp) : (r.unary dst op operand).Grows := by
  cases op with
  | neg | sgn => exact Fresh.grows_pure _
  | sin | abs => exact scaled_grows (temp_grows _)
  | cos => exact scaled_grows (andThen_grows (temp_grows _) fun _ => temp_grows _)
  | exp => exact scaled_grows (Fresh.grows_pure _)
  | log => exact scaled_grows (reciprocal_grows _)
  | sqrt => exact scaled_grows (halfByRoot_grows _)
  | tanh => exact scaled_grows (oneLessSquare_grows _)

theorem instr_grows (i : Instr α) : (r.instr i).Grows := by
  cases i with
  | define dst e =>
    refine when_grows ?_
    cases e with
    | load place => exact guarded_grows (Fresh.grows_pure _)
    | binary op lhs rhs => exact binary_grows op
    | unary op operand => exact unary_grows op
    | const | index | arg | compare => exact Fresh.grows_pure _
  | store place v => exact when_grows (guarded_grows (Fresh.grows_pure _))
  | readGrad | propagate | addGrad =>
    intro k b k' ran
    cases ran

theorem performs_load {place : Place} {p : Nat} (inside : dst.index < limit)
    (at_ : (∀ v ∈ place.index, r.activity.Clean v) → m.position? place = some p) :
    Performs frame limit k m (r.expr dst (.load place))
      (fun s => { s with table := s.table.addGradAt place.field p (s.adjoint dst) }) := by
  refine performs_guarded fun clean => ?_
  intro instrs k' m' s ran runs mirrors
  obtain ⟨rfl, rfl⟩ := Fresh.run_pure_ok.mp ran
  cases runs with
  | instr step others =>
    cases others
    cases step with
    | addGrad here _ there =>
      cases here.symm.trans (at_ clean)
      cases there.symm.trans (mirrors.adjoints dst inside)
      refine ⟨⟨?_, mirrors.adjoints⟩, fun _ _ => rfl⟩
      rw [Machine.setTable_table, mirrors.table]

theorem performs_store {place : Place} {p : Nat} {v : ValueId} (inside : v.index < limit)
    (at_ : (∀ v ∈ place.index, r.activity.Clean v) → m.position? place = some p) :
    Performs frame limit k m (do r.primals place.index; return [.readGrad v place])
      (fun s => s.add v (s.table.gradAt place.field p)) := by
  refine performs_guarded fun clean => ?_
  intro instrs k' m' s ran runs mirrors
  obtain ⟨rfl, rfl⟩ := Fresh.run_pure_ok.mp ran
  cases runs with
  | instr step others =>
    cases others
    cases step with
    | readGrad here _ there =>
      cases here.symm.trans (at_ clean)
      have same : m.table.gradAt place.field p = s.table.gradAt place.field p := by rw [mirrors.table]
      exact ⟨same ▸ mirrors.add inside there, fun _ _ => rfl⟩

def Settled (r : Reversal α) : Instr α → Prop
  | .define dst (.unary op operand) => r.needs dst = true → op ≠ .sgn ∧ r.needs operand = true
  | _ => True

-- The rule of a statement does what the walk does at the event of the statement, wherever it can
-- recall the operands and the result.
theorem performs_instr {forward : Frame α} {mF mF' : Machine α} {i : Instr α} {written : String → Prop}
    (step : forward.Steps mF i mF') (settled : r.Settled i)
    (operands : ∀ v ∈ i.operands, v.index < k ∧ (r.activity.Clean v → m.value? v = mF.value? v))
    (result : ∀ v ∈ i.dst?, v.index < k ∧ (r.activity.Clean v → m.value? v = mF'.value? v))
    (insides : ∀ v ∈ i.operands ++ i.dst?.toList, v.index < limit)
    (alike : mF.table.SameOutside written m.table) :
    Performs frame limit k m (r.instr i) (r.walk (mF.record i)) := by
  have recalls : ∀ v ∈ i.operands, ∀ x, mF.value? v = some x → r.Recalls k m v x :=
    fun v used x value => ⟨(operands v used).1, fun clean => ((operands v used).2 clean).trans value⟩
  have place : ∀ (place : Place) p, place.index ⊆ i.operands → mF.position? place = some p →
      (∀ v ∈ place.index, r.activity.Clean v) → m.position? place = some p :=
    fun place p inside at_ clean =>
      (Machine.position?_congr alike.agreeIn fun v used =>
        (operands v (inside used)).2 (clean v used)).trans at_
  cases step with
  | @define dst e x evaluates room =>
    have inside : dst.index < limit := insides dst (by simp [Instr.dst?])
    have held : r.Recalls k m dst x := by
      obtain ⟨old, same⟩ := result dst rfl
      exact ⟨old, fun clean => (same clean).trans (Machine.setValue_self _ _ _ room)⟩
    cases e with
    | load location =>
      obtain ⟨field, p, found, at_, rfl⟩ := evaluates
      have performs : Performs frame limit k m (r.expr dst (.load location))
          (fun s => { s with table := s.table.addGradAt location.field p (s.adjoint dst) }) :=
        performs_load inside (place location p (List.Subset.refl _) at_)
      rw [Machine.record, at_]
      exact performs_when fun _ => performs
    | binary op lhs rhs =>
      obtain ⟨a, b, left, right, rfl⟩ := evaluates
      have performs : Performs frame limit k m (r.binary dst op lhs rhs) _ :=
        performs_binary (recalls lhs (by simp [Instr.operands, Expr.operands]) a left)
          (recalls rhs (by simp [Instr.operands, Expr.operands]) b right) held
          (insides lhs (by simp [Instr.operands, Expr.operands]))
          (insides rhs (by simp [Instr.operands, Expr.operands])) inside
      rw [Machine.record, left, right]
      exact performs_when fun _ => performs
    | unary op operand =>
      obtain ⟨a, value, rfl⟩ := evaluates
      have performs : r.needs dst = true → Performs frame limit k m (r.unary dst op operand)
          (fun s => s.addIf (r.needs operand) operand (s.adjoint dst * op.partial_ a)) := fun needed => by
        obtain ⟨passes, passed⟩ := settled needed
        rw [passed]
        exact performs_unary (recalls operand (by simp [Instr.operands, Expr.operands]) a value) held
          (insides operand (by simp [Instr.operands, Expr.operands])) inside passes
      rw [Machine.record, value]
      exact performs_when performs
    | const | index | arg | compare =>
      have same : (fun s : Sweep α => if r.needs dst then s else s) = fun s => s := by
        funext s
        split <;> rfl
      have performs : Performs frame limit k m (when (r.needs dst) (return []))
          (fun s => if r.needs dst then s else s) := performs_when fun _ => performs_none
      rw [same] at performs
      exact performs
  | @store location v p x at_ value =>
    have performs : Performs frame limit k m (do r.primals location.index; return [.readGrad v location]) _ :=
      performs_store (insides v (by simp [Instr.operands])) (place location p (by simp [Instr.operands]) at_)
    rw [Machine.record, at_]
    exact performs_when fun _ => performs
  | readGrad | propagate | addGrad =>
    intro instrs k' m' s ran
    cases ran

end Reversal

end FieldKernel
