import FieldKernel.Reverse.Basic
import FieldKernel.Proofs.Execution.Step

-- The code that computes the factors of the chain rule, in fresh values.
namespace FieldKernel

variable {α : Type} [Scalar α]

structure Machine.Extended (k : Nat) (m m' : Machine α) : Prop where
  table : m'.table = m.table
  adjoints : m'.adjoints = m.adjoints
  values : ∀ v, v.index < k → m'.value? v = m.value? v

namespace Machine.Extended

variable {k l : Nat} {a b c : Machine α}

omit [Scalar α] in
theorem refl (m : Machine α) : Extended k m m := ⟨rfl, rfl, fun _ _ => rfl⟩

omit [Scalar α] in
theorem trans (first : Extended k a b) (second : Extended l b c) (later : k ≤ l) : Extended k a c where
  table := second.table.trans first.table
  adjoints := second.adjoints.trans first.adjoints
  values := fun v old =>
    (second.values v (Nat.lt_of_lt_of_le old later)).trans (first.values v old)

end Machine.Extended

def Fresh.Grows {β : Type} (x : Fresh β) : Prop := ∀ k b k', x.run k = .ok (b, k') → k ≤ k'

namespace Fresh

variable {β γ : Type}

theorem run_bind_ok {x : Fresh β} {f : β → Fresh γ} {k k'' : Nat} {c : γ} :
    (x >>= f).run k = .ok (c, k'') ↔ ∃ b k', x.run k = .ok (b, k') ∧ (f b).run k' = .ok (c, k'') := by
  refine Except.bind_ok.trans ⟨?_, ?_⟩
  · rintro ⟨⟨b, k'⟩, first, second⟩
    exact ⟨b, k', first, second⟩
  · rintro ⟨b, k', first, second⟩
    exact ⟨(b, k'), first, second⟩

theorem run_pure_ok {b c : β} {k k' : Nat} :
    (pure b : Fresh β).run k = .ok (c, k') ↔ c = b ∧ k' = k := by
  change Except.ok (b, k) = .ok (c, k') ↔ _
  simp [eq_comm]

theorem run_lift_ok {x : Except KernelFault β} {c : β} {k k' : Nat} :
    (liftM x : Fresh β).run k = .ok (c, k') ↔ x = .ok c ∧ k' = k := by
  cases x with
  | error fault =>
    change Except.error fault = .ok (c, k') ↔ _
    simp
  | ok b =>
    change Except.ok (b, k) = .ok (c, k') ↔ _
    simp [eq_comm]

theorem grows_pure (b : β) : Grows (pure b) := fun k _ _ ran =>
  (run_pure_ok.mp ran).2 ▸ Nat.le_refl k

theorem grows_lift (x : Except KernelFault β) : Grows (liftM x) := fun k _ _ ran =>
  (run_lift_ok.mp ran).2 ▸ Nat.le_refl k

theorem grows_bind {x : Fresh β} {f : β → Fresh γ} (first : Grows x) (second : ∀ b, Grows (f b)) :
    Grows (x >>= f) := by
  intro k c k'' ran
  obtain ⟨b, k', ranFirst, ranSecond⟩ := run_bind_ok.mp ran
  exact Nat.le_trans (first k b k' ranFirst) (second b k' c k'' ranSecond)

end Fresh

namespace Reversal

def andThen (first : Fresh (ValueId × List (Instr α)))
    (second : ValueId → Fresh (ValueId × List (Instr α))) : Fresh (ValueId × List (Instr α)) := do
  let (a, before) ← first
  let (b, after) ← second a
  return (b, before ++ after)

theorem reciprocal_eq (b : ValueId) :
    (reciprocal b : Fresh (ValueId × List (Instr α))) =
      andThen (temp (.const Scalar.one)) fun one => temp (.binary .div one b) := rfl

omit [Scalar α] in
theorem quotientByDivisor_eq (q b : ValueId) :
    (quotientByDivisor q b : Fresh (ValueId × List (Instr α))) =
      andThen (temp (.binary .div q b)) fun t => temp (.unary .neg t) := rfl

theorem powerByBase_eq (a b : ValueId) :
    (powerByBase a b : Fresh (ValueId × List (Instr α))) =
      andThen (andThen (andThen (temp (.const Scalar.one)) fun one => temp (.binary .sub b one))
        fun b1 => temp (.binary .pow a b1)) fun p => temp (.binary .mul b p) := rfl

omit [Scalar α] in
theorem powerByExponent_eq (a y : ValueId) :
    (powerByExponent a y : Fresh (ValueId × List (Instr α))) =
      andThen (temp (.unary .log a)) fun ln => temp (.binary .mul y ln) := rfl

omit [Scalar α] in
theorem negatedSine_eq (a : ValueId) :
    (negatedSine a : Fresh (ValueId × List (Instr α))) = andThen (temp (.unary .sin a)) fun s => temp (.unary .neg s) := rfl

theorem halfByRoot_eq (y : ValueId) :
    (halfByRoot y : Fresh (ValueId × List (Instr α))) =
      andThen (temp (.const Scalar.half)) fun half => temp (.binary .div half y) := rfl

theorem oneLessSquare_eq (y : ValueId) :
    (oneLessSquare y : Fresh (ValueId × List (Instr α))) =
      andThen (temp (.binary .mul y y)) fun square =>
        andThen (temp (.const Scalar.one)) fun one => temp (.binary .sub one square) := rfl

omit [Scalar α] in
theorem temp_grows (e : Expr α) : (temp e).Grows := fun k b k' ran => by
  cases ran
  exact Nat.le_succ k

omit [Scalar α] in
theorem andThen_grows {first : Fresh (ValueId × List (Instr α))}
    {second : ValueId → Fresh (ValueId × List (Instr α))} (left : first.Grows)
    (right : ∀ v, (second v).Grows) : (andThen first second).Grows :=
  Fresh.grows_bind left fun (a, _) => Fresh.grows_bind (right a) fun _ => Fresh.grows_pure _

theorem reciprocal_grows (b : ValueId) :
    (reciprocal b : Fresh (ValueId × List (Instr α))).Grows := by
  rw [reciprocal_eq]
  exact andThen_grows (temp_grows _) fun _ => temp_grows _

theorem powerByBase_grows (a b : ValueId) :
    (powerByBase a b : Fresh (ValueId × List (Instr α))).Grows := by
  rw [powerByBase_eq]
  refine andThen_grows (andThen_grows (andThen_grows ?_ fun _ => ?_) fun _ => ?_) fun _ => ?_
  all_goals exact temp_grows _

theorem halfByRoot_grows (y : ValueId) :
    (halfByRoot y : Fresh (ValueId × List (Instr α))).Grows := by
  rw [halfByRoot_eq]
  exact andThen_grows (temp_grows _) fun _ => temp_grows _

theorem oneLessSquare_grows (y : ValueId) :
    (oneLessSquare y : Fresh (ValueId × List (Instr α))).Grows := by
  rw [oneLessSquare_eq]
  exact andThen_grows (temp_grows _) fun _ => andThen_grows (temp_grows _) fun _ => temp_grows _

def Yields (frame : Frame α) (k : Nat) (m : Machine α) (code : Fresh (ValueId × List (Instr α)))
    (x : α) : Prop :=
  ∀ v instrs k' m', code.run k = .ok ((v, instrs), k') → frame.Runs m (Block.ofInstrs instrs) m' →
    v.index < k' ∧ m.Extended k m' ∧ m'.value? v = some x

variable {frame : Frame α} {k : Nat} {m : Machine α} {x y : α}

theorem temp_yields {e : Expr α} (only : ∀ z, frame.Evaluates m e z → z = x) :
    Yields frame k m (temp e) x := by
  intro v instrs k' m' ran runs
  cases ran
  cases runs with
  | instr step others =>
    cases others
    cases step with
    | define evaluates room =>
      refine ⟨Nat.lt_succ_self k, ⟨rfl, rfl, fun w old => ?_⟩, ?_⟩
      · refine Machine.setValue_other _ _ _ _ fun same => ?_
        rw [same] at old
        exact Nat.lt_irrefl k old
      · rw [Machine.setValue_self _ _ _ room, only _ evaluates]

theorem temp_yields_const : Yields frame k m (temp (.const x)) x := temp_yields fun _ => id

theorem temp_yields_unary {op : UnaryOp} {v : ValueId} (value : m.value? v = some x) :
    Yields frame k m (temp (.unary op v)) (op.apply x) := by
  refine temp_yields ?_
  rintro z ⟨a, read, rfl⟩
  cases value.symm.trans read
  rfl

theorem temp_yields_binary {op : BinaryOp} {v w : ValueId} (left : m.value? v = some x)
    (right : m.value? w = some y) : Yields frame k m (temp (.binary op v w)) (op.apply x y) := by
  refine temp_yields ?_
  rintro z ⟨a, b, readLeft, readRight, rfl⟩
  cases left.symm.trans readLeft
  cases right.symm.trans readRight
  rfl

theorem temp_yields_compare {op : CompareOp} {v w : ValueId} (left : m.value? v = some x)
    (right : m.value? w = some y) : Yields frame k m (temp (.compare op v w)) (op.apply x y) := by
  refine temp_yields ?_
  rintro z ⟨a, b, readLeft, readRight, rfl⟩
  cases left.symm.trans readLeft
  cases right.symm.trans readRight
  rfl

theorem given_yields {v : ValueId} (value : m.value? v = some x) (old : v.index < k) :
    Yields frame k m (given v) x := by
  intro w instrs k' m' ran runs
  cases ran
  cases runs
  exact ⟨old, .refl m, value⟩

theorem andThen_yields {first : Fresh (ValueId × List (Instr α))}
    {second : ValueId → Fresh (ValueId × List (Instr α))} (grows : first.Grows)
    (left : Yields frame k m first x)
    (right : ∀ v k' m', k ≤ k' → v.index < k' → m.Extended k m' → m'.value? v = some x →
      Yields frame k' m' (second v) y) : Yields frame k m (andThen first second) y := by
  intro w instrs k'' m'' ran runs
  obtain ⟨⟨v, before⟩, k', ranFirst, rest⟩ := Fresh.run_bind_ok.mp ran
  obtain ⟨⟨w', after⟩, l, ranSecond, same⟩ := Fresh.run_bind_ok.mp rest
  cases same
  rw [Block.ofInstrs_append] at runs
  obtain ⟨m', runsFirst, runsSecond⟩ := Frame.runs_append.mp runs
  have later := grows k _ k' ranFirst
  obtain ⟨inside, extended, value⟩ := left v before k' m' ranFirst runsFirst
  obtain ⟨inside', extended', value'⟩ :=
    right v k' m' later inside extended value w after k'' m'' ranSecond runsSecond
  exact ⟨inside', extended.trans extended' later, value'⟩

variable {u v : ValueId} {a b : α}

theorem reciprocal_yields (value : m.value? v = some b) (old : v.index < k) :
    Yields frame k m (reciprocal v) (Scalar.one / b) := by
  rw [reciprocal_eq]
  refine andThen_yields (temp_grows _) temp_yields_const fun one k' m' _ _ extended first => ?_
  exact temp_yields_binary first ((extended.values v old).trans value)

theorem quotientByDivisor_yields (quotient : m.value? u = some a) (divisor : m.value? v = some b) :
    Yields frame k m (quotientByDivisor u v) (-(a / b)) := by
  rw [quotientByDivisor_eq]
  refine andThen_yields (temp_grows _) (temp_yields_binary quotient divisor) ?_
  intro t k' m' _ _ _ first
  exact temp_yields_unary first

theorem powerByBase_yields (base : m.value? u = some a) (exponent : m.value? v = some b)
    (oldBase : u.index < k) (oldExponent : v.index < k) :
    Yields frame k m (powerByBase u v) (b * Scalar.pow a (b - Scalar.one)) := by
  rw [powerByBase_eq]
  have growsOne := temp_grows (.const (Scalar.one : α))
  have growsLower := andThen_grows growsOne fun one => temp_grows (.binary .sub v one)
  have growsPower := andThen_grows growsLower fun b1 => temp_grows (.binary .pow u b1)
  refine andThen_yields growsPower (x := Scalar.pow a (b - Scalar.one)) ?_ ?_
  · refine andThen_yields growsLower (x := b - Scalar.one) ?_ ?_
    · refine andThen_yields growsOne temp_yields_const fun one k' m' _ _ extended first => ?_
      exact temp_yields_binary ((extended.values v oldExponent).trans exponent) first
    · intro b1 k' m' _ _ extended first
      exact temp_yields_binary ((extended.values u oldBase).trans base) first
  · intro p k' m' _ _ extended first
    exact temp_yields_binary ((extended.values v oldExponent).trans exponent) first

theorem powerByExponent_yields (base : m.value? u = some a) (power : m.value? v = some b)
    (old : v.index < k) : Yields frame k m (powerByExponent u v) (b * Scalar.log a) := by
  rw [powerByExponent_eq]
  refine andThen_yields (temp_grows _) (temp_yields_unary base) ?_
  intro ln k' m' _ _ extended first
  exact temp_yields_binary ((extended.values v old).trans power) first

theorem negatedSine_yields (value : m.value? v = some a) :
    Yields frame k m (negatedSine v) (-Scalar.sin a) := by
  rw [negatedSine_eq]
  refine andThen_yields (temp_grows _) (temp_yields_unary value) ?_
  intro s k' m' _ _ _ first
  exact temp_yields_unary first

theorem halfByRoot_yields (root : m.value? v = some a) (old : v.index < k) :
    Yields frame k m (halfByRoot v) (Scalar.half / a) := by
  rw [halfByRoot_eq]
  refine andThen_yields (temp_grows _) temp_yields_const fun half k' m' _ _ extended first => ?_
  exact temp_yields_binary first ((extended.values v old).trans root)

theorem oneLessSquare_yields (value : m.value? v = some a) :
    Yields frame k m (oneLessSquare v) (Scalar.one - a * a) := by
  rw [oneLessSquare_eq]
  refine andThen_yields (temp_grows _) (temp_yields_binary value value) ?_
  intro square k' m' _ inside _ product
  refine andThen_yields (temp_grows _) temp_yields_const fun one k'' m'' _ _ extended first => ?_
  exact temp_yields_binary first ((extended.values square inside).trans product)

end Reversal

end FieldKernel
