import FieldKernel.Proofs.Execution.Launch
import FieldKernel.Proofs.Kernel.Binding
import FieldKernel.Proofs.Reverse.Scope
import FieldKernel.Proofs.Scalar.Exact

-- The gradient pass walks, point by point, backward over what the forward pass recorded there.
namespace FieldKernel

variable {α : Type} [Scalar α]

namespace Kernel

variable {kernel grad : Kernel α} {args : List α} {signatures : Signatures}

omit [Scalar α] in
theorem pureConditions_ok {activity : Activity α} (pure : kernel.pureConditions activity = .ok ())
    {cond : ValueId} (member : .branch cond ∈ kernel.body.statements) : activity.Clean cond := by
  unfold pureConditions at pure
  split at pure
  · cases pure
  · next none_ =>
    have := List.findSome?_eq_none_iff.mp none_ _ member
    simpa [impureCondition?, Activity.Clean] using this

omit [Scalar α] in
theorem settled {i : Instr α} (checked : kernel.check = .ok ())
    (member : .instr i ∈ kernel.body.statements) : (kernel.reversal signatures).Settled i := by
  have ordered : Ordered [] kernel.body.statements :=
    (check_ok.mp checked).ordered (List.Subset.refl _) fun _ => Iff.rfl
  cases i with
  | define dst e =>
    cases e with
    | unary op operand =>
      intro needed
      simp only [Reversal.needs, Activity.carriesAdjoint, Bool.and_eq_true, List.contains_iff_mem]
        at needed ⊢
      obtain ⟨active, useful⟩ := needed
      have passes := (Activity.activeFold_iff ordered (List.Subset.refl _) member).mp active
      simp only [Activity.exprActive, Bool.and_eq_true, decide_eq_true_eq, List.contains_iff_mem] at passes
      obtain ⟨op, operandActive⟩ := passes
      refine ⟨op, operandActive, ?_⟩
      exact Activity.useful_of_result ordered (.inr ⟨_, _, rfl⟩) member (by simp [Expr.operands])
        operandActive useful
    | const | index | arg | load | binary | compare => trivial
  | store | readGrad | propagate | addGrad => trivial

omit [Scalar α] in
theorem covers (checked : kernel.check = .ok ())
    (pure : kernel.pureConditions (.ofKernel kernel signatures) = .ok ()) :
    (kernel.reversal signatures).Covers kernel.body where
  own := fun _ _ member => Block.definitionOf?_backward (check_ok.mp checked).assigned_nodup member
  stores := fun _ uses => Access.contains_ofBlock.mpr uses
  settled := fun _ member => settled checked member
  conditions := fun _ member => pureConditions_ok pure member
  loads := fun _ _ member needed => by
    have ordered : Ordered [] kernel.body.statements :=
      (check_ok.mp checked).ordered (List.Subset.refl _) fun _ => Iff.rfl
    simp only [Reversal.needs, Activity.carriesAdjoint, Bool.and_eq_true, List.contains_iff_mem] at needed
    exact (Activity.activeFold_iff ordered (List.Subset.refl _) member).mp needed.1

theorem start_mirrors {limit registers : Nat} (room : limit ≤ registers) (t : FieldTable α) :
    Mirrors limit (.start t registers) (.start t) where
  table := rfl
  adjoints := fun v inside => by
    have : v.index < registers := Nat.lt_of_lt_of_le inside room
    simp [Machine.adjoint?, Machine.start, Sweep.start, this]

theorem runPoint_walks (checked : kernel.check = .ok ()) (reversed : kernel.reverse signatures = .ok grad)
    (gradChecked : grad.check = .ok ()) {point : Point} {t t' u u' : FieldTable α} (forward : kernel.runPoint args point t = .ok () t')
    (behind : (kernel.reversal signatures).Behind t' u) (backward : grad.runPoint args point u = .ok () u') :
    u' = (kernel.reversal signatures).walkPoint
      ((Frame.mk kernel args point).trace kernel.body (.start t kernel.counter)) u := by
  obtain ⟨pure, rules, ran, same⟩ := backward_ok (reverse_plain checked reversed gradChecked)
  obtain ⟨mF, forwardRuns, rfl⟩ := runPoint_ok.mp forward
  obtain ⟨mR, backwardRuns, rfl⟩ := runPoint_ok.mp backward
  have formed := check_ok.mp checked
  rw [same] at backwardRuns
  have room : kernel.counter.toNat ≤ grad.counter := Reversal.rules_grows _ _ _ _ ran
  have frames : (Frame.mk kernel args point).Alike (Frame.mk grad args point) := ⟨rfl, rfl⟩
  have undoes := Reversal.rules_undoes frames (covers checked pure) formed (List.Subset.refl _)
    (fun v none_ => by cases none_) forwardRuns ran (Nat.le_refl _)
  have changed : (kernel.reversal signatures).Behind t mF.table :=
    forwardRuns.altered.table.mono (covers checked pure).stores fun _ _ => trivial
  obtain ⟨mirrors, -⟩ := Reversal.withPrimals_undoes frames (covers checked pure) formed
    (List.Subset.refl _) forwardRuns undoes ⟨nofun, changed.trans behind⟩ backwardRuns
    (start_mirrors room u)
  exact mirrors.table

-- What a forward pass leaves on record: at each point a run, of which later points overwrite only what
-- the kernel stores to.
theorem points_taped {points : List Point} (distinct : points.Nodup) {t t' : FieldTable α}
    (ran : points.forM (kernel.runPoint args) t = .ok () t') {point : Point} (member : point ∈ points) :
    ∃ before after, kernel.runPoint args point before = .ok () after ∧
      (kernel.tapes args points t).lookup point =
        some ((Frame.mk kernel args point).trace kernel.body (.start before kernel.counter)) ∧
      after.Altered (kernel.body.Uses .write) (kernel.body.Uses .gradWrite) t' := by
  induction points generalizing t with
  | nil => cases member
  | cons p rest ih =>
    obtain ⟨fresh, distinct⟩ := List.nodup_cons.mp distinct
    obtain ⟨_, t₁, first, others⟩ := bind_ok.mp ran
    rcases List.mem_cons.mp member with rfl | later
    · refine ⟨t, t₁, first, ?_, ?_⟩
      · simp [tapes]
      · exact (kernel.moves_points args rest).ok others
    · obtain ⟨before, after, ranThere, recorded, altered⟩ := ih distinct others later
      refine ⟨before, after, ranThere, ?_, altered⟩
      have other : point ≠ p := fun same => fresh (same ▸ later)
      rw [tapes, List.lookup_cons, beq_eq_false_iff_ne.mpr other, first]
      exact recorded

theorem points_walk (checked : kernel.check = .ok ()) (reversed : kernel.reverse signatures = .ok grad)
    (gradChecked : grad.check = .ok ()) {order : VisitOrder} {t t' : FieldTable α} (forward : kernel.execute args order t = .ok () t')
    {points : List Point} (inside : points ⊆ kernel.domain.points order) {u u' : FieldTable α}
    (behind : (kernel.reversal signatures).Behind t' u)
    (backward : points.forM (grad.runPoint args) u = .ok () u') :
    u' = (kernel.reversal signatures).walkPoints (kernel.tapeAt args order t) points u := by
  rw [execute_eq] at forward
  obtain ⟨pure, -⟩ := backward_ok (reverse_plain checked reversed gradChecked)
  induction points generalizing u with
  | nil =>
    cases backward
    rfl
  | cons point rest ih =>
    obtain ⟨here, later⟩ := List.cons_subset.mp inside
    obtain ⟨_, u₁, first, others⟩ := bind_ok.mp backward
    obtain ⟨before, after, ran, recorded, altered⟩ :=
      points_taped (kernel.domain.nodup_points order) forward here
    have stored : (kernel.reversal signatures).Behind after t' :=
      altered.mono (covers checked pure).stores fun _ _ => trivial
    have walked := runPoint_walks checked reversed gradChecked ran (stored.trans behind) first
    have graded : (kernel.reversal signatures).Behind u u₁ := by
      rw [walked]
      exact (Reversal.walk_altered _ _ (Sweep.start u)).mono (fun _ => False.elim) fun _ => id
    rw [ih later (behind.trans graded) others, walked, Reversal.walkPoints, Reversal.walkPoints,
      List.foldl_cons, tapeAt, recorded]
    rfl

variable {δ : Type} [Digest δ]

theorem launches_walk {table : FieldTable α} {bound gradBound : Bound α δ} {order gradOrder : VisitOrder}
    {s₀ s₁ s₂ : FieldTable α} (binds : kernel.bind table = .ok bound)
    (reversed : kernel.reverse bound.signatures = .ok grad) (gradKernel : gradBound.kernel = grad)
    (gradChecked : grad.check = .ok ()) (forward : bound.launch args order s₀ = .ok () s₁)
    (backward : gradBound.launch args gradOrder s₁ = .ok () s₂) :
    s₂ = (kernel.reversal bound.signatures).walkPoints (kernel.tapeAt args order s₀)
      (kernel.domain.points gradOrder) s₁ := by
  obtain ⟨checked, -, -, same⟩ := binds_iff.mp binds
  obtain ⟨-, forward⟩ := Bound.launch_ok.mp forward
  obtain ⟨-, backward⟩ := Bound.launch_ok.mp backward
  rw [same] at forward
  rw [gradKernel, execute_eq, (reverse_domain reversed).1] at backward
  have visited := kernel.domain.points_perm gradOrder order
  exact points_walk checked reversed gradChecked forward visited.subset (.refl _) backward

-- A gradient launch after a forward launch leaves exactly what reverse mode over the tapes of the
-- forward launch gives: the points in gradient order, at each of them the events from the last to the
-- first, with the numbers that the forward launch computed with.
theorem gradient_launch_is_tape_walk {table gradTable : FieldTable α} {bound gradBound : Bound α δ}
    {order gradOrder : VisitOrder} {s₀ s₁ s₂ : FieldTable α} (binds : kernel.bind table = .ok bound)
    (reversed : kernel.reverse bound.signatures = .ok grad) (gradBinds : grad.bind gradTable = .ok gradBound)
    (forward : bound.launch args order s₀ = .ok () s₁)
    (backward : gradBound.launch args gradOrder s₁ = .ok () s₂) :
    s₂ = (kernel.reversal bound.signatures).walkPoints (kernel.tapeAt args order s₀)
      (kernel.domain.points gradOrder) s₁ := by
  obtain ⟨gradChecked, -, -, same⟩ := binds_iff.mp gradBinds
  have gradKernel : gradBound.kernel = grad := by rw [same]
  exact launches_walk binds reversed gradKernel gradChecked forward backward

end Kernel

-- `y = x * x` where `x` is positive, `y = x` elsewhere.
namespace Square

def forward : Block ℚ :=
  .instr (.define ⟨0⟩ (.index 0)) <| .instr (.define ⟨1⟩ (.load ⟨"x", [⟨0⟩]⟩)) <|
  .instr (.define ⟨2⟩ (.binary .mul ⟨1⟩ ⟨1⟩)) <| .instr (.define ⟨3⟩ (.const 0)) <|
  .instr (.define ⟨4⟩ (.compare .lt ⟨3⟩ ⟨1⟩)) <|
  .branch ⟨4⟩ (.instr (.store ⟨"y", [⟨0⟩]⟩ ⟨2⟩) .nil) (.instr (.store ⟨"y", [⟨0⟩]⟩ ⟨1⟩) .nil) .nil

def backward : Block ℚ :=
  forward.definitions ++
  .branch ⟨4⟩ (.instr (.readGrad ⟨2⟩ ⟨"y", [⟨0⟩]⟩) .nil) (.instr (.readGrad ⟨1⟩ ⟨"y", [⟨0⟩]⟩) .nil)
    (.instr (.propagate ⟨1⟩ ⟨2⟩ (.value ⟨1⟩)) <| .instr (.propagate ⟨1⟩ ⟨2⟩ (.value ⟨1⟩)) <|
      .instr (.addGrad ⟨"x", [⟨0⟩]⟩ ⟨1⟩) .nil)

def kernel : Kernel ℚ := .ofBody "square" (.ofExtents [2]) 0 forward

def gradient : Kernel ℚ := .ofBody "square_grad" (.ofExtents [2]) 0 backward

def fields (y dx : Array ℚ) : FieldTable ℚ := .ofList [
  ("x", ⟨rootGroup, .f64, [2], #[3, -1], some dx⟩), ("y", ⟨rootGroup, .f64, [2], y, some #[1, 1]⟩)]

instance : Digest Unit := ⟨fun _ => ()⟩

def bound (kernel : Kernel ℚ) : Bound ℚ Unit :=
  let both := ⟨.f64, [2]⟩
  ⟨kernel, .ofList [("x", both), ("y", both)], .ofBlock kernel.body, ()⟩

theorem gradient_launch_is_tape_walk_square :
    kernel.bind (fields #[0, 0] #[0, 0]) = .ok (bound kernel) ∧
      kernel.reverse (bound kernel).signatures = .ok gradient ∧
      (bound kernel).launch [] .forward (fields #[0, 0] #[0, 0]) = .ok () (fields #[9, -1] #[0, 0]) ∧
      (bound gradient).launch [] .reverse (fields #[9, -1] #[0, 0]) = .ok () (fields #[9, -1] #[6, 1]) ∧
      fields #[9, -1] #[6, 1] = (kernel.reversal (bound kernel).signatures).walkPoints
        (kernel.tapeAt [] .forward (fields #[0, 0] #[0, 0])) (kernel.domain.points .reverse)
        (fields #[9, -1] #[0, 0]) := by
  have binds : kernel.bind (fields #[0, 0] #[0, 0]) = .ok (bound kernel) := by decide +kernel
  have reversed : kernel.reverse (bound kernel).signatures = .ok gradient := by decide +kernel
  have gradBinds : gradient.bind (fields #[0, 0] #[0, 0]) = .ok (bound gradient) := by decide +kernel
  have forward : (bound kernel).launch [] .forward (fields #[0, 0] #[0, 0]) =
      .ok () (fields #[9, -1] #[0, 0]) := by decide +kernel
  have backward : (bound gradient).launch [] .reverse (fields #[9, -1] #[0, 0]) =
      .ok () (fields #[9, -1] #[6, 1]) := by decide +kernel
  exact ⟨binds, reversed, forward, backward,
    Kernel.gradient_launch_is_tape_walk binds reversed gradBinds forward backward⟩

end Square

end FieldKernel
