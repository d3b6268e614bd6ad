import FieldKernel.Proofs.Execution.Discretion
import FieldKernel.Proofs.Execution.Footprint
import FieldKernel.Proofs.Reverse.Touched

-- Gradients do not depend on what the kernel overwrites: what is recomputed from it no rule reads.
namespace FieldKernel

variable {α : Type}

theorem Instr.discreet_of_operands {clean : ValueId → Prop} {hidden : String → Prop} {i : Instr α}
    (alone : i.place? = none) (operands : ∀ v ∈ i.operands, clean v) : i.Discreet clean hidden := by
  cases i with
  | define dst e =>
    refine fun _ => ⟨operands, fun place load => ?_⟩
    rw [load] at alone
    cases alone
  | propagate target source scale => exact fun v used => operands v (List.mem_append_right _ used)
  | store | readGrad | addGrad => cases alone

theorem Block.Discreet.append {clean : ValueId → Prop} {hidden : String → Prop} {a b : Block α}
    (left : a.Discreet clean hidden) (right : b.Discreet clean hidden) : (a ++ b).Discreet clean hidden := by
  intro s member
  rw [Block.statements_append, List.mem_append] at member
  exact member.elim (left s) (right s)

namespace Reversal

-- What a gradient kernel computes without overwritten fields: fresh values, and the kernel's own values if
-- they are computed from none of these fields.
def Recomputed (r : Reversal α) (v : ValueId) : Prop := r.kernel.counter.toNat ≤ v.index ∨ r.activity.Clean v

def Overwrites (r : Reversal α) (name : String) : Prop := r.activity.written.contains name = true

structure Guards (r : Reversal α) (code : Fresh (List (Instr α))) : Prop where
  grows : code.Grows
  discreet : ∀ k instrs k', r.kernel.counter.toNat ≤ k → code.run k = .ok (instrs, k') →
    ∀ j ∈ instrs, j.Discreet r.Recomputed r.Overwrites

variable {r : Reversal α} {dst lhs rhs operand target source : ValueId}

theorem guards_none : r.Guards (return []) where
  grows := Fresh.grows_pure _
  discreet _ _ _ _ ran := by
    cases ran
    exact List.forall_mem_nil _

theorem guards_one {only : Instr α} (discreet : only.Discreet r.Recomputed r.Overwrites) :
    r.Guards (return [only]) where
  grows := Fresh.grows_pure _
  discreet _ _ _ _ ran := by
    cases ran
    exact List.forall_mem_singleton.mpr discreet

theorem guards_when {needed : Bool} {code : Fresh (List (Instr α))} (guards : needed = true → r.Guards code) :
    r.Guards (when needed code) := by
  cases needed with
  | true => exact guards rfl
  | false => exact guards_none

theorem guards_both {first second : Fresh (List (Instr α))} (left : r.Guards first) (right : r.Guards second) :
    r.Guards (do return (← first) ++ (← second)) where
  grows := both_grows left.grows right.grows
  discreet k instrs k'' room ran := by
    obtain ⟨before, k', ranFirst, rest⟩ := Fresh.run_bind_ok.mp ran
    obtain ⟨after, l, ranSecond, same⟩ := Fresh.run_bind_ok.mp rest
    obtain ⟨rfl, rfl⟩ := Fresh.run_pure_ok.mp same
    have room' : r.kernel.counter.toNat ≤ k' := Nat.le_trans room (left.grows _ _ _ ranFirst)
    exact List.forall_mem_append.mpr
      ⟨left.discreet _ _ _ room ranFirst, right.discreet _ _ _ room' ranSecond⟩

theorem guards_primals {vs : List ValueId} {code : Fresh (List (Instr α))} (grows : code.Grows)
    (guards : (∀ v ∈ vs, r.activity.Clean v) → r.Guards code) : r.Guards (do r.primals vs; code) where
  grows := guarded_grows grows
  discreet k instrs k' room ran := by
    obtain ⟨_, l, guarded, rest⟩ := Fresh.run_bind_ok.mp ran
    obtain ⟨clean, rfl⟩ := Fresh.run_lift_ok.mp guarded
    exact (guards (primals_ok.mp clean)).discreet _ _ _ room rest

theorem guards_scaled {needed visible : List ValueId} {factor : Fresh (ValueId × List (Instr α))}
    (clean : (∀ v ∈ needed, r.activity.Clean v) → ∀ v ∈ visible, r.activity.Clean v)
    (computes : Computes (fun _ => False) visible factor) :
    r.Guards (r.scaled target source needed factor) := by
  refine guards_primals ?_ fun needed => ⟨?_, fun k instrs k' room ran => ?_⟩
  · exact Fresh.grows_bind computes.grows fun _ => Fresh.grows_pure _
  · exact Fresh.grows_bind computes.grows fun _ => Fresh.grows_pure _
  · obtain ⟨⟨v, before⟩, l, ranFactor, same⟩ := Fresh.run_bind_ok.mp ran
    obtain ⟨rfl, rfl⟩ := Fresh.run_pure_ok.mp same
    have code := computes.continues ⟨0, 0, 0⟩ _ _ _ _ ranFactor
    have fresh : ∀ w ∈ (Block.ofInstrs before).assigned, r.Recomputed w := fun w member =>
      .inl (Nat.le_trans room ((code.fresh w member).resolve_left List.not_mem_nil))
    have told : ∀ w ∈ visible, r.Recomputed w := fun w member => .inr (clean needed w member)
    refine List.forall_mem_append.mpr ⟨fun j member => ?_, List.forall_mem_singleton.mpr fun w used => ?_⟩
    · have inside : .instr j ∈ (Block.ofInstrs before).statements := by
        rw [Block.statements_ofInstrs]
        exact List.mem_map_of_mem member
      refine Instr.discreet_of_operands ?_ fun w used => ?_
      · exact Option.eq_none_iff_forall_not_mem.mpr (computes.addresses _ _ _ _ ranFactor _ inside)
      · exact (code.formed.operand_known inside used).elim (told w) (fresh w)
    · cases List.mem_singleton.mp used
      rcases List.mem_append.mp (computes.known _ _ _ _ ranFactor) with new | old
      · exact fresh _ (Frame.assigned_definitions_subset _ new)
      · exact told _ old

theorem guards_passed {scale : Scale} (free : scale.operands = []) :
    r.Guards (return [.propagate target source scale]) :=
  guards_one fun _ used => absurd (free ▸ used) List.not_mem_nil

variable [Scalar α]

theorem guards_binary {op : BinaryOp} : r.Guards (r.binary dst op lhs rhs) := by
  cases op with
  | add | sub =>
    exact guards_both (guards_when fun _ => guards_passed rfl) (guards_when fun _ => guards_passed rfl)
  | mul =>
    exact guards_both (guards_when fun _ => guards_scaled id (computes_given List.mem_cons_self))
      (guards_when fun _ => guards_scaled id (computes_given List.mem_cons_self))
  | div =>
    refine guards_both (guards_when fun _ => guards_scaled id (computes_reciprocal List.mem_cons_self))
      (guards_when fun _ => guards_scaled id (computes_quotientByDivisor ?_ ?_))
    all_goals simp
  | pow =>
    refine guards_both (guards_when fun _ => guards_scaled id (computes_powerByBase ?_ ?_))
      (guards_when fun _ => guards_scaled id (computes_powerByExponent ?_ ?_))
    all_goals simp
  | max | min =>
    refine guards_primals (both_grows (when_grows (scaled_grows (temp_grows _)))
      (when_grows (scaled_grows (temp_grows _)))) fun clean => ?_
    have compared : ∀ op, Computes (fun _ => False) [lhs, rhs] (temp (.compare op lhs rhs : Expr α)) :=
      fun op => computes_temp trivial fun _ => id
    exact guards_both (guards_when fun _ => guards_scaled (fun _ => clean) (compared _))
      (guards_when fun _ => guards_scaled (fun _ => clean) (compared _))
  | mod | floorDiv =>
    refine ⟨binary_grows _, fun k instrs k' _ ran => ?_⟩
    cases ran

theorem guards_unary {op : UnaryOp} : r.Guards (r.unary dst op operand) := by
  cases op with
  | neg => exact guards_passed rfl
  | sin | abs => exact guards_scaled id (computes_temp trivial (by simp [Expr.operands]))
  | cos => exact guards_scaled id (computes_negatedSine List.mem_cons_self)
  | exp => exact guards_scaled id (computes_given List.mem_cons_self)
  | log => exact guards_scaled id (computes_reciprocal List.mem_cons_self)
  | sqrt => exact guards_scaled id (computes_halfByRoot List.mem_cons_self)
  | tanh => exact guards_scaled id (computes_oneLessSquare List.mem_cons_self)
  | sgn => exact guards_none

theorem guards_instr (i : Instr α) : r.Guards (r.instr i) := by
  cases i with
  | define dst e =>
    refine guards_when fun _ => ?_
    cases e with
    | load place =>
      exact guards_primals (Fresh.grows_pure _) fun clean => guards_one fun v used => .inr (clean v used)
    | binary => exact guards_binary
    | unary => exact guards_unary
    | const | index | arg | compare => exact guards_none
  | store place v =>
    refine guards_when fun _ => ?_
    exact guards_primals (Fresh.grows_pure _) fun clean => guards_one fun v used => .inr (clean v used)
  | readGrad | propagate | addGrad =>
    refine ⟨instr_grows _, fun k instrs k' _ ran => ?_⟩
    cases ran

variable {block rules inTrue inFalse : Block α} {k k' : Nat}

omit [Scalar α] in
theorem definitions_discreet (covers : r.Covers block)
    (inside : ∀ v ∈ block.assigned, v.index < r.kernel.counter) :
    block.definitions.Discreet r.Recomputed r.Overwrites := by
  intro s member
  cases s with
  | branch cond => exact .inr (covers.conditions cond (block.statements_definitions member))
  | instr i =>
    have pure : i.isPure = true := Block.isPure_definitions member
    cases i with
    | store | readGrad | propagate | addGrad => cases pure
    | define dst e =>
      intro recomputed
      have own := covers.own dst e (block.statements_definitions member)
      have below : dst.index < r.kernel.counter :=
        inside dst (List.mem_filterMap.mpr ⟨_, block.statements_definitions member, rfl⟩)
      have clean : r.activity.Clean dst := recomputed.resolve_left (Nat.not_le.mpr below)
      refine ⟨fun v used => .inr (clean.operand own used), fun place load => ?_⟩
      subst load
      exact Bool.not_eq_true _ ▸ clean.loaded own

omit [Scalar α] in
theorem withPrimals_discreet (covers : r.Covers block)
    (inside : ∀ v ∈ block.assigned, v.index < r.kernel.counter)
    (discreet : rules.Discreet r.Recomputed r.Overwrites) :
    (withPrimals block rules).Discreet r.Recomputed r.Overwrites := by
  unfold withPrimals
  split
  · exact nofun
  · exact (definitions_discreet covers inside).append discreet

omit [Scalar α] in
theorem branchRule_discreet {cond : ValueId} (clean : r.activity.Clean cond)
    (first : inTrue.Discreet r.Recomputed r.Overwrites) (second : inFalse.Discreet r.Recomputed r.Overwrites) :
    (branchRule cond inTrue inFalse).Discreet r.Recomputed r.Overwrites := by
  unfold branchRule
  split
  · exact nofun
  · intro s member
    simp only [Block.statements, List.append_nil, List.mem_cons, List.mem_append] at member
    rcases member with rfl | inTrue | inFalse
    · exact .inr clean
    · exact first s inTrue
    · exact second s inFalse

-- The induction is on the block. Blocks in which there is nothing to do are dropped, and the others branch
-- on the conditions that the kernel branches on.
theorem rules_discreet (covers : r.Covers block) (inside : ∀ v ∈ block.assigned, v.index < r.kernel.counter)
    (room : r.kernel.counter.toNat ≤ k) (ran : (r.rules block).run k = .ok (rules, k')) :
    rules.Discreet r.Recomputed r.Overwrites := by
  induction block generalizing k k' rules with
  | nil =>
    cases ran
    exact nofun
  | instr i rest ih =>
    obtain ⟨later, k₁, ranRest, others⟩ := Fresh.run_bind_ok.mp ran
    obtain ⟨instrs, k₂, ranInstr, same⟩ := Fresh.run_bind_ok.mp others
    obtain ⟨rfl, rfl⟩ := Fresh.run_pure_ok.mp same
    rw [Block.assigned_instr, List.forall_mem_append] at inside
    have grown : k ≤ k₁ := rules_grows rest _ _ _ ranRest
    refine (ih (covers.part (List.subset_cons_self _ _)) inside.2 room ranRest).append fun s member => ?_
    rw [Block.statements_ofInstrs] at member
    obtain ⟨j, emitted, rfl⟩ := List.mem_map.mp member
    exact (guards_instr i).discreet _ _ _ (Nat.le_trans room grown) ranInstr j emitted
  | branch cond onTrue onFalse rest ihTrue ihFalse ihRest =>
    obtain ⟨later, k₁, ranRest, others⟩ := Fresh.run_bind_ok.mp ran
    obtain ⟨rulesTrue, k₂, ranTrue, others⟩ := Fresh.run_bind_ok.mp others
    obtain ⟨rulesFalse, k₃, ranFalse, same⟩ := Fresh.run_bind_ok.mp others
    obtain ⟨rfl, rfl⟩ := Fresh.run_pure_ok.mp same
    rw [Block.assigned_branch, List.forall_mem_append, List.forall_mem_append] at inside
    have grown : k ≤ k₁ := rules_grows rest _ _ _ ranRest
    have grownTrue : k₁ ≤ k₂ := rules_grows onTrue _ _ _ ranTrue
    have coversTrue : r.Covers onTrue := covers.part Block.onTrue_subset
    have coversFalse : r.Covers onFalse := covers.part Block.onFalse_subset
    have coversRest : r.Covers rest := covers.part Block.rest_subset
    have first := withPrimals_discreet coversTrue inside.1.1
      (ihTrue coversTrue inside.1.1 (by omega) ranTrue)
    have second := withPrimals_discreet coversFalse inside.1.2
      (ihFalse coversFalse inside.1.2 (by omega) ranFalse)
    exact (ihRest coversRest inside.2 room ranRest).append
      (branchRule_discreet (covers.conditions cond List.mem_cons_self) first second)

end Reversal

namespace Kernel

variable [Scalar α] {kernel grad : Kernel α} {signatures : Signatures}

theorem reverse_discreet (checked : kernel.check = .ok ()) (reversed : kernel.reverse signatures = .ok grad)
    (gradChecked : grad.check = .ok ()) :
    grad.body.Discreet (kernel.reversal signatures).Recomputed (kernel.body.Uses .write) := by
  have hidden : (kernel.reversal signatures).Overwrites = kernel.body.Uses .write :=
    funext fun _ => propext Activity.contains_written
  obtain ⟨pure, rules, ran, same⟩ := backward_ok (reverse_plain checked reversed gradChecked)
  have whole : (kernel.reversal signatures).Covers kernel.body := covers checked pure
  have inside : ∀ v ∈ kernel.body.assigned, v.index < kernel.counter :=
    fun _ => (check_ok.mp checked).assigned_lt
  rw [← hidden, same]
  exact Reversal.withPrimals_discreet whole inside (Reversal.rules_discreet whole inside (Nat.le_refl _) ran)

omit [Scalar α] in
theorem counts_forward (forward : kernel.forwardOnly = .ok ()) {use : Use} {name : String}
    (used : kernel.body.Uses use name) : use.Counts (fun _ => True) (fun _ => False) name := by
  obtain ⟨i, member, here⟩ := used
  have only : i.isReverseOnly = false := forwardOnly_ok.mp forward _ member
  cases i with
  | define dst e =>
    cases e with
    | load =>
      cases here
      trivial
    | const | index | arg | binary | unary | compare => cases here
  | store =>
    cases here
    trivial
  | readGrad | propagate | addGrad => cases only

variable {δ : Type} {bound gradBound : Bound α δ} {args : List α} {order gradOrder : VisitOrder}
  {s s₁ s₂ t t₁ t₂ : FieldTable α}

theorem gradient_launch_indistinct (checked : kernel.check = .ok ())
    (reversed : kernel.reverse signatures = .ok grad) (gradChecked : grad.check = .ok ())
    (gradKernel : gradBound.kernel = grad) (agree : s.AgreeBut (kernel.body.Uses .write) t)
    (left : gradBound.launch args gradOrder s = .ok () s₁)
    (right : gradBound.launch args gradOrder t = .ok () t₁) : s₁.AgreeBut (kernel.body.Uses .write) t₁ := by
  have discreet := reverse_discreet checked reversed gradChecked
  rw [← gradKernel] at discreet
  exact execute_indistinct discreet agree (Bound.launch_ok.mp left).2 (Bound.launch_ok.mp right).2

theorem launch_alters_data (forward : kernel.forwardOnly = .ok ()) (forwardKernel : bound.kernel = kernel)
    (ran : bound.launch args order s = .ok () s₁) :
    s.Altered (kernel.body.Uses .write) (fun _ => False) s₁ := by
  have altered := (bound.kernel.moves_execute args order).ok (Bound.launch_ok.mp ran).2
  rw [forwardKernel] at altered
  exact altered.mono (fun _ => id) fun _ => counts_forward forward

theorem gradient_launch_alters_grads (reversed : kernel.reverse signatures = .ok grad)
    (gradKernel : gradBound.kernel = grad) (ran : gradBound.launch args gradOrder s = .ok () s₁) :
    s.Altered (fun _ => False) (fun _ => True) s₁ := by
  have altered := (gradBound.kernel.moves_execute args gradOrder).ok (Bound.launch_ok.mp ran).2
  rw [gradKernel] at altered
  exact altered.mono (fun name => reverse_writes reversed name) fun _ _ => trivial

-- Whether the kernel or its gradient kernel comes first: the one neither changes gradients nor depends on
-- them, the other changes nothing else and does not depend on what the first overwrites.
theorem launches_exchange (checked : kernel.check = .ok ()) (reversed : kernel.reverse signatures = .ok grad)
    (gradChecked : grad.check = .ok ()) (forwardKernel : bound.kernel = kernel)
    (gradKernel : gradBound.kernel = grad) (first : bound.launch args order s = .ok () s₁) (second : gradBound.launch args gradOrder s₁ = .ok () s₂)
    (first' : gradBound.launch args gradOrder s = .ok () t₁)
    (second' : bound.launch args order t₁ = .ok () t₂) : s₂ = t₂ := by
  obtain ⟨body, counter, numbered, -⟩ := reverse_ok.mp reversed
  have forward : kernel.forwardOnly = .ok () := (Except.then_ok.mp numbered).1
  have toS₁ := launch_alters_data forward forwardKernel first
  have toS₂ := gradient_launch_alters_grads reversed gradKernel second
  have toT₁ := gradient_launch_alters_grads reversed gradKernel first'
  have toT₂ := launch_alters_data forward forwardKernel second'
  have data : s₁.AgreeIn (fun _ => True) (fun _ => False) t₂ := by
    have respects := respects_execute (fun _ _ => counts_forward forward) args order s t₁
      (toT₁.agreeIn.weaken (fun _ _ => id) fun _ => False.elim)
    rw [← forwardKernel, (Bound.launch_ok.mp first).2, (Bound.launch_ok.mp second').2] at respects
    exact respects.ended
  have grads : t₁.AgreeBut (kernel.body.Uses .write) s₂ :=
    gradient_launch_indistinct checked reversed gradChecked gradKernel
      (toS₁.agreeIn.weaken (fun _ => id) fun _ _ => id) first' second
  have dataSame : s₂.AgreeIn (fun _ => True) (fun _ => False) t₂ :=
    (toS₂.agreeIn.weaken (fun _ _ => id) fun _ => False.elim).symm.trans data
  have gradsSame : s₂.AgreeIn (fun _ => False) (fun _ => True) t₂ :=
    (grads.symm.weaken (fun _ => False.elim) fun _ => id).trans
      (toT₂.agreeIn.weaken (fun _ => False.elim) fun _ _ => id)
  have loose : ∀ {writes gradWrites : String → Prop} {a b : FieldTable α}, a.Altered writes gradWrites b →
      a.Altered (fun _ => True) (fun _ => True) b := fun altered =>
    altered.mono (fun _ _ => trivial) fun _ _ => trivial
  have whole : s₂.Altered (fun _ => True) (fun _ => True) t₂ :=
    (loose toS₂.symm).trans ((loose toS₁.symm).trans ((loose toT₁).trans (loose toT₂)))
  have same := (whole.confined dataSame).confined gradsSame
  exact (NameMap.ext_find? fun name => same.find_eq (by simp) (by simp)).symm

end Kernel

end FieldKernel
