import FieldKernel.Proofs.Reverse.Activity
import FieldKernel.Proofs.Reverse.Rule

-- A reversed block does what the walk backward over the tape of the block does.
namespace FieldKernel

variable {α : Type} [Scalar α]

def Block.nested : Block α → List ValueId
  | .nil => []
  | .instr _ rest => rest.nested
  | .branch _ onTrue onFalse rest => onTrue.assigned ++ onFalse.assigned ++ rest.nested

omit [Scalar α] in
theorem Block.nested_subset (block : Block α) : block.nested ⊆ block.assigned := by
  induction block with
  | nil => exact List.Subset.refl _
  | instr i rest ih =>
    rw [assigned_instr]
    exact List.subset_append_of_subset_right _ ih
  | branch cond onTrue onFalse rest _ _ ih =>
    rw [assigned_branch]
    exact List.append_subset.mpr ⟨List.subset_append_left _ _, List.subset_append_of_subset_right _ ih⟩

namespace Reversal

variable (r : Reversal α)

theorem back_altered (e : Event α) (s : Sweep α) :
    s.table.Altered (fun _ => False) (fun _ => True) (r.back e s).table := by
  cases e with
  | plain dst => exact .refl _
  | load dst field position =>
    rw [back]
    split
    · exact FieldTable.altered_addGradAt trivial _ _ _
    · exact .refl _
  | store field position v =>
    rw [back, Sweep.addIf_table]
    exact .refl _
  | binary dst op lhs rhs a b =>
    rw [back]
    split
    · simp only [Sweep.addIf_table]
      exact .refl _
    · exact .refl _
  | unary dst op operand a =>
    rw [back]
    split
    · rw [Sweep.addIf_table]
      exact .refl _
    · exact .refl _

theorem walk_altered (tape : Tape α) (s : Sweep α) :
    s.table.Altered (fun _ => False) (fun _ => True) (r.walk tape s).table := by
  induction tape with
  | nil => exact .refl _
  | cons e rest ih => exact ih.trans (r.back_altered e _)

theorem walkPoints_altered (tapeAt : Point → Tape α) (points : List Point) (table : FieldTable α) :
    table.Altered (fun _ => False) (fun _ => True) (r.walkPoints tapeAt points table) := by
  induction points generalizing table with
  | nil => exact .refl _
  | cons point rest ih => exact (r.walk_altered (tapeAt point) (.start table)).trans (ih _)

structure Covers (block : Block α) : Prop where
  own : ∀ dst e, .instr (.define dst e) ∈ block.statements →
    definitionOf? r.activity.definitions dst = some ⟨dst, e⟩
  stores : r.activity.Stores block
  settled : ∀ i, .instr i ∈ block.statements → r.Settled i
  conditions : ∀ cond, .branch cond ∈ block.statements → r.activity.Clean cond
  loads : ∀ dst place, .instr (.define dst (.load place)) ∈ block.statements → r.needs dst = true →
    r.signatures.isReal place.field = true

variable {r}

omit [Scalar α] in
theorem Covers.part {outer inner : Block α} (covers : r.Covers outer)
    (part : inner.statements ⊆ outer.statements) : r.Covers inner where
  own := fun dst e member => covers.own dst e (part member)
  stores := fun name uses => covers.stores name (uses.inside part)
  settled := fun i member => covers.settled i (part member)
  conditions := fun cond member => covers.conditions cond (part member)
  loads := fun dst place member => covers.loads dst place (part member)

theorem Covers.taken {cond : ValueId} {onTrue onFalse rest : Block α}
    (covers : r.Covers (.branch cond onTrue onFalse rest)) (x : α) :
    r.Covers (Frame.taken x onTrue onFalse) := covers.part (Frame.taken_subset cond x onTrue onFalse rest)

theorem rules_grows (block : Block α) : (r.rules block).Grows := by
  induction block with
  | nil => exact Fresh.grows_pure _
  | instr i rest ih =>
    exact Fresh.grows_bind ih fun _ => Fresh.grows_bind (instr_grows i) fun _ => Fresh.grows_pure _
  | branch cond onTrue onFalse rest ihTrue ihFalse ihRest =>
    exact Fresh.grows_bind ihRest fun _ => Fresh.grows_bind ihTrue fun _ =>
      Fresh.grows_bind ihFalse fun _ => Fresh.grows_pure _

-- Tables as the gradient pass finds them: as the forward pass left off, but for what the kernel stores
-- to and for gradients.
abbrev Behind (r : Reversal α) (a b : FieldTable α) : Prop :=
  a.SameOutside (fun name => r.activity.written.contains name = true) b

-- Code that undoes a forward run of a block: on a machine that regains what is known at the end of the
-- run, it does what the walk over the tape of the run does.
def Undoes (r : Reversal α) (f g : Frame α) (limit k : Nat) (known : List ValueId) (block : Block α)
    (mF mF' : Machine α) (code : Block α) : Prop :=
  ∀ n n' s, Regains r.activity known mF' n → g.Runs n code n' → Mirrors limit n s →
    Mirrors limit n' (r.walk (f.trace block mF) s) ∧
      ∀ v, v.index < k → v ∉ block.nested → n'.value? v = n.value? v

variable {f g : Frame α} {limits : Limits} {k : Nat} {visible defined : List ValueId} {block : Block α}
  {mF mF' : Machine α}

theorem behind_walked {limit : Nat} {n n' : Machine α} {s : Sweep α} {tape : Tape α}
    (before : Mirrors limit n s) (after : Mirrors limit n' (r.walk tape s)) : r.Behind n.table n'.table := by
  rw [before.table, after.table]
  exact (r.walk_altered tape s).mono (fun _ => False.elim) fun _ => id

-- What a machine regains after a block, it regains before it once the rules of the block have run.
theorem regains_before {n n' : Machine α} (forward : f.Runs mF block mF') (stores : r.activity.Stores block)
    (formed : block.WellFormed limits visible defined) (seen : visible ⊆ defined)
    (regains : Regains r.activity visible mF' n)
    (kept : ∀ v ∈ visible, v ∉ block.nested → n'.value? v = n.value? v) (behind : r.Behind n.table n'.table) :
    Regains r.activity visible mF n' := by
  have untouched : ∀ v ∈ visible, v ∉ block.assigned :=
    fun v old inside => formed.assigned_fresh inside (seen old)
  refine (Regains.past forward stores untouched).mpr (regains.kept (fun v old => ?_) behind)
  exact kept v old fun inside => untouched v old (block.nested_subset inside)

theorem Undoes.instr {i : Instr α} {rest later : Block α} {m₁ n n' : Machine α} {s : Sweep α}
    (undoes : r.Undoes f g limits.counter k (rest.definitions.assigned ++ (i.dst?.toList ++ visible)) rest
      m₁ mF' later) (covers : r.Covers (.instr i rest))
    (formed : (Block.instr i rest).WellFormed limits visible defined) (seen : visible ⊆ defined)
    (below : ∀ v ∈ i.dst?.toList ++ visible, v.index < k) (step : f.Steps mF i m₁)
    (forward : f.Runs m₁ rest mF')
    (regains : Regains r.activity ((Block.instr i rest).definitions.assigned ++ visible) mF' n)
    (runs : g.Runs n later n') (mirrors : Mirrors limits.counter n s) :
    (Mirrors limits.counter n' (r.walk (f.trace rest m₁) s) ∧
      ∀ v, v.index < k → v ∉ rest.nested → n'.value? v = n.value? v) ∧
    Regains r.activity (i.dst?.toList ++ visible) m₁ n' ∧ Regains r.activity visible mF n' := by
  obtain ⟨operands, within, fresh, formedRest⟩ := formed
  have grown : i.dst?.toList ++ visible ⊆ i.dst?.toList ++ defined :=
    List.append_subset.mpr ⟨List.subset_append_left _ _, List.subset_append_of_subset_right _ seen⟩
  have regainsRest : Regains r.activity (rest.definitions.assigned ++ (i.dst?.toList ++ visible)) mF' n :=
    regains.mono fun v known => by
      rw [Block.assigned_definitions_instr]
      simp only [List.mem_append] at known ⊢
      grind
  obtain ⟨mirrors', kept⟩ := undoes n n' s regainsRest runs mirrors
  have after : Regains r.activity (i.dst?.toList ++ visible) m₁ n' :=
    regains_before forward (covers.part (List.subset_cons_self _ _)).stores formedRest grown
      (regainsRest.mono (List.subset_append_right _ _)) (fun v known => kept v (below v known))
      (behind_walked mirrors mirrors')
  have first : (Block.instr i .nil).statements ⊆ (Block.instr i rest).statements :=
    List.cons_subset_cons _ (List.nil_subset _)
  have before : Regains r.activity visible mF n' := by
    refine (Regains.past (.instr step .nil) (covers.part first).stores fun v old here => ?_).mpr
      (after.mono (List.subset_append_right _ _))
    rw [Block.assigned_instr, Block.assigned_nil, List.append_nil, Option.mem_toList] at here
    exact fresh v here (seen old)
  exact ⟨⟨mirrors', kept⟩, after, before⟩

theorem Undoes.branch {cond : ValueId} {x : α} {onTrue onFalse rest later : Block α} {m₁ n n' : Machine α}
    {s : Sweep α} (undoes : r.Undoes f g limits.counter k (rest.definitions.assigned ++ visible) rest
      m₁ mF' later) (covers : r.Covers (.branch cond onTrue onFalse rest))
    (formed : (Block.branch cond onTrue onFalse rest).WellFormed limits visible defined)
    (seen : visible ⊆ defined) (below : ∀ v ∈ visible, v.index < k)
    (inner : f.Runs mF (Frame.taken x onTrue onFalse) m₁) (forward : f.Runs m₁ rest mF')
    (regains : Regains r.activity (rest.definitions.assigned ++ visible) mF' n)
    (runs : g.Runs n later n') (mirrors : Mirrors limits.counter n s) :
    (Mirrors limits.counter n' (r.walk (f.trace rest m₁) s) ∧
      ∀ v, v.index < k → v ∉ rest.nested → n'.value? v = n.value? v) ∧
    Regains r.activity visible mF n' := by
  obtain ⟨-, formedTrue, formedFalse, formedRest⟩ := formed
  have grown : visible ⊆ onFalse.assigned ++ (onTrue.assigned ++ defined) :=
    List.subset_append_of_subset_right _ (List.subset_append_of_subset_right _ seen)
  have coversRest : r.Covers rest := covers.part Block.rest_subset
  obtain ⟨mirrors', kept⟩ := undoes n n' s regains runs mirrors
  have after : Regains r.activity visible m₁ n' :=
    regains_before forward coversRest.stores formedRest grown (regains.mono (List.subset_append_right _ _))
      (fun v known => kept v (below v known)) (behind_walked mirrors mirrors')
  have untouched := Frame.taken_untouched formedTrue formedFalse seen x
  exact ⟨⟨mirrors', kept⟩, (Regains.past inner (covers.taken x).stores untouched).mpr after⟩

theorem withPrimals_undoes {rules : Block α} (frames : f.Alike g) (covers : r.Covers block)
    (formed : block.WellFormed limits visible defined) (seen : visible ⊆ defined)
    (forward : f.Runs mF block mF')
    (undoes : r.Undoes f g limits.counter k (block.definitions.assigned ++ visible) block mF mF' rules)
    {n n' : Machine α} {s : Sweep α} (regains : Regains r.activity visible mF n)
    (runs : g.Runs n (withPrimals block rules) n') (mirrors : Mirrors limits.counter n s) :
    Mirrors limits.counter n' (r.walk (f.trace block mF) s) ∧
      ∀ v, v.index < k → v ∉ block.assigned → n'.value? v = n.value? v := by
  cases rules with
  | nil =>
    cases runs
    -- the values at the end of the forward run stand in for the ones that nothing recomputes
    let stand : Machine α := ⟨n.table, mF'.values, n.adjoints⟩
    have standMirrors : Mirrors limits.counter stand s := ⟨mirrors.table, mirrors.adjoints⟩
    have changed : r.Behind mF.table mF'.table :=
      forward.altered.table.mono covers.stores fun _ _ => trivial
    have standRegains : Regains r.activity (block.definitions.assigned ++ visible) mF' stand :=
      ⟨fun _ _ _ => rfl, changed.symm.trans regains.table⟩
    obtain ⟨after, -⟩ := undoes stand stand s standRegains .nil standMirrors
    exact ⟨⟨after.table, after.adjoints⟩, fun _ _ _ => rfl⟩
  | instr | branch =>
    obtain ⟨n₁, again, ran⟩ := Frame.runs_append.mp runs
    obtain ⟨table, adjoints⟩ := Frame.Runs.definitions_keep again
    have mirrors₁ : Mirrors limits.counter n₁ s := by
      refine ⟨table.trans mirrors.table, fun v inside => ?_⟩
      rw [Machine.adjoint?, adjoints]
      exact mirrors.adjoints v inside
    have recalled := Frame.Runs.recomputes frames formed seen covers.own covers.stores forward again regains
    obtain ⟨after, kept⟩ := undoes n₁ n' s recalled ran mirrors₁
    refine ⟨after, fun v old outside => ?_⟩
    have other : v ∉ block.definitions.assigned := fun inside =>
      outside (Frame.assigned_definitions_subset block inside)
    exact (kept v old fun inside => outside (block.nested_subset inside)).trans (again.value?_other other)

theorem branchRule_ran {cond : ValueId} {inTrue inFalse : Block α} {n n' : Machine α} {x : α}
    (value : n.value? cond = some x) (runs : g.Runs n (branchRule cond inTrue inFalse) n') :
    g.Runs n (Frame.taken x inTrue inFalse) n' := by
  rw [branchRule] at runs
  split at runs
  · next none_ =>
    cases runs
    rw [Bool.and_eq_true] at none_
    rw [Block.eq_nil none_.1, Block.eq_nil none_.2]
    unfold Frame.taken
    split <;> exact .nil
  · cases runs with
    | branch value' inner others =>
      cases others
      cases value'.symm.trans value
      exact inner

theorem rules_undoes (frames : f.Alike g) (covers : r.Covers block)
    (formed : block.WellFormed limits visible defined) (seen : visible ⊆ defined)
    (below : ∀ v ∈ visible, v.index < limits.counter) (forward : f.Runs mF block mF') {rules : Block α}
    {k' : Nat} (ran : (r.rules block).run k = .ok (rules, k')) (room : limits.counter ≤ k) :
    r.Undoes f g limits.counter k (block.definitions.assigned ++ visible) block mF mF' rules := by
  induction block generalizing visible defined mF mF' rules k k' with
  | nil =>
    obtain ⟨rfl, rfl⟩ := Fresh.run_pure_ok.mp ran
    intro n n' s regains runs mirrors
    cases runs
    exact ⟨mirrors, fun _ _ _ => rfl⟩
  | instr i rest ih =>
    obtain ⟨later, k₁, ranRest, others⟩ := Fresh.run_bind_ok.mp ran
    obtain ⟨code, k₂, ranCode, same⟩ := Fresh.run_bind_ok.mp others
    obtain ⟨rfl, rfl⟩ := Fresh.run_pure_ok.mp same
    obtain ⟨operands, within, -, formedRest⟩ := id formed
    cases forward with
    | @instr _ m₁ _ _ _ step forward =>
      have grown : i.dst?.toList ++ visible ⊆ i.dst?.toList ++ defined :=
        List.append_subset.mpr ⟨List.subset_append_left _ _, List.subset_append_of_subset_right _ seen⟩
      have belowRest := within.below below
      have undoes := ih (covers.part (List.subset_cons_self _ _)) formedRest grown belowRest forward
        ranRest room
      have later := rules_grows rest k _ k₁ ranRest
      intro n n' s regains runs mirrors
      obtain ⟨n₁, runsRest, runsCode⟩ := Frame.runs_append.mp runs
      obtain ⟨⟨mirrors₁, kept⟩, after, before⟩ := undoes.instr covers formed seen
        (fun v known => Nat.lt_of_lt_of_le (belowRest v known) room) step forward regains runsRest mirrors
      have old : ∀ v ∈ i.dst?.toList ++ visible, v.index < k₁ := fun v known =>
        Nat.lt_of_lt_of_le (belowRest v known) (Nat.le_trans room later)
      have performs : Performs g limits.counter k₁ n₁ (r.instr i) (r.walk (mF.record i)) := by
        refine performs_instr step (covers.settled i List.mem_cons_self) (fun v used => ?_)
          (fun v dst => ?_) (fun v known => ?_) before.table
        · exact ⟨old v (List.mem_append_right _ (operands v used)), before.values v (operands v used)⟩
        · have known := List.mem_append_left visible (Option.mem_toList.mpr dst)
          exact ⟨old v known, after.values v known⟩
        · exact (List.mem_append.mp known).elim (fun used => below v (operands v used))
            fun dst => within.dst_lt (Option.mem_toList.mp dst)
      obtain ⟨mirrors₂, kept'⟩ := performs code _ n' _ ranCode runsCode mirrors₁
      rw [Frame.trace_instr step, walk_append]
      exact ⟨mirrors₂, fun v old outside =>
        (kept' v (Nat.lt_of_lt_of_le old later)).trans (kept v old outside)⟩
  | branch cond onTrue onFalse rest ihTrue ihFalse ihRest =>
    obtain ⟨later, k₁, ranRest, others⟩ := Fresh.run_bind_ok.mp ran
    obtain ⟨rulesTrue, k₂, ranTrue, others⟩ := Fresh.run_bind_ok.mp others
    obtain ⟨rulesFalse, k₃, ranFalse, same⟩ := Fresh.run_bind_ok.mp others
    obtain ⟨rfl, rfl⟩ := Fresh.run_pure_ok.mp same
    obtain ⟨condition, formedTrue, formedFalse, formedRest⟩ := id formed
    have laterRest := rules_grows rest k _ k₁ ranRest
    have laterTrue := rules_grows onTrue k₁ _ k₂ ranTrue
    cases forward with
    | @branch _ m₁ _ _ x _ _ _ value inner forward =>
      have coversTrue : r.Covers onTrue := covers.part Block.onTrue_subset
      have coversFalse : r.Covers onFalse := covers.part Block.onFalse_subset
      have coversRest : r.Covers rest := covers.part Block.rest_subset
      have innerUndoes : ∀ {n n' s}, Regains r.activity visible mF n →
          g.Runs n (Frame.taken x (withPrimals onTrue rulesTrue) (withPrimals onFalse rulesFalse)) n' →
          Mirrors limits.counter n s →
          Mirrors limits.counter n' (r.walk (f.trace (Frame.taken x onTrue onFalse) mF) s) ∧
            ∀ v, v.index < k → v ∉ onTrue.assigned ++ onFalse.assigned → n'.value? v = n.value? v := by
        intro n n' s regains runs mirrors
        unfold Frame.taken at inner runs ⊢
        split at inner
        · next zero =>
          rw [if_pos zero] at runs ⊢
          have grown : visible ⊆ onTrue.assigned ++ defined := List.subset_append_of_subset_right _ seen
          have undoes := ihFalse coversFalse formedFalse grown below inner ranFalse
            (Nat.le_trans room (Nat.le_trans laterRest laterTrue))
          obtain ⟨after, kept⟩ := withPrimals_undoes frames coversFalse formedFalse grown inner undoes
            regains runs mirrors
          exact ⟨after, fun v old outside => kept v
            (Nat.lt_of_lt_of_le old (Nat.le_trans laterRest laterTrue))
            fun inside => outside (List.mem_append_right _ inside)⟩
        · next nonzero =>
          rw [if_neg nonzero] at runs ⊢
          have undoes := ihTrue coversTrue formedTrue seen below inner ranTrue (Nat.le_trans room laterRest)
          obtain ⟨after, kept⟩ := withPrimals_undoes frames coversTrue formedTrue seen inner undoes
            regains runs mirrors
          exact ⟨after, fun v old outside => kept v (Nat.lt_of_lt_of_le old laterRest)
            fun inside => outside (List.mem_append_left _ inside)⟩
      have grown : visible ⊆ onFalse.assigned ++ (onTrue.assigned ++ defined) :=
        List.subset_append_of_subset_right _ (List.subset_append_of_subset_right _ seen)
      have undoes := ihRest coversRest formedRest grown below forward ranRest room
      intro n n' s regains runs mirrors
      obtain ⟨n₁, runsRest, runsBranch⟩ := Frame.runs_append.mp runs
      obtain ⟨⟨mirrors₁, kept⟩, before⟩ := undoes.branch covers formed seen
        (fun v known => Nat.lt_of_lt_of_le (below v known) room) inner forward regains runsRest mirrors
      have value₁ := (before.values cond condition (covers.conditions cond List.mem_cons_self)).trans value
      obtain ⟨mirrors₂, kept'⟩ := innerUndoes before (branchRule_ran value₁ runsBranch) mirrors₁
      rw [Frame.trace_branch value inner, walk_append]
      refine ⟨mirrors₂, fun v old outside => ?_⟩
      rw [Block.nested, List.mem_append, not_or] at outside
      exact (kept' v old outside.1).trans (kept v old outside.2)

end Reversal

end FieldKernel
