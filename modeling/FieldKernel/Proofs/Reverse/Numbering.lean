import FieldKernel.Proofs.Kernel.Fusion
import FieldKernel.Proofs.Reverse.Emission
import FieldKernel.Proofs.Reverse.Pass

-- What a gradient kernel is made of: values below its counter, fields of the kernel, moves of adjoints.
namespace FieldKernel

variable {α : Type} [Scalar α]

-- An instruction of a gradient kernel addresses no element, or is a definition of the kernel, or comes
-- from the rule of an instruction of the kernel.
def Reversal.Derives (r : Reversal α) (body : Block α) (j : Instr α) : Prop :=
  ∀ place ∈ j.place?, j.isPure = true ∧ .instr j ∈ body.statements ∨
    ∃ i, .instr i ∈ body.statements ∧ r.Touches i place

structure Block.Derived (block : Block α) (r : Reversal α) (body : Block α) (limit : Nat) : Prop where
  assigned : ∀ v ∈ block.assigned, v.index < limit
  derives : ∀ j, .instr j ∈ block.statements → r.Derives body j

namespace Block

variable {r : Reversal α} {body : Block α} {limit limit' : Nat} {a b : Block α}

omit [Scalar α] in
theorem Derived.mono (derived : a.Derived r body limit) (more : limit ≤ limit') : a.Derived r body limit' :=
  ⟨fun v member => Nat.lt_of_lt_of_le (derived.assigned v member) more, derived.derives⟩

omit [Scalar α] in
theorem Derived.append (left : a.Derived r body limit) (right : b.Derived r body limit) :
    (a ++ b).Derived r body limit where
  assigned := by
    rw [assigned_append]
    exact List.forall_mem_append.mpr ⟨left.assigned, right.assigned⟩
  derives := fun j member => by
    rw [statements_append, List.mem_append] at member
    exact member.elim (left.derives j) (right.derives j)

omit [Scalar α] in
theorem derived_nil : (nil : Block α).Derived r body limit := ⟨nofun, nofun⟩

omit [Scalar α] in
theorem derived_branch {cond : ValueId} (inTrue : a.Derived r body limit) (inFalse : b.Derived r body limit) :
    (branch cond a b nil).Derived r body limit := by
  refine ⟨?_, ?_⟩
  · rw [assigned_branch, assigned_nil, List.append_nil]
    exact List.forall_mem_append.mpr ⟨inTrue.assigned, inFalse.assigned⟩
  · intro j member
    simp only [statements, List.mem_cons, reduceCtorEq, false_or, List.mem_append, List.not_mem_nil,
      or_false] at member
    exact member.elim (inTrue.derives j) (inFalse.derives j)

omit [Scalar α] in
theorem assigned_part (part : b.statements ⊆ a.statements) : b.assigned ⊆ a.assigned := fun v member => by
  obtain ⟨s, inside, dst⟩ := List.mem_filterMap.mp member
  exact List.mem_filterMap.mpr ⟨s, part inside, dst⟩

omit [Scalar α] in
theorem statements_ofInstrs (instrs : List (Instr α)) :
    (ofInstrs instrs).statements = instrs.map .instr := by
  induction instrs with
  | nil => rfl
  | cons i rest ih =>
    change Statement.instr i :: (ofInstrs rest).statements = _
    rw [ih]
    rfl

omit [Scalar α] in
theorem statements_definitions (block : Block α) : block.definitions.statements ⊆ block.statements := by
  induction block with
  | nil => exact List.Subset.refl _
  | instr i rest ih =>
    rw [definitions]
    split
    · exact List.cons_subset_cons _ ih
    · exact List.subset_cons_of_subset _ ih
  | branch cond onTrue onFalse rest _ _ ih =>
    exact List.subset_cons_of_subset _ (List.subset_append_of_subset_right _ ih)

omit [Scalar α] in
theorem isPure_definitions {block : Block α} {j : Instr α} (member : .instr j ∈ block.definitions.statements) :
    j.isPure = true := by
  induction block with
  | nil => cases member
  | instr i rest ih =>
    rw [definitions] at member
    split at member
    · next pure =>
      rcases List.mem_cons.mp member with same | later
      · cases same
        exact pure
      · exact ih later
    · exact ih member
  | branch cond onTrue onFalse rest _ _ ih => exact ih member

omit [Scalar α] in
theorem derived_definitions {block : Block α} (part : block.statements ⊆ body.statements)
    (inside : ∀ v ∈ block.assigned, v.index < limit) : block.definitions.Derived r body limit where
  assigned := fun v member => inside v (assigned_part block.statements_definitions member)
  derives := fun _ member _ _ =>
    .inl ⟨isPure_definitions member, part (block.statements_definitions member)⟩

def MovesAdjoints (block : Block α) : Prop :=
  block = nil ∨ ∃ s ∈ block.statements, s.isReverseOnly = true

omit [Scalar α] in
theorem MovesAdjoints.append (left : a.MovesAdjoints) (right : b.MovesAdjoints) :
    (a ++ b).MovesAdjoints := by
  rcases left with rfl | ⟨s, member, only⟩
  · exact right
  · exact .inr ⟨s, by simp [member], only⟩

end Block

namespace Reversal

variable {r : Reversal α} {body block rules : Block α} {k k' limit : Nat}

omit [Scalar α] in
theorem withPrimals_derived (part : block.statements ⊆ body.statements)
    (inside : ∀ v ∈ block.assigned, v.index < limit) (derived : rules.Derived r body limit) :
    (withPrimals block rules).Derived r body limit := by
  unfold withPrimals
  split
  · exact Block.derived_nil
  · exact (Block.derived_definitions part inside).append derived

omit [Scalar α] in
theorem withPrimals_moves (moves : rules.MovesAdjoints) : (withPrimals block rules).MovesAdjoints := by
  unfold withPrimals
  split
  · exact .inl rfl
  · next full =>
    rcases moves with rfl | ⟨s, member, only⟩
    · exact absurd rfl full
    · exact .inr ⟨s, by simp [member], only⟩

-- The rules of a block; the induction is on the block, and the later statements come first.
theorem rules_derived (part : block.statements ⊆ body.statements)
    (inside : ∀ v ∈ block.assigned, v.index < k) (ran : (r.rules block).run k = .ok (rules, k')) :
    rules.Derived r body k' ∧ rules.MovesAdjoints := by
  induction block generalizing k k' rules with
  | nil =>
    obtain ⟨rfl, rfl⟩ := Fresh.run_pure_ok.mp ran
    exact ⟨Block.derived_nil, .inl rfl⟩
  | instr i rest ih =>
    obtain ⟨later, k₁, ranRest, others⟩ := Fresh.run_bind_ok.mp ran
    obtain ⟨instrs, k₂, ranInstr, same⟩ := Fresh.run_bind_ok.mp others
    obtain ⟨rfl, rfl⟩ := Fresh.run_pure_ok.mp same
    obtain ⟨here, partRest⟩ := List.cons_subset.mp part
    rw [Block.assigned_instr, List.forall_mem_append] at inside
    obtain ⟨derived, moves⟩ := ih partRest inside.2 ranRest
    have emits : Emits (r.Touches i) (i.dst?.toList ++ i.operands) (r.instr i) := emits_instr i
    have emitted : (Block.ofInstrs instrs).Derived r body k' := by
      refine ⟨fun _ => (emits.continues ⟨0, 0, 0⟩ _ _ _ ranInstr).formed.assigned_lt, ?_⟩
      exact fun j member place addressed =>
        .inr ⟨i, here, emits.addresses _ _ _ ranInstr (.instr j) member place addressed⟩
    refine ⟨(derived.mono (emits.grows _ _ _ ranInstr)).append emitted, moves.append ?_⟩
    rcases emits.moves _ _ _ ranInstr with rfl | ⟨j, member, only⟩
    · exact .inl rfl
    · refine .inr ⟨.instr j, ?_, only⟩
      rw [Block.statements_ofInstrs]
      exact List.mem_map_of_mem member
  | branch cond onTrue onFalse rest ihTrue ihFalse ihRest =>
    obtain ⟨later, k₁, ranRest, others⟩ := Fresh.run_bind_ok.mp ran
    obtain ⟨inTrue, k₂, ranTrue, others⟩ := Fresh.run_bind_ok.mp others
    obtain ⟨inFalse, k₃, ranFalse, same⟩ := Fresh.run_bind_ok.mp others
    obtain ⟨rfl, rfl⟩ := Fresh.run_pure_ok.mp same
    obtain ⟨-, parts⟩ := List.cons_subset.mp part
    obtain ⟨partInner, partRest⟩ := List.append_subset.mp parts
    obtain ⟨partTrue, partFalse⟩ := List.append_subset.mp partInner
    rw [Block.assigned_branch, List.forall_mem_append, List.forall_mem_append] at inside
    have le₁ : k ≤ k₁ := rules_grows rest _ _ _ ranRest
    have le₂ : k₁ ≤ k₂ := rules_grows onTrue _ _ _ ranTrue
    have le₃ : k₂ ≤ k' := rules_grows onFalse _ _ _ ranFalse
    have insideTrue : ∀ l, k ≤ l → ∀ v ∈ onTrue.assigned, v.index < l := fun l more v member =>
      Nat.lt_of_lt_of_le (inside.1.1 v member) more
    have insideFalse : ∀ l, k ≤ l → ∀ v ∈ onFalse.assigned, v.index < l := fun l more v member =>
      Nat.lt_of_lt_of_le (inside.1.2 v member) more
    obtain ⟨derivedRest, movesRest⟩ := ihRest partRest inside.2 ranRest
    obtain ⟨derivedTrue, movesTrue⟩ := ihTrue partTrue (insideTrue k₁ le₁) ranTrue
    obtain ⟨derivedFalse, movesFalse⟩ := ihFalse partFalse (insideFalse k₂ (by omega)) ranFalse
    have codeTrue : (withPrimals onTrue inTrue).Derived r body k' :=
      withPrimals_derived partTrue (insideTrue k' (by omega)) (derivedTrue.mono le₃)
    have codeFalse : (withPrimals onFalse inFalse).Derived r body k' :=
      withPrimals_derived partFalse (insideFalse k' (by omega)) derivedFalse
    have fullTrue : (withPrimals onTrue inTrue).MovesAdjoints := withPrimals_moves movesTrue
    have fullFalse : (withPrimals onFalse inFalse).MovesAdjoints := withPrimals_moves movesFalse
    refine ⟨(derivedRest.mono (by omega)).append ?_, movesRest.append ?_⟩
    · unfold branchRule
      split
      · exact Block.derived_nil
      · exact Block.derived_branch codeTrue codeFalse
    · unfold branchRule
      split
      · exact .inl rfl
      · next full =>
        rcases fullTrue with nilTrue | ⟨s, member, only⟩
        · rcases fullFalse with nilFalse | ⟨s, member, only⟩
          · exact absurd (by rw [nilTrue, nilFalse]; rfl) full
          · exact .inr ⟨s, Block.onFalse_subset member, only⟩
        · exact .inr ⟨s, Block.onTrue_subset member, only⟩

end Reversal

namespace Kernel

variable {kernel grad : Kernel α} {signatures : Signatures} {body : Block α} {counter : Nat}

theorem backward_derived (counted : kernel.Counted) (reversed : kernel.backward signatures = .ok (body, counter)) :
    body.Derived (kernel.reversal signatures) kernel.body counter ∧ body.MovesAdjoints := by
  obtain ⟨-, rules, ran, rfl⟩ := backward_ok reversed
  have whole := List.Subset.refl kernel.body.statements
  obtain ⟨derived, moves⟩ := Reversal.rules_derived whole counted ran
  have grown : kernel.counter.toNat ≤ counter := Reversal.rules_grows _ _ _ _ ran
  exact ⟨Reversal.withPrimals_derived whole (fun v member => Nat.lt_of_lt_of_le (counted v member) grown) derived,
    Reversal.withPrimals_moves moves⟩

theorem backward_addressed (counted : kernel.Counted) (reversed : kernel.backward signatures = .ok (body, counter))
    {place : Place} (addressed : body.Addressed place) : kernel.body.Addressed place := by
  obtain ⟨s, member, here⟩ := addressed
  cases s with
  | branch cond => cases here
  | instr j =>
    rcases (backward_derived counted reversed).1.derives j member place here with ⟨-, own⟩ | ⟨i, own, touched⟩
    · exact ⟨.instr j, own, here⟩
    · exact ⟨.instr i, own, touched.addressed⟩

theorem reverse_uses (counted : kernel.Counted) (reversed : kernel.reverse signatures = .ok grad) {use : Use}
    {name : String} (used : grad.body.Uses use name) : ∃ use, kernel.body.Uses use name := by
  obtain ⟨body, counter, numbered, rfl⟩ := reverse_ok.mp reversed
  rw [Block.words, Block.uses_rename] at used
  obtain ⟨place, addressed, rfl⟩ := used.addressed
  obtain ⟨s, member, addressed⟩ := backward_addressed counted numbered addressed
  exact Block.uses_of_place member addressed

theorem reverse_again {again : Kernel α} {signatures' : Signatures} (counted : kernel.Counted)
    (reversed : kernel.reverse signatures = .ok grad) (reversed' : grad.reverse signatures' = .ok again) :
    grad.body = .nil := by
  obtain ⟨body, counter, numbered, rfl⟩ := reverse_ok.mp reversed
  obtain ⟨body', counter', numbered', -⟩ := reverse_ok.mp reversed'
  have forward := forwardOnly_ok.mp (Except.then_ok.mp numbered').1
  rw [Block.words, Block.statements_rename, List.forall_mem_map] at forward
  rcases (backward_derived counted numbered).2 with rfl | ⟨s, member, only⟩
  · rfl
  · have same : (s.rename (·.word)).isReverseOnly = s.isReverseOnly := by
      cases s with
      | instr i => cases i <;> rfl
      | branch cond => rfl
    rw [← same, forward s member] at only
    cases only

variable {δ : Type} [Digest δ]

theorem reverse_binds {table : FieldTable α} {bound : Bound α δ} (binds : kernel.bind table = .ok bound)
    (reversed : kernel.reverse signatures = .ok grad) (gradChecked : grad.check = .ok ()) :
    ∃ gradBound : Bound α δ, grad.bind table = .ok gradBound := by
  obtain ⟨checked, ranked, resolved, -⟩ := binds_iff.mp binds
  have addressed : ∀ {place}, grad.body.Addressed place → kernel.body.Addressed place :=
    backward_addressed (counted_of_check checked) (reverse_plain checked reversed gradChecked)
  obtain ⟨there, -⟩ := resolve_finds resolved
  have named : ∀ name ∈ (Access.ofBlock grad.body).fields.names, table.contains name = true := by
    intro name member
    obtain ⟨use, used⟩ := Access.contains_fields.mp (NameMap.mem_names.mp member)
    obtain ⟨place, here, rfl⟩ := (Access.contains_ofBlock.mp used).addressed
    obtain ⟨s, inside, there_⟩ := addressed here
    obtain ⟨use', used'⟩ := Block.uses_of_place inside there_
    exact there _ (NameMap.mem_names.mpr
      (Access.contains_fields.mpr ⟨use', Access.contains_ofBlock.mpr used'⟩))
  obtain ⟨gradSignatures, gradResolved⟩ := resolve_total named
  refine ⟨⟨grad, gradSignatures, .ofBlock grad.body, grad.digest gradSignatures⟩, binds_iff.mpr
    ⟨gradChecked, (ranked_iff gradResolved).mpr ?_, gradResolved, rfl⟩⟩
  intro s inside place here
  obtain ⟨s', inside', here'⟩ := addressed ⟨s, inside, here⟩
  exact (ranked_iff resolved).mp ranked s' inside' place here'

end Kernel

end FieldKernel
