import FieldKernel.Proofs.Reverse.Emission
import FieldKernel.Proofs.Reverse.Refinement

-- The scope of reversed blocks, and the numbers they take.
namespace FieldKernel

variable {α : Type}

namespace Block

theorem assigned_perm (block : Block α) :
    block.assigned.Perm (block.definitions.assigned ++ block.nested) := by
  induction block with
  | nil => exact .refl _
  | instr i rest ih =>
    rw [assigned_instr, assigned_definitions_instr, nested, List.append_assoc]
    exact ih.append_left _
  | branch cond onTrue onFalse rest _ _ ih =>
    rw [assigned_branch, definitions, nested, ← List.append_assoc]
    refine (ih.append_left _).trans ?_
    rw [← List.append_assoc]
    exact (List.perm_append_comm).append_right _

variable {limits : Limits} {visible defined : List ValueId} {block : Block α}

theorem WellFormed.nested_apart (formed : block.WellFormed limits visible defined) {v : ValueId}
    (inside : v ∈ block.nested) : v ∉ block.definitions.assigned := by
  have distinct := block.assigned_perm.nodup_iff.mp formed.assigned_nodup
  exact fun own => (List.nodup_append.mp distinct).2.2 v own v inside rfl

end Block

variable [Scalar α]

namespace Reversal

variable {r : Reversal α} {limits : Limits} {visible defined : List ValueId} {k k₁ k' : Nat}
  {block rules onTrue onFalse inTrue inFalse : Block α}

omit [Scalar α] in
theorem withPrimals_continues (formed : block.WellFormed limits visible defined)
    (room : limits.counter ≤ k) (grown : k ≤ k')
    (continues : rules.Continues limits (block.definitions.assigned ++ visible) block.nested k k') :
    (withPrimals block rules).Continues limits visible block.assigned k k' := by
  unfold withPrimals
  split
  · exact Block.continues_nil
  · have own : block.definitions.Continues limits visible block.definitions.assigned k limits.counter :=
      ⟨formed.definitions.mono (List.Subset.refl _) (List.nil_subset _), fun _ => .inl⟩
    have again : block.definitions.definitions.assigned = block.definitions.assigned := by
      rw [Block.definitions_definitions]
    refine ((own.recount room).followed (again ▸ continues) ?_ (Nat.le_refl _) grown).mono
      (List.Subset.refl _) block.assigned_perm.symm.subset (Nat.le_refl _)
    intro v inside
    have below : v.index < limits.counter := formed.assigned_lt (block.nested_subset inside)
    exact ⟨by omega, formed.nested_apart inside⟩

omit [Scalar α] in
theorem branchRule_continues {cond : ValueId} {ownTrue ownFalse : List ValueId} (seen : cond ∈ visible)
    (first : inTrue.Continues limits visible ownTrue k k₁)
    (second : inFalse.Continues limits visible ownFalse k₁ k') (grown : k ≤ k₁) (grown' : k₁ ≤ k')
    (apart : ∀ v ∈ ownFalse, v.index < k ∧ v ∉ ownTrue) :
    (branchRule cond inTrue inFalse).Continues limits visible (ownTrue ++ ownFalse) k k' := by
  have both := first.append second apart grown grown'
  unfold branchRule
  split
  · exact Block.continues_nil
  · refine ⟨⟨seen, (first.recount grown').formed, ?_, trivial⟩, fun v member => both.fresh v ?_⟩
    · refine second.formed.apart (List.Subset.refl _) fun v later earlier => ?_
      have distinct := both.formed.assigned_nodup
      rw [Block.assigned_append] at distinct
      exact absurd rfl ((List.nodup_append.mp distinct).2.2 v (by simpa using earlier) v later)
    · simpa using member

-- The induction is on the block; of a statement and those after it, the rules of the latter come first
-- and so do their numbers.
theorem rules_continue (formed : block.WellFormed limits visible defined) (room : limits.counter ≤ k)
    (ran : (r.rules block).run k = .ok (rules, k')) :
    rules.Continues limits (block.definitions.assigned ++ visible) block.nested k k' := by
  induction block generalizing visible defined k k' rules with
  | nil =>
    obtain ⟨rfl, rfl⟩ := Fresh.run_pure_ok.mp ran
    exact Block.continues_nil
  | instr i rest ih =>
    obtain ⟨later, k₁, ranRest, others⟩ := Fresh.run_bind_ok.mp ran
    obtain ⟨instrs, k₂, ranInstr, same⟩ := Fresh.run_bind_ok.mp others
    obtain ⟨rfl, rfl⟩ := Fresh.run_pure_ok.mp same
    obtain ⟨operands, -, -, formedRest⟩ := formed
    have emits : Emits (r.Touches i) (i.dst?.toList ++ i.operands) (r.instr i) := emits_instr i
    have grown : k ≤ k₁ := rules_grows rest _ _ _ ranRest
    have grown' : k₁ ≤ k' := emits.grows _ _ _ ranInstr
    rw [Block.assigned_definitions_instr, Block.nested]
    have seenRest : rest.definitions.assigned ++ (i.dst?.toList ++ visible) ⊆
        i.dst?.toList ++ rest.definitions.assigned ++ visible := by
      intro v
      simp only [List.mem_append]
      grind
    have seenHere : i.dst?.toList ++ i.operands ⊆
        i.dst?.toList ++ rest.definitions.assigned ++ visible := by
      intro v member
      rcases List.mem_append.mp member with dst | used
      · exact List.mem_append_left _ (List.mem_append_left _ dst)
      · exact List.mem_append_right _ (operands v used)
    have first := (ih formedRest room ranRest).mono seenRest (List.Subset.refl _) (Nat.le_refl _)
    have second := (emits.continues limits _ _ _ ranInstr).mono seenHere (List.Subset.refl _) (Nat.le_refl _)
    have whole := first.append second (List.forall_mem_nil _) grown grown'
    rwa [List.append_nil] at whole
  | branch cond onTrue onFalse rest ihTrue ihFalse ihRest =>
    obtain ⟨later, k₁, ranRest, others⟩ := Fresh.run_bind_ok.mp ran
    obtain ⟨rulesTrue, k₂, ranTrue, others⟩ := Fresh.run_bind_ok.mp others
    obtain ⟨rulesFalse, k₃, ranFalse, same⟩ := Fresh.run_bind_ok.mp others
    obtain ⟨rfl, rfl⟩ := Fresh.run_pure_ok.mp same
    obtain ⟨condition, formedTrue, formedFalse, formedRest⟩ := formed
    have grown : k ≤ k₁ := rules_grows rest _ _ _ ranRest
    have grownTrue : k₁ ≤ k₂ := rules_grows onTrue _ _ _ ranTrue
    have grownFalse : k₂ ≤ k' := rules_grows onFalse _ _ _ ranFalse
    have first := withPrimals_continues formedTrue (by omega) grownTrue
      (ihTrue formedTrue (by omega) ranTrue)
    have second := withPrimals_continues formedFalse (by omega) grownFalse
      (ihFalse formedFalse (by omega) ranFalse)
    have branch := branchRule_continues condition first second grownTrue grownFalse fun v inside => by
      have below : v.index < limits.counter := formedFalse.assigned_lt inside
      refine ⟨by omega, fun other => ?_⟩
      exact formedFalse.assigned_fresh inside (List.mem_append_left _ other)
    have nestedApart : ∀ v ∈ onTrue.assigned ++ onFalse.assigned, v.index < k ∧ v ∉ rest.nested := by
      intro v inside
      have below : v.index < limits.counter :=
        (List.mem_append.mp inside).elim formedTrue.assigned_lt formedFalse.assigned_lt
      refine ⟨by omega, fun other => formedRest.assigned_fresh (rest.nested_subset other) ?_⟩
      simp only [List.mem_append] at inside ⊢
      grind
    have seen : visible ⊆ rest.definitions.assigned ++ visible := List.subset_append_right _ _
    refine ((ihRest formedRest room ranRest).append
      (branch.mono seen (List.Subset.refl _) (Nat.le_refl _)) nestedApart grown (by omega)).mono
      (List.Subset.refl _) ?_ (Nat.le_refl _)
    rw [Block.nested]
    exact List.perm_append_comm.subset

omit [Scalar α] in
theorem withPrimals_fills (fills : rules.Fills k k') : (withPrimals block rules).Fills k k' := by
  unfold withPrimals
  split
  · cases rules with
    | nil => exact fills
    | instr | branch => contradiction
  · intro j from_ below
    rw [Block.assigned_append]
    exact List.mem_append_right _ (fills j from_ below)

omit [Scalar α] in
theorem branchRule_fills {cond : ValueId} (first : inTrue.Fills k k₁) (second : inFalse.Fills k₁ k') :
    (branchRule cond inTrue inFalse).Fills k k' := by
  intro j from_ below
  have both := first.append second j from_ below
  rw [Block.assigned_append] at both
  unfold branchRule
  split
  · next empty =>
    cases inTrue <;> cases inFalse <;> first | exact both | cases empty
  · simpa using both

theorem rules_fill (ran : (r.rules block).run k = .ok (rules, k')) : rules.Fills k k' := by
  induction block generalizing k k' rules with
  | nil =>
    obtain ⟨rfl, rfl⟩ := Fresh.run_pure_ok.mp ran
    exact Block.fills_self
  | instr i rest ih =>
    obtain ⟨later, k₁, ranRest, others⟩ := Fresh.run_bind_ok.mp ran
    obtain ⟨instrs, k₂, ranInstr, same⟩ := Fresh.run_bind_ok.mp others
    obtain ⟨rfl, rfl⟩ := Fresh.run_pure_ok.mp same
    have emits : Emits (r.Touches i) (i.dst?.toList ++ i.operands) (r.instr i) := emits_instr i
    exact (ih ranRest).append (emits.fills _ _ _ ranInstr)
  | branch cond onTrue onFalse rest ihTrue ihFalse ihRest =>
    obtain ⟨later, k₁, ranRest, others⟩ := Fresh.run_bind_ok.mp ran
    obtain ⟨rulesTrue, k₂, ranTrue, others⟩ := Fresh.run_bind_ok.mp others
    obtain ⟨rulesFalse, k₃, ranFalse, same⟩ := Fresh.run_bind_ok.mp others
    obtain ⟨rfl, rfl⟩ := Fresh.run_pure_ok.mp same
    exact (ihRest ranRest).append (branchRule_fills (withPrimals_fills (ihTrue ranTrue))
      (withPrimals_fills (ihFalse ranFalse)))

end Reversal

namespace Kernel

variable {kernel grad : Kernel α} {signatures : Signatures} {body : Block α} {counter : Nat}

theorem backward_ok (reversed : kernel.backward signatures = .ok (body, counter)) :
    kernel.pureConditions (.ofKernel kernel signatures) = .ok () ∧ ∃ rules,
      ((kernel.reversal signatures).rules kernel.body).run kernel.counter = .ok (rules, counter) ∧
      body = Reversal.withPrimals kernel.body rules := by
  obtain ⟨-, rest⟩ := Except.then_ok.mp reversed
  obtain ⟨pure, rest⟩ := Except.then_ok.mp rest
  obtain ⟨⟨rules, counter⟩, ran, same⟩ := Except.bind_ok.mp rest
  cases same
  exact ⟨pure, rules, ran, rfl⟩

theorem reverse_ok : kernel.reverse signatures = .ok grad ↔ ∃ body counter,
    kernel.backward signatures = .ok (body, counter) ∧
      ⟨kernel.name ++ gradSuffix, kernel.domain, kernel.argCount, body.words, counter⟩ = grad := by
  refine Except.bind_ok.trans ⟨?_, ?_⟩
  · rintro ⟨⟨body, counter⟩, ran, same⟩
    exact ⟨body, counter, ran, Except.ok.inj same⟩
  · rintro ⟨body, counter, ran, rfl⟩
    exact ⟨(body, counter), ran, rfl⟩

theorem backward_formed (checked : kernel.check = .ok ())
    (reversed : kernel.backward signatures = .ok (body, counter)) :
    kernel.counter.toNat ≤ counter ∧ body.WellFormed { kernel.limits with counter := counter } [] [] := by
  obtain ⟨-, rules, ran, rfl⟩ := backward_ok reversed
  have formed := check_ok.mp checked
  have grown : kernel.counter.toNat ≤ counter := Reversal.rules_grows _ _ _ _ ran
  have continues := Reversal.rules_continue formed (Nat.le_refl _) ran
  exact ⟨grown, (Reversal.withPrimals_continues formed (Nat.le_refl _) grown continues).formed⟩

omit [Scalar α] in
theorem last_not_assigned {kernel : Kernel α} (checked : kernel.check = .ok ()) :
    (⟨4294967295⟩ : ValueId) ∉ kernel.body.assigned := fun last =>
  Nat.not_lt.mpr (Nat.le_of_lt_succ kernel.counter.short) ((check_ok.mp checked).assigned_lt last)

-- If there are no words for all fresh values, one of them takes the last word. So no kernel with the body of
-- the gradient kernel is well formed then, whatever its counter.
theorem reverse_short {other : Kernel α} (numbered : kernel.backward signatures = .ok (body, counter))
    (same : other.body = body.words) (checked : other.check = .ok ()) : counter < 4294967296 := by
  by_contra beyond
  obtain ⟨-, rules, ran, rfl⟩ := backward_ok numbered
  have last : (⟨4294967295⟩ : ValueId) ∈ (Reversal.withPrimals kernel.body rules).assigned :=
    Reversal.withPrimals_fills (Reversal.rules_fill ran) _ (Nat.le_of_lt_succ kernel.counter.short) (by omega)
  refine last_not_assigned checked ?_
  rw [same, Block.words, Block.assigned_rename]
  exact List.mem_map.mpr ⟨_, last, ValueId.word_eq (by decide)⟩

theorem reverse_check_iff (checked : kernel.check = .ok ())
    (numbered : kernel.backward signatures = .ok (body, counter)) (reversed : kernel.reverse signatures = .ok grad) :
    grad.check = .ok () ↔ counter < 4294967296 := by
  obtain ⟨body', counter', numbered', rfl⟩ := reverse_ok.mp reversed
  cases numbered.symm.trans numbered'
  obtain ⟨grown, formed⟩ := backward_formed checked numbered
  refine ⟨reverse_short numbered rfl, fun short => ?_⟩
  rw [check_ok]
  have limits : Kernel.limits (⟨kernel.name ++ gradSuffix, kernel.domain, kernel.argCount, body.words,
      counter⟩ : Kernel α) = { kernel.limits with counter := counter } :=
    congrArg (Limits.mk _ _) (ShortWord.ofNat_eq short)
  rw [limits, Block.words_eq fun v member => Nat.lt_trans (formed.named_lt member) short]
  exact formed

theorem reverse_plain (checked : kernel.check = .ok ()) (reversed : kernel.reverse signatures = .ok grad)
    (gradChecked : grad.check = .ok ()) : kernel.backward signatures = .ok (grad.body, grad.counter) := by
  obtain ⟨body, counter, numbered, rfl⟩ := reverse_ok.mp reversed
  have short := (reverse_check_iff checked numbered reversed).mp gradChecked
  have formed := (backward_formed checked numbered).2
  have words : body.words = body := Block.words_eq fun v member => Nat.lt_trans (formed.named_lt member) short
  exact numbered.trans (congrArg Except.ok (Prod.ext words.symm (ShortWord.ofNat_eq short).symm))

theorem reverse_name (reversed : kernel.reverse signatures = .ok grad) : grad.name = kernel.name ++ gradSuffix := by
  obtain ⟨body, counter, -, rfl⟩ := reverse_ok.mp reversed
  rfl

theorem reverse_domain (reversed : kernel.reverse signatures = .ok grad) :
    grad.domain = kernel.domain ∧ grad.argCount = kernel.argCount := by
  obtain ⟨body, counter, -, rfl⟩ := reverse_ok.mp reversed
  exact ⟨rfl, rfl⟩

end Kernel

end FieldKernel
