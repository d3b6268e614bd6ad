import FieldKernel.Proofs.Execution.Progress
import FieldKernel.Proofs.Field.Location
import FieldKernel.Proofs.Reverse.Numbering

-- When a gradient pass succeeds. Every rule finds its elements again; but all loads are run again, needed or
-- not, and they too must be at coordinates that depend on nothing overwritten.
namespace FieldKernel

variable {α : Type} [Scalar α]

def Statement.loadIndex : Statement α → List ValueId
  | .instr (.define _ (.load place)) => place.index
  | _ => []

-- Every load is at coordinates that may be recomputed.
def Activity.Recallable (activity : Activity α) (block : Block α) : Prop :=
  ∀ s ∈ block.statements, ∀ v ∈ s.loadIndex, activity.Clean v

instance (activity : Activity α) (block : Block α) : Decidable (activity.Recallable block) :=
  inferInstanceAs (Decidable (∀ s ∈ block.statements, ∀ v ∈ s.loadIndex, activity.overwrittenField? v = none))

omit [Scalar α] in
theorem Activity.Recallable.part {activity : Activity α} {outer inner : Block α}
    (recallable : activity.Recallable outer) (part : inner.statements ⊆ outer.statements) :
    activity.Recallable inner := fun s member => recallable s (part member)

namespace Frame

variable {activity : Activity α} {f g : Frame α} {m n m' : Machine α} {block : Block α}

theorem Steps.located {i : Instr α} (step : f.Steps m i m') : ∀ place ∈ i.place?, ∃ p, m.position? place = some p := by
  intro place addressed
  cases step with
  | @define dst e x evaluates room =>
    cases e with
    | load =>
      cases addressed
      obtain ⟨field, p, -, at_, -⟩ := evaluates
      exact ⟨p, at_⟩
    | const | index | arg | binary | unary | compare => cases addressed
  | store at_ | readGrad at_ | addGrad at_ =>
    cases addressed
    exact ⟨_, at_⟩
  | propagate => cases addressed

theorem Runs.definitions_run (frames : f.Alike g) {limits : Limits} {visible defined : List ValueId}
    (formed : block.WellFormed limits visible defined) (seen : visible ⊆ defined)
    (own : ∀ dst e, .instr (.define dst e) ∈ block.statements →
      definitionOf? activity.definitions dst = some ⟨dst, e⟩)
    (stores : activity.Stores block) (forward : f.Runs m block m') (suits : g.Suits limits)
    (recallable : activity.Recallable block.definitions) (holds : n.Holds limits.counter visible)
    (regains : Regains activity visible m n) : ∃ n', g.Runs n block.definitions n' := by
  induction block generalizing visible defined m n with
  | nil => exact ⟨n, .nil⟩
  | instr i rest ih =>
    have later : rest.statements ⊆ (Block.instr i rest).statements := List.subset_cons_self _ _
    have first : (Block.instr i .nil).statements ⊆ (Block.instr i rest).statements :=
      List.cons_subset_cons _ (List.nil_subset _)
    obtain ⟨operands, within, fresh, others⟩ := formed
    have grown : i.dst?.toList ++ visible ⊆ i.dst?.toList ++ defined :=
      List.append_subset.mpr ⟨List.subset_append_left _ _, List.subset_append_of_subset_right _ seen⟩
    cases forward with
    | @instr _ m₁ _ _ _ step forward =>
      have goesOn : ∀ n₁, activity.Recallable rest.definitions →
          n₁.Holds limits.counter (i.dst?.toList ++ visible) →
          Regains activity (i.dst?.toList ++ visible) m₁ n₁ → ∃ n', g.Runs n₁ rest.definitions n' :=
        fun n₁ => ih others grown (fun d e member => own d e (later member))
          (fun name uses => stores name (uses.inside later)) forward
      cases i with
      | define dst e =>
        -- the forward run has found the element, at coordinates that are as they were
        have serves : n.Serves (.define dst e) := by
          refine ⟨fun place addressed => ?_, nofun⟩
          obtain ⟨p, at_⟩ := step.located place addressed
          have clean : ∀ v ∈ place.index, v ∈ visible ∧ activity.Clean v := by
            intro v coordinate
            cases e with
            | load =>
              cases addressed
              exact ⟨operands v coordinate, recallable _ List.mem_cons_self v coordinate⟩
            | const | index | arg | binary | unary | compare => cases addressed
          refine ⟨p, (Machine.position?_congr regains.table.agreeIn fun v coordinate => ?_).trans at_⟩
          exact regains.values v (clean v coordinate).1 (clean v coordinate).2
        obtain ⟨n₁, step'⟩ := steps_exists holds suits operands within serves
        obtain ⟨n', runs⟩ := goesOn n₁ (recallable.part (List.subset_cons_self _ _)) (step'.holds holds)
          (regains.define frames (own dst e List.mem_cons_self) operands step step')
        exact ⟨n', .instr step' runs⟩
      | store place v | readGrad target place | propagate target source scale | addGrad place source =>
        have stored : activity.Stores (.instr _ .nil) := fun name uses => stores name (uses.inside first)
        exact goesOn n recallable holds ((Regains.past (.instr step .nil) stored nofun).mp regains)
  | branch cond onTrue onFalse rest _ _ ih =>
    obtain ⟨-, inTrue, inFalse, others⟩ := formed
    cases forward with
    | @branch _ m₁ _ _ x _ _ _ value inner forward =>
      have stored : activity.Stores (taken x onTrue onFalse) := fun name uses =>
        stores name (uses.inside (taken_subset cond x onTrue onFalse rest))
      exact ih others (List.subset_append_of_subset_right _ (List.subset_append_of_subset_right _ seen))
        (fun d e member => own d e (Block.rest_subset member))
        (fun name uses => stores name (uses.inside Block.rest_subset))
        forward recallable holds ((Regains.past inner stored (taken_untouched inTrue inFalse seen x)).mp regains)

end Frame

namespace Reversal

variable {r : Reversal α} {f g : Frame α} {limits : Limits} {registers k : Nat}
  {visible defined : List ValueId} {block : Block α} {mF mF' : Machine α}

def Grades (r : Reversal α) (table : FieldTable α) : Prop :=
  ∀ name, r.signatures.isReal name = true → ∃ field, table.find? name = some field ∧ field.hasGrad = true

omit [Scalar α] in
theorem Grades.behind {a b : FieldTable α} (grades : r.Grades a) (behind : r.Behind a b) : r.Grades b := by
  intro name real
  obtain ⟨field, found, graded⟩ := grades name real
  obtain ⟨field', found', altered⟩ := behind.find found
  exact ⟨field', found', altered.hasGrad.trans graded⟩

-- Code that runs on every machine that holds and regains what is known after a forward run.
def Proceeds (r : Reversal α) (g : Frame α) (registers : Nat) (known : List ValueId) (mF' : Machine α)
    (code : Block α) : Prop :=
  ∀ n, n.Holds registers known → Regains r.activity known mF' n → r.Grades n.table → ∃ n', g.Runs n code n'

omit [Scalar α] in
theorem Covers.real (covers : r.Covers block) {i : Instr α} (member : .instr i ∈ block.statements)
    {place : Place} (touched : r.Touches i place) : r.signatures.isReal place.field = true := by
  obtain ⟨same, concerns, -⟩ := touched
  cases i with
  | define dst e =>
    cases e with
    | load =>
      cases same
      exact covers.loads _ _ member concerns
    | const | index | arg | binary | unary | compare => cases same
  | store =>
    cases same
    exact concerns.1
  | readGrad | propagate | addGrad => cases concerns

theorem mirrors_exists {limit : Nat} {known : List ValueId} {n : Machine α} (holds : n.Holds registers known)
    (room : limit ≤ registers) : ∃ s, Mirrors limit n s := by
  refine ⟨⟨n.table, fun v => (n.adjoint? v).getD Scalar.zero⟩, rfl, fun v below => ?_⟩
  have inside : v.index < n.adjoints.size := by
    have := holds.values
    have := holds.adjoints
    omega
  simp [Machine.adjoint?, inside]

theorem instr_proceeds {i : Instr α} {m₁ n : Machine α} {code : List (Instr α)} {k' : Nat}
    (covers : r.Covers (.instr i .nil)) (operands : ∀ v ∈ i.operands, v ∈ visible)
    (below : ∀ v ∈ i.dst?.toList ++ visible, v.index < k) (step : f.Steps mF i m₁)
    (ran : (r.instr i).run k = .ok (code, k')) (suits : g.Suits limits)
    (holds : n.Holds k' (i.dst?.toList ++ visible)) (before : Regains r.activity visible mF n)
    (grades : r.Grades n.table) : ∃ n', g.Runs n (Block.ofInstrs code) n' := by
  have emits : Emits (r.Touches i) (i.dst?.toList ++ i.operands) (r.instr i) := emits_instr i
  have continues := emits.continues limits _ _ _ ran
  have known : i.dst?.toList ++ i.operands ⊆ i.dst?.toList ++ visible :=
    List.append_subset.mpr ⟨List.subset_append_left _ _, fun v used => List.mem_append_right _ (operands v used)⟩
  have apart : ∀ v ∈ (Block.ofInstrs code).assigned, v ∈ i.dst?.toList ++ visible → v ∈ [] := by
    intro v assigned old
    have fresh := (continues.fresh v assigned).resolve_left List.not_mem_nil
    have old := below v old
    omega
  have formed := continues.formed.apart known apart
  have suits' : g.Suits { limits with counter := k' } := ⟨suits.rank, suits.argCount⟩
  refine Frame.instrs_run holds suits' formed fun j member => ?_
  have touches : ∀ place ∈ j.place?, r.Touches i place := fun place addressed =>
    emits.addresses _ _ _ ran (.instr j) (by rw [Block.statements_ofInstrs]; exact List.mem_map_of_mem member)
      place addressed
  have used : ∀ place ∈ j.place?, place.index ⊆ i.operands := fun place addressed =>
    Instr.index_subset (touches place addressed).addressed
  refine ⟨⟨fun place addressed => ?_, fun _ place addressed => ?_⟩, fun place addressed v coordinate =>
    List.mem_append_right _ (operands v (used place addressed coordinate))⟩
  · have touched := touches place addressed
    obtain ⟨p, at_⟩ := step.located place touched.addressed
    refine ⟨p, (Machine.position?_congr before.table.agreeIn fun v coordinate => ?_).trans at_⟩
    exact before.values v (operands v (used place addressed coordinate)) (touched.clean v coordinate)
  · exact grades place.field (covers.real List.mem_cons_self (touches place addressed))

theorem withPrimals_proceeds {rules : Block α} {n : Machine α} (frames : f.Alike g) (covers : r.Covers block)
    (formed : block.WellFormed limits visible defined) (seen : visible ⊆ defined)
    (forward : f.Runs mF block mF') (suits : g.Suits limits) (room : limits.counter ≤ registers)
    (recallable : r.activity.Recallable (withPrimals block rules))
    (proceeds : r.activity.Recallable rules →
      r.Proceeds g registers (block.definitions.assigned ++ visible) mF' rules)
    (holds : n.Holds registers visible) (regains : Regains r.activity visible mF n)
    (grades : r.Grades n.table) : ∃ n', g.Runs n (withPrimals block rules) n' := by
  cases rules with
  | nil => exact ⟨n, .nil⟩
  | instr | branch =>
    have recallable : r.activity.Recallable (block.definitions ++ _) := recallable
    obtain ⟨n₁, again⟩ := Frame.Runs.definitions_run frames formed seen covers.own covers.stores forward suits
      (recallable.part fun s member => by simp [member]) (holds.mono (List.Subset.refl _) room) regains
    obtain ⟨table, -⟩ := Frame.Runs.definitions_keep again
    have recalled := Frame.Runs.recomputes frames formed seen covers.own covers.stores forward again regains
    have held := again.holds holds
    rw [Block.definitions_definitions] at held
    obtain ⟨n', ran⟩ := proceeds (recallable.part fun s member => by simp [member]) n₁ held recalled (table ▸ grades)
    exact ⟨n', Frame.runs_append.mpr ⟨n₁, again, ran⟩⟩

theorem Undoes.stands_instr {i : Instr α} {rest later : Block α} {m₁ n n' : Machine α}
    (undoes : r.Undoes f g limits.counter k (rest.definitions.assigned ++ (i.dst?.toList ++ visible)) rest
      m₁ mF' later) (covers : r.Covers (.instr i rest))
    (formed : (Block.instr i rest).WellFormed limits visible defined) (seen : visible ⊆ defined)
    (below : ∀ v ∈ i.dst?.toList ++ visible, v.index < k) (step : f.Steps mF i m₁)
    (forward : f.Runs m₁ rest mF') (room : limits.counter ≤ registers)
    (holds : n.Holds registers (rest.definitions.assigned ++ (i.dst?.toList ++ visible)))
    (regains : Regains r.activity ((Block.instr i rest).definitions.assigned ++ visible) mF' n)
    (grades : r.Grades n.table) (runs : g.Runs n later n') :
    n'.Holds registers (i.dst?.toList ++ visible) ∧ Regains r.activity visible mF n' ∧ r.Grades n'.table := by
  obtain ⟨s, mirrors⟩ : ∃ s, Mirrors limits.counter n s := mirrors_exists holds room
  obtain ⟨⟨mirrors', -⟩, -, before⟩ :=
    undoes.instr covers formed seen below step forward regains runs mirrors
  refine ⟨(runs.holds holds).mono (fun v member => ?_) (Nat.le_refl _), before,
    grades.behind (behind_walked mirrors mirrors')⟩
  exact List.mem_append_right _ (List.mem_append_right _ member)

theorem Undoes.stands_branch {cond : ValueId} {x : α} {onTrue onFalse rest later : Block α}
    {m₁ n n' : Machine α}
    (undoes : r.Undoes f g limits.counter k (rest.definitions.assigned ++ visible) rest m₁ mF' later)
    (covers : r.Covers (.branch cond onTrue onFalse rest))
    (formed : (Block.branch cond onTrue onFalse rest).WellFormed limits visible defined)
    (seen : visible ⊆ defined) (below : ∀ v ∈ visible, v.index < k)
    (inner : f.Runs mF (Frame.taken x onTrue onFalse) m₁) (forward : f.Runs m₁ rest mF')
    (room : limits.counter ≤ registers) (holds : n.Holds registers (rest.definitions.assigned ++ visible))
    (regains : Regains r.activity (rest.definitions.assigned ++ visible) mF' n) (grades : r.Grades n.table)
    (runs : g.Runs n later n') :
    n'.Holds registers visible ∧ Regains r.activity visible mF n' ∧ r.Grades n'.table := by
  obtain ⟨s, mirrors⟩ : ∃ s, Mirrors limits.counter n s := mirrors_exists holds room
  obtain ⟨⟨mirrors', -⟩, before⟩ :=
    undoes.branch covers formed seen below inner forward regains runs mirrors
  refine ⟨(runs.holds holds).mono (fun v member => ?_) (Nat.le_refl _), before,
    grades.behind (behind_walked mirrors mirrors')⟩
  exact List.mem_append_right _ (List.mem_append_right _ member)

omit [Scalar α] in
theorem recallable_branchRule {cond : ValueId} {inTrue inFalse : Block α}
    (recallable : r.activity.Recallable (branchRule cond inTrue inFalse)) :
    r.activity.Recallable inTrue ∧ r.activity.Recallable inFalse := by
  unfold branchRule at recallable
  split at recallable
  · next none_ =>
    rw [Bool.and_eq_true] at none_
    rw [Block.eq_nil none_.1, Block.eq_nil none_.2]
    exact ⟨recallable, recallable⟩
  · exact ⟨recallable.part Block.onTrue_subset, recallable.part Block.onFalse_subset⟩

theorem branchRule_proceeds {cond : ValueId} {inTrue inFalse : Block α} {n : Machine α} {x : α}
    (value : n.value? cond = some x) (taken : ∃ n', g.Runs n (Frame.taken x inTrue inFalse) n') :
    ∃ n', g.Runs n (branchRule cond inTrue inFalse) n' := by
  unfold branchRule
  split
  · exact ⟨n, .nil⟩
  · obtain ⟨n', runs⟩ := taken
    exact ⟨n', .branch value runs .nil⟩

-- The induction is on the block. The rules of the later statements run first.
theorem rules_proceed (frames : f.Alike g) (covers : r.Covers block)
    (formed : block.WellFormed limits visible defined) (seen : visible ⊆ defined)
    (below : ∀ v ∈ visible, v.index < limits.counter) (forward : f.Runs mF block mF') {rules : Block α}
    {k' : Nat} (ran : (r.rules block).run k = .ok (rules, k')) (room : limits.counter ≤ k)
    (suits : g.Suits limits) (enough : k' ≤ registers) (recallable : r.activity.Recallable rules) :
    r.Proceeds g registers (block.definitions.assigned ++ visible) mF' rules := by
  induction block generalizing visible defined mF mF' rules k k' with
  | nil =>
    obtain ⟨rfl, rfl⟩ := Fresh.run_pure_ok.mp ran
    exact fun n _ _ _ => ⟨n, .nil⟩
  | instr i rest ih =>
    obtain ⟨later, k₁, ranRest, others⟩ := Fresh.run_bind_ok.mp ran
    obtain ⟨code, k₂, ranCode, same⟩ := Fresh.run_bind_ok.mp others
    obtain ⟨rfl, rfl⟩ := Fresh.run_pure_ok.mp same
    obtain ⟨operands, within, -, formedRest⟩ := id formed
    have coversRest : r.Covers rest := covers.part (List.subset_cons_self _ _)
    have coversHere : r.Covers (.instr i .nil) := covers.part (List.cons_subset_cons _ (List.nil_subset _))
    have grown : k ≤ k₁ := rules_grows rest k _ k₁ ranRest
    have grown' : k₁ ≤ k' := instr_grows i _ _ _ ranCode
    cases forward with
    | @instr _ m₁ _ _ _ step forward =>
      have seenRest : i.dst?.toList ++ visible ⊆ i.dst?.toList ++ defined :=
        List.append_subset.mpr ⟨List.subset_append_left _ _, List.subset_append_of_subset_right _ seen⟩
      have belowRest := within.below below
      have undoes := rules_undoes frames coversRest formedRest seenRest belowRest forward ranRest room
      have proceeds := ih coversRest formedRest seenRest belowRest forward ranRest room (by omega)
        (recallable.part fun s member => by simp [member])
      intro n holds regains grades
      have known : rest.definitions.assigned ++ (i.dst?.toList ++ visible) ⊆
          (Block.instr i rest).definitions.assigned ++ visible := by
        intro v member
        rw [Block.assigned_definitions_instr]
        simp only [List.mem_append] at member ⊢
        grind
      have holdsRest := holds.mono known (Nat.le_refl _)
      obtain ⟨n₁, runsRest⟩ := proceeds n holdsRest (regains.mono known) grades
      obtain ⟨holds₁, before, grades₁⟩ := undoes.stands_instr covers formed seen
        (fun v known => Nat.lt_of_lt_of_le (belowRest v known) room) step forward (by omega) holdsRest regains
        grades runsRest
      obtain ⟨n', runsCode⟩ := instr_proceeds coversHere operands
        (fun v known => Nat.lt_of_lt_of_le (belowRest v known) (Nat.le_trans room grown)) step ranCode suits
        (holds₁.mono (List.Subset.refl _) enough) before grades₁
      exact ⟨n', Frame.runs_append.mpr ⟨n₁, runsRest, runsCode⟩⟩
  | branch cond onTrue onFalse rest ihTrue ihFalse ihRest =>
    obtain ⟨later, k₁, ranRest, others⟩ := Fresh.run_bind_ok.mp ran
    obtain ⟨rulesTrue, k₂, ranTrue, others⟩ := Fresh.run_bind_ok.mp others
    obtain ⟨rulesFalse, k₃, ranFalse, same⟩ := Fresh.run_bind_ok.mp others
    obtain ⟨rfl, rfl⟩ := Fresh.run_pure_ok.mp same
    obtain ⟨condition, formedTrue, formedFalse, formedRest⟩ := id formed
    have coversRest : r.Covers rest := covers.part Block.rest_subset
    have grown : k ≤ k₁ := rules_grows rest k _ k₁ ranRest
    have grownTrue : k₁ ≤ k₂ := rules_grows onTrue k₁ _ k₂ ranTrue
    have grownFalse : k₂ ≤ k' := rules_grows onFalse k₂ _ k' ranFalse
    have recallableHere : r.activity.Recallable (branchRule cond (withPrimals onTrue rulesTrue)
        (withPrimals onFalse rulesFalse)) := recallable.part fun s member => by simp [member]
    obtain ⟨recallableTrue, recallableFalse⟩ := recallable_branchRule recallableHere
    cases forward with
    | @branch _ m₁ _ _ x _ _ _ value inner forward =>
      have seenRest : visible ⊆ onFalse.assigned ++ (onTrue.assigned ++ defined) :=
        List.subset_append_of_subset_right _ (List.subset_append_of_subset_right _ seen)
      have undoes := rules_undoes frames coversRest formedRest seenRest below forward ranRest room
      have proceeds := ihRest coversRest formedRest seenRest below forward ranRest room (by omega)
        (recallable.part fun s member => by simp [member])
      intro n holds regains grades
      obtain ⟨n₁, runsRest⟩ := proceeds n holds regains grades
      obtain ⟨holds₁, before, grades₁⟩ := undoes.stands_branch covers formed seen
        (fun v known => Nat.lt_of_lt_of_le (below v known) room) inner forward (by omega) holds regains grades
        runsRest
      have value₁ := (before.values cond condition (covers.conditions cond List.mem_cons_self)).trans value
      have coversTaken := covers.taken x
      suffices taken : ∃ n', g.Runs n₁ (Frame.taken x (withPrimals onTrue rulesTrue)
          (withPrimals onFalse rulesFalse)) n' by
        obtain ⟨n', runsBranch⟩ := branchRule_proceeds value₁ taken
        exact ⟨n', Frame.runs_append.mpr ⟨n₁, runsRest, runsBranch⟩⟩
      unfold Frame.taken at inner coversTaken ⊢
      split at inner
      · next zero =>
        rw [if_pos zero] at coversTaken ⊢
        have seenFalse : visible ⊆ onTrue.assigned ++ defined := List.subset_append_of_subset_right _ seen
        refine withPrimals_proceeds frames coversTaken formedFalse seenFalse inner suits (by omega)
          recallableFalse ?_ holds₁ before grades₁
        exact ihFalse coversTaken formedFalse seenFalse below inner ranFalse (by omega) enough
      · next nonzero =>
        rw [if_neg nonzero] at coversTaken ⊢
        refine withPrimals_proceeds frames coversTaken formedTrue seen inner suits (by omega)
          recallableTrue ?_ holds₁ before grades₁
        exact ihTrue coversTaken formedTrue seen below inner ranTrue (by omega) (by omega)

end Reversal

namespace Kernel

variable {kernel grad : Kernel α} {args : List α} {signatures : Signatures}

theorem runPoint_proceeds (checked : kernel.check = .ok ())
    (reversed : kernel.reverse signatures = .ok grad) (gradChecked : grad.check = .ok ())
    (recallable : (kernel.reversal signatures).activity.Recallable grad.body) {point : Point}
    (rank : point.length = kernel.domain.rank) (count : args.length = kernel.argCount)
    {t t' u : FieldTable α} (forward : kernel.runPoint args point t = .ok () t')
    (behind : (kernel.reversal signatures).Behind t' u) (grades : (kernel.reversal signatures).Grades u) :
    ∃ u', grad.runPoint args point u = .ok () u' := by
  obtain ⟨pure, rules, ran, same⟩ := backward_ok (reverse_plain checked reversed gradChecked)
  obtain ⟨mF, forwardRuns, rfl⟩ := runPoint_ok.mp forward
  have formed := check_ok.mp checked
  rw [same] at recallable
  have room : kernel.counter.toNat ≤ grad.counter := Reversal.rules_grows _ _ _ _ ran
  have coversBody : (kernel.reversal signatures).Covers kernel.body := covers checked pure
  have frames : (Frame.mk kernel args point).Alike (Frame.mk grad args point) := ⟨rfl, rfl⟩
  have suits : (Frame.mk grad args point).Suits kernel.limits := ⟨rank, count⟩
  have changed : (kernel.reversal signatures).Behind t mF.table :=
    forwardRuns.altered.table.mono coversBody.stores fun _ _ => trivial
  have holds : (Machine.start u grad.counter).Holds grad.counter [] :=
    ⟨List.forall_mem_nil _, by simp [Machine.start], by simp [Machine.start]⟩
  obtain ⟨n', runs⟩ := Reversal.withPrimals_proceeds frames coversBody formed (List.Subset.refl _) forwardRuns
    suits room recallable (fun recallable => Reversal.rules_proceed frames coversBody formed
      (List.Subset.refl _) (List.forall_mem_nil _) forwardRuns ran (Nat.le_refl _) suits (Nat.le_refl _)
      recallable)
    holds ⟨List.forall_mem_nil _, changed.trans behind⟩ grades
  exact ⟨n'.table, runPoint_ok.mpr ⟨n', same ▸ runs, rfl⟩⟩

theorem points_proceed (checked : kernel.check = .ok ()) (reversed : kernel.reverse signatures = .ok grad)
    (gradChecked : grad.check = .ok ()) (recallable : (kernel.reversal signatures).activity.Recallable grad.body)
    (count : args.length = kernel.argCount) {order : VisitOrder} {t t' : FieldTable α}
    (forward : kernel.execute args order t = .ok () t') {points : List Point}
    (inside : points ⊆ kernel.domain.points order) {u : FieldTable α}
    (behind : (kernel.reversal signatures).Behind t' u) (grades : (kernel.reversal signatures).Grades u) :
    ∃ u', points.forM (grad.runPoint args) u = .ok () u' := by
  obtain ⟨pure, -⟩ := backward_ok (reverse_plain checked reversed gradChecked)
  have executed := forward
  rw [execute_eq] at executed
  induction points generalizing u with
  | nil => exact ⟨u, rfl⟩
  | cons point rest ih =>
    obtain ⟨here, later⟩ := List.cons_subset.mp inside
    obtain ⟨before, after, ran, -, altered⟩ := points_taped (kernel.domain.nodup_points order) executed here
    have stored : (kernel.reversal signatures).Behind after t' :=
      altered.mono (covers checked pure).stores fun _ _ => trivial
    obtain ⟨u₁, first⟩ := runPoint_proceeds checked reversed gradChecked recallable (Domain.length_of_mem_points here)
      count ran (stored.trans behind) grades
    have graded : (kernel.reversal signatures).Behind u u₁ := by
      rw [runPoint_walks checked reversed gradChecked ran (stored.trans behind) first]
      exact (Reversal.walk_altered _ _ (Sweep.start u)).mono (fun _ => False.elim) fun _ => id
    obtain ⟨u', others⟩ := ih later (behind.trans graded) (grades.behind graded)
    exact ⟨u', bind_ok.mpr ⟨(), u₁, first, others⟩⟩

variable {δ : Type} [Digest δ]

theorem reversal_grades {table : FieldTable α} {bound : Bound α δ} (binds : kernel.bind table = .ok bound)
    (graded : table.Graded) : (kernel.reversal bound.signatures).Grades table := by
  intro name real
  obtain ⟨-, -, resolved, -⟩ := binds_iff.mp binds
  obtain ⟨-, finds⟩ := resolve_finds resolved
  change bound.signatures.isReal name = true at real
  rw [Signatures.isReal, finds] at real
  split at real
  · cases found : table.find? name with
    | none => simp [found] at real
    | some field => exact ⟨field, rfl, graded name field found (by simpa [found, Field.signature] using real)⟩
  · cases real

theorem reverse_real (checked : kernel.check = .ok ()) (reversed : kernel.reverse signatures = .ok grad)
    (gradChecked : grad.check = .ok ()) {name : String} (used : (Access.ofBlock grad.body).gradientFields.contains name = true) :
    signatures.isReal name = true := by
  obtain ⟨j, member, use⟩ : ∃ j, .instr j ∈ grad.body.statements ∧
      (j.use? = some (.gradRead, name) ∨ j.use? = some (.gradWrite, name)) := by
    rcases Access.contains_gradientFields.mp used with read | write
    · obtain ⟨j, member, use⟩ := Access.contains_ofBlock.mp read
      exact ⟨j, member, .inl use⟩
    · obtain ⟨j, member, use⟩ := Access.contains_ofBlock.mp write
      exact ⟨j, member, .inr use⟩
  obtain ⟨impure, place, addressed, rfl⟩ := Instr.place_of_grad use
  have numbered := reverse_plain checked reversed gradChecked
  obtain ⟨derived, -⟩ := backward_derived (counted_of_check checked) numbered
  rcases derived.derives j member place addressed with ⟨pure, -⟩ | ⟨i, own, touched⟩
  · rw [impure] at pure
    cases pure
  · exact (covers checked (backward_ok numbered).1).real own touched

-- An accepted kernel can be differentiated right after it ran, if there are words for the values of the gradient
-- kernel and all its loads are at coordinates that depend on nothing overwritten: the gradient kernel binds to the
-- fields that the launch left, and launches of it succeed in any order.
theorem gradient_launch_proceeds {bound : Bound α δ} {order : VisitOrder} {s₀ s₁ : FieldTable α}
    (binds : kernel.bind s₀ = .ok bound) (reversed : kernel.reverse bound.signatures = .ok grad)
    (gradChecked : grad.check = .ok ())
    (recallable : (Activity.ofKernel kernel bound.signatures).Recallable grad.body) (graded : s₀.Graded)
    (forward : bound.launch args order s₀ = .ok () s₁) :
    ∃ gradBound : Bound α δ, grad.bind s₁ = .ok gradBound ∧
      ∀ gradOrder, ∃ s₂, gradBound.launch args gradOrder s₁ = .ok () s₂ := by
  obtain ⟨checked, -, -, boundIs⟩ := binds_iff.mp binds
  obtain ⟨pure, -⟩ := backward_ok (reverse_plain checked reversed gradChecked)
  obtain ⟨launchable, ran⟩ := Bound.launch_ok.mp forward
  obtain ⟨count, -⟩ := Bound.launchable_ok.mp launchable
  rw [boundIs] at ran count
  have executed := ran
  rw [execute_eq] at executed
  have changed : s₀.Altered _ _ s₁ := (kernel.moves_points args _).ok executed
  have behind : (kernel.reversal bound.signatures).Behind s₀ s₁ :=
    changed.mono (covers checked pure).stores fun _ _ => trivial
  have grades := (reversal_grades binds graded).behind behind
  obtain ⟨gradBound, gradBinds⟩ := reverse_binds (bind_keeps binds changed.keeps) reversed gradChecked
  obtain ⟨-, -, -, gradBoundIs⟩ := binds_iff.mp gradBinds
  obtain ⟨domain, argCount⟩ := reverse_domain reversed
  refine ⟨gradBound, gradBinds, fun gradOrder => ?_⟩
  obtain ⟨s₂, ranBack⟩ := points_proceed checked reversed gradChecked recallable count ran
    (kernel.domain.points_perm gradOrder order).subset (.refl s₁) grades
  refine ⟨s₂, Bound.launch_ok.mpr ⟨Bound.launchable_ok.mpr ⟨?_, fun name used => ?_⟩, ?_⟩⟩
  · rw [gradBoundIs, argCount]
    exact count
  · rw [gradBoundIs] at used
    exact grades name (reverse_real checked reversed gradChecked used)
  · rw [gradBoundIs, execute_eq, domain]
    exact ranBack

end Kernel

-- `y += x`: the load of `y` is run again when `y` has been overwritten, at a coordinate that has not.
namespace Accumulate

def kernel : Kernel ℚ := .ofBody "accumulate" (.ofExtents [2]) 0 <|
  .instr (.define ⟨0⟩ (.index 0)) <| .instr (.define ⟨1⟩ (.load ⟨"y", [⟨0⟩]⟩)) <|
  .instr (.define ⟨2⟩ (.load ⟨"x", [⟨0⟩]⟩)) <| .instr (.define ⟨3⟩ (.binary .add ⟨1⟩ ⟨2⟩)) <|
  .instr (.store ⟨"y", [⟨0⟩]⟩ ⟨3⟩) .nil

def gradient : Kernel ℚ := .ofBody "accumulate_grad" (.ofExtents [2]) 0 <|
  kernel.body.definitions ++
  .instr (.readGrad ⟨3⟩ ⟨"y", [⟨0⟩]⟩) (.instr (.propagate ⟨1⟩ ⟨3⟩ .one) <|
    .instr (.propagate ⟨2⟩ ⟨3⟩ .one) <| .instr (.addGrad ⟨"x", [⟨0⟩]⟩ ⟨2⟩) <|
    .instr (.addGrad ⟨"y", [⟨0⟩]⟩ ⟨1⟩) .nil)

def fields (y : Array ℚ) : FieldTable ℚ := .ofList [
  ("x", ⟨rootGroup, .f64, [2], #[3, -1], some #[0, 0]⟩), ("y", ⟨rootGroup, .f64, [2], y, some #[1, 1]⟩)]

def bound : Bound ℚ Unit :=
  ⟨kernel, .ofList [("x", ⟨.f64, [2]⟩), ("y", ⟨.f64, [2]⟩)], .ofBlock kernel.body, ()⟩

theorem gradient_launch_proceeds_accumulate :
    kernel.bind (fields #[5, 5]) = .ok bound ∧ kernel.reverse bound.signatures = .ok gradient ∧
      bound.launch [] .forward (fields #[5, 5]) = .ok () (fields #[8, 4]) ∧
      ∃ gradBound : Bound ℚ Unit, gradient.bind (fields #[8, 4]) = .ok gradBound ∧
        ∀ gradOrder, ∃ after, gradBound.launch [] gradOrder (fields #[8, 4]) = .ok () after := by
  have binds : kernel.bind (fields #[5, 5]) = .ok bound := by decide +kernel
  have reversed : kernel.reverse bound.signatures = .ok gradient := by decide +kernel
  have gradChecked : gradient.check = .ok () := by decide +kernel
  have recallable : (Activity.ofKernel kernel bound.signatures).Recallable gradient.body := by decide +kernel
  have graded : (fields #[5, 5]).Graded := FieldTable.graded_of_entries (by decide +kernel)
  have forward : bound.launch [] .forward (fields #[5, 5]) = .ok () (fields #[8, 4]) := by decide +kernel
  exact ⟨binds, reversed, forward,
    Kernel.gradient_launch_proceeds binds reversed gradChecked recallable graded forward⟩

end Accumulate

-- `y = x` and then `at = 7`, with a load of `x` at `at` that no rule needs. It is run again when `at` is
-- out of range.
namespace Gather

def kernel : Kernel ℚ := .ofBody "gather" (.ofExtents [1]) 0 <|
  .instr (.define ⟨0⟩ (.index 0)) <| .instr (.define ⟨1⟩ (.load ⟨"at", [⟨0⟩]⟩)) <|
  .instr (.define ⟨2⟩ (.load ⟨"x", [⟨1⟩]⟩)) <| .instr (.define ⟨3⟩ (.load ⟨"x", [⟨0⟩]⟩)) <|
  .instr (.define ⟨4⟩ (.const 7)) <| .instr (.store ⟨"y", [⟨0⟩]⟩ ⟨3⟩) <|
  .instr (.store ⟨"at", [⟨0⟩]⟩ ⟨4⟩) .nil

def gradient : Kernel ℚ := .ofBody "gather_grad" (.ofExtents [1]) 0 <|
  kernel.body.definitions ++
  .instr (.readGrad ⟨3⟩ ⟨"y", [⟨0⟩]⟩) (.instr (.addGrad ⟨"x", [⟨0⟩]⟩ ⟨3⟩) .nil)

def fields (at_ y : ℚ) : FieldTable ℚ := .ofList [
  ("at", ⟨rootGroup, .i32, [1], #[at_], none⟩), ("x", ⟨rootGroup, .f64, [1], #[3], some #[0]⟩),
  ("y", ⟨rootGroup, .f64, [1], #[y], some #[1]⟩)]

def bound (kernel : Kernel ℚ) : Bound ℚ Unit :=
  ⟨kernel, .ofList [("at", ⟨.i32, [1]⟩), ("x", ⟨.f64, [1]⟩), ("y", ⟨.f64, [1]⟩)], .ofBlock kernel.body, ()⟩

theorem gradient_launch_stops_gather :
    kernel.bind (fields 0 0) = .ok (bound kernel) ∧ kernel.reverse (bound kernel).signatures = .ok gradient ∧
      (fields 0 0).Graded ∧ (bound kernel).launch [] .forward (fields 0 0) = .ok () (fields 7 3) ∧
      gradient.bind (fields 7 3) = .ok (bound gradient) ∧
      ∀ gradOrder, (bound gradient).launch [] gradOrder (fields 7 3) =
        .error (.shapeMismatch "x" (.index (.outOfRange 7 1 0))) (fields 7 3) := by
  have graded : (fields 0 0).Graded := FieldTable.graded_of_entries (by decide +kernel)
  refine ⟨by decide +kernel, by decide +kernel, graded, by decide +kernel, by decide +kernel, ?_⟩
  intro gradOrder
  cases gradOrder with
  | forward => decide +kernel
  | reverse => decide +kernel

end Gather

end FieldKernel
