import FieldKernel.Reverse.Basic
import FieldKernel.Proofs.Execution.Effect
import FieldKernel.Proofs.Reverse.Cone

-- Every value that depends on no overwritten field comes out as it did the first time.
namespace FieldKernel

variable {α : Type} [Scalar α]

namespace Frame

variable {f g : Frame α} {m n m' n' : Machine α}

theorem Runs.definitions_keep {block : Block α} (runs : g.Runs n block.definitions n') :
    n'.table = n.table ∧ n'.adjoints = n.adjoints := by
  induction block generalizing n with
  | nil => cases runs; exact ⟨rfl, rfl⟩
  | instr i rest ih =>
    cases i with
    | define dst e =>
      cases runs with
      | instr step others =>
        cases step with
        | define =>
          have kept := ih others
          simpa using kept
    | store | readGrad | propagate | addGrad => exact ih runs
  | branch cond onTrue onFalse rest _ _ ih => exact ih runs

omit [Scalar α] in
theorem assigned_definitions_subset (block : Block α) :
    block.definitions.assigned ⊆ block.assigned := by
  induction block with
  | nil => exact List.Subset.refl _
  | instr i rest ih =>
    rw [Block.definitions, Block.assigned_instr]
    split
    · rw [Block.assigned_instr]
      exact List.append_subset.mpr ⟨List.subset_append_left _ _,
        List.subset_append_of_subset_right _ ih⟩
    · exact List.subset_append_of_subset_right _ ih
  | branch cond onTrue onFalse rest _ _ ih =>
    rw [Block.assigned_branch]
    exact List.subset_append_of_subset_right _ ih

end Frame

-- A machine that has, of the known values, those that may be recomputed as another machine had them, on
-- fields that are still as they were there, but for what the kernel stores to and for gradients.
structure Regains (activity : Activity α) (known : List ValueId) (m n : Machine α) : Prop where
  values : ∀ v ∈ known, activity.Clean v → n.value? v = m.value? v
  table : m.table.SameOutside (fun name => activity.written.contains name = true) n.table

abbrev Activity.Stores (activity : Activity α) (block : Block α) : Prop :=
  ∀ name, block.Uses .write name → activity.written.contains name = true

namespace Regains

variable {activity : Activity α} {known known' : List ValueId} {f g : Frame α} {m n m' n' : Machine α}
  {block : Block α}

omit [Scalar α] in
theorem mono (regains : Regains activity known m n) (fewer : known' ⊆ known) :
    Regains activity known' m n := ⟨fun v member => regains.values v (fewer member), regains.table⟩

theorem past (runs : f.Runs m block m') (stores : activity.Stores block)
    (untouched : ∀ v ∈ known, v ∉ block.assigned) :
    Regains activity known m n ↔ Regains activity known m' n := by
  have changed : m.table.SameOutside (fun name => activity.written.contains name = true) m'.table :=
    runs.altered.table.mono stores fun _ _ => trivial
  constructor
  · intro regains
    refine ⟨fun v member clean => ?_, changed.symm.trans regains.table⟩
    rw [runs.value?_other (untouched v member)]
    exact regains.values v member clean
  · intro regains
    refine ⟨fun v member clean => ?_, changed.trans regains.table⟩
    rw [← runs.value?_other (untouched v member)]
    exact regains.values v member clean

omit [Scalar α] in
theorem kept (regains : Regains activity known m n) (same : ∀ v ∈ known, n'.value? v = n.value? v)
    (graded : n.table.SameOutside (fun name => activity.written.contains name = true) n'.table) :
    Regains activity known m n' where
  values := fun v member clean => (same v member).trans (regains.values v member clean)
  table := regains.table.trans graded

theorem define {dst : ValueId} {e : Expr α} (frames : f.Alike g)
    (own : definitionOf? activity.definitions dst = some ⟨dst, e⟩) (operands : ∀ v ∈ e.operands, v ∈ known)
    (first : f.Steps m (.define dst e) m') (again : g.Steps n (.define dst e) n')
    (regains : Regains activity known m n) : Regains activity (dst :: known) m' n' := by
  cases first with
  | @define _ _ x evaluates room =>
    cases again with
    | @define _ _ y evaluates' room' =>
      refine ⟨fun w member clean => ?_, regains.table⟩
      by_cases here : w = dst
      · subst here
        have equal : y = x := evaluates.agree frames evaluates' regains.table.agreeIn
          (fun u used => regains.values u (operands u used) (clean.operand own used))
          fun place load => by
            subst load
            simp [clean.loaded own]
        rw [Machine.setValue_self _ _ _ room, Machine.setValue_self _ _ _ room', equal]
      · rw [Machine.setValue_other _ _ _ _ here, Machine.setValue_other _ _ _ _ here]
        exact regains.values w ((List.mem_cons.mp member).resolve_left here) clean

end Regains

namespace Frame

variable {activity : Activity α} {f g : Frame α} {m n m' n' : Machine α} {block : Block α}

theorem Runs.recomputes (frames : f.Alike g) {limits : Limits} {visible defined : List ValueId}
    (formed : block.WellFormed limits visible defined) (seen : visible ⊆ defined)
    (own : ∀ dst e, .instr (.define dst e) ∈ block.statements →
      definitionOf? activity.definitions dst = some ⟨dst, e⟩)
    (stores : activity.Stores block) (forward : f.Runs m block m') (again : g.Runs n block.definitions n')
    (regains : Regains activity visible m n) :
    Regains activity (block.definitions.assigned ++ visible) m' n' := by
  induction block generalizing visible defined m n with
  | nil =>
    cases forward
    cases again
    exact regains
  | instr i rest ih =>
    have later : rest.statements ⊆ (Block.instr i rest).statements := List.subset_cons_self _ _
    have first : (Block.instr i .nil).statements ⊆ (Block.instr i rest).statements :=
      List.cons_subset_cons _ (List.nil_subset _)
    obtain ⟨operands, -, fresh, others⟩ := formed
    have grown : i.dst?.toList ++ visible ⊆ i.dst?.toList ++ defined :=
      List.append_subset.mpr ⟨List.subset_append_left _ _,
        List.subset_append_of_subset_right _ seen⟩
    cases forward with
    | @instr _ m₁ _ _ _ step forward =>
      suffices there : ∃ n₁, g.Runs n₁ rest.definitions n' ∧ Regains activity (i.dst?.toList ++ visible) m₁ n₁ by
        obtain ⟨n₁, again, regains⟩ := there
        refine (ih others grown (fun d e member => own d e (later member))
          (fun name uses => stores name (uses.inside later)) forward again regains).mono fun v member => ?_
        rw [Block.assigned_definitions_instr] at member
        simp only [List.mem_append] at member ⊢
        grind
      cases i with
      | define dst e =>
        cases again with
        | instr step' again =>
          exact ⟨_, again, regains.define frames (own dst e List.mem_cons_self) operands step step'⟩
      | store place v | readGrad target place | propagate target source scale | addGrad place source =>
        have stored : activity.Stores (.instr _ .nil) := fun name uses => stores name (uses.inside first)
        exact ⟨n, again, (Regains.past (.instr step .nil) stored nofun).mp regains⟩
  | branch cond onTrue onFalse rest ihTrue ihFalse ihRest =>
    obtain ⟨-, inTrue, inFalse, others⟩ := formed
    cases forward with
    | @branch _ m₁ _ _ x _ _ _ value inner forward =>
      have stored : activity.Stores (taken x onTrue onFalse) := fun name uses =>
        stores name (uses.inside (taken_subset cond x onTrue onFalse rest))
      exact ihRest others
        (List.subset_append_of_subset_right _ (List.subset_append_of_subset_right _ seen))
        (fun d e member => own d e (Block.rest_subset member))
        (fun name uses => stores name (uses.inside Block.rest_subset))
        forward again ((Regains.past inner stored (taken_untouched inTrue inFalse seen x)).mp regains)

end Frame

end FieldKernel
