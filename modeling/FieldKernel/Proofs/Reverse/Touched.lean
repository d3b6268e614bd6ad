import FieldKernel.Proofs.Execution.Renaming
import FieldKernel.Proofs.Reverse.Flow
import FieldKernel.Proofs.Reverse.Numbering

-- Which gradient buffers a gradient kernel touches, however deep the blocks are and whatever is dropped.
namespace FieldKernel

variable {α : Type}

def Instr.isTouch : Instr α → Bool
  | .store _ _ | .readGrad _ _ | .addGrad _ _ => true
  | .define _ _ | .propagate _ _ _ => false

theorem Instr.isTouch_place {j : Instr α} (touch : j.isTouch = true) :
    j.isPure = false ∧ ∃ place, j.place? = some place := by
  cases j with
  | define | propagate => cases touch
  | store place | readGrad _ place | addGrad place => exact ⟨rfl, place, rfl⟩

namespace Reversal

inductive Calls (r : Reversal α) : Instr α → Instr α → Prop
  | load {dst : ValueId} {place : Place} (needed : r.needs dst = true) :
    Calls r (.define dst (.load place)) (.addGrad place dst)
  | store {place : Place} {v : ValueId} (real : r.signatures.isReal place.field = true)
    (needed : r.needs v = true) : Calls r (.store place v) (.readGrad v place)

variable [Scalar α] {r : Reversal α} {i j : Instr α} {instrs : List (Instr α)} {k k' : Nat}

theorem instr_untouched (ran : (r.instr i).run k = .ok (instrs, k')) (alone : i.place? = none)
    (touch : j.isTouch = true) : j ∉ instrs := by
  intro member
  obtain ⟨-, place, addressed⟩ := Instr.isTouch_place touch
  have inside : .instr j ∈ (Block.ofInstrs instrs).statements := by
    rw [Block.statements_ofInstrs]
    exact List.mem_map_of_mem member
  have touched := (emits_instr i).addresses _ _ _ ran (.instr j) inside place addressed
  rw [touched.addressed] at alone
  cases alone

omit [Scalar α] in
theorem guarded_touches {needed : Bool} {vs : List ValueId} {only : Instr α}
    (ran : (when needed (do r.primals vs; return [only])).run k = .ok (instrs, k')) :
    j ∈ instrs ↔ needed = true ∧ j = only := by
  cases needed with
  | false =>
    cases ran
    simp
  | true =>
    obtain ⟨_, l, -, same⟩ := Fresh.run_bind_ok.mp ran
    cases (Fresh.run_pure_ok.mp same).1
    simp

theorem instr_touches (ran : (r.instr i).run k = .ok (instrs, k')) (touch : j.isTouch = true) :
    j ∈ instrs ↔ r.Calls i j := by
  cases i with
  | define dst e =>
    cases e with
    | load place =>
      rw [guarded_touches ran]
      constructor
      · intro emitted
        obtain ⟨needed, rfl⟩ := emitted
        exact .load needed
      · intro calls
        cases calls with
        | load needed => exact ⟨needed, rfl⟩
    | const | index | arg | binary | unary | compare =>
      exact iff_of_false (instr_untouched ran rfl touch) nofun
  | store place v =>
    rw [guarded_touches ran, Bool.and_eq_true]
    constructor
    · intro emitted
      obtain ⟨⟨real, needed⟩, rfl⟩ := emitted
      exact .store real needed
    · intro calls
      cases calls with
      | store real needed => exact ⟨⟨real, needed⟩, rfl⟩
  | readGrad | propagate | addGrad => cases ran

variable {block rules inTrue inFalse : Block α}

omit [Scalar α] in
theorem withPrimals_touches (touch : j.isTouch = true) :
    .instr j ∈ (withPrimals block rules).statements ↔ .instr j ∈ rules.statements := by
  unfold withPrimals
  split
  · next empty => rw [Block.eq_nil empty]
  · rw [Block.statements_append, List.mem_append]
    refine or_iff_right fun own => ?_
    have pure := Block.isPure_definitions own
    rw [(Instr.isTouch_place touch).1] at pure
    cases pure

omit [Scalar α] in
theorem branchRule_touches {cond : ValueId} : .instr j ∈ (branchRule cond inTrue inFalse).statements ↔
    .instr j ∈ inTrue.statements ∨ .instr j ∈ inFalse.statements := by
  unfold branchRule
  split
  · next empty =>
    obtain ⟨noTrue, noFalse⟩ := Bool.and_eq_true_iff.mp empty
    rw [Block.eq_nil noTrue, Block.eq_nil noFalse, or_self]
  · simp [Block.statements]

-- The rules of a block touch what its instructions call for; the induction is on the block.
theorem rules_touches (ran : (r.rules block).run k = .ok (rules, k')) (touch : j.isTouch = true) :
    .instr j ∈ rules.statements ↔ ∃ i, .instr i ∈ block.statements ∧ r.Calls i j := by
  induction block generalizing k k' rules with
  | nil =>
    cases ran
    simp [Block.statements]
  | instr i rest ih =>
    obtain ⟨later, k₁, ranRest, others⟩ := Fresh.run_bind_ok.mp ran
    obtain ⟨instrs, k₂, ranInstr, same⟩ := Fresh.run_bind_ok.mp others
    obtain ⟨rfl, rfl⟩ := Fresh.run_pure_ok.mp same
    have here : .instr j ∈ (Block.ofInstrs instrs).statements ↔ r.Calls i j := by
      rw [Block.statements_ofInstrs, List.mem_map_of_injective fun _ _ => Statement.instr.inj,
        instr_touches ranInstr touch]
    rw [Block.statements_append, List.mem_append, ih ranRest, here]
    simp [Block.statements, or_and_right, exists_or, or_comm]
  | branch cond onTrue onFalse rest ihTrue ihFalse ihRest =>
    obtain ⟨later, k₁, ranRest, others⟩ := Fresh.run_bind_ok.mp ran
    obtain ⟨inTrue, k₂, ranTrue, others⟩ := Fresh.run_bind_ok.mp others
    obtain ⟨inFalse, k₃, ranFalse, same⟩ := Fresh.run_bind_ok.mp others
    obtain ⟨rfl, rfl⟩ := Fresh.run_pure_ok.mp same
    rw [Block.statements_append, List.mem_append, branchRule_touches, withPrimals_touches touch,
      withPrimals_touches touch, ihRest ranRest, ihTrue ranTrue, ihFalse ranFalse, or_comm]
    simp [Block.statements, or_and_right, exists_or, or_assoc]

end Reversal

namespace Kernel

-- A real field of which the kernel loads an element to a useful value.
def LoadsUseful (kernel : Kernel α) (signatures : Signatures) (name : String) : Prop :=
  signatures.isReal name = true ∧ ∃ v place, place.field = name ∧
    .instr (.define v (.load place)) ∈ kernel.body.statements ∧
      Activity.Useful signatures kernel.body.statements v

-- A real field to which the kernel stores an active value.
def StoresActive (kernel : Kernel α) (signatures : Signatures) (name : String) : Prop :=
  signatures.isReal name = true ∧ ∃ v place, place.field = name ∧
    .instr (.store place v) ∈ kernel.body.statements ∧ Activity.Active signatures kernel.body.statements v

variable {kernel grad : Kernel α} {signatures : Signatures} {body : Block α} {counter : Nat}

theorem needs_iff (checked : kernel.check = .ok ()) {v : ValueId} :
    (kernel.reversal signatures).needs v = true ↔ Activity.Useful signatures kernel.body.statements v :=
  carriesAdjoint_iff checked

variable [Scalar α]

theorem backward_touches_iff (reversed : kernel.backward signatures = .ok (body, counter)) {j : Instr α}
    (touch : j.isTouch = true) : .instr j ∈ body.statements ↔
      ∃ i, .instr i ∈ kernel.body.statements ∧ (kernel.reversal signatures).Calls i j := by
  obtain ⟨-, rules, ran, rfl⟩ := backward_ok reversed
  rw [Reversal.withPrimals_touches touch, Reversal.rules_touches ran touch]

theorem backward_adds_iff (checked : kernel.check = .ok ())
    (reversed : kernel.backward signatures = .ok (body, counter)) {place : Place} {v : ValueId} :
    .instr (.addGrad place v) ∈ body.statements ↔
      .instr (.define v (.load place)) ∈ kernel.body.statements ∧
        Activity.Useful signatures kernel.body.statements v := by
  rw [backward_touches_iff reversed rfl, ← needs_iff checked]
  constructor
  · intro called
    obtain ⟨i, member, calls⟩ := called
    cases calls with
    | load needed => exact ⟨member, needed⟩
  · intro shown
    obtain ⟨member, needed⟩ := shown
    exact ⟨_, member, .load needed⟩

theorem backward_reads_iff (checked : kernel.check = .ok ())
    (reversed : kernel.backward signatures = .ok (body, counter)) {place : Place} {v : ValueId} :
    .instr (.readGrad v place) ∈ body.statements ↔
      .instr (.store place v) ∈ kernel.body.statements ∧ signatures.isReal place.field = true ∧
        Activity.Active signatures kernel.body.statements v := by
  rw [backward_touches_iff reversed rfl]
  constructor
  · intro called
    obtain ⟨i, member, calls⟩ := called
    cases calls with
    | store real needed => exact ⟨member, real, ((needs_iff checked).mp needed).1⟩
  · intro shown
    obtain ⟨stored, real, active⟩ := shown
    have needed := (needs_iff checked).mpr ⟨active, v, place, stored, real, .refl⟩
    exact ⟨_, stored, .store real needed⟩

omit [Scalar α] in
theorem real_of_active (checked : kernel.check = .ok ()) {v : ValueId} {place : Place}
    (loaded : .instr (.define v (.load place)) ∈ kernel.body.statements)
    (active : Activity.Active signatures kernel.body.statements v) : signatures.isReal place.field = true := by
  have member := (Activity.mem_activeValues (ordered checked)).mpr active
  exact (Activity.activeFold_iff (ordered checked) (List.Subset.refl _) loaded).mp member

theorem reverse_gradWrites (checked : kernel.check = .ok ()) (reversed : kernel.reverse signatures = .ok grad)
    {name : String} : grad.body.Uses .gradWrite name ↔ kernel.LoadsUseful signatures name := by
  obtain ⟨body, counter, numbered, rfl⟩ := reverse_ok.mp reversed
  rw [Block.words, Block.uses_rename, Block.uses_iff]
  constructor
  · intro added
    obtain ⟨place, v, rfl, member⟩ := added
    obtain ⟨loaded, useful⟩ := (backward_adds_iff checked numbered).mp member
    exact ⟨real_of_active checked loaded useful.1, v, place, rfl, loaded, useful⟩
  · intro loads
    obtain ⟨-, v, place, named, loaded, useful⟩ := loads
    exact ⟨place, v, named, (backward_adds_iff checked numbered).mpr ⟨loaded, useful⟩⟩

theorem reverse_gradReads (checked : kernel.check = .ok ()) (reversed : kernel.reverse signatures = .ok grad)
    {name : String} : grad.body.Uses .gradRead name ↔ kernel.StoresActive signatures name := by
  obtain ⟨body, counter, numbered, rfl⟩ := reverse_ok.mp reversed
  rw [Block.words, Block.uses_rename, Block.uses_iff]
  constructor
  · intro read
    obtain ⟨place, v, rfl, member⟩ := read
    obtain ⟨stored, real, active⟩ := (backward_reads_iff checked numbered).mp member
    exact ⟨real, v, place, rfl, stored, active⟩
  · intro stores
    obtain ⟨real, v, place, rfl, stored, active⟩ := stores
    exact ⟨place, v, rfl, (backward_reads_iff checked numbered).mpr ⟨stored, real, active⟩⟩

theorem reverse_writes (reversed : kernel.reverse signatures = .ok grad) (name : String) :
    ¬grad.body.Uses .write name := by
  obtain ⟨body, counter, numbered, rfl⟩ := reverse_ok.mp reversed
  rw [Block.words, Block.uses_rename, Block.uses_iff]
  intro stored
  obtain ⟨place, v, -, member⟩ := stored
  obtain ⟨i, -, calls⟩ := (backward_touches_iff numbered rfl).mp member
  cases calls

theorem reverse_stores_nothing (reversed : kernel.reverse signatures = .ok grad) (place : Place)
    (v : ValueId) : .instr (.store place v) ∉ grad.body.statements := fun member =>
  reverse_writes reversed place.field (Block.uses_iff.mpr ⟨place, v, rfl, member⟩)

-- A gradient kernel stores nothing. It adds to the gradients of the real fields from which the kernel loads
-- useful values, reads those of the real fields to which the kernel stores active values, and needs no
-- others; nothing but the former ever changes.
theorem reverse_touches {δ : Type} [Digest δ] (checked : kernel.check = .ok ())
    (reversed : kernel.reverse signatures = .ok grad) :
    (∀ place v, .instr (.store place v) ∉ grad.body.statements) ∧
      (∀ name, (Access.ofBlock grad.body).gradWrites.contains name = true ↔
        kernel.LoadsUseful signatures name) ∧
      (∀ name, (Access.ofBlock grad.body).gradReads.contains name = true ↔
        kernel.StoresActive signatures name) ∧
      (∀ (table : FieldTable α) (bound : Bound α δ), grad.bind table = .ok bound →
        ∀ name, bound.access.gradientFields.contains name = true → signatures.isReal name = true) ∧
      ∀ args order,
        Moves (FieldTable.Altered (fun _ => False) (kernel.LoadsUseful signatures)) (grad.execute args order) ∧
          Moves (FieldTable.Altered (fun _ => False) (kernel.LoadsUseful signatures))
            (grad.outcome δ args order) := by
  have few : ∀ {before after : FieldTable α},
      before.Altered (grad.body.Uses .write) (grad.body.Uses .gradWrite) after →
        before.Altered (fun _ => False) (kernel.LoadsUseful signatures) after := fun altered =>
    altered.mono (fun name => reverse_writes reversed name) fun _ => (reverse_gradWrites checked reversed).mp
  refine ⟨reverse_stores_nothing reversed,
    fun _ => Access.contains_ofBlock.trans (reverse_gradWrites checked reversed),
    fun _ => Access.contains_ofBlock.trans (reverse_gradReads checked reversed), ?_,
    fun args order => ⟨fun table => ?_, fun table => ?_⟩⟩
  · intro table bound binds name needed
    obtain ⟨-, -, -, same⟩ := binds_iff.mp binds
    rw [same, Access.contains_gradientFields, Access.contains_ofBlock, Access.contains_ofBlock] at needed
    rcases needed with reads | adds
    · exact ((reverse_gradReads checked reversed).mp reads).1
    · exact ((reverse_gradWrites checked reversed).mp adds).1
  · rw [execute_eq]
    exact few (grad.moves_points args _ table)
  · exact few (grad.moves_outcome δ args order table)

end Kernel

-- `y = x * k * sgn s` for an integer `k`, and where that is not zero `n = z` for an integer `n`: the branch
-- is dropped, and with it the load of `z` is of no use.
namespace Mixed

def body : Block ℚ :=
  .instr (.define ⟨0⟩ (.index 0)) <| .instr (.define ⟨1⟩ (.load ⟨"x", [⟨0⟩]⟩)) <|
  .instr (.define ⟨2⟩ (.load ⟨"k", [⟨0⟩]⟩)) <| .instr (.define ⟨3⟩ (.load ⟨"s", [⟨0⟩]⟩)) <|
  .instr (.define ⟨4⟩ (.unary .sgn ⟨3⟩)) <| .instr (.define ⟨5⟩ (.binary .mul ⟨1⟩ ⟨2⟩)) <|
  .instr (.define ⟨6⟩ (.binary .mul ⟨5⟩ ⟨4⟩)) <| .instr (.store ⟨"y", [⟨0⟩]⟩ ⟨6⟩) <|
  .instr (.define ⟨7⟩ (.load ⟨"z", [⟨0⟩]⟩)) <|
  .branch ⟨2⟩ (.instr (.store ⟨"n", [⟨0⟩]⟩ ⟨7⟩) .nil) .nil .nil

def kernel : Kernel ℚ := .ofBody "mixed" (.ofExtents [2]) 0 body

def gradient : Kernel ℚ :=
  ⟨"mixed_grad", .ofExtents [2], 0, body.definitions ++ (
    .instr (.readGrad ⟨6⟩ ⟨"y", [⟨0⟩]⟩) <| .instr (.propagate ⟨5⟩ ⟨6⟩ (.value ⟨4⟩)) <|
    .instr (.propagate ⟨1⟩ ⟨5⟩ (.value ⟨2⟩)) <| .instr (.addGrad ⟨"x", [⟨0⟩]⟩ ⟨1⟩) .nil), 8⟩

def signatures : Signatures :=
  let real := ⟨.f64, [2]⟩
  let integer := ⟨.i32, [2]⟩
  .ofList [("x", real), ("k", integer), ("s", real), ("y", real), ("z", real), ("n", integer)]

theorem reverse_touches_mixed :
    kernel.check = .ok () ∧ kernel.reverse signatures = .ok gradient ∧
      kernel.LoadsUseful signatures "x" ∧ (∀ name ∈ ["k", "s", "z"], ¬kernel.LoadsUseful signatures name) ∧
      kernel.StoresActive signatures "y" ∧ ¬kernel.StoresActive signatures "n" := by
  have checked : kernel.check = .ok () := by decide +kernel
  have reversed : kernel.reverse signatures = .ok gradient := by decide +kernel
  obtain ⟨-, adds, reads, -⟩ := Kernel.reverse_touches (δ := Unit) checked reversed
  refine ⟨checked, reversed, ?_, ?_, ?_, ?_⟩
  · rw [← adds]
    decide +kernel
  · simp only [← adds]
    decide +kernel
  · rw [← reads]
    decide +kernel
  · rw [← reads]
    decide +kernel

end Mixed

end FieldKernel
