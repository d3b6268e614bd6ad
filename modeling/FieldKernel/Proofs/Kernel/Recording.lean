import FieldKernel.Kernel.Recording
import FieldKernel.Proofs.Kernel.Numbering
import FieldKernel.Proofs.Kernel.Visibility

-- The kernels that recordings give. One counter over all open blocks numbers the values in the order of the
-- calls; where only returned values are passed, scope is a matter of nesting alone.
namespace FieldKernel

variable {α : Type}

inductive Call (α : Type) where
  | define (expr : Expr α)
  | store (place : Place) (value : ValueId)
  | branch (cond : ValueId)
  deriving DecidableEq

namespace Call

def passed : Call α → List ValueId
  | define expr => expr.operands
  | store place value => place.index ++ [value]
  | branch cond => [cond]

def returns : Call α → Bool
  | define _ => true
  | _ => false

-- Of the values that calls pass, each was returned before: by the first `k` calls that returned one, or
-- by one of those listed.
def Earlier (k : Nat) (calls : List (Call α)) : Prop :=
  ∀ before call later, calls = before ++ call :: later →
    ∀ v ∈ call.passed, v.index < k + before.countP returns

theorem earlier_nil {k : Nat} : Earlier k ([] : List (Call α)) := by
  intro before call later split
  simp at split

theorem earlier_cons {k : Nat} {call : Call α} {calls : List (Call α)} :
    Earlier k (call :: calls) ↔
      (∀ v ∈ call.passed, v.index < k) ∧ Earlier (k + [call].countP returns) calls := by
  constructor
  · intro earlier
    refine ⟨fun v passed => earlier [] call calls rfl v passed, ?_⟩
    intro before next later split v passed
    have bound := earlier (call :: before) next later (by rw [split]; rfl) v passed
    rwa [List.countP_cons, Nat.add_comm (List.countP _ _), ← List.countP_singleton, ← Nat.add_assoc] at bound
  · rintro ⟨first, others⟩ before next later split v passed
    cases before with
    | nil =>
      cases split
      exact first v passed
    | cons _ before =>
      cases split
      have bound := others before next later rfl v passed
      rwa [List.countP_cons, Nat.add_comm (List.countP _ _), ← List.countP_singleton, ← Nat.add_assoc]

theorem earlier_append {k : Nat} {a b : List (Call α)} :
    Earlier k (a ++ b) ↔ Earlier k a ∧ Earlier (k + a.countP returns) b := by
  induction a generalizing k with
  | nil => simp [earlier_nil]
  | cons call a ih =>
    rw [List.cons_append, earlier_cons, earlier_cons, ih, and_assoc, ← List.singleton_append (l := a),
      List.countP_append, Nat.add_assoc]

end Call

-- From a block into one that is nested in it: the branch, told by how many statements of the block
-- follow it, and which of its two blocks.
structure Descent where
  following : Nat
  onTrue : Bool
  deriving DecidableEq

namespace Block

-- Which statements a body holds, each with the descents that lead to its block.
inductive Holds : Block α → List Descent → Statement α → Prop where
  | instr {i : Instr α} {rest : Block α} : Holds (instr i rest) [] (.instr i)
  | branch {cond : ValueId} {onTrue onFalse rest : Block α} :
      Holds (branch cond onTrue onFalse rest) [] (.branch cond)
  | behindInstr {i : Instr α} {rest : Block α} {path : List Descent} {s : Statement α}
      (later : Holds rest path s) : Holds (instr i rest) path s
  | behindBranch {cond : ValueId} {onTrue onFalse rest : Block α} {path : List Descent} {s : Statement α}
      (later : Holds rest path s) : Holds (branch cond onTrue onFalse rest) path s
  | inTrue {cond : ValueId} {onTrue onFalse rest : Block α} {path : List Descent} {s : Statement α}
      (inside : Holds onTrue path s) :
      Holds (branch cond onTrue onFalse rest) (⟨rest.topLevel.length, true⟩ :: path) s
  | inFalse {cond : ValueId} {onTrue onFalse rest : Block α} {path : List Descent} {s : Statement α}
      (inside : Holds onFalse path s) :
      Holds (branch cond onTrue onFalse rest) (⟨rest.topLevel.length, false⟩ :: path) s

-- Every value is read in the block that defines it or in blocks nested there, and nowhere else.
def Confined (body : Block α) : Prop :=
  ∀ ⦃home path s t⦄, body.Holds home s → body.Holds path t → ∀ v ∈ s.dst?, v ∈ t.operands → home <+: path

def Borrows (body : Block α) (k : Nat) (visible : List ValueId) : Prop :=
  ∀ s ∈ body.statements, ∀ v ∈ s.operands, v.index < k → v ∈ visible

variable {i : Instr α} {cond : ValueId} {block onTrue onFalse rest : Block α} {path : List Descent}
  {s : Statement α} {v : ValueId}

theorem not_holds_nil : ¬ (nil : Block α).Holds path s := nofun

theorem holds_instr : (instr i rest).Holds path s ↔ path = [] ∧ s = .instr i ∨ rest.Holds path s := by
  constructor
  · intro holds
    cases holds with
    | instr => exact .inl ⟨rfl, rfl⟩
    | behindInstr later => exact .inr later
  · rintro (⟨rfl, rfl⟩ | later)
    · exact .instr
    · exact .behindInstr later

theorem Holds.mem_statements (holds : block.Holds path s) : s ∈ block.statements := by
  induction holds with
  | instr | branch => exact List.mem_cons_self
  | behindInstr _ ih => exact List.mem_cons_of_mem _ ih
  | behindBranch _ ih => exact rest_subset ih
  | inTrue _ ih => exact onTrue_subset ih
  | inFalse _ ih => exact onFalse_subset ih

theorem exists_holds (member : s ∈ block.statements) : ∃ path, block.Holds path s := by
  induction block with
  | nil => simp [statements] at member
  | instr i rest ih =>
    rcases List.mem_cons.mp member with rfl | later
    · exact ⟨[], .instr⟩
    · obtain ⟨path, holds⟩ := ih later
      exact ⟨path, .behindInstr holds⟩
  | branch cond onTrue onFalse rest ihTrue ihFalse ihRest =>
    simp only [statements, List.mem_cons, List.mem_append] at member
    rcases member with rfl | (first | second) | later
    · exact ⟨[], .branch⟩
    · obtain ⟨path, holds⟩ := ihTrue first
      exact ⟨_, .inTrue holds⟩
    · obtain ⟨path, holds⟩ := ihFalse second
      exact ⟨_, .inFalse holds⟩
    · obtain ⟨path, holds⟩ := ihRest later
      exact ⟨path, .behindBranch holds⟩

theorem Holds.descent_lt (holds : block.Holds path s) : ∀ descent ∈ path.head?, descent.following < block.topLevel.length := by
  induction holds with
  | instr | branch => nofun
  | behindInstr _ ih | behindBranch _ ih =>
    intro descent first
    exact Nat.lt_succ_of_lt (ih descent first)
  | inTrue | inFalse =>
    intro descent first
    cases first
    exact Nat.lt_succ_self _

theorem Holds.not_beyond (holds : block.Holds path s) {side : Bool} {home : List Descent} :
    ¬ ⟨block.topLevel.length, side⟩ :: home <+: path := by
  rintro ⟨further, rfl⟩
  exact Nat.lt_irrefl _ (holds.descent_lt _ rfl)

theorem append_nil (b : Block α) : b ++ nil = b := by
  induction b with
  | nil => rfl
  | instr i rest ih => exact congrArg (instr i) ih
  | branch cond onTrue onFalse rest _ _ ih => exact congrArg (branch cond onTrue onFalse) ih

theorem append_assoc (a b c : Block α) : a ++ b ++ c = a ++ (b ++ c) := by
  induction a with
  | nil => rfl
  | instr i rest ih => exact congrArg (instr i) ih
  | branch cond onTrue onFalse rest _ _ ih => exact congrArg (branch cond onTrue onFalse) ih

end Block

namespace Recording

def calls : Recording α → List (Call α)
  | nil => []
  | define expr rest => .define expr :: rest.calls
  | store place value rest => .store place value :: rest.calls
  | branch cond onTrue onFalse rest => .branch cond :: (onTrue.calls ++ onFalse.calls ++ rest.calls)

-- Every value that a call passes was returned by a call before it.
def PassesReturned (recording : Recording α) (returned : List ValueId) : Prop :=
  ∀ before call later, recording.calls = before ++ call :: later →
    ∀ v ∈ call.passed, v ∈ returned.take (before.countP Call.returns)

-- A body that says what the calls say, in their order and nested as they are.
inductive Mirrors : Recording α → Block α → Prop where
  | nil : Mirrors .nil .nil
  | define {rest : Recording α} {block : Block α} (expr : Expr α) (dst : ValueId)
      (later : Mirrors rest block) : Mirrors (.define expr rest) (.instr (.define dst expr) block)
  | store {rest : Recording α} {block : Block α} (place : Place) (value : ValueId)
      (later : Mirrors rest block) : Mirrors (.store place value rest) (.instr (.store place value) block)
  | branch {onTrue onFalse rest : Recording α} {inTrue inFalse block : Block α} (cond : ValueId)
      (first : Mirrors onTrue inTrue) (second : Mirrors onFalse inFalse) (later : Mirrors rest block) :
      Mirrors (.branch cond onTrue onFalse rest) (.branch cond inTrue inFalse block)

def size (recording : Recording α) : Nat := recording.calls.countP Call.returns

@[simp] theorem size_nil : (nil : Recording α).size = 0 := rfl

@[simp] theorem size_define (expr : Expr α) (rest : Recording α) : (define expr rest).size = rest.size + 1 :=
  List.countP_cons_of_pos rfl

@[simp] theorem size_store (place : Place) (value : ValueId) (rest : Recording α) :
    (store place value rest).size = rest.size := List.countP_cons_of_neg Bool.false_ne_true

@[simp] theorem size_branch (cond : ValueId) (onTrue onFalse rest : Recording α) :
    (branch cond onTrue onFalse rest).size = onTrue.size + onFalse.size + rest.size := by
  simp only [size, calls]
  rw [List.countP_cons_of_neg Bool.false_ne_true, List.countP_append, List.countP_append]

def values (k size : Nat) : List ValueId := (List.range' k size).map ValueId.mk

theorem values_append (k m n : Nat) : values k m ++ values (k + m) n = values k (m + n) := by
  rw [values, values, values, ← List.map_append, List.range'_append_1]

theorem mem_values {k size : Nat} {v : ValueId} : v ∈ values k size ↔ k ≤ v.index ∧ v.index < k + size := by
  rw [values, List.mem_map]
  constructor
  · rintro ⟨n, member, rfl⟩
    exact List.mem_range'_1.mp member
  · exact fun bounds => ⟨v.index, List.mem_range'_1.mpr bounds, rfl⟩

def block : Recording α → Nat → Block α
  | nil, _ => .nil
  | define expr rest, k => .instr (.define ⟨k⟩ expr) (rest.block (k + 1))
  | store place value rest, k => .instr (.store place value) (rest.block k)
  | branch cond onTrue onFalse rest, k =>
    .branch cond (onTrue.block k) (onFalse.block (k + onTrue.size))
      (rest.block (k + onTrue.size + onFalse.size))

theorem mirrors_block (recording : Recording α) (k : Nat) : recording.Mirrors (recording.block k) := by
  induction recording generalizing k with
  | nil => exact .nil
  | define expr rest ih => exact .define expr ⟨k⟩ (ih _)
  | store place value rest ih => exact .store place value (ih _)
  | branch cond onTrue onFalse rest ihTrue ihFalse ihRest => exact .branch cond (ihTrue _) (ihFalse _) (ihRest _)

theorem assigned_block (recording : Recording α) (k : Nat) :
    (recording.block k).assigned = values k recording.size := by
  induction recording generalizing k with
  | nil => rfl
  | define expr rest ih =>
    rw [block, Block.assigned_instr, ih, size_define, Nat.add_comm rest.size, ← values_append]
    rfl
  | store place value rest ih =>
    rw [block, Block.assigned_instr, ih, size_store]
    rfl
  | branch cond onTrue onFalse rest ihTrue ihFalse ihRest =>
    rw [block, Block.assigned_branch, ihTrue, ihFalse, ihRest, size_branch, values_append, Nat.add_assoc k,
      values_append]

end Recording

namespace Record

variable {β γ : Type} {blocks : List (Block α)} {k k' : Nat}

theorem run_nested {record : Record α β} {b : β} {inner : Block α}
    (inside : record.run ⟨.nil :: blocks, k⟩ = (b, ⟨inner :: blocks, k'⟩)) :
    (nested record).run ⟨blocks, k⟩ = ((b, inner), ⟨blocks, k'⟩) := by
  have opened : (nested record).run ⟨blocks, k⟩ =
      (fun after : β × Recorder α => ((after.1, after.2.closeBlock.1), after.2.closeBlock.2))
        (record.run ⟨.nil :: blocks, k⟩) := rfl
  rw [opened, inside]
  rfl

theorem run_ifElse (cond : ValueId) {onTrue : Record α β} {onFalse : Record α γ} {b : β} {c : γ} {k'' : Nat}
    {inTrue inFalse block : Block α}
    (first : onTrue.run ⟨.nil :: block :: blocks, k⟩ = (b, ⟨inTrue :: block :: blocks, k'⟩))
    (second : onFalse.run ⟨.nil :: block :: blocks, k'⟩ = (c, ⟨inFalse :: block :: blocks, k''⟩)) :
    (ifElse cond onTrue onFalse).run ⟨block :: blocks, k⟩ =
      ((b, c), ⟨(block ++ .branch cond inTrue inFalse .nil) :: blocks, k''⟩) := by
  have both : (ifElse cond onTrue onFalse).run ⟨block :: blocks, k⟩ =
      (fun after : (β × Block α) × Recorder α =>
        (fun last : (γ × Block α) × Recorder α =>
          ((after.1.1, last.1.1), last.2.push (.branch cond after.1.2 last.1.2 .nil)))
          ((nested onFalse).run after.2))
        ((nested onTrue).run ⟨block :: blocks, k⟩) := rfl
  rw [both, run_nested first]
  dsimp only
  rw [run_nested second]
  rfl

end Record

namespace Recording

-- Whatever blocks are open, the innermost gets the block that is recorded and the others stay as they
-- are. The induction is on the calls: nested ones start with a block of their own.
theorem replay_run (recording : Recording α) (open_ : Block α) (around : List (Block α)) (k : Nat) :
    recording.replay.run ⟨open_ :: around, k⟩ =
      (values k recording.size, ⟨(open_ ++ recording.block k) :: around, k + recording.size⟩) := by
  induction recording generalizing open_ around k with
  | nil =>
    rw [block, Block.append_nil]
    rfl
  | define expr rest ih =>
    have first : (define expr rest).replay.run ⟨open_ :: around, k⟩ =
        (rest.replay.run ⟨(open_ ++ .instr (.define ⟨k⟩ expr) .nil) :: around, k + 1⟩).map (⟨k⟩ :: ·) id := rfl
    rw [first, ih, Block.append_assoc, size_define, Nat.add_right_comm, Nat.add_assoc k, Nat.add_comm rest.size,
      ← values_append]
    rfl
  | store place value rest ih =>
    have first : (store place value rest).replay.run ⟨open_ :: around, k⟩ =
        rest.replay.run ⟨(open_ ++ .instr (.store place value) .nil) :: around, k⟩ := rfl
    rw [first, ih, Block.append_assoc, size_store]
    rfl
  | branch cond onTrue onFalse rest ihTrue ihFalse ihRest =>
    have both := Record.run_ifElse cond (ihTrue .nil (open_ :: around) k)
      (ihFalse .nil (open_ :: around) (k + onTrue.size))
    have rest_ : (branch cond onTrue onFalse rest).replay.run ⟨open_ :: around, k⟩ =
        (fun after : (List ValueId × List ValueId) × Recorder α =>
          (rest.replay.run after.2).map (after.1.1 ++ after.1.2 ++ ·) id)
          ((Record.ifElse cond onTrue.replay onFalse.replay).run ⟨open_ :: around, k⟩) := rfl
    rw [rest_, both]
    dsimp only
    rw [ihRest, Block.append_assoc, size_branch]
    simp only [Prod.map, id, values_append, block, Nat.add_assoc]
    rfl

variable {recording : Recording α} {k : Nat} {path : List Descent} {s : Statement α} {v : ValueId}

theorem block_defines (holds : (recording.block k).Holds path s) (dst : v ∈ s.dst?) :
    k ≤ v.index ∧ v.index < k + recording.size := by
  have assigned : v ∈ (recording.block k).assigned := List.mem_filterMap.mpr ⟨s, holds.mem_statements, dst⟩
  rw [assigned_block] at assigned
  exact mem_values.mp assigned

theorem exists_define (low : k ≤ v.index) (high : v.index < k + recording.size) :
    ∃ home s, (recording.block k).Holds home s ∧ v ∈ s.dst? := by
  have assigned : v ∈ (recording.block k).assigned := by
    rw [assigned_block]
    exact mem_values.mpr ⟨low, high⟩
  obtain ⟨s, member, dst⟩ := List.mem_filterMap.mp assigned
  obtain ⟨home, holds⟩ := Block.exists_holds member
  exact ⟨home, s, holds, dst⟩

theorem earlier_nil : Call.Earlier k (nil : Recording α).calls := Call.earlier_nil

theorem earlier_define {expr : Expr α} : Call.Earlier k (define expr recording).calls ↔
    (∀ v ∈ expr.operands, v.index < k) ∧ Call.Earlier (k + 1) recording.calls := Call.earlier_cons

theorem earlier_store {place : Place} {value : ValueId} : Call.Earlier k (store place value recording).calls ↔
    (∀ v ∈ place.index ++ [value], v.index < k) ∧ Call.Earlier k recording.calls := Call.earlier_cons

theorem earlier_branch {cond : ValueId} {onTrue onFalse : Recording α} :
    Call.Earlier k (branch cond onTrue onFalse recording).calls ↔
      cond.index < k ∧ Call.Earlier k onTrue.calls ∧ Call.Earlier (k + onTrue.size) onFalse.calls ∧
        Call.Earlier (k + onTrue.size + onFalse.size) recording.calls := by
  have condition : (∀ v ∈ (Call.branch cond : Call α).passed, v.index < k) ↔ cond.index < k := by
    simp [Call.passed]
  rw [calls, Call.earlier_cons, Call.earlier_append, Call.earlier_append, condition, and_assoc, List.countP_append,
    ← Nat.add_assoc]
  rfl

theorem block_reads (earlier : Call.Earlier k recording.calls) (member : s ∈ (recording.block k).statements)
    (used : v ∈ s.operands) : v.index < k + recording.size := by
  induction recording generalizing k with
  | nil => simp [block, Block.statements] at member
  | define expr rest ih =>
    obtain ⟨first, others⟩ := earlier_define.mp earlier
    rw [size_define]
    rcases List.mem_cons.mp member with rfl | later
    · have := first v used
      omega
    · have := ih others later
      omega
  | store place value rest ih =>
    obtain ⟨first, others⟩ := earlier_store.mp earlier
    rw [size_store]
    rcases List.mem_cons.mp member with rfl | later
    · have := first v used
      omega
    · exact ih others later
  | branch cond onTrue onFalse rest ihTrue ihFalse ihRest =>
    obtain ⟨condition, inTrue, inFalse, others⟩ := earlier_branch.mp earlier
    rw [size_branch]
    simp only [block, Block.statements, List.mem_cons, List.mem_append] at member
    rcases member with rfl | (first | second) | later
    · rw [List.mem_singleton.mp used]
      omega
    · have := ihTrue inTrue first
      omega
    · have := ihFalse inFalse second
      omega
    · have := ihRest others later
      omega

theorem confined_instr {k' : Nat} {i : Instr α} {rest : Block α} {visible : List ValueId}
    (operands : ∀ v ∈ i.operands, v.index < k) (own : ∀ v, v ∈ i.dst? ↔ k ≤ v.index ∧ v.index < k')
    (newer : ∀ home s, rest.Holds home s → ∀ v ∈ s.dst?, k' ≤ v.index) (le : k ≤ k') :
    (∀ v ∈ i.operands, v ∈ visible) ∧ rest.Borrows k' (i.dst?.toList ++ visible) ∧ rest.Confined ↔
      (Block.instr i rest).Borrows k visible ∧ (Block.instr i rest).Confined := by
  constructor
  · rintro ⟨seen, borrows, confined⟩
    refine ⟨?_, ?_⟩
    · intro s member v used below
      rcases List.mem_cons.mp member with rfl | later
      · exact seen v used
      · rcases List.mem_append.mp (borrows s later v used (Nat.lt_of_lt_of_le below le)) with here | known
        · have := (own v).mp (Option.mem_toList.mp here)
          omega
        · exact known
    · intro home path s t defines reads v dst used
      rcases Block.holds_instr.mp defines with ⟨rfl, -⟩ | defines
      · exact List.nil_prefix
      · rcases Block.holds_instr.mp reads with ⟨-, rfl⟩ | reads
        · have low := newer home s defines v dst
          have high := operands v used
          omega
        · exact confined defines reads v dst used
  · rintro ⟨borrows, confined⟩
    refine ⟨fun v used => borrows _ List.mem_cons_self v used (operands v used), ?_, ?_⟩
    · intro s later v used below
      rw [List.mem_append, Option.mem_toList.trans (own v)]
      by_cases old : v.index < k
      · exact .inr (borrows s (List.mem_cons_of_mem _ later) v used old)
      · exact .inl ⟨Nat.not_lt.mp old, below⟩
    · intro home path s t defines reads
      exact confined (.behindInstr defines) (.behindInstr reads)

theorem confined_branch {cond : ValueId} {onTrue onFalse rest : Recording α} {visible : List ValueId}
    (earlier : Call.Earlier k (branch cond onTrue onFalse rest).calls) (old : ∀ v ∈ visible, v.index < k) :
    cond ∈ visible ∧ ((onTrue.block k).Borrows k visible ∧ (onTrue.block k).Confined) ∧
        ((onFalse.block (k + onTrue.size)).Borrows (k + onTrue.size) visible ∧
          (onFalse.block (k + onTrue.size)).Confined) ∧
        (rest.block (k + onTrue.size + onFalse.size)).Borrows (k + onTrue.size + onFalse.size) visible ∧
          (rest.block (k + onTrue.size + onFalse.size)).Confined ↔
      ((branch cond onTrue onFalse rest).block k).Borrows k visible ∧
        ((branch cond onTrue onFalse rest).block k).Confined := by
  obtain ⟨condition, inTrue, inFalse, others⟩ := earlier_branch.mp earlier
  constructor
  · rintro ⟨seen, ⟨borrowsTrue, confinedTrue⟩, ⟨borrowsFalse, confinedFalse⟩, borrowsRest, confinedRest⟩
    refine ⟨?_, ?_⟩
    · intro s member v used below
      simp only [block, Block.statements, List.mem_cons, List.mem_append] at member
      rcases member with rfl | (first | second) | later
      · rwa [List.mem_singleton.mp used]
      · exact borrowsTrue s first v used below
      · exact borrowsFalse s second v used (by omega)
      · exact borrowsRest s later v used (by omega)
    · intro home path s t defines reads v dst used
      cases defines with
      | branch => cases dst
      | inTrue defines =>
        obtain ⟨low, high⟩ := block_defines defines dst
        cases reads with
        | branch =>
          rw [List.mem_singleton.mp used] at low
          omega
        | inTrue reads => exact List.cons_prefix_cons.mpr ⟨rfl, confinedTrue defines reads v dst used⟩
        | inFalse reads =>
          have := old v (borrowsFalse t reads.mem_statements v used high)
          omega
        | behindBranch reads =>
          have := old v (borrowsRest t reads.mem_statements v used (by omega))
          omega
      | inFalse defines =>
        obtain ⟨low, high⟩ := block_defines defines dst
        cases reads with
        | branch =>
          rw [List.mem_singleton.mp used] at low
          omega
        | inTrue reads =>
          have := block_reads inTrue reads.mem_statements used
          omega
        | inFalse reads => exact List.cons_prefix_cons.mpr ⟨rfl, confinedFalse defines reads v dst used⟩
        | behindBranch reads =>
          have := old v (borrowsRest t reads.mem_statements v used high)
          omega
      | behindBranch defines =>
        obtain ⟨low, high⟩ := block_defines defines dst
        cases reads with
        | branch =>
          rw [List.mem_singleton.mp used] at low
          omega
        | inTrue reads =>
          have := block_reads inTrue reads.mem_statements used
          omega
        | inFalse reads =>
          have := block_reads inFalse reads.mem_statements used
          omega
        | behindBranch reads => exact confinedRest defines reads v dst used
  · rintro ⟨borrows, confined⟩
    -- what a block defines is not read outside of it
    have notTrue : ∀ path t, ((branch cond onTrue onFalse rest).block k).Holds path t → ∀ v ∈ t.operands,
        k ≤ v.index → v.index < k + onTrue.size → ∃ home,
          ⟨(rest.block (k + onTrue.size + onFalse.size)).topLevel.length, true⟩ :: home <+: path := by
      intro path t reads v used low high
      obtain ⟨home, s, defines, dst⟩ := exists_define low high
      exact ⟨home, confined (.inTrue defines) reads v dst used⟩
    have notFalse : ∀ path t, ((branch cond onTrue onFalse rest).block k).Holds path t → ∀ v ∈ t.operands,
        k + onTrue.size ≤ v.index → v.index < k + onTrue.size + onFalse.size → ∃ home,
          ⟨(rest.block (k + onTrue.size + onFalse.size)).topLevel.length, false⟩ :: home <+: path := by
      intro path t reads v used low high
      obtain ⟨home, s, defines, dst⟩ := exists_define low high
      exact ⟨home, confined (.inFalse defines) reads v dst used⟩
    refine ⟨borrows _ List.mem_cons_self cond (List.mem_singleton.mpr rfl) condition, ⟨?_, ?_⟩, ⟨?_, ?_⟩, ?_, ?_⟩
    · intro s first
      exact borrows s (Block.onTrue_subset first)
    · intro home path s t defines reads v dst used
      exact (List.cons_prefix_cons.mp (confined (.inTrue defines) (.inTrue reads) v dst used)).2
    · intro s second v used below
      by_cases before : v.index < k
      · exact borrows s (Block.onFalse_subset second) v used before
      · obtain ⟨path, reads⟩ := Block.exists_holds second
        obtain ⟨home, inside⟩ := notTrue _ s (.inFalse reads) v used (Nat.not_lt.mp before) below
        have := (List.cons_prefix_cons.mp inside).1
        simp at this
    · intro home path s t defines reads v dst used
      exact (List.cons_prefix_cons.mp (confined (.inFalse defines) (.inFalse reads) v dst used)).2
    · intro s later v used below
      by_cases before : v.index < k
      · exact borrows s (Block.rest_subset later) v used before
      · obtain ⟨path, reads⟩ := Block.exists_holds later
        by_cases first : v.index < k + onTrue.size
        · obtain ⟨home, inside⟩ := notTrue _ s (.behindBranch reads) v used (Nat.not_lt.mp before) first
          exact absurd inside reads.not_beyond
        · obtain ⟨home, inside⟩ := notFalse _ s (.behindBranch reads) v used (Nat.not_lt.mp first) below
          exact absurd inside reads.not_beyond
    · intro home path s t defines reads
      exact confined (.behindBranch defines) (.behindBranch reads)

-- Where only returned values are passed, a block sees what it reads exactly if the older values that it
-- reads are visible and its own are read where they belong. The induction is on the calls.
theorem sees_iff {visible : List ValueId} (earlier : Call.Earlier k recording.calls)
    (old : ∀ v ∈ visible, v.index < k) : (recording.block k).Sees visible ↔
      (recording.block k).Borrows k visible ∧ (recording.block k).Confined := by
  induction recording generalizing k visible with
  | nil =>
    have confined : (Block.nil : Block α).Confined := fun _ _ _ _ defines => absurd defines Block.not_holds_nil
    exact ⟨fun _ => ⟨nofun, confined⟩, fun _ => Block.sees_nil⟩
  | define expr rest ih =>
    obtain ⟨first, others⟩ := earlier_define.mp earlier
    have own : ∀ v : ValueId, v ∈ (Instr.define ⟨k⟩ expr).dst? ↔ k ≤ v.index ∧ v.index < k + 1 := by
      intro v
      cases v
      simp only [Instr.dst?, Option.mem_some_iff, ValueId.mk.injEq]
      omega
    have known : ∀ v ∈ (Instr.define ⟨k⟩ expr).dst?.toList ++ visible, v.index < k + 1 :=
      List.forall_mem_append.mpr ⟨fun v here => ((own v).mp (Option.mem_toList.mp here)).2,
        fun v member => Nat.lt_succ_of_lt (old v member)⟩
    rw [block, Block.sees_instr, ih others known]
    exact confined_instr first own (fun _ _ defines _ dst => (block_defines defines dst).1) (Nat.le_succ k)
  | store place value rest ih =>
    obtain ⟨first, others⟩ := earlier_store.mp earlier
    have own : ∀ v : ValueId, v ∈ (Instr.store place value : Instr α).dst? ↔ k ≤ v.index ∧ v.index < k := by
      intro v
      simp only [Instr.dst?, Option.not_mem_none, false_iff]
      omega
    rw [block, Block.sees_instr, ih others (by simpa [Instr.dst?] using old)]
    exact confined_instr first own (fun _ _ defines _ dst => (block_defines defines dst).1) (Nat.le_refl k)
  | branch cond onTrue onFalse rest ihTrue ihFalse ihRest =>
    obtain ⟨-, inTrue, inFalse, others⟩ := earlier_branch.mp earlier
    rw [← confined_branch earlier old, block, Block.sees_branch, ihTrue inTrue old,
      ihFalse inFalse fun v member => Nat.lt_add_right _ (old v member),
      ihRest others fun v member => Nat.lt_add_right _ (Nat.lt_add_right _ (old v member))]

theorem mem_block {expr : Expr α} :
    (∃ dst, .instr (.define dst expr) ∈ (recording.block k).statements) ↔ .define expr ∈ recording.calls := by
  induction recording generalizing k with
  | nil => simp [block, Block.statements, calls]
  | define e rest ih =>
    simp only [block, Block.statements, calls, List.mem_cons, Statement.instr.injEq, Instr.define.injEq,
      Call.define.injEq, exists_or, ih]
    simp
  | store place value rest ih =>
    simp only [block, Block.statements, calls, List.mem_cons, Statement.instr.injEq, reduceCtorEq, false_or, ih]
  | branch cond onTrue onFalse rest ihTrue ihFalse ihRest =>
    simp only [block, Block.statements, calls, List.mem_cons, List.mem_append, reduceCtorEq, false_or, exists_or,
      ihTrue, ihFalse, ihRest]

theorem valueBound_block (earlier : Call.Earlier 0 recording.calls) (short : recording.size < 4294967296) :
    (recording.block 0).valueBound = recording.size := by
  apply Nat.le_antisymm
  · rw [Block.valueBound_le]
    intro v named
    refine Nat.le_trans (Nat.mod_le _ _) ?_
    obtain ⟨s, member, here⟩ := List.mem_flatMap.mp named
    rcases List.mem_append.mp here with dst | used
    · obtain ⟨path, holds⟩ := Block.exists_holds member
      have := (block_defines holds (Option.mem_toList.mp dst)).2
      omega
    · have := block_reads earlier member used
      omega
  · cases size : recording.size with
    | zero => exact Nat.zero_le _
    | succ n =>
      have last : (⟨n⟩ : ValueId) ∈ (recording.block 0).assigned := by
        rw [assigned_block, mem_values]
        dsimp only
        omega
      exact Block.index_lt_valueBound (Block.assigned_subset_named _ last) (by rwa [← size])

theorem passesReturned_iff : recording.PassesReturned (values 0 recording.size) ↔ Call.Earlier 0 recording.calls := by
  have taken : ∀ before call later, recording.calls = before ++ call :: later → ∀ v : ValueId,
      v ∈ (values 0 recording.size).take (before.countP Call.returns) ↔ v.index < 0 + before.countP Call.returns := by
    intro before call later split v
    have fewer : before.countP Call.returns ≤ recording.size := by
      rw [size, split, List.countP_append]
      exact Nat.le_add_right _ _
    obtain ⟨more, whole⟩ := Nat.exists_eq_add_of_le fewer
    rw [whole, ← values_append, List.take_left' (by simp [values]), mem_values]
    simp
  constructor
  · intro passes before call later split v passed
    exact (taken before call later split v).mp (passes before call later split v passed)
  · intro earlier before call later split v passed
    exact (taken before call later split v).mpr (earlier before call later split v passed)

theorem kernel_replay (recording : Recording α) (name : String) (domain : Domain) (argCount : Nat) :
    Record.kernel name domain argCount recording.replay =
      (values 0 recording.size, ⟨name, domain, argCount, recording.block 0, recording.size⟩) := by
  rw [Record.kernel, Recorder.start, replay_run, Nat.zero_add]
  rfl

-- A recording gives a body that says what its calls say; the values are the first numbers, in the order
-- of the calls that returned them. If only returned values were passed and the counter is a word, it is the
-- one that is read off the body, and the kernel is accepted exactly if each value is read in the block that
-- defines it or deeper, and axes and argument positions are within their limits.
theorem kernel_numbered (recording : Recording α) (name : String) (domain : Domain) (argCount : Nat)
    (returned : recording.PassesReturned (Record.kernel name domain argCount recording.replay).1) :
    ∃ n body, Record.kernel name domain argCount recording.replay =
        ((List.range n).map ValueId.mk, ⟨name, domain, argCount, body, n⟩) ∧
      recording.Mirrors body ∧ body.assigned = (List.range n).map ValueId.mk ∧
      (n < 4294967296 → Kernel.ofBody name domain argCount body = ⟨name, domain, argCount, body, n⟩) ∧
      ((⟨name, domain, argCount, body, n⟩ : Kernel α).check = .ok () ↔ n < 4294967296 ∧ body.Confined ∧
        (∀ axis, .define (.index axis) ∈ recording.calls → axis < domain.rank) ∧
          ∀ position, .define (.arg position) ∈ recording.calls → position < argCount) := by
  have ran := recording.kernel_replay name domain argCount
  rw [ran, passesReturned_iff] at returned
  have numbered : values 0 recording.size = (List.range recording.size).map ValueId.mk := by
    rw [values, List.range_eq_range']
  have assigned := recording.assigned_block 0
  refine ⟨recording.size, recording.block 0, by rw [ran, numbered], recording.mirrors_block 0,
    by rw [assigned, numbered], fun short => by rw [Kernel.ofBody, valueBound_block returned short], ?_⟩
  rw [Kernel.check_ok]
  constructor
  · intro formed
    refine ⟨?_, ((sees_iff returned (List.forall_mem_nil _)).mp formed.sees).2, ?_, ?_⟩
    · by_contra long
      have last : (⟨recording.size - 1⟩ : ValueId) ∈ (recording.block 0).assigned := by
        rw [assigned, mem_values]
        dsimp only
        omega
      have inside : recording.size - 1 < (ShortWord.ofNat recording.size).toNat := formed.assigned_lt last
      have := (ShortWord.ofNat recording.size).short
      omega
    · intro axis called
      obtain ⟨dst, member⟩ := (mem_block (k := 0)).mpr called
      exact (formed.within member).1
    · intro position called
      obtain ⟨dst, member⟩ := (mem_block (k := 0)).mpr called
      exact (formed.within member).1
  · rintro ⟨short, confined, axes, positions⟩
    have borrows : (recording.block 0).Borrows 0 [] := fun s _ v _ below => absurd below (Nat.not_lt_zero _)
    have sees := (sees_iff returned (List.forall_mem_nil _)).mpr ⟨borrows, confined⟩
    have once : (recording.block 0).assigned.Nodup := by
      rw [assigned, numbered]
      exact List.pairwise_map.mpr (List.nodup_range.imp fun differ same => differ (congrArg ValueId.index same))
    refine Block.wellFormed_of_sees once (fun v _ => List.not_mem_nil) ?_ sees
    intro i member
    cases i with
    | define dst e =>
      have counted : dst ∈ (recording.block 0).assigned := List.mem_filterMap.mpr ⟨_, member, rfl⟩
      rw [assigned, mem_values, Nat.zero_add] at counted
      refine ⟨?_, Nat.lt_of_lt_of_eq counted.2 (ShortWord.ofNat_eq short).symm⟩
      cases e with
      | index axis => exact axes axis (mem_block.mp ⟨dst, member⟩)
      | arg position => exact positions position (mem_block.mp ⟨dst, member⟩)
      | const | load | binary | unary | compare => trivial
    | store | readGrad | propagate | addGrad => trivial

end Recording

-- At odd points an old element is replaced; then a second branch, which has nothing to do otherwise.
namespace Refresh

def recording : Recording Nat :=
  .define (.index 0) <| .define (.const 2) <| .define (.binary .mod ⟨0⟩ ⟨1⟩) <|
  .branch ⟨2⟩
    (.define (.load ⟨"y", [⟨0⟩]⟩) <| .store ⟨"x", [⟨0⟩]⟩ ⟨3⟩ .nil)
    (.define (.arg 0) <| .branch ⟨4⟩ (.store ⟨"x", [⟨0⟩]⟩ ⟨4⟩ .nil) .nil .nil) <|
  .define (.unary .neg ⟨1⟩) <| .branch ⟨5⟩ (.store ⟨"y", [⟨0⟩]⟩ ⟨5⟩ .nil) .nil .nil

theorem returned : recording.PassesReturned (Record.kernel "refresh" ⟨[⟨0, 16⟩]⟩ 1 recording.replay).1 := by
  rw [Recording.kernel_replay, Recording.passesReturned_iff]
  simp [recording, Recording.earlier_nil, Recording.earlier_define, Recording.earlier_store,
    Recording.earlier_branch, Expr.operands]

theorem kernel_numbered_refresh :
    recording.PassesReturned (Record.kernel "refresh" ⟨[⟨0, 16⟩]⟩ 1 recording.replay).1 ∧
      ∃ n body, Record.kernel "refresh" ⟨[⟨0, 16⟩]⟩ 1 recording.replay =
          ((List.range n).map ValueId.mk, ⟨"refresh", ⟨[⟨0, 16⟩]⟩, 1, body, n⟩) ∧
        recording.Mirrors body ∧ body.assigned = (List.range n).map ValueId.mk ∧
        (n < 4294967296 → Kernel.ofBody "refresh" ⟨[⟨0, 16⟩]⟩ 1 body = ⟨"refresh", ⟨[⟨0, 16⟩]⟩, 1, body, n⟩) ∧
        ((⟨"refresh", ⟨[⟨0, 16⟩]⟩, 1, body, n⟩ : Kernel Nat).check = .ok () ↔ n < 4294967296 ∧ body.Confined ∧
          (∀ axis, .define (.index axis) ∈ recording.calls → axis < 1) ∧
            ∀ position, .define (.arg position) ∈ recording.calls → position < 1) :=
  ⟨returned, recording.kernel_numbered "refresh" ⟨[⟨0, 16⟩]⟩ 1 returned⟩

end Refresh

end FieldKernel
