import FieldKernel.Proofs.Kernel.Scope

-- The scope rule of a kernel, stated without a checker: what precedes a statement, in its own block and in
-- each block around it, defines what it reads.
namespace FieldKernel

variable {α : Type}

namespace Block

def first? : Block α → Option (Statement α)
  | nil => none
  | instr i _ => some (.instr i)
  | branch cond _ _ _ => some (.branch cond)

-- Where a statement stands. The list holds what precedes it, from the outermost block inwards; of a
-- statement of the block itself it holds one part.
inductive Stands : Block α → List (Block α) → Statement α → Prop where
  | here {block before later : Block α} {s : Statement α} (split : block = before ++ later)
      (first : later.first? = some s) : Stands block [before] s
  | inside {block before onTrue onFalse after nested : Block α} {cond : ValueId}
      {inner : List (Block α)} {s : Statement α}
      (split : block = before ++ branch cond onTrue onFalse after)
      (either : nested = onTrue ∨ nested = onFalse) (stands : Stands nested inner s) :
      Stands block (before :: inner) s

-- A statement of the block itself, and of no block nested in it, defines the value.
def Defines (block : Block α) (v : ValueId) : Prop :=
  ∃ before s, block.Stands [before] s ∧ v ∈ s.dst?

-- What the block reads is in the list, or defined by what precedes the statement that reads it.
def Sees (block : Block α) (visible : List ValueId) : Prop :=
  ∀ ⦃precedes s⦄, block.Stands precedes s →
    ∀ v ∈ s.operands, v ∈ visible ∨ ∃ before ∈ precedes, before.Defines v

variable {rest onTrue onFalse : Block α} {precedes : List (Block α)} {s : Statement α}
  {v cond : ValueId} {i : Instr α} {visible : List ValueId}

theorem Stands.ne_nil {block : Block α} (stands : block.Stands precedes s) : precedes ≠ [] := by
  cases stands <;> exact List.cons_ne_nil _ _

@[simp] theorem not_stands_nil : ¬ (nil : Block α).Stands precedes s := by
  intro stands
  cases stands with
  | @here _ before later _ split first =>
    cases before <;> cases split
    cases first
  | @inside _ before _ _ _ _ _ _ _ split => cases before <;> cases split

theorem stands_instr :
    (instr i rest).Stands precedes s ↔
      precedes = [nil] ∧ s = .instr i ∨
        ∃ before inner, precedes = instr i before :: inner ∧ rest.Stands (before :: inner) s := by
  constructor
  · intro stands
    cases stands with
    | @here _ before _ _ split first =>
      cases before with
      | nil =>
        cases split
        exact .inl ⟨rfl, (Option.some.inj first).symm⟩
      | instr _ before =>
        cases split
        exact .inr ⟨before, [], rfl, .here rfl first⟩
      | branch => cases split
    | @inside _ before _ _ _ _ _ inner _ split either stands =>
      cases before with
      | nil | branch => cases split
      | instr _ before =>
        cases split
        exact .inr ⟨before, inner, rfl, .inside rfl either stands⟩
  · rintro (⟨rfl, rfl⟩ | ⟨before, inner, rfl, stands⟩)
    · exact @Stands.here _ _ nil _ _ rfl rfl
    · cases stands with
      | here split first => exact .here (congrArg (instr i) split) first
      | inside split either stands => exact .inside (congrArg (instr i) split) either stands

theorem stands_branch :
    (branch cond onTrue onFalse rest).Stands precedes s ↔
      precedes = [nil] ∧ s = .branch cond ∨
        (∃ inner, precedes = nil :: inner ∧ (onTrue.Stands inner s ∨ onFalse.Stands inner s)) ∨
          ∃ before inner, precedes = branch cond onTrue onFalse before :: inner ∧
            rest.Stands (before :: inner) s := by
  constructor
  · intro stands
    cases stands with
    | @here _ before _ _ split first =>
      cases before with
      | nil =>
        cases split
        exact .inl ⟨rfl, (Option.some.inj first).symm⟩
      | instr => cases split
      | branch _ _ _ before =>
        cases split
        exact .inr (.inr ⟨before, [], rfl, .here rfl first⟩)
    | @inside _ before _ _ _ _ _ inner _ split either stands =>
      cases before with
      | nil =>
        cases split
        rcases either with rfl | rfl
        · exact .inr (.inl ⟨inner, rfl, .inl stands⟩)
        · exact .inr (.inl ⟨inner, rfl, .inr stands⟩)
      | instr => cases split
      | branch _ _ _ before =>
        cases split
        exact .inr (.inr ⟨before, inner, rfl, .inside rfl either stands⟩)
  · rintro (⟨rfl, rfl⟩ | ⟨inner, rfl, first | second⟩ | ⟨before, inner, rfl, stands⟩)
    · exact @Stands.here _ _ nil _ _ rfl rfl
    · exact @Stands.inside _ _ nil _ _ _ _ _ _ _ rfl (.inl rfl) first
    · exact @Stands.inside _ _ nil _ _ _ _ _ _ _ rfl (.inr rfl) second
    · cases stands with
      | here split first => exact .here (congrArg (branch cond onTrue onFalse) split) first
      | inside split either stands =>
        exact .inside (congrArg (branch cond onTrue onFalse) split) either stands

theorem exists_stands {block : Block α} {s : Statement α} :
    (∃ precedes, block.Stands precedes s) ↔ s ∈ block.statements := by
  induction block with
  | nil => simp [statements]
  | instr i rest ih =>
    rw [statements, List.mem_cons, ← ih]
    constructor
    · rintro ⟨precedes, stands⟩
      rcases stands_instr.mp stands with ⟨-, here⟩ | ⟨before, inner, -, later⟩
      · exact .inl here
      · exact .inr ⟨before :: inner, later⟩
    · rintro (here | ⟨precedes, later⟩)
      · exact ⟨[nil], stands_instr.mpr (.inl ⟨rfl, here⟩)⟩
      · obtain ⟨before, inner, rfl⟩ := List.exists_cons_of_ne_nil later.ne_nil
        exact ⟨instr i before :: inner, stands_instr.mpr (.inr ⟨before, inner, rfl, later⟩)⟩
  | branch cond onTrue onFalse rest ihTrue ihFalse ihRest =>
    rw [statements, List.mem_cons, List.mem_append, List.mem_append, ← ihTrue, ← ihFalse, ← ihRest]
    constructor
    · rintro ⟨precedes, stands⟩
      rcases stands_branch.mp stands with
        ⟨-, here⟩ | ⟨inner, -, first | second⟩ | ⟨before, inner, -, later⟩
      · exact .inl here
      · exact .inr (.inl (.inl ⟨inner, first⟩))
      · exact .inr (.inl (.inr ⟨inner, second⟩))
      · exact .inr (.inr ⟨before :: inner, later⟩)
    · rintro (here | (⟨inner, first⟩ | ⟨inner, second⟩) | ⟨precedes, later⟩)
      · exact ⟨[nil], stands_branch.mpr (.inl ⟨rfl, here⟩)⟩
      · exact ⟨nil :: inner, stands_branch.mpr (.inr (.inl ⟨inner, rfl, .inl first⟩))⟩
      · exact ⟨nil :: inner, stands_branch.mpr (.inr (.inl ⟨inner, rfl, .inr second⟩))⟩
      · obtain ⟨before, inner, rfl⟩ := List.exists_cons_of_ne_nil later.ne_nil
        exact ⟨branch cond onTrue onFalse before :: inner,
          stands_branch.mpr (.inr (.inr ⟨before, inner, rfl, later⟩))⟩

@[simp] theorem not_defines_nil : ¬ (nil : Block α).Defines v := fun ⟨_, _, stands, _⟩ =>
  not_stands_nil stands

@[simp] theorem defines_instr : (instr i rest).Defines v ↔ v ∈ i.dst? ∨ rest.Defines v := by
  constructor
  · rintro ⟨before, s, stands, dst⟩
    rcases stands_instr.mp stands with ⟨-, rfl⟩ | ⟨before, inner, same, later⟩
    · exact .inl dst
    · cases same
      exact .inr ⟨before, s, later, dst⟩
  · rintro (here | ⟨before, s, later, dst⟩)
    · exact ⟨nil, .instr i, stands_instr.mpr (.inl ⟨rfl, rfl⟩), here⟩
    · exact ⟨instr i before, s, stands_instr.mpr (.inr ⟨before, [], rfl, later⟩), dst⟩

@[simp] theorem defines_branch : (branch cond onTrue onFalse rest).Defines v ↔ rest.Defines v := by
  constructor
  · rintro ⟨before, s, stands, dst⟩
    rcases stands_branch.mp stands with ⟨-, rfl⟩ | ⟨_, same, nested⟩ | ⟨before, inner, same, later⟩
    · cases dst
    · cases same
      rcases nested with first | second
      · exact absurd rfl first.ne_nil
      · exact absurd rfl second.ne_nil
    · cases same
      exact ⟨before, s, later, dst⟩
  · rintro ⟨before, s, later, dst⟩
    exact ⟨branch cond onTrue onFalse before, s,
      stands_branch.mpr (.inr (.inr ⟨before, [], rfl, later⟩)), dst⟩

theorem sees_nil : (nil : Block α).Sees visible := fun _ _ stands => absurd stands not_stands_nil

theorem defined_behind_instr {before : Block α} {inner : List (Block α)} :
    (∃ b ∈ instr i before :: inner, b.Defines v) ↔
      v ∈ i.dst? ∨ ∃ b ∈ before :: inner, b.Defines v := by
  simp [or_assoc]

theorem sees_instr : (instr i rest).Sees visible ↔
    (∀ v ∈ i.operands, v ∈ visible) ∧ rest.Sees (i.dst?.toList ++ visible) := by
  constructor
  · intro sees
    refine ⟨fun v used => ?_, fun precedes s later v used => ?_⟩
    · simpa using sees (stands_instr.mpr (.inl ⟨rfl, rfl⟩)) v used
    · obtain ⟨before, inner, rfl⟩ := List.exists_cons_of_ne_nil later.ne_nil
      have known := sees (stands_instr.mpr (.inr ⟨before, inner, rfl, later⟩)) v used
      rw [defined_behind_instr] at known
      rw [List.mem_append, Option.mem_toList]
      exact or_assoc.mpr (or_left_comm.mp known)
  · rintro ⟨operands, sees⟩ precedes s stands v used
    rcases stands_instr.mp stands with ⟨-, rfl⟩ | ⟨before, inner, rfl, later⟩
    · exact .inl (operands v used)
    · have known := sees later v used
      rw [List.mem_append, Option.mem_toList] at known
      rw [defined_behind_instr]
      exact or_left_comm.mpr (or_assoc.mp known)

theorem sees_branch : (branch cond onTrue onFalse rest).Sees visible ↔
    cond ∈ visible ∧ onTrue.Sees visible ∧ onFalse.Sees visible ∧ rest.Sees visible := by
  constructor
  · intro sees
    refine ⟨?_, fun inner s first v used => ?_, fun inner s second v used => ?_,
      fun precedes s later v used => ?_⟩
    · simpa using sees (stands_branch.mpr (.inl ⟨rfl, rfl⟩)) cond (List.mem_singleton.mpr rfl)
    · simpa using sees (stands_branch.mpr (.inr (.inl ⟨inner, rfl, .inl first⟩))) v used
    · simpa using sees (stands_branch.mpr (.inr (.inl ⟨inner, rfl, .inr second⟩))) v used
    · obtain ⟨before, inner, rfl⟩ := List.exists_cons_of_ne_nil later.ne_nil
      simpa using sees (stands_branch.mpr (.inr (.inr ⟨before, inner, rfl, later⟩))) v used
  · rintro ⟨condition, inTrue, inFalse, others⟩ precedes s stands v used
    rcases stands_branch.mp stands with
      ⟨-, rfl⟩ | ⟨inner, rfl, first | second⟩ | ⟨before, inner, rfl, later⟩
    · rw [List.mem_singleton.mp used]
      exact .inl condition
    · simpa using inTrue first v used
    · simpa using inFalse second v used
    · simpa using others later v used

theorem WellFormed.sees {limits : Limits} {block : Block α} {defined : List ValueId}
    (formed : block.WellFormed limits visible defined) : block.Sees visible := by
  induction block generalizing visible defined with
  | nil => exact sees_nil
  | instr i rest ih =>
    obtain ⟨operands, -, -, others⟩ := formed
    exact sees_instr.mpr ⟨operands, ih others⟩
  | branch cond onTrue onFalse rest ihTrue ihFalse ihRest =>
    obtain ⟨condition, inTrue, inFalse, others⟩ := formed
    exact sees_branch.mpr ⟨condition, ihTrue inTrue, ihFalse inFalse, ihRest others⟩

theorem WellFormed.within {limits : Limits} {block : Block α} {defined : List ValueId}
    (formed : block.WellFormed limits visible defined) {i : Instr α}
    (member : .instr i ∈ block.statements) : i.Within limits := by
  induction block generalizing visible defined with
  | nil => simp [statements] at member
  | instr j rest ih =>
    obtain ⟨-, within, -, others⟩ := formed
    rcases List.mem_cons.mp member with here | later
    · cases here
      exact within
    · exact ih others later
  | branch cond onTrue onFalse rest ihTrue ihFalse ihRest =>
    obtain ⟨-, inTrue, inFalse, others⟩ := formed
    simp only [statements, List.mem_cons, reduceCtorEq, false_or, List.mem_append] at member
    rcases member with (first | second) | later
    · exact ihTrue inTrue first
    · exact ihFalse inFalse second
    · exact ihRest others later

-- A block is well formed where it defines each value once and none that is defined before, stays
-- within the limits, and reads only what it sees.
theorem wellFormed_of_sees {limits : Limits} {block : Block α} {defined : List ValueId}
    (once : block.assigned.Nodup) (fresh : ∀ v ∈ block.assigned, v ∉ defined)
    (within : ∀ i, .instr i ∈ block.statements → i.Within limits) (sees : block.Sees visible) :
    block.WellFormed limits visible defined := by
  induction block generalizing visible defined with
  | nil => trivial
  | instr i rest ih =>
    obtain ⟨operands, sees⟩ := sees_instr.mp sees
    rw [assigned_instr] at once fresh
    obtain ⟨-, once, apart⟩ := List.nodup_append.mp once
    obtain ⟨new, fresh⟩ := List.forall_mem_append.mp fresh
    refine ⟨operands, within i List.mem_cons_self, fun v dst => new v (Option.mem_toList.mpr dst),
      ih once (fun v later member => ?_) (fun j later => within j (List.mem_cons_of_mem _ later)) sees⟩
    rcases List.mem_append.mp member with here | before
    · exact apart v here v later rfl
    · exact fresh v later before
  | branch cond onTrue onFalse rest ihTrue ihFalse ihRest =>
    obtain ⟨condition, inTrue, inFalse, others⟩ := sees_branch.mp sees
    rw [assigned_branch] at once fresh
    obtain ⟨onceBoth, onceRest, apartRest⟩ := List.nodup_append.mp once
    obtain ⟨onceTrue, onceFalse, apart⟩ := List.nodup_append.mp onceBoth
    obtain ⟨freshBoth, freshRest⟩ := List.forall_mem_append.mp fresh
    obtain ⟨freshTrue, freshFalse⟩ := List.forall_mem_append.mp freshBoth
    simp only [statements, List.mem_cons, reduceCtorEq, false_or, List.mem_append] at within
    refine ⟨condition, ihTrue onceTrue freshTrue (fun j first => within j (.inl (.inl first))) inTrue,
      ihFalse onceFalse (fun v second member => ?_) (fun j second => within j (.inl (.inr second)))
        inFalse,
      ihRest onceRest (fun v later member => ?_) (fun j later => within j (.inr later)) others⟩
    · rcases List.mem_append.mp member with first | before
      · exact apart v first v second rfl
      · exact freshFalse v second before
    · rcases List.mem_append.mp member with second | member
      · exact apartRest v (List.mem_append_right _ second) v later rfl
      · rcases List.mem_append.mp member with first | before
        · exact apartRest v (List.mem_append_left _ first) v later rfl
        · exact freshRest v later before

end Block

-- The rules a kernel obeys that is well formed.
structure Kernel.Scoped (kernel : Kernel α) : Prop where
  -- in the whole tree, the two blocks of a branch included
  once : kernel.body.assigned.Nodup
  counted : ∀ v ∈ kernel.body.assigned, v.index < kernel.counter
  visible : ∀ precedes s, kernel.body.Stands precedes s →
    ∀ v ∈ s.operands, ∃ before ∈ precedes, before.Defines v
  axes : ∀ dst axis, .instr (.define dst (.index axis)) ∈ kernel.body.statements →
    axis < kernel.domain.rank
  arguments : ∀ dst position, .instr (.define dst (.arg position)) ∈ kernel.body.statements →
    position < kernel.argCount

namespace Kernel

theorem Scoped.within {kernel : Kernel α} (rules : kernel.Scoped) {i : Instr α}
    (member : .instr i ∈ kernel.body.statements) : i.Within kernel.limits := by
  cases i with
  | define dst e =>
    refine ⟨?_, rules.counted dst (List.mem_filterMap.mpr ⟨_, member, rfl⟩)⟩
    cases e with
    | index axis => exact rules.axes dst axis member
    | arg position => exact rules.arguments dst position member
    | const | load | binary | unary | compare => trivial
  | store | readGrad | propagate | addGrad => trivial

-- The check of a kernel decides the scope rule.
theorem check_iff_scoped (kernel : Kernel α) : kernel.check = .ok () ↔ kernel.Scoped := by
  rw [check_ok]
  constructor
  · intro formed
    refine ⟨formed.assigned_nodup, fun v member => formed.assigned_lt member,
      fun precedes s stands v used => ?_, fun dst axis member => (formed.within member).1,
      fun dst position member => (formed.within member).1⟩
    exact (formed.sees stands v used).resolve_left List.not_mem_nil
  · intro rules
    exact Block.wellFormed_of_sees rules.once (fun v _ => List.not_mem_nil)
      (fun i member => rules.within member)
      fun precedes s stands v used => .inr (rules.visible precedes s stands v used)

end Kernel

end FieldKernel
