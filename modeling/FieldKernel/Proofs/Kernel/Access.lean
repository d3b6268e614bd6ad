import FieldKernel.Kernel.Access
import FieldKernel.Proofs.NameMap

-- The access sets of a block hold a field if and only if some statement of the block uses it so.
namespace FieldKernel

variable {α : Type}

inductive Use where
  | read | write | gradRead | gradWrite
  deriving DecidableEq

def Instr.use? : Instr α → Option (Use × String)
  | .define _ (.load place) => some (.read, place.field)
  | .define _ _ | .propagate _ _ _ => none
  | .store place _ => some (.write, place.field)
  | .readGrad _ place => some (.gradRead, place.field)
  | .addGrad place _ => some (.gradWrite, place.field)

def Block.Uses (block : Block α) (use : Use) (name : String) : Prop :=
  ∃ i, .instr i ∈ block.statements ∧ i.use? = some (use, name)

theorem Block.uses_of_place {block : Block α} {s : Statement α} (member : s ∈ block.statements)
    {place : Place} (addressed : s.place? = some place) : ∃ use, block.Uses use place.field := by
  cases s with
  | branch cond => cases addressed
  | instr i =>
    suffices ∃ use, i.use? = some (use, place.field) by
      obtain ⟨use, used⟩ := this
      exact ⟨use, i, member, used⟩
    cases i with
    | define dst e =>
      cases e with
      | load p =>
        cases addressed
        exact ⟨.read, rfl⟩
      | const | index | arg | binary | unary | compare => cases addressed
    | store p v =>
      cases addressed
      exact ⟨.write, rfl⟩
    | readGrad target p =>
      cases addressed
      exact ⟨.gradRead, rfl⟩
    | propagate => cases addressed
    | addGrad p source =>
      cases addressed
      exact ⟨.gradWrite, rfl⟩

theorem Block.onTrue_subset {cond : ValueId} {onTrue onFalse rest : Block α} :
    onTrue.statements ⊆ (Block.branch cond onTrue onFalse rest).statements :=
  fun s member => by simp [Block.statements, member]

theorem Block.onFalse_subset {cond : ValueId} {onTrue onFalse rest : Block α} :
    onFalse.statements ⊆ (Block.branch cond onTrue onFalse rest).statements :=
  fun s member => by simp [Block.statements, member]

theorem Block.rest_subset {cond : ValueId} {onTrue onFalse rest : Block α} :
    rest.statements ⊆ (Block.branch cond onTrue onFalse rest).statements :=
  fun s member => by simp [Block.statements, member]

theorem Instr.index_subset {i : Instr α} {place : Place} (addressed : i.place? = some place) :
    place.index ⊆ i.operands := by
  cases i with
  | define dst e =>
    cases e with
    | load =>
      cases addressed
      exact List.Subset.refl _
    | const | index | arg | binary | unary | compare => cases addressed
  | store | readGrad | addGrad =>
    cases addressed
    exact List.subset_append_left _ _
  | propagate => cases addressed

theorem Instr.place_of_grad {i : Instr α} {name : String}
    (used : i.use? = some (.gradRead, name) ∨ i.use? = some (.gradWrite, name)) :
    i.isPure = false ∧ ∃ place, i.place? = some place ∧ place.field = name := by
  cases i with
  | define dst e => cases e <;> rcases used with used | used <;> cases used
  | store place | propagate => rcases used with used | used <;> cases used
  | readGrad _ place | addGrad place =>
    rcases used with used | used <;> cases used
    exact ⟨rfl, place, rfl, rfl⟩

def Block.Addressed (block : Block α) (place : Place) : Prop := ∃ s ∈ block.statements, s.place? = some place

theorem Block.Uses.addressed {block : Block α} {use : Use} {name : String} (used : block.Uses use name) :
    ∃ place, block.Addressed place ∧ place.field = name := by
  obtain ⟨i, member, used⟩ := used
  suffices ∃ place, i.place? = some place ∧ place.field = name by
    obtain ⟨place, addressed, named⟩ := this
    exact ⟨place, ⟨.instr i, member, addressed⟩, named⟩
  cases i with
  | define dst e =>
    cases e with
    | load place =>
      cases used
      exact ⟨place, rfl, rfl⟩
    | const | index | arg | binary | unary | compare => cases used
  | store place | readGrad _ place | addGrad place =>
    cases used
    exact ⟨place, rfl, rfl⟩
  | propagate => cases used

def Use.instr (place : Place) (v : ValueId) : Use → Instr α
  | .read => .define v (.load place)
  | .write => .store place v
  | .gradRead => .readGrad v place
  | .gradWrite => .addGrad place v

theorem Instr.use?_iff {i : Instr α} {use : Use} {name : String} : i.use? = some (use, name) ↔
    ∃ place v, place.field = name ∧ i = use.instr place v := by
  constructor
  · intro used
    cases i with
    | define v e =>
      cases e with
      | load place =>
        cases used
        exact ⟨place, v, rfl, rfl⟩
      | const | index | arg | binary | unary | compare => cases used
    | store place v | readGrad v place | addGrad place v =>
      cases used
      exact ⟨place, v, rfl, rfl⟩
    | propagate => cases used
  · intro same
    obtain ⟨place, v, rfl, rfl⟩ := same
    cases use <;> rfl

theorem Block.uses_iff {block : Block α} {use : Use} {name : String} : block.Uses use name ↔
    ∃ place v, place.field = name ∧ .instr (use.instr place v) ∈ block.statements := by
  constructor
  · intro used
    obtain ⟨i, member, used⟩ := used
    obtain ⟨place, v, named, rfl⟩ := Instr.use?_iff.mp used
    exact ⟨place, v, named, member⟩
  · intro shown
    obtain ⟨place, v, named, member⟩ := shown
    exact ⟨_, member, Instr.use?_iff.mpr ⟨place, v, named, rfl⟩⟩

def Access.of (access : Access) : Use → NameSet
  | .read => access.reads
  | .write => access.writes
  | .gradRead => access.gradReads
  | .gradWrite => access.gradWrites

namespace Access

theorem contains_addInstr (access : Access) (i : Instr α) (use : Use) (name : String) :
    ((access.addInstr i).of use).contains name = true ↔
      i.use? = some (use, name) ∨ (access.of use).contains name = true := by
  cases i with
  | define dst e =>
    cases e with
    | load place => cases use <;> simp [addInstr, of, Instr.use?, eq_comm (a := name)]
    | _ => simp [addInstr, Instr.use?]
  | store place v => cases use <;> simp [addInstr, of, Instr.use?, eq_comm (a := name)]
  | readGrad target place => cases use <;> simp [addInstr, of, Instr.use?, eq_comm (a := name)]
  | propagate => simp [addInstr, Instr.use?]
  | addGrad place source => cases use <;> simp [addInstr, of, Instr.use?, eq_comm (a := name)]

theorem contains_fold (statements : List (Statement α)) (access : Access) (use : Use) (name : String) :
    ((statements.foldl addStatement access).of use).contains name = true ↔
      (∃ i, .instr i ∈ statements ∧ i.use? = some (use, name)) ∨ (access.of use).contains name = true := by
  induction statements generalizing access with
  | nil => simp
  | cons s rest ih =>
    rw [List.foldl_cons, ih]
    cases s with
    | instr i =>
      rw [addStatement, contains_addInstr]
      constructor
      · rintro (⟨j, later, uses⟩ | uses | old)
        · exact .inl ⟨j, List.mem_cons_of_mem _ later, uses⟩
        · exact .inl ⟨i, List.mem_cons_self, uses⟩
        · exact .inr old
      · rintro (⟨j, member, uses⟩ | old)
        · rcases List.mem_cons.mp member with same | later
          · cases same
            exact .inr (.inl uses)
          · exact .inl ⟨j, later, uses⟩
        · exact .inr (.inr old)
    | branch cond => simp [addStatement]

theorem contains_ofBlock {block : Block α} {use : Use} {name : String} :
    ((ofBlock block).of use).contains name = true ↔ block.Uses use name := by
  rw [ofBlock, contains_fold]
  simp [Block.Uses, empty, of]
  cases use <;> simp

theorem contains_gradientFields {access : Access} {name : String} :
    access.gradientFields.contains name = true ↔
      (access.of .gradRead).contains name = true ∨ (access.of .gradWrite).contains name = true := by
  simp [gradientFields, of]

theorem contains_allWrites {access : Access} {name : String} :
    access.allWrites.contains name = true ↔
      (access.of .write).contains name = true ∨ (access.of .gradWrite).contains name = true := by
  simp [allWrites, of]

theorem contains_fields {access : Access} {name : String} :
    access.fields.contains name = true ↔ ∃ use, (access.of use).contains name = true := by
  simp only [fields, NameSet.contains_union, Bool.or_eq_true, contains_gradientFields]
  constructor
  · rintro ((read | write) | (gradRead | gradWrite))
    · exact ⟨.read, read⟩
    · exact ⟨.write, write⟩
    · exact ⟨.gradRead, gradRead⟩
    · exact ⟨.gradWrite, gradWrite⟩
  · rintro ⟨use, used⟩
    cases use with
    | read => exact .inl (.inl used)
    | write => exact .inl (.inr used)
    | gradRead => exact .inr (.inl used)
    | gradWrite => exact .inr (.inr used)

end Access

end FieldKernel
