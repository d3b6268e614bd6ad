import FieldKernel.Proofs.Reverse.Cone

-- Cones of bodies that nobody has checked: a value may be defined twice, nowhere, or by itself.
namespace FieldKernel

variable {α : Type}

namespace Cone

-- The search as a loop: values seen before are passed over, so are those without a definition, and a
-- definition found puts its operands on the stack. It is over when the stack is empty.
inductive Walk (definitions : List (Definition α)) :
    List ValueId → List ValueId → List (Definition α) → Nat → Prop
  | done {seen} : Walk definitions seen [] [] 0
  | again {seen stack v found steps} (before : v ∈ seen) (rest : Walk definitions seen stack found steps) :
      Walk definitions seen (v :: stack) found (steps + 1)
  | undefined {seen stack v found steps} (first : v ∉ seen) (none_ : definitionOf? definitions v = none)
      (rest : Walk definitions (v :: seen) stack found steps) :
      Walk definitions seen (v :: stack) found (steps + 1)
  | visit {seen stack v d found steps} (first : v ∉ seen) (own : definitionOf? definitions v = some d)
      (rest : Walk definitions (v :: seen) (d.expr.operands ++ stack) found steps) :
      Walk definitions seen (v :: stack) (d :: found) (steps + 1)

theorem Walk.unique {definitions : List (Definition α)} {seen stack : List ValueId}
    {found found' : List (Definition α)} {steps steps' : Nat} (walk : Walk definitions seen stack found steps)
    (walk' : Walk definitions seen stack found' steps') : found = found' ∧ steps = steps' := by
  induction walk generalizing found' steps' with
  | done =>
    cases walk'
    exact ⟨rfl, rfl⟩
  | again before _ ih =>
    cases walk' with
    | again _ rest =>
      obtain ⟨rfl, rfl⟩ := ih rest
      exact ⟨rfl, rfl⟩
    | undefined first | visit first => exact absurd before first
  | undefined first none_ _ ih =>
    cases walk' with
    | again before => exact absurd before first
    | undefined _ _ rest =>
      obtain ⟨rfl, rfl⟩ := ih rest
      exact ⟨rfl, rfl⟩
    | visit _ own =>
      rw [none_] at own
      cases own
  | visit first own _ ih =>
    cases walk' with
    | again before => exact absurd before first
    | undefined _ none_ =>
      rw [none_] at own
      cases own
    | visit _ own' rest =>
      cases own.symm.trans own'
      obtain ⟨rfl, rfl⟩ := ih rest
      exact ⟨rfl, rfl⟩

def unseen (definitions : List (Definition α)) (seen : List ValueId) : List (Definition α) :=
  definitions.filter (·.dst ∉ seen)

theorem definitionOf?_unseen (definitions : List (Definition α)) (seen : List ValueId) (v : ValueId) :
    definitionOf? (unseen definitions seen) v = if v ∈ seen then none else definitionOf? definitions v := by
  unfold definitionOf? unseen
  rw [List.find?_filter]
  split
  · next before =>
    rw [List.find?_eq_none]
    intro d _ hit
    simp only [decide_eq_true_eq] at hit
    exact hit.1 (hit.2 ▸ before)
  · next first =>
    congr 1
    funext d
    by_cases hit : d.dst = v <;> simp [hit, first]

theorem unseen_cons (definitions : List (Definition α)) (seen : List ValueId) (v : ValueId) :
    unseen definitions (v :: seen) = without (unseen definitions seen) v := by
  unfold unseen without
  rw [List.filter_filter]
  congr 1
  funext d
  simp [not_or]

theorem without_undefined {definitions : List (Definition α)} {v : ValueId}
    (none_ : definitionOf? definitions v = none) : without definitions v = definitions := by
  refine List.filter_eq_self.mpr fun d member => ?_
  simpa using List.find?_eq_none.mp none_ d member

-- The stack may grow, but only by operands of definitions that are not looked at again.
theorem walk_reach {definitions : List (Definition α)} {seen stack : List ValueId} {fuel : Nat}
    (enough : stack.length + operandCount (unseen definitions seen) ≤ fuel) :
    ∃ steps ≤ fuel, Walk definitions seen stack (reach fuel (unseen definitions seen) stack) steps := by
  induction fuel generalizing seen stack with
  | zero =>
    cases List.length_eq_zero_iff.mp (by omega : stack.length = 0)
    exact ⟨0, Nat.le_refl 0, .done⟩
  | succ fuel ih =>
    cases stack with
    | nil => exact ⟨0, Nat.zero_le _, .done⟩
    | cons v stack =>
      rw [List.length_cons] at enough
      have looked : (unseen definitions seen).find? (·.dst = v) =
          if v ∈ seen then none else definitionOf? definitions v := definitionOf?_unseen definitions seen v
      rw [reach, looked]
      by_cases before : v ∈ seen
      · rw [if_pos before]
        obtain ⟨steps, few, walk⟩ := @ih seen stack (by omega)
        exact ⟨steps + 1, Nat.succ_le_succ few, .again before walk⟩
      · rw [if_neg before]
        cases found : definitionOf? definitions v with
        | none =>
          have same : unseen definitions (v :: seen) = unseen definitions seen := by
            rw [unseen_cons, without_undefined]
            rw [definitionOf?_unseen, if_neg before, found]
          obtain ⟨steps, few, walk⟩ := @ih (v :: seen) stack (by rw [same]; omega)
          rw [same] at walk
          exact ⟨steps + 1, Nat.succ_le_succ few, .undefined before found walk⟩
        | some d =>
          have room : d.expr.operands.length + operandCount (unseen definitions (v :: seen)) ≤
              operandCount (unseen definitions seen) := by
            rw [unseen_cons]
            apply operandCount_without
            rw [definitionOf?_unseen, if_neg before, found]
          obtain ⟨steps, few, walk⟩ := @ih (v :: seen) (d.expr.operands ++ stack)
            (by rw [List.length_append]; omega)
          rw [unseen_cons] at walk
          exact ⟨steps + 1, Nat.succ_le_succ few, .visit before found walk⟩

end Cone

theorem Statement.dst?_eq_definition (s : Statement α) : s.dst? = s.definition?.map (·.dst) := by
  cases s with
  | branch => rfl
  | instr i => cases i <;> rfl

namespace Block

variable {block : Block α} {v w : ValueId} {e : Expr α}

-- The last statement that defines a value, in preorder.
def Settles (block : Block α) (v : ValueId) (e : Expr α) : Prop :=
  ∃ before after, block.statements = before ++ .instr (.define v e) :: after ∧ ∀ s ∈ after, s.dst? ≠ some v

def Draws (block : Block α) (v w : ValueId) : Prop := ∃ e, block.Settles v e ∧ w ∈ e.operands

theorem definitionOf?_settles :
    definitionOf? block.definitionsBackward v = some ⟨v, e⟩ ↔ block.Settles v e := by
  rw [definitionOf?, List.find?_eq_some_iff_append, definitionsBackward]
  constructor
  · intro found
    obtain ⟨-, later, earlier, split, others⟩ := found
    rw [List.reverse_eq_append_iff, List.reverse_cons, List.append_assoc, List.filterMap_eq_append_iff] at split
    obtain ⟨before, rest, whole, -, split⟩ := split
    rw [List.singleton_append, List.filterMap_eq_cons_iff] at split
    obtain ⟨between, s, after, rfl, -, defines, behind⟩ := split
    refine ⟨before ++ between, after, ?_, fun t member again => ?_⟩
    · rw [whole, List.append_assoc]
      cases s with
      | branch => cases defines
      | instr i =>
        cases i with
        | define =>
          cases defines
          rfl
        | store | readGrad | propagate | addGrad => cases defines
    · rw [Statement.dst?_eq_definition, Option.map_eq_some_iff] at again
      obtain ⟨d, defined, same⟩ := again
      have listed : d ∈ later := by
        rw [← List.mem_reverse, ← behind]
        exact List.mem_filterMap.mpr ⟨t, member, defined⟩
      simpa [same] using others d listed
  · intro settles
    obtain ⟨before, after, whole, last⟩ := settles
    refine ⟨decide_eq_true rfl, (after.filterMap Statement.definition?).reverse,
      (before.filterMap Statement.definition?).reverse, ?_, fun d listed => ?_⟩
    · have here : (Statement.instr (.define v e)).definition? = some ⟨v, e⟩ := rfl
      rw [whole, List.filterMap_append, List.filterMap_cons, here, List.reverse_append, List.reverse_cons,
        List.append_assoc, List.singleton_append]
    · obtain ⟨s, member, defines⟩ := List.mem_filterMap.mp (List.mem_reverse.mp listed)
      have other := last s member
      rw [Statement.dst?_eq_definition, defines] at other
      simpa using other

theorem reaches_settles {d : Definition α} : Reaches block.definitionsBackward v d ↔
    Relation.ReflTransGen block.Draws v d.dst ∧ block.Settles d.dst d.expr := by
  constructor
  · intro reaches
    induction reaches with
    | here own =>
      cases definitionOf?_dst own
      exact ⟨.refl, definitionOf?_settles.mp own⟩
    | step own operand _ ih =>
      cases definitionOf?_dst own
      obtain ⟨further, settles⟩ := ih
      exact ⟨.head ⟨_, definitionOf?_settles.mp own, operand⟩ further, settles⟩
  · intro shown
    obtain ⟨path, settles⟩ := shown
    induction path using Relation.ReflTransGen.head_induction_on with
    | refl => exact .here (definitionOf?_settles.mpr settles)
    | head draws _ ih =>
      obtain ⟨e, own, operand⟩ := draws
      exact .step (definitionOf?_settles.mpr own) operand ih

end Block

-- The cone of a value in a kernel that nothing is asked of. The search ends, after no more steps than there
-- are operands and one more, and the fields found are those of the loads that define the value or what it is
-- drawn from.
theorem Kernel.cone_exact (kernel : Kernel α) (signatures : Signatures) (v : ValueId) :
    let definitions := (Activity.ofKernel kernel signatures).definitions
    (∃ steps ≤ Cone.operandCount definitions + 1, ∀ found n,
        Cone.Walk definitions [] [v] found n ↔ found = Cone.of definitions v ∧ n = steps) ∧
      ∀ field, (Cone.fields definitions v).contains field = true ↔
        ∃ w place, Relation.ReflTransGen kernel.body.Draws v w ∧ kernel.body.Settles w (.load place) ∧
          place.field = field := by
  intro definitions
  refine ⟨?_, fun field => ?_⟩
  · have all : Cone.unseen definitions [] = definitions := List.filter_eq_self.mpr fun _ _ => rfl
    obtain ⟨steps, few, walk⟩ := @Cone.walk_reach _ definitions [] [v] (Cone.operandCount definitions + 1)
      (by rw [all, List.length_singleton]; omega)
    rw [all] at walk
    refine ⟨steps, few, fun found n => ⟨fun other => other.unique walk, ?_⟩⟩
    rintro ⟨rfl, rfl⟩
    exact walk
  · rw [Cone.contains_fields]
    constructor
    · intro held
      obtain ⟨⟨w, e⟩, reaches, loads⟩ := held
      obtain ⟨path, settles⟩ := Block.reaches_settles.mp reaches
      cases e with
      | load place =>
        cases loads
        exact ⟨w, place, path, settles, rfl⟩
      | const | index | arg | binary | unary | compare => cases loads
    · intro shown
      obtain ⟨w, place, path, settles, rfl⟩ := shown
      exact ⟨⟨w, .load place⟩, Block.reaches_settles.mpr ⟨path, settles⟩, rfl⟩

-- A load that is its own index, through a value defined before it, and again after it.
example :
    let body : Block Nat := .instr (.define ⟨0⟩ (.load ⟨"x", [⟨1⟩]⟩)) <| .instr (.define ⟨1⟩ (.unary .neg ⟨0⟩)) <|
      .instr (.define ⟨0⟩ (.load ⟨"y", [⟨1⟩, ⟨7⟩]⟩)) .nil
    (Cone.fields body.definitionsBackward ⟨1⟩).names = ["y"] := by decide

end FieldKernel
