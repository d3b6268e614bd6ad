import Mathlib.Data.List.Nodup
import Mathlib.Logic.Relation
import FieldKernel.Reverse.Activity
import FieldKernel.Proofs.Kernel.Access
import FieldKernel.Proofs.Kernel.Scope
import FieldKernel.Proofs.NameMap

-- Cones hold exactly what can be reached from a value by going from a definition to its operands.
namespace FieldKernel

variable {α : Type}

def definitionOf? (definitions : List (Definition α)) (v : ValueId) : Option (Definition α) :=
  definitions.find? (·.dst = v)

-- A definition is reached from a value if it is the value's own or reached from one of its operands.
inductive Reaches (definitions : List (Definition α)) : ValueId → Definition α → Prop
  | here {v d} (own : definitionOf? definitions v = some d) : Reaches definitions v d
  | step {v d w e} (own : definitionOf? definitions v = some d) (operand : w ∈ d.expr.operands)
    (further : Reaches definitions w e) : Reaches definitions v e

theorem definitionOf?_dst {definitions : List (Definition α)} {v : ValueId} {d : Definition α}
    (own : definitionOf? definitions v = some d) : d.dst = v := by
  simpa using List.find?_some own

def without (definitions : List (Definition α)) (v : ValueId) : List (Definition α) :=
  definitions.filter (·.dst ≠ v)

theorem definitionOf?_without {definitions : List (Definition α)} {v w : ValueId} (other : w ≠ v) :
    definitionOf? (without definitions v) w = definitionOf? definitions w := by
  unfold definitionOf? without
  rw [List.find?_filter]
  congr 1
  funext d
  by_cases hit : d.dst = w
  · simp [hit, other]
  · simp [hit]

theorem definitionOf?_without_self (definitions : List (Definition α)) (v : ValueId) :
    definitionOf? (without definitions v) v = none := by
  unfold definitionOf? without
  rw [List.find?_eq_none]
  intro d member
  simpa using (List.mem_filter.mp member).2

theorem Reaches.of_without {definitions : List (Definition α)} {v w : ValueId} {d : Definition α}
    (reaches : Reaches (without definitions v) w d) : Reaches definitions w d := by
  induction reaches with
  | @here w d own =>
    by_cases same : w = v
    · rw [same, definitionOf?_without_self] at own
      cases own
    · exact .here (definitionOf?_without same ▸ own)
  | @step w d u e own operand _ ih =>
    by_cases same : w = v
    · rw [same, definitionOf?_without_self] at own
      cases own
    · exact .step (definitionOf?_without same ▸ own) operand ih

-- A path either avoids a value or goes through its definition, and after the last time it does so it
-- avoids the value.
theorem Reaches.avoid {definitions : List (Definition α)} {w : ValueId} {e : Definition α}
    (reaches : Reaches definitions w e) (v : ValueId) :
    Reaches (without definitions v) w e ∨ ∃ d, definitionOf? definitions v = some d ∧
      (e = d ∨ ∃ u ∈ d.expr.operands, Reaches (without definitions v) u e) := by
  induction reaches with
  | @here w d own =>
    by_cases same : w = v
    · exact .inr ⟨d, same ▸ own, .inl rfl⟩
    · exact .inl (.here ((definitionOf?_without same).trans own))
  | @step w d u e own operand _ ih =>
    rcases ih with avoids | through
    · by_cases same : w = v
      · exact .inr ⟨d, same ▸ own, .inr ⟨u, operand, avoids⟩⟩
      · exact .inl (.step ((definitionOf?_without same).trans own) operand avoids)
    · exact .inr through

namespace Cone

theorem operandCount_cons (d : Definition α) (definitions : List (Definition α)) :
    operandCount (d :: definitions) = d.expr.operands.length + operandCount definitions := rfl

theorem operandCount_without_le (definitions : List (Definition α)) (v : ValueId) :
    operandCount (without definitions v) ≤ operandCount definitions := by
  induction definitions with
  | nil => exact Nat.le_refl _
  | cons d rest ih =>
    unfold without at ih ⊢
    rw [List.filter_cons]
    split <;> simp only [operandCount_cons] <;> omega

theorem operandCount_without {definitions : List (Definition α)} {v : ValueId} {d : Definition α}
    (own : definitionOf? definitions v = some d) :
    d.expr.operands.length + operandCount (without definitions v) ≤ operandCount definitions := by
  induction definitions with
  | nil => cases own
  | cons head rest ih =>
    have shorter := operandCount_without_le rest v
    unfold definitionOf? at own ih
    unfold without at ih shorter ⊢
    by_cases hit : head.dst = v
    · simp only [List.find?_cons, hit, decide_true, Option.some.injEq] at own
      subst own
      rw [List.filter_cons_of_neg (by simp [hit])]
      simp only [operandCount_cons]
      omega
    · simp only [List.find?_cons, hit, decide_false] at own
      rw [List.filter_cons_of_pos (by simp [hit])]
      simp only [operandCount_cons]
      have := ih own
      omega

theorem reaches_of_mem_reach {fuel : Nat} {definitions : List (Definition α)} {stack : List ValueId}
    {e : Definition α} (member : e ∈ reach fuel definitions stack) :
    ∃ v ∈ stack, Reaches definitions v e := by
  induction fuel generalizing definitions stack with
  | zero => simp [reach] at member
  | succ fuel ih =>
    cases stack with
    | nil => simp [reach] at member
    | cons v stack =>
      rw [reach] at member
      split at member
      · obtain ⟨w, inStack, reaches⟩ := ih member
        exact ⟨w, List.mem_cons_of_mem _ inStack, reaches⟩
      · next d own =>
        rcases List.mem_cons.mp member with rfl | later
        · exact ⟨v, List.mem_cons_self, .here own⟩
        · obtain ⟨w, pending, reaches⟩ := ih later
          have reaches : Reaches definitions w e := Reaches.of_without reaches
          rcases List.mem_append.mp pending with operand | inStack
          · exact ⟨v, List.mem_cons_self, .step own operand reaches⟩
          · exact ⟨w, List.mem_cons_of_mem _ inStack, reaches⟩

theorem mem_reach_of_reaches {fuel : Nat} {definitions : List (Definition α)} {stack : List ValueId}
    (enough : stack.length + operandCount definitions ≤ fuel) {v : ValueId} (pending : v ∈ stack)
    {e : Definition α} (reaches : Reaches definitions v e) : e ∈ reach fuel definitions stack := by
  induction fuel generalizing definitions stack v with
  | zero =>
    have : stack = [] := List.length_eq_zero_iff.mp (by omega)
    simp [this] at pending
  | succ fuel ih =>
    cases stack with
    | nil => simp at pending
    | cons w stack =>
      simp only [List.length_cons] at enough
      rw [reach]
      split
      · next none_ =>
        rcases List.mem_cons.mp pending with rfl | inStack
        · have none_ : definitionOf? definitions v = none := none_
          cases reaches with
          | here own => rw [none_] at own; cases own
          | step own => rw [none_] at own; cases own
        · exact ih (by omega) inStack reaches
      · next d own =>
        have own : definitionOf? definitions w = some d := own
        have room := operandCount_without own
        have enough : (d.expr.operands ++ stack).length + operandCount (without definitions w) ≤ fuel := by
          rw [List.length_append]
          omega
        rcases reaches.avoid w with avoids | ⟨d', own', through⟩
        · rcases List.mem_cons.mp pending with rfl | inStack
          · cases avoids with
            | here own'' => rw [definitionOf?_without_self] at own''; cases own''
            | step own'' => rw [definitionOf?_without_self] at own''; cases own''
          · exact List.mem_cons_of_mem _ (ih enough (List.mem_append_right _ inStack) avoids)
        · cases own.symm.trans own'
          rcases through with rfl | ⟨u, operand, further⟩
          · exact List.mem_cons_self
          · exact List.mem_cons_of_mem _ (ih enough (List.mem_append_left _ operand) further)

theorem mem_of_iff {definitions : List (Definition α)} {v : ValueId} {e : Definition α} :
    e ∈ Cone.of definitions v ↔ Reaches definitions v e := by
  constructor
  · intro member
    obtain ⟨w, inStack, reaches⟩ := reaches_of_mem_reach member
    rwa [List.mem_singleton.mp inStack] at reaches
  · intro reaches
    exact mem_reach_of_reaches (by simp only [List.length_singleton]; omega) List.mem_cons_self reaches

theorem contains_fields {definitions : List (Definition α)} {v : ValueId} {field : String} :
    (fields definitions v).contains field = true ↔
      ∃ d, Reaches definitions v d ∧ d.loaded? = some field := by
  simp [fields, mem_of_iff]

end Cone

theorem Block.definitionOf?_backward {block : Block α} (distinct : block.assigned.Nodup)
    {dst : ValueId} {e : Expr α} (member : .instr (.define dst e) ∈ block.statements) :
    definitionOf? block.definitionsBackward dst = some ⟨dst, e⟩ := by
  have listed : (⟨dst, e⟩ : Definition α) ∈ block.definitionsBackward :=
    List.mem_reverse.mpr (List.mem_filterMap.mpr ⟨_, member, rfl⟩)
  have targets : block.definitionsBackward.map (·.dst) = block.assigned.reverse := by
    rw [definitionsBackward, List.map_reverse, List.map_filterMap, assigned]
    congr 2
    funext s
    cases s with
    | instr i => cases i <;> rfl
    | branch cond => rfl
  have distinct : (block.definitionsBackward.map (·.dst)).Nodup :=
    targets ▸ List.nodup_reverse.mpr distinct
  cases found : definitionOf? block.definitionsBackward dst with
  | none => simpa using List.find?_eq_none.mp found _ listed
  | some d =>
    have same := definitionOf?_dst found
    have := List.inj_on_of_nodup_map distinct (List.mem_of_find?_eq_some found) listed same
    rw [this]

namespace Activity

def Clean (activity : Activity α) (v : ValueId) : Prop := activity.overwrittenField? v = none

theorem clean_iff {activity : Activity α} {v : ValueId} :
    activity.Clean v ↔ ∀ d, Reaches activity.definitions v d → ∀ field, d.loaded? = some field →
      activity.written.contains field = false := by
  rw [Clean, overwrittenField?, NameSet.firstShared_eq_none_iff]
  simp only [Cone.contains_fields]
  exact ⟨fun h d reaches field loaded => h field ⟨d, reaches, loaded⟩,
    fun h field ⟨d, reaches, loaded⟩ => h d reaches field loaded⟩

theorem Clean.operand {activity : Activity α} {v w : ValueId} {d : Definition α}
    (clean : activity.Clean v) (own : definitionOf? activity.definitions v = some d)
    (operand : w ∈ d.expr.operands) : activity.Clean w :=
  clean_iff.mpr fun e reaches => clean_iff.mp clean e (.step own operand reaches)

theorem Clean.loaded {activity : Activity α} {v : ValueId} {place : Place}
    (clean : activity.Clean v) (own : definitionOf? activity.definitions v = some ⟨v, .load place⟩) :
    activity.written.contains place.field = false :=
  clean_iff.mp clean _ (.here own) place.field rfl

end Activity

def DependsOn (statements : List (Statement α)) : ValueId → ValueId → Prop :=
  Relation.ReflTransGen fun v w => ∃ e, .instr (.define v e) ∈ statements ∧ w ∈ e.operands

namespace Block

variable {block : Block α} {v : ValueId} {name : String}

def Rereads (block : Block α) (v : ValueId) (name : String) : Prop :=
  block.Uses .write name ∧ ∃ w place, DependsOn block.statements v w ∧
    .instr (.define w (.load place)) ∈ block.statements ∧ place.field = name

def RereadsFirst (block : Block α) (v : ValueId) (name : String) : Prop :=
  block.Rereads v name ∧ ∀ other < name, ¬block.Rereads v other

theorem mem_definitionsBackward {d : Definition α} (listed : d ∈ block.definitionsBackward) :
    .instr (.define d.dst d.expr) ∈ block.statements := by
  obtain ⟨s, member, defines⟩ := List.mem_filterMap.mp (List.mem_reverse.mp listed)
  cases s with
  | branch => cases defines
  | instr i =>
    cases i with
    | define =>
      cases defines
      exact member
    | store | readGrad | propagate | addGrad => cases defines

theorem reaches_iff (distinct : block.assigned.Nodup) {d : Definition α} :
    Reaches block.definitionsBackward v d ↔
      DependsOn block.statements v d.dst ∧ .instr (.define d.dst d.expr) ∈ block.statements := by
  constructor
  · intro reaches
    induction reaches with
    | here own =>
      refine ⟨?_, mem_definitionsBackward (List.mem_of_find?_eq_some own)⟩
      rw [definitionOf?_dst own]
      exact .refl
    | step own operand _ ih =>
      obtain ⟨further, member⟩ := ih
      refine ⟨.head ⟨_, ?_, operand⟩ further, member⟩
      rw [← definitionOf?_dst own]
      exact mem_definitionsBackward (List.mem_of_find?_eq_some own)
  · intro shown
    obtain ⟨depends, member⟩ := shown
    induction depends using Relation.ReflTransGen.head_induction_on with
    | refl => exact .here (definitionOf?_backward distinct member)
    | head step _ ih =>
      obtain ⟨e, defined, operand⟩ := step
      exact .step (definitionOf?_backward distinct defined) operand ih

end Block

namespace Activity

variable {kernel : Kernel α} {signatures : Signatures} {v : ValueId} {name : String}

theorem contains_written :
    (ofKernel kernel signatures).written.contains name = true ↔ kernel.body.Uses .write name := by
  have held : ((Access.ofBlock kernel.body).of .write).contains name = true ↔ kernel.body.Uses .write name :=
    Access.contains_ofBlock
  exact held

theorem shared_iff (checked : kernel.check = .ok ()) (signatures : Signatures) :
    ((Cone.fields (ofKernel kernel signatures).definitions v).contains name = true ∧
      (ofKernel kernel signatures).written.contains name = true) ↔ kernel.body.Rereads v name := by
  have distinct := (Kernel.check_ok.mp checked).assigned_nodup
  rw [Cone.contains_fields, contains_written, and_comm]
  refine and_congr_right fun _ => ?_
  constructor
  · intro shared
    obtain ⟨⟨w, e⟩, reaches, loads⟩ := shared
    obtain ⟨depends, member⟩ := (Block.reaches_iff distinct).mp reaches
    cases e with
    | load place =>
      cases loads
      exact ⟨w, place, depends, member, rfl⟩
    | const | index | arg | binary | unary | compare => cases loads
  · intro reread
    obtain ⟨w, place, depends, member, rfl⟩ := reread
    exact ⟨⟨w, .load place⟩, (Block.reaches_iff distinct).mpr ⟨depends, member⟩, rfl⟩

theorem overwrittenField?_eq_some_iff (checked : kernel.check = .ok ()) :
    (ofKernel kernel signatures).overwrittenField? v = some name ↔ kernel.body.RereadsFirst v name := by
  rw [overwrittenField?, NameSet.firstShared_eq_some_iff]
  simp only [shared_iff checked]
  rfl

theorem clean_iff_rereads (checked : kernel.check = .ok ()) :
    (ofKernel kernel signatures).Clean v ↔ ∀ name, ¬kernel.body.Rereads v name := by
  rw [Clean, overwrittenField?, NameSet.firstShared_eq_none_iff]
  simp only [← shared_iff checked signatures, not_and, Bool.not_eq_true]

end Activity

end FieldKernel
