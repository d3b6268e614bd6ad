import FieldKernel.Proofs.Execution.Renaming
import FieldKernel.Proofs.Reverse.Numbering

-- Kernels that print alike but number fresh values from other counters on.
namespace FieldKernel

variable {α : Type}

-- Values below both counters keep their names; those from the counters on correspond in order.
inductive Renumbered (n n' : Nat) : ValueId → ValueId → Prop
  | old {v : ValueId} (below : v.index < n) (below' : v.index < n') : Renumbered n n' v v
  | new (j : Nat) : Renumbered n n' ⟨n + j⟩ ⟨n' + j⟩

namespace Renumbered

variable {n n' : Nat} {v w : ValueId}

theorem ne_new (below : v.index < n) (j : Nat) : v ≠ ⟨n + j⟩ := by
  rintro rfl
  exact Nat.not_lt.mpr (Nat.le_add_right n j) below

theorem oneToOne (n n' : Nat) : OneToOne (Renumbered n n') := by
  intro v w v' w' left right
  cases left with
  | old below below' =>
    cases right with
    | old => exact Iff.rfl
    | new j => exact iff_of_false (ne_new below j) (ne_new below' j)
  | new i =>
    cases right with
    | old below below' => exact iff_of_false (ne_new below i).symm (ne_new below' i).symm
    | new j => simp only [ValueId.mk.injEq, Nat.add_left_cancel_iff]

theorem level (renumbered : Renumbered n n' v w) (l : Nat) : v.index < n + l ↔ w.index < n' + l := by
  cases renumbered with
  | old below below' => omega
  | new j => exact (Nat.add_lt_add_iff_left).trans Nat.add_lt_add_iff_left.symm

theorem fixed (renumbered : Renumbered n n' v w) (below : v.index < n) : w = v := by
  cases renumbered with
  | old => rfl
  | new j => exact absurd below (Nat.not_lt.mpr (Nat.le_add_right n j))

end Renumbered

namespace Fresh

variable {β γ β' γ' : Type} {n n' : Nat} {Q : β → γ → Prop} {P : β' → γ' → Prop}

-- Computations that coincide wherever they are started with equally many fresh values given out, and
-- give out equally many more.
def Parallel (n n' : Nat) (Q : β → γ → Prop) (x : Fresh β) (y : Fresh γ) : Prop :=
  ∀ l, Coincide (fun p q => Q p.1 q.1 ∧ ∃ l', p.2 = n + l' ∧ q.2 = n' + l') (x.run (n + l)) (y.run (n' + l))

theorem parallel_pure {b : β} {c : γ} (related : Q b c) : Parallel n n' Q (pure b) (pure c) :=
  fun l => .ok ⟨related, l, rfl, rfl⟩

theorem parallel_throw (e : KernelFault) : Parallel n n' Q (throw e) (throw e) := fun _ => .error e

theorem parallel_lift (x : Except KernelFault β) : Parallel n n' Eq (liftM x) (liftM x) := fun l =>
  match x with
  | .error e => .error e
  | .ok _ => .ok ⟨rfl, l, rfl, rfl⟩

theorem parallel_bind {x : Fresh β} {y : Fresh γ} {f : β → Fresh β'} {g : γ → Fresh γ'}
    (first : Parallel n n' Q x y) (second : ∀ b c, Q b c → Parallel n n' P (f b) (g c)) :
    Parallel n n' P (x >>= f) (y >>= g) := by
  refine fun l => (first l).bind fun p q met => ?_
  obtain ⟨b, _⟩ := p
  obtain ⟨c, _⟩ := q
  obtain ⟨related, l', rfl, rfl⟩ := met
  exact second b c related l'

end Fresh

namespace Block

variable {R : ValueId → ValueId → Prop} {a b a' b' : Block α}

theorem Renamed.append (left : a.Renamed R b) (right : a'.Renamed R b') : (a ++ a').Renamed R (b ++ b') := by
  induction left with
  | nil => exact right
  | instr first _ ih => exact .instr first ih
  | branch cond onTrue onFalse _ _ _ ih => exact .branch cond onTrue onFalse ih

theorem Renamed.isEmpty (renamed : a.Renamed R b) : b.isEmpty = a.isEmpty := by
  cases renamed with
  | nil | instr | branch => rfl

theorem renamed_ofInstrs {is js : List (Instr α)} (renamed : List.Forall₂ (Instr.Renamed R) is js) :
    (ofInstrs is).Renamed R (ofInstrs js) := by
  induction renamed with
  | nil => exact .nil
  | cons first _ ih => exact .instr first ih

theorem Renamed.definitions (renamed : a.Renamed R b) : a.definitions.Renamed R b.definitions := by
  induction renamed with
  | nil => exact .nil
  | instr first _ ih =>
    cases first with
    | define dst expr => exact .instr (.define dst expr) ih
    | store | readGrad | propagate | addGrad => exact ih
  | branch _ _ _ _ _ _ ih => exact ih

end Block

namespace Reversal

open Fresh

def Recoded (n n' : Nat) : List (Instr α) → List (Instr α) → Prop :=
  List.Forall₂ (Instr.Renamed (Renumbered n n'))

structure Refactored (n n' : Nat) (p q : ValueId × List (Instr α)) : Prop where
  value : Renumbered n n' p.1 q.1
  code : Recoded n n' p.2 q.2

variable {n n' : Nat}

theorem parallel_temp {e e' : Expr α} (renamed : e.Renamed (Renumbered n n') e') :
    Parallel n n' (Refactored n n') (temp e) (temp e') := fun l =>
  .ok ⟨⟨.new l, .cons (.define (.new l) renamed) .nil⟩, l + 1, rfl, rfl⟩

theorem parallel_given {v : ValueId} (own : Renumbered n n' v v) :
    Parallel n n' (Refactored n n') (given v : Fresh (ValueId × List (Instr α))) (given v) :=
  parallel_pure ⟨own, .nil⟩

theorem parallel_andThen {x y : Fresh (ValueId × List (Instr α))}
    {f g : ValueId → Fresh (ValueId × List (Instr α))} (first : Parallel n n' (Refactored n n') x y)
    (second : ∀ v w, Renumbered n n' v w → Parallel n n' (Refactored n n') (f v) (g w)) :
    Parallel n n' (Refactored n n') (andThen x f) (andThen y g) := by
  refine parallel_bind first fun p q before => ?_
  refine parallel_bind (second p.1 q.1 before.value) fun p' q' after => parallel_pure ?_
  exact ⟨after.value, List.rel_append before.code after.code⟩

theorem parallel_both {x y : Fresh (List (Instr α))} (left : Parallel n n' (Recoded n n') x x)
    (right : Parallel n n' (Recoded n n') y y) :
    Parallel n n' (Recoded n n') (do return (← x) ++ (← y)) (do return (← x) ++ (← y)) :=
  parallel_bind left fun _ _ before => parallel_bind right fun _ _ after =>
    parallel_pure (List.rel_append before after)

theorem parallel_none :
    Parallel n n' (Recoded n n') (return [] : Fresh (List (Instr α))) (return []) := parallel_pure .nil

theorem parallel_one {i : Instr α} (own : i.Renamed (Renumbered n n') i) :
    Parallel n n' (Recoded n n') (return [i] : Fresh (List (Instr α))) (return [i]) :=
  parallel_pure (.cons own .nil)

theorem parallel_when {needed : Bool} {code : Fresh (List (Instr α))}
    (parallel : Parallel n n' (Recoded n n') code code) :
    Parallel n n' (Recoded n n') (when needed code) (when needed code) := by
  cases needed with
  | true => exact parallel
  | false => exact parallel_none

variable {r : Reversal α}

theorem parallel_guarded {vs : List ValueId} {code : Fresh (List (Instr α))}
    (parallel : Parallel n n' (Recoded n n') code code) :
    Parallel n n' (Recoded n n') (do r.primals vs; code) (do r.primals vs; code) :=
  parallel_bind (parallel_lift _) fun _ _ _ => parallel

theorem parallel_scaled {target source : ValueId} {needed : List ValueId}
    {factor : Fresh (ValueId × List (Instr α))} (ownTarget : Renumbered n n' target target)
    (ownSource : Renumbered n n' source source)
    (parallel : Parallel n n' (Refactored n n') factor factor) :
    Parallel n n' (Recoded n n') (r.scaled target source needed factor)
      (r.scaled target source needed factor) := by
  refine parallel_bind (parallel_lift _) fun _ _ _ => parallel_bind parallel fun p q factors => ?_
  refine parallel_pure (List.rel_append factors.code (.cons ?_ .nil))
  exact .propagate ownTarget ownSource (.value factors.value)

variable [Scalar α] {dst lhs rhs operand : ValueId}

theorem parallel_reciprocal {b : ValueId} (own : Renumbered n n' b b) :
    Parallel n n' (Refactored n n') (reciprocal b : Fresh (ValueId × List (Instr α))) (reciprocal b) := by
  rw [reciprocal_eq]
  exact parallel_andThen (parallel_temp (.const _)) fun _ _ one => parallel_temp (.binary one own)

theorem parallel_binary (op : BinaryOp) (result : Renumbered n n' dst dst)
    (left : Renumbered n n' lhs lhs) (right : Renumbered n n' rhs rhs) :
    Parallel n n' (Recoded n n') (r.binary dst op lhs rhs) (r.binary dst op lhs rhs) := by
  cases op with
  | add =>
    exact parallel_both (parallel_when (parallel_one (.propagate left result .one)))
      (parallel_when (parallel_one (.propagate right result .one)))
  | sub =>
    exact parallel_both (parallel_when (parallel_one (.propagate left result .one)))
      (parallel_when (parallel_one (.propagate right result .minusOne)))
  | mul =>
    exact parallel_both (parallel_when (parallel_scaled left result (parallel_given right)))
      (parallel_when (parallel_scaled right result (parallel_given left)))
  | div =>
    have quotient : Parallel n n' (Refactored n n')
        (quotientByDivisor dst rhs : Fresh (ValueId × List (Instr α))) (quotientByDivisor dst rhs) := by
      rw [quotientByDivisor_eq]
      exact parallel_andThen (parallel_temp (.binary result right)) fun _ _ t => parallel_temp (.unary t)
    exact parallel_both (parallel_when (parallel_scaled left result (parallel_reciprocal right)))
      (parallel_when (parallel_scaled right result quotient))
  | pow =>
    have byBase : Parallel n n' (Refactored n n')
        (powerByBase lhs rhs : Fresh (ValueId × List (Instr α))) (powerByBase lhs rhs) := by
      rw [powerByBase_eq]
      refine parallel_andThen (parallel_andThen (parallel_andThen (parallel_temp (.const _))
        fun _ _ one => parallel_temp (.binary right one)) fun _ _ b1 => parallel_temp (.binary left b1)) ?_
      exact fun _ _ p => parallel_temp (.binary right p)
    have byExponent : Parallel n n' (Refactored n n')
        (powerByExponent lhs dst : Fresh (ValueId × List (Instr α))) (powerByExponent lhs dst) := by
      rw [powerByExponent_eq]
      exact parallel_andThen (parallel_temp (.unary left)) fun _ _ ln => parallel_temp (.binary result ln)
    exact parallel_both (parallel_when (parallel_scaled left result byBase))
      (parallel_when (parallel_scaled right result byExponent))
  | max | min =>
    refine parallel_guarded (parallel_both (parallel_when ?_) (parallel_when ?_))
    · exact parallel_scaled left result (parallel_temp (.compare left right))
    · exact parallel_scaled right result (parallel_temp (.compare left right))
  | mod | floorDiv => exact parallel_throw _

theorem parallel_unary (op : UnaryOp) (result : Renumbered n n' dst dst)
    (own : Renumbered n n' operand operand) :
    Parallel n n' (Recoded n n') (r.unary dst op operand) (r.unary dst op operand) := by
  cases op with
  | neg => exact parallel_one (.propagate own result .minusOne)
  | sin | abs => exact parallel_scaled own result (parallel_temp (.unary own))
  | cos =>
    refine parallel_scaled own result ?_
    rw [negatedSine_eq]
    exact parallel_andThen (parallel_temp (.unary own)) fun _ _ s => parallel_temp (.unary s)
  | exp => exact parallel_scaled own result (parallel_given result)
  | log => exact parallel_scaled own result (parallel_reciprocal own)
  | sqrt =>
    refine parallel_scaled own result ?_
    rw [halfByRoot_eq]
    exact parallel_andThen (parallel_temp (.const _)) fun _ _ half => parallel_temp (.binary half result)
  | tanh =>
    refine parallel_scaled own result ?_
    rw [oneLessSquare_eq]
    refine parallel_andThen (parallel_temp (.binary result result)) fun _ _ square => ?_
    exact parallel_andThen (parallel_temp (.const _)) fun _ _ one => parallel_temp (.binary one square)
  | sgn => exact parallel_none

theorem parallel_instr {i : Instr α} (own : i.Renamed (Renumbered n n') i) :
    Parallel n n' (Recoded n n') (r.instr i) (r.instr i) := by
  cases own with
  | define dst expr =>
    refine parallel_when ?_
    cases expr with
    | load place => exact parallel_guarded (parallel_one (.addGrad place dst))
    | binary lhs rhs => exact parallel_binary _ dst lhs rhs
    | unary operand => exact parallel_unary _ dst operand
    | const | index | arg | compare => exact parallel_none
  | store place value => exact parallel_when (parallel_guarded (parallel_one (.readGrad value place)))
  | readGrad | propagate | addGrad => exact parallel_throw _

omit [Scalar α] in
theorem withPrimals_renamed {block inA inB : Block α} (own : block.Renamed (Renumbered n n') block)
    (renamed : inA.Renamed (Renumbered n n') inB) :
    (withPrimals block inA).Renamed (Renumbered n n') (withPrimals block inB) := by
  unfold withPrimals
  rw [renamed.isEmpty]
  split
  · exact .nil
  · exact own.definitions.append renamed

omit [Scalar α] in
theorem branchRule_renamed {v w : ValueId} {inTrue inTrue' inFalse inFalse' : Block α}
    (cond : Renumbered n n' v w) (onTrue : inTrue.Renamed (Renumbered n n') inTrue')
    (onFalse : inFalse.Renamed (Renumbered n n') inFalse') :
    (branchRule v inTrue inFalse).Renamed (Renumbered n n') (branchRule w inTrue' inFalse') := by
  unfold branchRule
  rw [onTrue.isEmpty, onFalse.isEmpty]
  split
  · exact .nil
  · exact .branch cond onTrue onFalse .nil

theorem parallel_rules {block : Block α} (own : block.Renamed (Renumbered n n') block) :
    Parallel n n' (Block.Renamed (Renumbered n n')) (r.rules block) (r.rules block) := by
  induction block with
  | nil => exact parallel_pure .nil
  | instr i rest ih =>
    cases own with
    | instr first others =>
      refine parallel_bind (ih others) fun _ _ later => parallel_bind (parallel_instr first) fun _ _ here => ?_
      exact parallel_pure (later.append (Block.renamed_ofInstrs here))
  | branch cond onTrue onFalse rest ihTrue ihFalse ihRest =>
    cases own with
    | branch condition ownTrue ownFalse others =>
      refine parallel_bind (ihRest others) fun _ _ later => parallel_bind (ihTrue ownTrue) fun _ _ inTrue => ?_
      refine parallel_bind (ihFalse ownFalse) fun _ _ inFalse => parallel_pure (later.append ?_)
      exact branchRule_renamed condition (withPrimals_renamed ownTrue inTrue)
        (withPrimals_renamed ownFalse inFalse)

section Kernel

-- Of the kernel, rules depend on the name only.
variable (r : Reversal α) {kernel : Kernel α} (name : kernel.name = r.kernel.name)
include name

omit [Scalar α] in
theorem primals_kernel : primals { r with kernel := kernel } = r.primals := by
  funext vs
  induction vs with
  | nil => rfl
  | cons v vs ih => rw [primals, primals, ih, primal, primal, name]

theorem instr_kernel : instr { r with kernel := kernel } = r.instr := by
  have primals := r.primals_kernel name
  funext i
  cases i with
  | define dst e =>
    cases e with
    | binary op lhs rhs => cases op <;> simp only [instr, expr, binary, scaled, noRule, primals, name]
    | unary op operand => cases op <;> simp only [instr, expr, unary, scaled, primals]
    | load => simp only [instr, expr, primals]
    | const | index | arg | compare => rfl
  | store => simp only [instr, primals]
  | readGrad | propagate | addGrad => simp only [instr, name]

theorem rules_kernel : rules { r with kernel := kernel } = r.rules := by
  funext block
  induction block with
  | nil => rfl
  | instr i rest ih => rw [rules, rules, ih, r.instr_kernel name]
  | branch cond onTrue onFalse rest ihTrue ihFalse ihRest => rw [rules, rules, ihTrue, ihFalse, ihRest]

end Kernel

end Reversal

theorem Block.Addressed.index_named {block : Block α} {place : Place} (addressed : block.Addressed place) :
    place.index ⊆ block.named := by
  intro v coordinate
  obtain ⟨s, member, here⟩ := addressed
  cases s with
  | branch cond => cases here
  | instr i =>
    have read : v ∈ i.operands := Instr.index_subset here coordinate
    exact List.mem_flatMap.mpr ⟨.instr i, member, List.mem_append_right _ read⟩

namespace Kernel

variable [Scalar α] {a b : Kernel α}

theorem Alike.rules_parallel (alike : a.Alike b) (signatures : Signatures)
    (own : a.body.Renamed (Renumbered a.counter b.counter) a.body) :
    Fresh.Parallel a.counter b.counter (Block.Renamed (Renumbered a.counter b.counter))
      ((a.reversal signatures).rules a.body) ((b.reversal signatures).rules b.body) := by
  have rules : (b.reversal signatures).rules = (a.reversal signatures).rules := by
    rw [reversal, Activity.ofKernel, alike.body]
    exact (a.reversal signatures).rules_kernel alike.name
  rw [rules, alike.body]
  exact Reversal.parallel_rules own

omit [Scalar α] in
theorem Alike.body_renamed (alike : a.Alike b) (left : a.check = .ok ()) (right : b.check = .ok ()) :
    a.body.Renamed (Renumbered a.counter b.counter) a.body :=
  Block.renamed_refl fun _ member =>
    .old ((check_ok.mp left).named_lt member) ((check_ok.mp right).named_lt (alike.body ▸ member))

-- Kernels that print alike are reversed to the same error, or to bodies that are the same under other names,
-- with as many fresh values from either counter on.
theorem Alike.backward_bodies (alike : a.Alike b) (signatures : Signatures)
    (own : a.body.Renamed (Renumbered a.counter b.counter) a.body) :
    Coincide (fun p q : Block α × Nat => p.1.Renamed (Renumbered a.counter b.counter) q.1 ∧
        ∃ l, p.2 = a.counter + l ∧ q.2 = b.counter + l)
      (a.backward signatures) (b.backward signatures) := by
  have forward : Coincide Eq a.forwardOnly b.forwardOnly := by
    rw [alike.forwardOnly]
    exact .refl _
  have pure : Coincide Eq (a.pureConditions (.ofKernel a signatures))
      (b.pureConditions (.ofKernel b signatures)) := by
    rw [pureConditions, pureConditions, Activity.ofKernel, Activity.ofKernel, alike.body, alike.name]
    exact .refl _
  refine forward.bind fun _ _ _ => pure.bind fun _ _ _ => ?_
  refine (alike.rules_parallel signatures own 0).bind fun p q met => ?_
  obtain ⟨renamed, counted⟩ := met
  rw [alike.body]
  exact .ok ⟨Reversal.withPrimals_renamed own renamed, counted⟩

omit [Scalar α] in
theorem Alike.renamed (alike : a.Alike b) (left : a.check = .ok ()) (right : b.check = .ok ()) :
    a.Renamed (Renumbered a.counter b.counter) b where
  name := alike.name
  domain := alike.domain
  argCount := alike.argCount
  body := by
    rw [alike.body]
    exact alike.body_renamed left right
  one := Renumbered.oneToOne _ _
  level := fun v w renumbered => renumbered.level 0
  fixes := fun place addressed v coordinate w renumbered =>
    renumbered.fixed ((check_ok.mp left).named_lt (addressed.index_named coordinate))

-- The kernels they are reversed to are the same under other names for the fresh values, if these have words.
theorem Alike.reverse_renamed (alike : a.Alike b) (left : a.check = .ok ()) (right : b.check = .ok ())
    (signatures : Signatures) :
    Coincide (fun gradA gradB => gradA.check = .ok () → gradB.check = .ok () →
        gradA.Renamed (Renumbered a.counter b.counter) gradB)
      (a.reverse signatures) (b.reverse signatures) := by
  have numbered := alike.backward_bodies signatures (alike.body_renamed left right)
  have outcomes : Coincide (fun _ _ => True) (a.reverse signatures) (b.reverse signatures) :=
    numbered.bind fun _ _ _ => .ok trivial
  refine outcomes.mono fun gradA gradB reversedA reversedB _ checkedA checkedB => ?_
  have plainA := reverse_plain left reversedA checkedA
  rw [plainA, reverse_plain right reversedB checkedB] at numbered
  obtain ⟨body, l, counterA, counterB⟩ := numbered.related
  obtain ⟨domainA, argsA⟩ := reverse_domain reversedA
  obtain ⟨domainB, argsB⟩ := reverse_domain reversedB
  refine ⟨?_, ?_, ?_, body, Renumbered.oneToOne _ _, ?_, ?_⟩
  · rw [reverse_name reversedA, reverse_name reversedB, alike.name]
  · rw [domainA, domainB, alike.domain]
  · rw [argsA, argsB, alike.argCount]
  · intro v w renumbered
    change _ < (gradA.body, gradA.counter.toNat).2 ↔ _ < (gradB.body, gradB.counter.toNat).2
    rw [counterA, counterB]
    exact renumbered.level l
  · intro place there v coordinate w renumbered
    have addressed : a.body.Addressed place := backward_addressed (counted_of_check left) plainA there
    exact renumbered.fixed ((check_ok.mp left).named_lt (addressed.index_named coordinate))

variable {δ : Type} [Digest δ]

theorem Alike.same_outcome (alike : a.Alike b) (left : a.check = .ok ()) (right : b.check = .ok ()) :
    Kernel.SameOutcome δ a b := fun args order table =>
  ((alike.renamed left right).outcome left right args order table).symm

theorem Alike.reverse_outcome (alike : a.Alike b) (left : a.check = .ok ()) (right : b.check = .ok ())
    (signatures : Signatures) :
    Coincide (fun gradA gradB => gradA.check = .ok () → gradB.check = .ok () → Kernel.SameOutcome δ gradA gradB)
      (a.reverse signatures) (b.reverse signatures) := by
  refine (alike.reverse_renamed left right signatures).mono fun gradA gradB _ _ renamed checkedA checkedB => ?_
  intro args order table
  exact ((renamed checkedA checkedB).outcome checkedA checkedB args order table).symm

end Kernel

end FieldKernel
