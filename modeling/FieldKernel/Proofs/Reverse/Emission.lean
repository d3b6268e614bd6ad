import FieldKernel.Proofs.Kernel.Numbering
import FieldKernel.Proofs.Reverse.Rule

-- What the rules emit for a statement.
namespace FieldKernel

variable {α : Type}

namespace Block

-- Well-formed code that may read what is visible, and defines values of its own and values from `k` on.
structure Continues (limits : Limits) (visible own : List ValueId) (k k' : Nat) (code : Block α) :
    Prop where
  formed : code.WellFormed { limits with counter := k' } visible []
  fresh : ∀ v ∈ code.assigned, v ∈ own ∨ k ≤ v.index

def Addresses (places : Place → Prop) (code : Block α) : Prop :=
  ∀ s ∈ code.statements, ∀ place ∈ s.place?, places place

-- No number is given out and not used.
def Fills (k k' : Nat) (code : Block α) : Prop := ∀ j, k ≤ j → j < k' → ⟨j⟩ ∈ code.assigned

variable {limits : Limits} {visible visible' own own' : List ValueId} {places : Place → Prop}
  {k k₁ k' l : Nat} {a b code : Block α}

theorem continues_nil : (nil : Block α).Continues limits visible own k k' := ⟨trivial, nofun⟩

theorem Continues.mono (continues : code.Continues limits visible own k k') (seen : visible ⊆ visible')
    (more : own ⊆ own') (before : l ≤ k) : code.Continues limits visible' own' l k' where
  formed := continues.formed.mono seen (List.Subset.refl _)
  fresh := fun v member =>
    (continues.fresh v member).imp (fun inside => more inside) fun new => Nat.le_trans before new

theorem Continues.recount (continues : code.Continues limits visible own k k') (later : k' ≤ l) :
    code.Continues limits visible own k l where
  formed := continues.formed.recount fun _ member =>
    Nat.lt_of_lt_of_le (continues.formed.assigned_lt member) later
  fresh := continues.fresh

theorem Continues.followed (first : a.Continues limits visible own k k₁)
    (second : b.Continues limits (a.definitions.assigned ++ visible) own' k₁ k')
    (apart : ∀ v ∈ own', v.index < k ∧ v ∉ own) (grown : k ≤ k₁) (grown' : k₁ ≤ k') :
    (a ++ b).Continues limits visible (own ++ own') k k' where
  formed := by
    refine (first.recount grown').formed.followed (second.formed.apart (List.Subset.refl _) ?_)
    intro v later earlier
    rw [List.append_nil] at earlier
    have below : v.index < k₁ := first.formed.assigned_lt earlier
    rcases second.fresh v later with mine | new
    · obtain ⟨old, other⟩ := apart v mine
      rcases first.fresh v earlier with theirs | new
      · exact absurd theirs other
      · omega
    · omega
  fresh := by
    rw [assigned_append, List.forall_mem_append]
    refine ⟨fun v member => ?_, fun v member => ?_⟩
    · exact (first.fresh v member).imp (List.mem_append_left _) id
    · exact (second.fresh v member).imp (List.mem_append_right _) (Nat.le_trans grown)

theorem Continues.append (first : a.Continues limits visible own k k₁)
    (second : b.Continues limits visible own' k₁ k') (apart : ∀ v ∈ own', v.index < k ∧ v ∉ own)
    (grown : k ≤ k₁) (grown' : k₁ ≤ k') : (a ++ b).Continues limits visible (own ++ own') k k' :=
  first.followed (second.mono (List.subset_append_right _ _) (List.Subset.refl _) (Nat.le_refl _)) apart
    grown grown'

theorem fills_self : code.Fills k k := fun _ from_ below => absurd below (Nat.not_lt.mpr from_)

theorem Fills.append (first : a.Fills k k₁) (second : b.Fills k₁ k') : (a ++ b).Fills k k' := by
  intro j from_ below
  rw [assigned_append, List.mem_append]
  rcases Nat.lt_or_ge j k₁ with inside | later
  · exact .inl (first j from_ inside)
  · exact .inr (second j later below)

theorem addresses_nil : (nil : Block α).Addresses places := nofun

theorem addresses_append : (a ++ b).Addresses places ↔ a.Addresses places ∧ b.Addresses places := by
  simp only [Addresses, statements_append, List.forall_mem_append]

theorem addresses_single {i : Instr α} (inside : ∀ place ∈ i.place?, places place) :
    (ofInstrs [i]).Addresses places := by
  intro s member
  cases List.mem_singleton.mp member
  exact inside

end Block

def Expr.Alone : Expr α → Prop
  | .index _ | .arg _ | .load _ => False
  | .const _ | .binary _ _ _ | .unary _ _ | .compare _ _ _ => True

variable [Scalar α]

namespace Reversal

-- Code of factors, which leaves the factor in a value that may be read.
structure Computes (places : Place → Prop) (visible : List ValueId)
    (code : Fresh (ValueId × List (Instr α))) : Prop where
  grows : code.Grows
  continues : ∀ limits k v instrs k', code.run k = .ok ((v, instrs), k') →
    (Block.ofInstrs instrs).Continues limits visible [] k k'
  known : ∀ k v instrs k', code.run k = .ok ((v, instrs), k') →
    v ∈ (Block.ofInstrs instrs).definitions.assigned ++ visible
  addresses : ∀ k v instrs k', code.run k = .ok ((v, instrs), k') →
    (Block.ofInstrs instrs).Addresses places
  fills : ∀ k v instrs k', code.run k = .ok ((v, instrs), k') → (Block.ofInstrs instrs).Fills k k'

-- Rules, which move adjoints if there is anything to them.
structure Emits (places : Place → Prop) (visible : List ValueId) (code : Fresh (List (Instr α))) :
    Prop where
  grows : code.Grows
  continues : ∀ limits k instrs k', code.run k = .ok (instrs, k') →
    (Block.ofInstrs instrs).Continues limits visible [] k k'
  addresses : ∀ k instrs k', code.run k = .ok (instrs, k') → (Block.ofInstrs instrs).Addresses places
  moves : ∀ k instrs k', code.run k = .ok (instrs, k') →
    instrs = [] ∨ ∃ i ∈ instrs, i.isReverseOnly = true
  fills : ∀ k instrs k', code.run k = .ok (instrs, k') → (Block.ofInstrs instrs).Fills k k'

variable {places : Place → Prop} {visible : List ValueId} {r : Reversal α}

omit [Scalar α] in
theorem computes_temp {e : Expr α} (alone : e.Alone) (reads : ∀ v ∈ e.operands, v ∈ visible) :
    Computes places visible (temp e) where
  grows := temp_grows e
  continues := fun limits k v instrs k' ran => by
    cases ran
    have within : (e.Within { limits with counter := k + 1 }) := by
      cases e with
      | index | arg | load => cases alone
      | const | binary | unary | compare => trivial
    refine ⟨⟨reads, ⟨within, Nat.lt_succ_self k⟩, nofun, trivial⟩, fun w member => .inr ?_⟩
    cases List.mem_singleton.mp member
    exact Nat.le_refl k
  known := fun k v instrs k' ran => by
    cases ran
    exact List.mem_cons_self
  addresses := fun k v instrs k' ran => by
    cases ran
    refine Block.addresses_single fun place addressed => ?_
    cases e with
    | load => cases alone
    | const | index | arg | binary | unary | compare => cases addressed
  fills := fun k v instrs k' ran => by
    cases ran
    intro j from_ below
    cases Nat.le_antisymm (Nat.le_of_lt_succ below) from_
    exact List.mem_cons_self

omit [Scalar α] in
theorem computes_given {v : ValueId} (seen : v ∈ visible) :
    Computes places visible (given v : Fresh (ValueId × List (Instr α))) where
  grows := Fresh.grows_pure _
  continues := fun limits k w instrs k' ran => by
    cases ran
    exact Block.continues_nil
  known := fun k w instrs k' ran => by
    cases ran
    exact seen
  addresses := fun k w instrs k' ran => by
    cases ran
    exact Block.addresses_nil
  fills := fun k w instrs k' ran => by
    cases ran
    exact Block.fills_self

omit [Scalar α] in
theorem computes_andThen {first : Fresh (ValueId × List (Instr α))}
    {second : ValueId → Fresh (ValueId × List (Instr α))} (left : Computes places visible first)
    (right : ∀ v, Computes places (v :: visible) (second v)) :
    Computes places visible (andThen first second) := by
  refine ⟨andThen_grows left.grows fun v => (right v).grows, fun limits k w instrs k'' ran => ?_,
    fun k w instrs k'' ran => ?_, fun k w instrs k'' ran => ?_, fun k w instrs k'' ran => ?_⟩
  all_goals
    obtain ⟨⟨v, before⟩, k', ranFirst, rest⟩ := Fresh.run_bind_ok.mp ran
    obtain ⟨⟨w', after⟩, l, ranSecond, same⟩ := Fresh.run_bind_ok.mp rest
    cases same
    rw [Block.ofInstrs_append]
    have seen : v :: visible ⊆ (Block.ofInstrs before).definitions.assigned ++ visible :=
      List.cons_subset.mpr ⟨left.known _ _ _ _ ranFirst, List.subset_append_right _ _⟩
  · refine (left.continues limits _ _ _ _ ranFirst).followed ?_ nofun (left.grows _ _ _ ranFirst)
      ((right v).grows _ _ _ ranSecond)
    exact ((right v).continues limits _ _ _ _ ranSecond).mono seen (List.Subset.refl _) (Nat.le_refl _)
  · rw [Block.definitions_append, Block.assigned_append, List.mem_append, List.mem_append]
    rcases List.mem_append.mp ((right v).known _ _ _ _ ranSecond) with new | old
    · exact .inl (.inr new)
    · exact (List.mem_append.mp (seen old)).imp .inl id
  · exact Block.addresses_append.mpr
      ⟨left.addresses _ _ _ _ ranFirst, (right v).addresses _ _ _ _ ranSecond⟩
  · exact (left.fills _ _ _ _ ranFirst).append ((right v).fills _ _ _ _ ranSecond)

omit [Scalar α] in
theorem emits_none : Emits places visible (return [] : Fresh (List (Instr α))) := by
  refine ⟨Fresh.grows_pure _, fun limits k instrs k' ran => ?_, fun k instrs k' ran => ?_,
    fun k instrs k' ran => ?_, fun k instrs k' ran => ?_⟩
  all_goals cases ran
  · exact Block.continues_nil
  · exact Block.addresses_nil
  · exact .inl rfl
  · exact Block.fills_self

omit [Scalar α] in
theorem emits_one {i : Instr α} (only : i.isReverseOnly = true) (reads : ∀ v ∈ i.operands, v ∈ visible)
    (inside : ∀ place ∈ i.place?, places place) :
    Emits places visible (return [i] : Fresh (List (Instr α))) := by
  refine ⟨Fresh.grows_pure _, fun limits k instrs k' ran => ?_, fun k instrs k' ran => ?_,
    fun k instrs k' ran => ?_, fun k instrs k' ran => ?_⟩
  all_goals cases ran
  · cases i with
    | define | store => cases only
    | readGrad | propagate | addGrad => exact ⟨⟨reads, trivial, nofun, trivial⟩, nofun⟩
  · exact Block.addresses_single inside
  · exact .inr ⟨i, List.mem_singleton_self i, only⟩
  · exact Block.fills_self

omit [Scalar α] in
theorem emits_when {needed : Bool} {code : Fresh (List (Instr α))}
    (emits : needed = true → Emits places visible code) : Emits places visible (when needed code) := by
  cases needed with
  | true => exact emits rfl
  | false => exact emits_none

omit [Scalar α] in
theorem emits_guarded {vs : List ValueId} {code : Fresh (List (Instr α))} (grows : code.Grows)
    (emits : (∀ v ∈ vs, r.activity.Clean v) → Emits places visible code) :
    Emits places visible (do r.primals vs; code) := by
  refine ⟨guarded_grows grows, fun limits k instrs k' ran => ?_, fun k instrs k' ran => ?_,
    fun k instrs k' ran => ?_, fun k instrs k' ran => ?_⟩
  all_goals
    obtain ⟨_, l, guarded, rest⟩ := Fresh.run_bind_ok.mp ran
    obtain ⟨clean, rfl⟩ := Fresh.run_lift_ok.mp guarded
    have emits := emits (primals_ok.mp clean)
  · exact emits.continues limits _ instrs k' rest
  · exact emits.addresses _ instrs k' rest
  · exact emits.moves _ instrs k' rest
  · exact emits.fills _ instrs k' rest

omit [Scalar α] in
theorem emits_both {first second : Fresh (List (Instr α))} (left : Emits places visible first)
    (right : Emits places visible second) :
    Emits places visible (do return (← first) ++ (← second)) := by
  refine ⟨both_grows left.grows right.grows, fun limits k instrs k'' ran => ?_,
    fun k instrs k'' ran => ?_, fun k instrs k'' ran => ?_, fun k instrs k'' ran => ?_⟩
  all_goals
    obtain ⟨a, k', ranFirst, rest⟩ := Fresh.run_bind_ok.mp ran
    obtain ⟨b, l, ranSecond, same⟩ := Fresh.run_bind_ok.mp rest
    obtain ⟨rfl, rfl⟩ := Fresh.run_pure_ok.mp same
  · rw [Block.ofInstrs_append]
    exact (left.continues limits _ _ _ ranFirst).append (right.continues limits _ _ _ ranSecond) nofun
      (left.grows _ _ _ ranFirst) (right.grows _ _ _ ranSecond)
  · rw [Block.ofInstrs_append]
    exact Block.addresses_append.mpr ⟨left.addresses _ _ _ ranFirst, right.addresses _ _ _ ranSecond⟩
  · rcases left.moves _ _ _ ranFirst with rfl | ⟨i, member, only⟩
    · exact right.moves _ _ _ ranSecond
    · exact .inr ⟨i, List.mem_append_left _ member, only⟩
  · rw [Block.ofInstrs_append]
    exact (left.fills _ _ _ ranFirst).append (right.fills _ _ _ ranSecond)

omit [Scalar α] in
theorem emits_scaled {target source : ValueId} {needed : List ValueId}
    {factor : Fresh (ValueId × List (Instr α))} (inTarget : target ∈ visible) (inSource : source ∈ visible)
    (computes : Computes places visible factor) :
    Emits places visible (r.scaled target source needed factor) := by
  refine ⟨scaled_grows computes.grows, fun limits k instrs k' ran => ?_, fun k instrs k' ran => ?_,
    fun k instrs k' ran => ?_, fun k instrs k' ran => ?_⟩
  all_goals
    obtain ⟨_, l, guarded, rest⟩ := Fresh.run_bind_ok.mp ran
    obtain ⟨-, rfl⟩ := Fresh.run_lift_ok.mp guarded
    obtain ⟨⟨v, before⟩, l', ranFactor, same⟩ := Fresh.run_bind_ok.mp rest
    obtain ⟨rfl, rfl⟩ := Fresh.run_pure_ok.mp same
  · rw [Block.ofInstrs_append]
    refine (computes.continues limits _ _ _ _ ranFactor).followed ?_ (List.forall_mem_nil _)
      (computes.grows _ _ _ ranFactor) (Nat.le_refl _)
    refine ⟨⟨?_, trivial, fun _ absent => absurd absent (Option.not_mem_none _), trivial⟩, List.forall_mem_nil _⟩
    intro w used
    simp only [Instr.operands, Scale.operands, List.cons_append, List.nil_append, List.mem_cons,
      List.not_mem_nil, or_false] at used
    rcases used with rfl | rfl | rfl
    · exact List.mem_append_right _ inTarget
    · exact List.mem_append_right _ inSource
    · exact computes.known _ _ _ _ ranFactor
  · rw [Block.ofInstrs_append]
    exact Block.addresses_append.mpr ⟨computes.addresses _ _ _ _ ranFactor,
      Block.addresses_single fun _ absent => absurd absent (Option.not_mem_none _)⟩
  · exact .inr ⟨_, List.mem_append_right _ (List.mem_singleton_self _), rfl⟩
  · rw [Block.ofInstrs_append]
    exact (computes.fills _ _ _ _ ranFactor).append Block.fills_self

-- The code of every factor is a chain of temporaries.
omit [Scalar α] in
theorem computes_two {e : Expr α} {f : ValueId → Expr α} (alone : e.Alone) (alone' : ∀ v, (f v).Alone)
    (reads : ∀ v ∈ e.operands, v ∈ visible) (reads' : ∀ v, ∀ w ∈ (f v).operands, w = v ∨ w ∈ visible) :
    Computes places visible (andThen (temp e) fun v => temp (f v)) :=
  computes_andThen (computes_temp alone reads) fun v =>
    computes_temp (alone' v) fun w used => List.mem_cons.mpr (reads' v w used)

theorem computes_reciprocal {b : ValueId} (seen : b ∈ visible) :
    Computes places visible (reciprocal b : Fresh (ValueId × List (Instr α))) := by
  rw [reciprocal_eq]
  refine computes_two trivial (fun _ => trivial) nofun fun one w used => ?_
  rcases List.mem_pair.mp used with rfl | rfl
  · exact .inl rfl
  · exact .inr seen

omit [Scalar α] in
theorem computes_quotientByDivisor {q b : ValueId} (quotient : q ∈ visible) (divisor : b ∈ visible) :
    Computes places visible (quotientByDivisor q b : Fresh (ValueId × List (Instr α))) := by
  refine computes_two trivial (fun _ => trivial) ?_ ?_
  all_goals simp [Expr.operands, quotient, divisor]

theorem computes_powerByBase {a b : ValueId} (base : a ∈ visible) (exponent : b ∈ visible) :
    Computes places visible (powerByBase a b : Fresh (ValueId × List (Instr α))) := by
  rw [powerByBase_eq]
  refine computes_andThen (computes_andThen (computes_two trivial (fun _ => trivial) nofun ?_)
    fun b1 => computes_temp trivial ?_) fun p => computes_temp trivial ?_
  all_goals simp [Expr.operands, base, exponent]

omit [Scalar α] in
theorem computes_powerByExponent {a y : ValueId} (base : a ∈ visible) (power : y ∈ visible) :
    Computes places visible (powerByExponent a y : Fresh (ValueId × List (Instr α))) := by
  refine computes_two trivial (fun _ => trivial) ?_ ?_
  all_goals simp [Expr.operands, base, power]

omit [Scalar α] in
theorem computes_negatedSine {a : ValueId} (seen : a ∈ visible) :
    Computes places visible (negatedSine a : Fresh (ValueId × List (Instr α))) := by
  refine computes_two trivial (fun _ => trivial) ?_ ?_
  all_goals simp [Expr.operands, seen]

theorem computes_halfByRoot {y : ValueId} (seen : y ∈ visible) :
    Computes places visible (halfByRoot y : Fresh (ValueId × List (Instr α))) := by
  rw [halfByRoot_eq]
  refine computes_two trivial (fun _ => trivial) (List.forall_mem_nil _) ?_
  simp [Expr.operands, seen]

theorem computes_oneLessSquare {y : ValueId} (seen : y ∈ visible) :
    Computes places visible (oneLessSquare y : Fresh (ValueId × List (Instr α))) := by
  rw [oneLessSquare_eq]
  refine computes_andThen (computes_temp trivial ?_) fun square =>
    computes_two trivial (fun _ => trivial) nofun ?_
  all_goals simp [Expr.operands, seen]

theorem emits_binary {dst : ValueId} {op : BinaryOp} {lhs rhs : ValueId} (result : dst ∈ visible)
    (left : lhs ∈ visible) (right : rhs ∈ visible) : Emits places visible (r.binary dst op lhs rhs) := by
  have passes : ∀ target ∈ visible, ∀ scale, scale.operands = [] →
      Emits places visible (return [.propagate target dst scale] : Fresh (List (Instr α))) :=
    fun target seen scale free => emits_one rfl (by simp [Instr.operands, free, seen, result]) nofun
  cases op with
  | add | sub =>
    exact emits_both (emits_when fun _ => passes lhs left _ rfl) (emits_when fun _ => passes rhs right _ rfl)
  | mul =>
    exact emits_both (emits_when fun _ => emits_scaled left result (computes_given right))
      (emits_when fun _ => emits_scaled right result (computes_given left))
  | div =>
    exact emits_both (emits_when fun _ => emits_scaled left result (computes_reciprocal right))
      (emits_when fun _ => emits_scaled right result (computes_quotientByDivisor result right))
  | pow =>
    exact emits_both (emits_when fun _ => emits_scaled left result (computes_powerByBase left right))
      (emits_when fun _ => emits_scaled right result (computes_powerByExponent left result))
  | max | min =>
    have reads : ∀ v ∈ [lhs, rhs], v ∈ visible := by simp [left, right]
    refine emits_guarded (both_grows (when_grows (scaled_grows (temp_grows _)))
      (when_grows (scaled_grows (temp_grows _)))) fun _ => ?_
    exact emits_both (emits_when fun _ => emits_scaled left result (computes_temp trivial reads))
      (emits_when fun _ => emits_scaled right result (computes_temp trivial reads))
  | mod | floorDiv =>
    refine ⟨binary_grows _, fun _ k instrs k' ran => ?_, fun k instrs k' ran => ?_,
      fun k instrs k' ran => ?_, fun k instrs k' ran => ?_⟩
    all_goals cases ran

theorem emits_unary {dst : ValueId} {op : UnaryOp} {operand : ValueId} (result : dst ∈ visible)
    (seen : operand ∈ visible) : Emits places visible (r.unary dst op operand) := by
  cases op with
  | neg =>
    exact emits_one rfl (by simp [Instr.operands, Scale.operands, result, seen])
      fun _ absent => absurd absent (Option.not_mem_none _)
  | sin | abs =>
    exact emits_scaled seen result (computes_temp trivial (by simp [Expr.operands, seen]))
  | cos => exact emits_scaled seen result (computes_negatedSine seen)
  | exp => exact emits_scaled seen result (computes_given result)
  | log => exact emits_scaled seen result (computes_reciprocal seen)
  | sqrt => exact emits_scaled seen result (computes_halfByRoot result)
  | tanh => exact emits_scaled seen result (computes_oneLessSquare result)
  | sgn => exact emits_none

def Concerns (r : Reversal α) : Instr α → Prop
  | .define dst _ => r.needs dst = true
  | .store place v => r.signatures.isReal place.field = true ∧ r.needs v = true
  | _ => False

structure Touches (r : Reversal α) (i : Instr α) (place : Place) : Prop where
  addressed : i.place? = some place
  concerns : r.Concerns i
  clean : ∀ v ∈ place.index, r.activity.Clean v

theorem emits_instr (i : Instr α) : Emits (r.Touches i) (i.dst?.toList ++ i.operands) (r.instr i) := by
  cases i with
  | define dst e =>
    have result : dst ∈ (Instr.define dst e).dst?.toList ++ (Instr.define dst e).operands :=
      List.mem_cons_self
    refine emits_when fun needed => ?_
    cases e with
    | load place =>
      refine emits_guarded (Fresh.grows_pure _) fun clean => emits_one rfl (fun v used => ?_) ?_
      · rcases List.mem_append.mp used with coordinate | same
        · exact List.mem_cons_of_mem _ coordinate
        · exact List.mem_singleton.mp same ▸ result
      · intro place' addressed
        cases addressed
        exact ⟨rfl, needed, clean⟩
    | binary op lhs rhs =>
      apply emits_binary result
      all_goals simp [Instr.operands, Expr.operands]
    | unary op operand => exact emits_unary result (by simp [Instr.operands, Expr.operands])
    | const | index | arg | compare => exact emits_none
  | store place v =>
    refine emits_when fun needed => emits_guarded (Fresh.grows_pure _) fun clean => ?_
    refine emits_one rfl (fun _ used => used) fun place' addressed => ?_
    cases addressed
    exact ⟨rfl, Bool.and_eq_true_iff.mp needed, clean⟩
  | readGrad | propagate | addGrad =>
    refine ⟨instr_grows _, fun _ k instrs k' ran => ?_, fun k instrs k' ran => ?_,
      fun k instrs k' ran => ?_, fun k instrs k' ran => ?_⟩
    all_goals cases ran

end Reversal

end FieldKernel
