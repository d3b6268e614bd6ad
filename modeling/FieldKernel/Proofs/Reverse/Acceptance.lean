import FieldKernel.Proofs.Kernel.Fusion
import FieldKernel.Proofs.Reverse.Pass
import FieldKernel.Proofs.Reverse.Touched

-- Which kernels can be reversed, and what a refusal names.
namespace FieldKernel

variable {α : Type}

-- What the factors of the chain rule are computed from, for the operands of a result.
namespace BinaryOp

def leftReads (lhs rhs : ValueId) : BinaryOp → List ValueId
  | mul | div => [rhs]
  | pow | max | min => [lhs, rhs]
  | add | sub | mod | floorDiv => []

def rightReads (dst lhs rhs : ValueId) : BinaryOp → List ValueId
  | mul => [lhs]
  | div => [dst, rhs]
  | pow => [lhs, dst]
  | max | min => [lhs, rhs]
  | add | sub | mod | floorDiv => []

end BinaryOp

def UnaryOp.reads (dst operand : ValueId) : UnaryOp → List ValueId
  | sin | cos | log | abs => [operand]
  | exp | sqrt | tanh => [dst]
  | neg | sgn => []

-- The operands to which a result passes its adjoint on, each with what its factor is computed from.
def Expr.shares (dst : ValueId) : Expr α → List (ValueId × List ValueId)
  | .binary op lhs rhs => [(lhs, op.leftReads lhs rhs), (rhs, op.rightReads dst lhs rhs)]
  | .unary op operand => [(operand, op.reads dst operand)]
  | .const _ | .index _ | .arg _ | .load _ | .compare _ _ _ => []

-- The values that have to be recomputed to reverse an instruction: the coordinates of an element whose
-- gradient is added to or read, and what is multiplied with the adjoint of a result.
inductive Instr.Requires (real : String → Prop) (active carries : ValueId → Prop) : Instr α → ValueId → Prop
  | load {dst place v} (carried : carries dst) (coordinate : v ∈ place.index) :
    Requires real active carries (.define dst (.load place)) v
  | store {place w v} (isReal : real place.field) (isActive : active w) (coordinate : v ∈ place.index) :
    Requires real active carries (.store place w) v
  | factor {dst e target reads v} (carried : carries dst) (share : (target, reads) ∈ e.shares dst)
    (passed : carries target) (read : v ∈ reads) : Requires real active carries (.define dst e) v

namespace Fresh

variable {β γ : Type} {faults faults' : KernelFault → Prop} {x : Fresh β} {f : β → Fresh γ}

structure FailsBy (faults : KernelFault → Prop) (x : Fresh β) : Prop where
  only : ∀ k e, x.run k = .error e → faults e
  always : ∀ k b k', x.run k = .ok (b, k') → ∀ e, ¬faults e

theorem run_bind_error {k : Nat} {e : KernelFault} : (x >>= f).run k = .error e ↔
    x.run k = .error e ∨ ∃ b k', x.run k = .ok (b, k') ∧ (f b).run k' = .error e := by
  refine Except.bind_error.trans (or_congr_right ⟨?_, ?_⟩)
  · intro shown
    obtain ⟨⟨b, k'⟩, first, failed⟩ := shown
    exact ⟨b, k', first, failed⟩
  · intro shown
    obtain ⟨b, k', first, failed⟩ := shown
    exact ⟨(b, k'), first, failed⟩

namespace FailsBy

theorem congr (fails : FailsBy faults x) (same : ∀ e, faults e ↔ faults' e) : FailsBy faults' x where
  only k e failed := (same e).mp (fails.only k e failed)
  always k b k' ran e fault := fails.always k b k' ran e ((same e).mpr fault)

theorem pure (b : β) : FailsBy (fun _ => False) (pure b : Fresh β) :=
  ⟨fun _ _ failed => (nomatch failed), fun _ _ _ _ _ => id⟩

theorem throw (e : KernelFault) : FailsBy (· = e) (throw e : Fresh β) :=
  ⟨fun _ _ failed => (Except.error.inj failed).symm, fun _ _ _ ran => (nomatch ran)⟩

theorem bind (first : FailsBy faults x) (second : ∀ b, FailsBy faults' (f b)) :
    FailsBy (fun e => faults e ∨ faults' e) (x >>= f) where
  only k e failed := by
    rcases run_bind_error.mp failed with here | ⟨b, k', -, later⟩
    · exact .inl (first.only k e here)
    · exact .inr ((second b).only k' e later)
  always k c k'' ran e fault := by
    obtain ⟨b, k', ranFirst, ranSecond⟩ := run_bind_ok.mp ran
    rcases fault with here | later
    · exact first.always k b k' ranFirst e here
    · exact (second b).always k' c k'' ranSecond e later

theorem after (first : FailsBy (fun _ => False) x) (second : ∀ b, FailsBy faults (f b)) :
    FailsBy faults (x >>= f) := (first.bind second).congr fun _ => or_iff_right id

theorem before (first : FailsBy faults x) (second : ∀ b, FailsBy (fun _ => False) (f b)) :
    FailsBy faults (x >>= f) := (first.bind second).congr fun _ => or_iff_left id

theorem lift {x : Except KernelFault β} (only : ∀ e, x = .error e → faults e)
    (always : ∀ b, x = .ok b → ∀ e, ¬faults e) : FailsBy faults (liftM x : Fresh β) where
  only k e failed := by
    cases x with
    | error e' =>
      cases failed
      exact only e rfl
    | ok b => cases failed
  always k b k' ran := always b (run_lift_ok.mp ran).1

end FailsBy

end Fresh

open Fresh (FailsBy)

namespace Reversal

variable {r : Reversal α} {dst lhs rhs operand target source : ValueId}
  {factor : Fresh (ValueId × List (Instr α))} {faults faults' : KernelFault → Prop}
  {code first second : Fresh (List (Instr α))}

def Refuses (r : Reversal α) (v : ValueId) (e : KernelFault) : Prop :=
  ∃ name, r.activity.overwrittenField? v = some name ∧ e = .overwrittenPrimal r.kernel.name v name

theorem primals_fails (vs : List ValueId) :
    FailsBy (fun e => ∃ v ∈ vs, r.Refuses v e) (liftM (r.primals vs)) := by
  refine .lift (fun e failed => ?_) fun _ ran e => ?_
  · induction vs with
    | nil => cases failed
    | cons v vs ih =>
      cases stored : r.activity.overwrittenField? v with
      | some name =>
        simp only [primals, primal, stored, bind, Except.bind, Except.error.injEq] at failed
        exact ⟨v, List.mem_cons_self, name, stored, failed.symm⟩
      | none =>
        simp only [primals, primal, stored, bind, Except.bind] at failed
        obtain ⟨w, member, refuses⟩ := ih failed
        exact ⟨w, List.mem_cons_of_mem _ member, refuses⟩
  · intro refused
    obtain ⟨v, member, name, stored, -⟩ := refused
    have clean : r.activity.Clean v := primals_ok.mp ran v member
    rw [clean] at stored
    cases stored

theorem when_fails {needed : Bool} (fails : needed = true → FailsBy faults code) :
    FailsBy (fun e => needed = true ∧ faults e) (when needed code) := by
  cases needed with
  | true => exact (fails rfl).congr fun _ => (and_iff_right rfl).symm
  | false => exact (FailsBy.pure _).congr fun _ => by simp

theorem both_fails (left : FailsBy faults first) (right : FailsBy faults' second) :
    FailsBy (fun e => faults e ∨ faults' e) (do return (← first) ++ (← second)) :=
  left.bind fun _ => right.before fun _ => .pure _

theorem temp_fails (e : Expr α) : FailsBy (fun _ => False) (temp e) :=
  ⟨fun _ _ failed => (nomatch failed), fun _ _ _ _ _ => id⟩

theorem andThen_fails {next : ValueId → Fresh (ValueId × List (Instr α))}
    (left : FailsBy (fun _ => False) factor) (right : ∀ v, FailsBy (fun _ => False) (next v)) :
    FailsBy (fun _ => False) (andThen factor next) :=
  left.after fun (a, _) => (right a).after fun _ => .pure _

theorem two_fails (e : Expr α) (f : ValueId → Expr α) :
    FailsBy (fun _ => False) (andThen (temp e) fun v => temp (f v)) :=
  andThen_fails (temp_fails e) fun v => temp_fails (f v)

theorem scaled_fails (needed : List ValueId) (fails : FailsBy (fun _ => False) factor) :
    FailsBy (fun e => ∃ v ∈ needed, r.Refuses v e) (r.scaled target source needed factor) :=
  (primals_fails needed).before fun _ => fails.after fun (_, _) => .pure _

def Complains (r : Reversal α) (shares : List (ValueId × List ValueId)) (e : KernelFault) : Prop :=
  ∃ target reads, (target, reads) ∈ shares ∧ r.needs target = true ∧ ∃ v ∈ reads, r.Refuses v e

theorem complains_pair {leftReads rightReads : List ValueId} {e : KernelFault} :
    r.Complains [(lhs, leftReads), (rhs, rightReads)] e ↔
      (r.needs lhs = true ∧ ∃ v ∈ leftReads, r.Refuses v e) ∨
        (r.needs rhs = true ∧ ∃ v ∈ rightReads, r.Refuses v e) := by
  simp [Complains, or_and_right, exists_or, and_assoc]

theorem shares_fail {leftReads rightReads : List ValueId}
    (left : FailsBy (fun e => ∃ v ∈ leftReads, r.Refuses v e) first)
    (right : FailsBy (fun e => ∃ v ∈ rightReads, r.Refuses v e) second) :
    FailsBy (r.Complains [(lhs, leftReads), (rhs, rightReads)])
      (do return (← when (r.activity.carriesAdjoint lhs) first) ++
        (← when (r.activity.carriesAdjoint rhs) second)) :=
  (both_fails (when_fails fun _ => left) (when_fails fun _ => right)).congr fun _ => complains_pair.symm

theorem given_fails (v : ValueId) : FailsBy (fun _ => False) (given v : Fresh (ValueId × List (Instr α))) :=
  .pure _

theorem constant_fails (only : Instr α) : FailsBy (fun e => ∃ v ∈ [], r.Refuses v e) (return [only]) :=
  (FailsBy.pure _).congr fun _ => by simp

variable [Scalar α]

theorem ruled_fails {op : BinaryOp} (ruled : ¬(op = .mod ∨ op = .floorDiv))
    (passes : r.needs lhs = true ∨ r.needs rhs = true) :
    FailsBy (r.Complains [(lhs, op.leftReads lhs rhs), (rhs, op.rightReads dst lhs rhs)])
      (r.binary dst op lhs rhs) := by
  cases op with
  | add | sub => exact shares_fail (constant_fails _) (constant_fails _)
  | mul => exact shares_fail (scaled_fails _ (given_fails _)) (scaled_fails _ (given_fails _))
  | div =>
    refine shares_fail (scaled_fails _ ?_) (scaled_fails _ ?_)
    · rw [reciprocal_eq]
      exact two_fails _ _
    · exact two_fails _ _
  | pow =>
    refine shares_fail (scaled_fails _ ?_) (scaled_fails _ ?_)
    · rw [powerByBase_eq]
      refine andThen_fails (andThen_fails (andThen_fails ?_ fun _ => ?_) fun _ => ?_) fun _ => ?_
      all_goals exact temp_fails _
    · exact two_fails _ _
  | max | min =>
    refine ((primals_fails [lhs, rhs]).bind fun _ => shares_fail (scaled_fails [] (temp_fails _))
      (scaled_fails [] (temp_fails _))).congr fun e => ?_
    rw [complains_pair, complains_pair]
    rcases passes with needed | needed <;> simp [BinaryOp.leftReads, BinaryOp.rightReads, needed]
  | mod => exact absurd (.inl rfl) ruled
  | floorDiv => exact absurd (.inr rfl) ruled

theorem binary_fails {op : BinaryOp} (passes : r.needs lhs = true ∨ r.needs rhs = true) :
    FailsBy (fun e => (op = .mod ∨ op = .floorDiv) ∧ e = r.noRule dst op lhs rhs ∨
      r.Complains [(lhs, op.leftReads lhs rhs), (rhs, op.rightReads dst lhs rhs)] e)
      (r.binary dst op lhs rhs) := by
  by_cases ruleless : op = .mod ∨ op = .floorDiv
  · have thrown : FailsBy (· = r.noRule dst op lhs rhs) (r.binary dst op lhs rhs) := by
      rcases ruleless with rfl | rfl <;> exact .throw _
    refine thrown.congr fun e => ?_
    rcases ruleless with rfl | rfl <;> simp [complains_pair, BinaryOp.leftReads, BinaryOp.rightReads]
  · exact (ruled_fails ruleless passes).congr fun e => (or_iff_right fun lacks => ruleless lacks.1).symm

theorem unary_fails {op : UnaryOp} (passes : r.needs operand = true) :
    FailsBy (r.Complains [(operand, op.reads dst operand)]) (r.unary dst op operand) := by
  have reads : FailsBy (fun e => ∃ v ∈ op.reads dst operand, r.Refuses v e) (r.unary dst op operand) := by
    cases op with
    | neg => exact constant_fails _
    | sin | abs => exact scaled_fails _ (temp_fails _)
    | cos => exact scaled_fails _ (two_fails _ _)
    | exp => exact scaled_fails _ (given_fails _)
    | log =>
      refine scaled_fails _ ?_
      rw [reciprocal_eq]
      exact two_fails _ _
    | sqrt =>
      refine scaled_fails _ ?_
      rw [halfByRoot_eq]
      exact two_fails _ _
    | tanh =>
      refine scaled_fails _ ?_
      rw [oneLessSquare_eq]
      exact andThen_fails (temp_fails _) fun _ => two_fails _ _
    | sgn => exact (FailsBy.pure _).congr fun _ => by simp [UnaryOp.reads]
  exact reads.congr fun e => by simp [Complains, passes]

inductive Blames (r : Reversal α) : Instr α → KernelFault → Prop
  | noRule {dst op lhs rhs} (carried : r.needs dst = true) (ruleless : op = .mod ∨ op = .floorDiv) :
    Blames r (.define dst (.binary op lhs rhs)) (r.noRule dst op lhs rhs)
  | primal {i v e}
    (requires : i.Requires (r.signatures.isReal · = true) (r.needs · = true) (r.needs · = true) v)
    (refuses : r.Refuses v e) : Blames r i e

def PassesOn (r : Reversal α) : Instr α → Prop
  | .define dst e => r.needs dst = true → e.shares dst = [] ∨ ∃ share ∈ e.shares dst, r.needs share.1 = true
  | _ => True

omit [Scalar α] in
theorem blames_load {place : Place} {e : KernelFault} : r.Blames (.define dst (.load place)) e ↔
    r.needs dst = true ∧ ∃ v ∈ place.index, r.Refuses v e := by
  constructor
  · intro blames
    cases blames with
    | primal requires refuses =>
      cases requires with
      | load carried coordinate => exact ⟨carried, _, coordinate, refuses⟩
      | factor _ share => cases share
  · intro blamed
    obtain ⟨carried, v, coordinate, refuses⟩ := blamed
    exact .primal (.load carried coordinate) refuses

omit [Scalar α] in
theorem blames_store {place : Place} {v : ValueId} {e : KernelFault} : r.Blames (.store place v) e ↔
    (r.signatures.isReal place.field && r.needs v) = true ∧ ∃ v ∈ place.index, r.Refuses v e := by
  rw [Bool.and_eq_true]
  constructor
  · intro blames
    cases blames with
    | primal requires refuses =>
      cases requires with
      | store isReal isActive coordinate => exact ⟨⟨isReal, isActive⟩, _, coordinate, refuses⟩
  · intro blamed
    obtain ⟨⟨isReal, isActive⟩, v, coordinate, refuses⟩ := blamed
    exact .primal (.store isReal isActive coordinate) refuses

omit [Scalar α] in
theorem requires_define (expr : Expr α) (noLoad : ∀ place, expr ≠ .load place) {e : KernelFault} :
    (∃ v, (Instr.define dst expr).Requires (r.signatures.isReal · = true) (r.needs · = true)
      (r.needs · = true) v ∧ r.Refuses v e) ↔ r.needs dst = true ∧ r.Complains (expr.shares dst) e := by
  constructor
  · intro required
    obtain ⟨v, requires, refuses⟩ := required
    cases requires with
    | load => exact absurd rfl (noLoad _)
    | factor carried share passed read => exact ⟨carried, _, _, share, passed, v, read, refuses⟩
  · intro complained
    obtain ⟨carried, target, reads, share, passed, v, read, refuses⟩ := complained
    exact ⟨v, .factor carried share passed read, refuses⟩

omit [Scalar α] in
theorem blames_binary {op : BinaryOp} {e : KernelFault} : r.Blames (.define dst (.binary op lhs rhs)) e ↔
    r.needs dst = true ∧ ((op = .mod ∨ op = .floorDiv) ∧ e = r.noRule dst op lhs rhs ∨
      r.Complains [(lhs, op.leftReads lhs rhs), (rhs, op.rightReads dst lhs rhs)] e) := by
  constructor
  · intro blames
    cases blames with
    | noRule carried ruleless => exact ⟨carried, .inl ⟨ruleless, rfl⟩⟩
    | primal requires refuses =>
      obtain ⟨carried, complains⟩ := (requires_define (.binary op lhs rhs) fun _ => nofun).mp
        ⟨_, requires, refuses⟩
      exact ⟨carried, .inr complains⟩
  · intro blamed
    obtain ⟨carried, ⟨ruleless, rfl⟩ | complains⟩ := blamed
    · exact .noRule carried ruleless
    · obtain ⟨v, requires, refuses⟩ := (requires_define (.binary op lhs rhs) fun _ => nofun).mpr
        ⟨carried, complains⟩
      exact .primal requires refuses

omit [Scalar α] in
theorem blames_define (expr : Expr α) (noLoad : ∀ place, expr ≠ .load place)
    (ruled : ∀ op lhs rhs, expr ≠ .binary op lhs rhs) {e : KernelFault} :
    r.Blames (.define dst expr) e ↔ r.needs dst = true ∧ r.Complains (expr.shares dst) e := by
  rw [← requires_define expr noLoad]
  constructor
  · intro blames
    cases blames with
    | noRule => exact absurd rfl (ruled _ _ _)
    | primal requires refuses => exact ⟨_, requires, refuses⟩
  · intro required
    obtain ⟨v, requires, refuses⟩ := required
    exact .primal requires refuses

omit [Scalar α] in
theorem guarded_fails {vs : List ValueId} (only : Instr α) :
    FailsBy (fun e => ∃ v ∈ vs, r.Refuses v e) (do r.primals vs; return [only]) :=
  (primals_fails vs).before fun _ => .pure _

theorem instr_fails {i : Instr α} (passes : r.PassesOn i) (forward : i.isReverseOnly = false) :
    FailsBy (r.Blames i) (r.instr i) := by
  cases i with
  | define dst expr =>
    cases expr with
    | load place => exact (when_fails fun _ => guarded_fails _).congr fun e => blames_load.symm
    | binary op lhs rhs =>
      refine (when_fails fun needed => binary_fails ?_).congr fun e => blames_binary.symm
      simpa [Expr.shares] using passes needed
    | unary op operand =>
      refine (when_fails fun needed => unary_fails ?_).congr fun e =>
        (blames_define (.unary op operand) (fun _ => nofun) fun _ _ _ => nofun).symm
      simpa [Expr.shares] using passes needed
    | const | index | arg | compare =>
      refine (when_fails fun _ => .pure _).congr fun e => .trans ?_ (blames_define _ ?_ ?_).symm
      · simp [Complains, Expr.shares]
      · exact fun _ => nofun
      · exact fun _ _ _ => nofun
  | store place v => exact (when_fails fun _ => guarded_fails _).congr fun e => blames_store.symm
  | readGrad | propagate | addGrad => cases forward

theorem rules_fail {block : Block α} (passes : ∀ i, .instr i ∈ block.statements → r.PassesOn i)
    (forward : ∀ s ∈ block.statements, s.isReverseOnly = false) :
    FailsBy (fun e => ∃ i, .instr i ∈ block.statements ∧ r.Blames i e) (r.rules block) := by
  induction block with
  | nil => exact (FailsBy.pure _).congr fun e => by simp [Block.statements]
  | instr i rest ih =>
    obtain ⟨here, later⟩ := List.forall_mem_cons.mp forward
    have inRest := ih (fun j member => passes j (List.mem_cons_of_mem _ member)) later
    have inInstr := instr_fails (passes i List.mem_cons_self) here
    refine (inRest.bind fun _ => inInstr.before fun _ => .pure _).congr fun e => ?_
    simp [Block.statements, or_and_right, exists_or, or_comm]
  | branch cond onTrue onFalse rest ihTrue ihFalse ihRest =>
    have inside : ∀ inner : Block α, inner.statements ⊆ (Block.branch cond onTrue onFalse rest).statements →
        (∀ i, .instr i ∈ inner.statements → r.PassesOn i) ∧ ∀ s ∈ inner.statements, s.isReverseOnly = false :=
      fun inner part => ⟨fun i member => passes i (part member), fun s member => forward s (part member)⟩
    obtain ⟨passesTrue, forwardTrue⟩ := inside onTrue Block.onTrue_subset
    obtain ⟨passesFalse, forwardFalse⟩ := inside onFalse Block.onFalse_subset
    obtain ⟨passesRest, forwardRest⟩ := inside rest Block.rest_subset
    refine ((ihRest passesRest forwardRest).bind fun _ => (ihTrue passesTrue forwardTrue).bind fun _ =>
      (ihFalse passesFalse forwardFalse).before fun _ => .pure _).congr fun e => ?_
    simp [Block.statements, or_and_right, exists_or, or_comm, or_assoc]

end Reversal

namespace Kernel

-- The values that a gradient kernel would have to recompute.
def Requires (kernel : Kernel α) (signatures : Signatures) (v : ValueId) : Prop :=
  ∃ i, .instr i ∈ kernel.body.statements ∧ i.Requires (signatures.isReal · = true)
    (Activity.Active signatures kernel.body.statements) (Activity.Useful signatures kernel.body.statements) v

-- Every value that carries an adjoint has derivatives, and what has to be recomputed is not overwritten.
structure Reversible (kernel : Kernel α) (signatures : Signatures) : Prop where
  ruled : ∀ dst op lhs rhs, .instr (.define dst (.binary op lhs rhs)) ∈ kernel.body.statements →
    Activity.Useful signatures kernel.body.statements dst → op ≠ .mod ∧ op ≠ .floorDiv
  recomputed : ∀ v, kernel.Requires signatures v → ∀ name, ¬kernel.body.Rereads v name

-- A fault that names a value for which this does not hold, and of the fields it is computed from the first
-- one that is overwritten.
inductive Culprit (kernel : Kernel α) (signatures : Signatures) : KernelFault → Prop
  | noRule {dst op lhs rhs} (member : .instr (.define dst (.binary op lhs rhs)) ∈ kernel.body.statements)
    (useful : Activity.Useful signatures kernel.body.statements dst) (ruleless : op = .mod ∨ op = .floorDiv) :
    Culprit kernel signatures (.notDifferentiable kernel.name (.noRule dst op lhs rhs))
  | overwritten {v name} (required : kernel.Requires signatures v) (first : kernel.body.RereadsFirst v name) :
    Culprit kernel signatures (.overwrittenPrimal kernel.name v name)

-- The first branch on a condition that is computed from data the kernel overwrites, and the first such field.
def FirstImpure (kernel : Kernel α) (cond : ValueId) (name : String) : Prop :=
  ∃ before after, kernel.body.statements = before ++ .branch cond :: after ∧
    (∀ other, .branch other ∈ before → ∀ field, ¬kernel.body.Rereads other field) ∧
    kernel.body.RereadsFirst cond name

variable {kernel : Kernel α} {signatures : Signatures} {cond v : ValueId} {name : String}

theorem exists_rereadsFirst (checked : kernel.check = .ok ()) (rereads : kernel.body.Rereads v name) :
    ∃ first, kernel.body.RereadsFirst v first := by
  cases stored : (Activity.ofKernel kernel .empty).overwrittenField? v with
  | none => exact absurd rereads ((Activity.clean_iff_rereads checked).mp stored name)
  | some first => exact ⟨first, (Activity.overwrittenField?_eq_some_iff checked).mp stored⟩

theorem reversible_iff (checked : kernel.check = .ok ()) :
    kernel.Reversible signatures ↔ ∀ e, ¬kernel.Culprit signatures e := by
  constructor
  · intro reversible e culprit
    cases culprit with
    | noRule member useful ruleless =>
      obtain ⟨noMod, noFloorDiv⟩ := reversible.ruled _ _ _ _ member useful
      rcases ruleless with rfl | rfl
      · exact noMod rfl
      · exact noFloorDiv rfl
    | overwritten required first => exact reversible.recomputed _ required _ first.1
  · intro none_
    refine ⟨fun dst op lhs rhs member useful => ?_, fun v required name rereads => ?_⟩
    · have ruled : ¬(op = .mod ∨ op = .floorDiv) := fun ruleless => none_ _ (.noRule member useful ruleless)
      exact not_or.mp ruled
    · obtain ⟨first, rereadsFirst⟩ := exists_rereadsFirst checked rereads
      exact none_ _ (.overwritten required rereadsFirst)

theorem conducts_share (dst : ValueId) {e : Expr α} (conducts : e.Conducts v) :
    ∃ reads, (v, reads) ∈ e.shares dst := by
  cases e with
  | binary op lhs rhs =>
    rcases conducts with rfl | rfl
    · exact ⟨_, List.mem_cons_self⟩
    · exact ⟨_, List.mem_cons_of_mem _ List.mem_cons_self⟩
  | unary op operand =>
    obtain ⟨-, rfl⟩ := conducts
    exact ⟨_, List.mem_cons_self⟩
  | const | index | arg | load | compare => cases conducts

theorem passesOn (checked : kernel.check = .ok ()) {i : Instr α} (member : .instr i ∈ kernel.body.statements) :
    (kernel.reversal signatures).PassesOn i := by
  cases i with
  | define dst e =>
    intro carried
    have useful := (needs_iff checked).mp carried
    have isActive := (Activity.activeFold_iff (ordered checked) (List.Subset.refl _) member).mp
      ((Activity.mem_activeValues (ordered checked)).mpr useful.1)
    rcases Activity.exprActive_iff.mp isActive with ⟨place, rfl, -⟩ | ⟨v, active, conducts⟩
    · exact .inl rfl
    · obtain ⟨reads, share⟩ := conducts_share dst conducts
      refine .inr ⟨(v, reads), share, (needs_iff checked).mpr ?_⟩
      exact ⟨(Activity.mem_activeValues (ordered checked)).mp active, useful.2.step ⟨e, member, conducts⟩⟩
  | store | readGrad | propagate | addGrad => trivial

theorem requires_iff (checked : kernel.check = .ok ()) : kernel.Requires signatures v ↔
    ∃ i, .instr i ∈ kernel.body.statements ∧ i.Requires (signatures.isReal · = true)
      ((kernel.reversal signatures).needs · = true) ((kernel.reversal signatures).needs · = true) v := by
  refine exists_congr fun i => and_congr_right fun member => ?_
  constructor
  · intro requires
    cases requires with
    | load carried coordinate => exact .load ((needs_iff checked).mpr carried) coordinate
    | @store place w _ isReal isActive coordinate =>
      have useful : Activity.Useful signatures kernel.body.statements w :=
        ⟨isActive, w, place, member, isReal, .refl⟩
      exact .store isReal ((needs_iff checked).mpr useful) coordinate
    | factor carried share passed read =>
      exact .factor ((needs_iff checked).mpr carried) share ((needs_iff checked).mpr passed) read
  · intro requires
    cases requires with
    | load carried coordinate => exact .load ((needs_iff checked).mp carried) coordinate
    | store isReal carried coordinate => exact .store isReal ((needs_iff checked).mp carried).1 coordinate
    | factor carried share passed read =>
      exact .factor ((needs_iff checked).mp carried) share ((needs_iff checked).mp passed) read

theorem blames_iff (checked : kernel.check = .ok ()) {e : KernelFault} :
    (∃ i, .instr i ∈ kernel.body.statements ∧ (kernel.reversal signatures).Blames i e) ↔
      kernel.Culprit signatures e := by
  constructor
  · intro blamed
    obtain ⟨i, member, blames⟩ := blamed
    cases blames with
    | noRule carried ruleless => exact .noRule member ((needs_iff checked).mp carried) ruleless
    | primal requires refuses =>
      obtain ⟨name, stored, rfl⟩ := refuses
      exact .overwritten ((requires_iff checked).mpr ⟨i, member, requires⟩)
        ((Activity.overwrittenField?_eq_some_iff checked).mp stored)
  · intro culprit
    cases culprit with
    | noRule member useful ruleless => exact ⟨_, member, .noRule ((needs_iff checked).mpr useful) ruleless⟩
    | overwritten required first =>
      obtain ⟨i, member, requires⟩ := (requires_iff checked).mp required
      exact ⟨i, member, .primal requires ⟨_, (Activity.overwrittenField?_eq_some_iff checked).mpr first, rfl⟩⟩

theorem impureCondition?_eq_some_iff (checked : kernel.check = .ok ()) {s : Statement α} :
    impureCondition? (.ofKernel kernel signatures) s = some (cond, name) ↔
      s = .branch cond ∧ kernel.body.RereadsFirst cond name := by
  cases s with
  | instr i => simp [impureCondition?]
  | branch v =>
    simp only [impureCondition?, Option.map_eq_some_iff, Prod.mk.injEq, Statement.branch.injEq]
    constructor
    · intro found
      obtain ⟨_, stored, rfl, rfl⟩ := found
      exact ⟨rfl, (Activity.overwrittenField?_eq_some_iff checked).mp stored⟩
    · intro impure
      obtain ⟨rfl, first⟩ := impure
      exact ⟨name, (Activity.overwrittenField?_eq_some_iff checked).mpr first, rfl, rfl⟩

theorem impureCondition?_eq_none_iff (checked : kernel.check = .ok ()) {s : Statement α} :
    impureCondition? (.ofKernel kernel signatures) s = none ↔
      ∀ other, s = .branch other → ∀ field, ¬kernel.body.Rereads other field := by
  cases s with
  | instr i => simp [impureCondition?]
  | branch v =>
    simp only [impureCondition?, Option.map_eq_none_iff, Statement.branch.injEq, forall_eq']
    exact Activity.clean_iff_rereads checked

theorem pureConditions_error_iff (checked : kernel.check = .ok ()) {e : KernelFault} :
    kernel.pureConditions (.ofKernel kernel signatures) = .error e ↔
      ∃ cond name, e = .impureCondition kernel.name cond name ∧ kernel.FirstImpure cond name := by
  have found : ∀ cond name,
      kernel.body.statements.findSome? (impureCondition? (.ofKernel kernel signatures)) = some (cond, name) ↔
        kernel.FirstImpure cond name := by
    intro cond name
    simp only [List.findSome?_eq_some_iff, impureCondition?_eq_some_iff checked,
      impureCondition?_eq_none_iff checked]
    constructor
    · intro found
      obtain ⟨before, _, after, statements, ⟨rfl, first⟩, clean⟩ := found
      exact ⟨before, after, statements, fun other member => clean _ member other rfl, first⟩
    · intro impure
      obtain ⟨before, after, statements, clean, first⟩ := impure
      refine ⟨before, _, after, statements, ⟨rfl, first⟩, fun s member other same => ?_⟩
      exact clean other (same ▸ member)
  simp only [← found]
  unfold pureConditions
  split
  · next cond name stored =>
    rw [stored]
    constructor
    · intro failed
      cases failed
      exact ⟨cond, name, rfl, rfl⟩
    · intro impure
      obtain ⟨_, _, rfl, same⟩ := impure
      cases same
      rfl
  · next none_ => simp [none_]

theorem pureConditions_iff (checked : kernel.check = .ok ()) :
    kernel.pureConditions (.ofKernel kernel signatures) = .ok () ↔
      ∀ cond name, .branch cond ∈ kernel.body.statements → ¬kernel.body.Rereads cond name := by
  constructor
  · intro pure cond name member
    exact (Activity.clean_iff_rereads checked).mp (pureConditions_ok pure member) name
  · intro none_
    cases failed : kernel.pureConditions (.ofKernel kernel signatures) with
    | ok _ => rfl
    | error e =>
      obtain ⟨cond, name, -, before, after, statements, -, first⟩ :=
        (pureConditions_error_iff checked).mp failed
      exact absurd first.1 (none_ cond name (statements ▸ List.mem_append_cons_self))

theorem exists_firstImpure (checked : kernel.check = .ok ()) : (∃ cond name, kernel.FirstImpure cond name) ↔
    ∃ cond name, .branch cond ∈ kernel.body.statements ∧ kernel.body.Rereads cond name := by
  constructor
  · intro impure
    obtain ⟨cond, name, before, after, statements, -, first⟩ := impure
    exact ⟨cond, name, statements ▸ List.mem_append_cons_self, first.1⟩
  · intro impure
    obtain ⟨cond, name, member, rereads⟩ := impure
    -- which conditions may be recomputed does not depend on the signatures
    cases failed : kernel.pureConditions (.ofKernel kernel .empty) with
    | ok _ => exact absurd rereads ((pureConditions_iff checked).mp failed cond name member)
    | error e =>
      obtain ⟨cond, name, -, first⟩ := (pureConditions_error_iff checked).mp failed
      exact ⟨cond, name, first⟩

variable [Scalar α]

theorem reverse_error_iff (forward : ∀ s ∈ kernel.body.statements, s.isReverseOnly = false)
    {e : KernelFault} : kernel.reverse signatures = .error e ↔
      kernel.pureConditions (.ofKernel kernel signatures) = .error e ∨
        kernel.pureConditions (.ofKernel kernel signatures) = .ok () ∧
          ((kernel.reversal signatures).rules kernel.body).run kernel.counter = .error e := by
  have only : kernel.forwardOnly = .ok () := forwardOnly_ok.mpr forward
  have numbers : kernel.reverse signatures = .error e ↔ kernel.backward signatures = .error e :=
    Except.bind_error.trans (or_iff_left fun ⟨_, _, failed⟩ => nomatch failed)
  rw [numbers]
  constructor
  · intro failed
    obtain ⟨_, -, failed⟩ := (Except.bind_error.mp failed).resolve_left (by simp [only])
    rcases Except.bind_error.mp failed with impure | ⟨_, pure, failed⟩
    · exact .inl impure
    · rcases Except.bind_error.mp failed with refused | ⟨_, -, failed⟩
      · exact .inr ⟨pure, refused⟩
      · cases failed
  · intro failed
    refine Except.bind_error.mpr (.inr ⟨(), only, Except.bind_error.mpr ?_⟩)
    exact failed.imp id fun ⟨pure, refused⟩ => ⟨(), pure, Except.bind_error.mpr (.inl refused)⟩

theorem rules_culprit (checked : kernel.check = .ok ())
    (forward : ∀ s ∈ kernel.body.statements, s.isReverseOnly = false) :
    FailsBy (kernel.Culprit signatures) ((kernel.reversal signatures).rules kernel.body) :=
  (Reversal.rules_fail (fun _ member => passesOn checked member) forward).congr fun _ => blames_iff checked

theorem reverse_impure_iff (checked : kernel.check = .ok ())
    (forward : ∀ s ∈ kernel.body.statements, s.isReverseOnly = false) {owner : String} :
    kernel.reverse signatures = .error (.impureCondition owner cond name) ↔
      owner = kernel.name ∧ kernel.FirstImpure cond name := by
  rw [reverse_error_iff forward, pureConditions_error_iff checked]
  constructor
  · intro failed
    rcases failed with ⟨_, _, same, first⟩ | ⟨-, refused⟩
    · cases same
      exact ⟨rfl, first⟩
    · -- the rules do not complain of conditions
      cases (rules_culprit checked forward).only _ _ refused
  · intro impure
    obtain ⟨rfl, first⟩ := impure
    exact .inl ⟨cond, name, rfl, first⟩

-- Where the conditions may be recomputed, a kernel is refused for values only.
theorem reverse_culprit (checked : kernel.check = .ok ())
    (forward : ∀ s ∈ kernel.body.statements, s.isReverseOnly = false)
    (none_ : ∀ cond name, .branch cond ∈ kernel.body.statements → ¬kernel.body.Rereads cond name)
    {e : KernelFault} (failed : kernel.reverse signatures = .error e) : kernel.Culprit signatures e := by
  rcases (reverse_error_iff forward).mp failed with impure | ⟨-, refused⟩
  · rw [(pureConditions_iff checked).mpr none_] at impure
    cases impure
  · exact (rules_culprit checked forward).only _ _ refused

theorem reverse_accepts_iff (checked : kernel.check = .ok ())
    (forward : ∀ s ∈ kernel.body.statements, s.isReverseOnly = false)
    (none_ : ∀ cond name, .branch cond ∈ kernel.body.statements → ¬kernel.body.Rereads cond name) :
    (∃ grad, kernel.reverse signatures = .ok grad) ↔ kernel.Reversible signatures := by
  rw [reversible_iff checked]
  constructor
  · intro accepted
    obtain ⟨grad, reversed⟩ := accepted
    obtain ⟨body, counter, numbered, -⟩ := reverse_ok.mp reversed
    obtain ⟨-, rules, ran, -⟩ := backward_ok numbered
    exact (rules_culprit checked forward).always _ _ _ ran
  · intro blameless
    cases reversed : kernel.reverse signatures with
    | ok grad => exact ⟨grad, rfl⟩
    | error e => exact absurd (reverse_culprit checked forward none_ reversed) (blameless e)

-- A kernel is refused for the first branch on a condition that is computed from overwritten data, if there
-- is such a branch. If there is none, it is reversed exactly if nothing that carries an adjoint lacks
-- derivatives and nothing that has to be recomputed is overwritten, and else it is refused for a value of
-- which this is not so.
theorem reverse_verdict (checked : kernel.check = .ok ())
    (forward : ∀ s ∈ kernel.body.statements, s.isReverseOnly = false) (signatures : Signatures) :
    (∀ owner cond name, kernel.reverse signatures = .error (.impureCondition owner cond name) ↔
      owner = kernel.name ∧ kernel.FirstImpure cond name) ∧
    ((∃ cond name, kernel.FirstImpure cond name) ↔
      ∃ cond name, .branch cond ∈ kernel.body.statements ∧ kernel.body.Rereads cond name) ∧
    ((∀ cond name, .branch cond ∈ kernel.body.statements → ¬kernel.body.Rereads cond name) →
      ((∃ grad, kernel.reverse signatures = .ok grad) ↔ kernel.Reversible signatures) ∧
      (¬kernel.Reversible signatures →
        ∃ e, kernel.reverse signatures = .error e ∧ kernel.Culprit signatures e)) := by
  refine ⟨fun _ _ _ => reverse_impure_iff checked forward, exists_firstImpure checked, fun none_ => ?_⟩
  have accepted : (∃ grad, kernel.reverse signatures = .ok grad) ↔ kernel.Reversible signatures :=
    reverse_accepts_iff checked forward none_
  refine ⟨accepted, fun irreversible => ?_⟩
  cases reversed : kernel.reverse signatures with
  | ok grad => exact absurd (accepted.mp ⟨grad, reversed⟩) irreversible
  | error e => exact ⟨e, rfl, reverse_culprit checked forward none_ reversed⟩

end Kernel

-- `y = x * y`, everywhere or where `y` is not zero: the gradient of `x` is that of `y` times the old `y`.
namespace Rescale

def update : Block ℚ :=
  .instr (.define ⟨3⟩ (.binary .mul ⟨1⟩ ⟨2⟩)) <| .instr (.store ⟨"y", [⟨0⟩]⟩ ⟨3⟩) .nil

def reading (rest : Block ℚ) : Block ℚ :=
  .instr (.define ⟨0⟩ (.index 0)) <| .instr (.define ⟨1⟩ (.load ⟨"x", [⟨0⟩]⟩)) <|
  .instr (.define ⟨2⟩ (.load ⟨"y", [⟨0⟩]⟩)) rest

def kernel : Kernel ℚ := .ofBody "rescale" (.ofExtents [2]) 0 (reading update)

def guarded : Kernel ℚ := .ofBody "guarded" (.ofExtents [2]) 0 (reading (.branch ⟨2⟩ update .nil .nil))

def signatures : Signatures := .ofList [("x", ⟨.f64, [2]⟩), ("y", ⟨.f64, [2]⟩)]

theorem reverse_verdict_rescale :
    kernel.check = .ok () ∧ (∀ s ∈ kernel.body.statements, s.isReverseOnly = false) ∧
      kernel.reverse signatures = .error (.overwrittenPrimal "rescale" ⟨2⟩ "y") ∧
      ¬kernel.Reversible signatures ∧ guarded.check = .ok () ∧ guarded.FirstImpure ⟨2⟩ "y" := by
  have checked : kernel.check = .ok () := by decide +kernel
  have forward : ∀ s ∈ kernel.body.statements, s.isReverseOnly = false := by decide +kernel
  have refused : kernel.reverse signatures = .error (.overwrittenPrimal "rescale" ⟨2⟩ "y") := by decide +kernel
  have checkedToo : guarded.check = .ok () := by decide +kernel
  have impure : guarded.reverse signatures = .error (.impureCondition "guarded" ⟨2⟩ "y") := by decide +kernel
  obtain ⟨-, -, verdict⟩ := Kernel.reverse_verdict checked forward signatures
  have unbranched : ∀ cond, .branch cond ∉ kernel.body.statements := fun cond => by
    simp [kernel, Kernel.ofBody, reading, update, Block.statements]
  obtain ⟨accepted, -⟩ := verdict fun cond _ member => absurd member (unbranched cond)
  obtain ⟨first, -⟩ := Kernel.reverse_verdict checkedToo (by decide +kernel) signatures
  refine ⟨checked, forward, refused, fun reversible => ?_, checkedToo, ((first _ _ _).mp impure).2⟩
  obtain ⟨grad, reversed⟩ := accepted.mpr reversible
  rw [refused] at reversed
  cases reversed

end Rescale

end FieldKernel
