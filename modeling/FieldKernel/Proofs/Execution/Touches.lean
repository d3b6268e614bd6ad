import FieldKernel.Proofs.Execution.Footprint
import FieldKernel.Proofs.Field.Slots

-- What a run of a block touches in the table, element by element; it depends on these slots and on no other.
namespace FieldKernel

variable {α : Type}

-- A use of one element of a field.
structure Touch where
  use : Use
  field : String
  position : Nat
  deriving DecidableEq

namespace Touch

def slot (touch : Touch) : Slot :=
  match touch.use with
  | .read | .write => .data touch.field touch.position
  | .gradRead | .gradWrite => .grad touch.field touch.position

def writes (touch : Touch) : Bool :=
  match touch.use with
  | .write | .gradWrite => true
  | .read | .gradRead => false

end Touch

structure Machine.AgreeAt (slots : Slot → Prop) (m n : Machine α) : Prop where
  table : m.table.AgreeAt slots n.table
  values : n.values = m.values
  adjoints : n.adjoints = m.adjoints

theorem Machine.AgreeAt.agreeIn {slots : Slot → Prop} {m n : Machine α} (agree : m.AgreeAt slots n) :
    m.AgreeIn (fun _ => False) (fun _ => False) n := ⟨agree.table.agreeIn, agree.values, agree.adjoints⟩

theorem Machine.AgreeAt.value? {slots : Slot → Prop} {m n : Machine α} (agree : m.AgreeAt slots n)
    (v : ValueId) : n.value? v = m.value? v := by
  rw [Machine.value?, Machine.value?, agree.values]

def Machine.SameTable (m n : Machine α) : Prop := n.table = m.table

theorem Exec.respects_keeping {β : Type} {slots : Slot → Prop} {x : Exec α β}
    (keeps : Moves Machine.SameTable x)
    (respects : Respects (Machine.AgreeIn (fun _ => False) fun _ => False) x) :
    Respects (Machine.AgreeAt slots) x := by
  intro m n agree
  have left := keeps m
  have right := keeps n
  have ran := respects m n agree.agreeIn
  revert left right ran
  generalize x m = a, x n = b
  intro left right ran
  have table : ∀ m' n' : Machine α, m.SameTable m' → n.SameTable n' → m'.table.AgreeAt slots n'.table := by
    intro m' n' left right
    rw [left, right]
    exact agree.table
  cases ran with
  | ok states same => exact .ok ⟨table _ _ left right, states.values, states.adjoints⟩ same
  | error e states => exact .error e ⟨table _ _ left right, states.values, states.adjoints⟩

theorem Quiet.sameTable {β : Type} {x : Exec α β} (quiet : Quiet x) : Moves Machine.SameTable x :=
  fun m => congrArg Machine.table (quiet m)

def Backs {ε σ β : Type} (x : EStateM ε σ β) : Prop := ∀ ⦃s e s'⦄, x s = .error e s' → s' = s

theorem backs_modify {ε σ : Type} (f : σ → σ) : Backs (modify f : EStateM ε σ PUnit) :=
  fun _ _ _ failed => nomatch failed

theorem Quiet.bind_backs {ε σ β γ : Type} {x : EStateM ε σ β} {f : β → EStateM ε σ γ} (first : Quiet x)
    (second : ∀ b, Backs (f b)) : Backs (x >>= f) := by
  intro s e s' failed
  rcases bind_error.mp failed with here | ⟨b, s₁, ran, there⟩
  · exact first.error here
  · have same : s₁ = s := first.ok ran
    subst same
    exact second b there

def Unwritten (touches : List Touch) (slot : Slot) : Prop :=
  ∀ touch ∈ touches, touch.writes = true → touch.slot ≠ slot

theorem unwritten_append {a b : List Touch} {slot : Slot} :
    Unwritten (a ++ b) slot ↔ Unwritten a slot ∧ Unwritten b slot := List.forall_mem_append

variable [Scalar α]

def Machine.touch? (m : Machine α) (i : Instr α) : Option Touch :=
  i.use?.bind fun use => i.place?.bind fun place => (m.position? place).map (⟨use.1, use.2, ·⟩)

theorem Machine.mem_touch? {m : Machine α} {i : Instr α} {use : Use} {place : Place} {p : Nat}
    (uses : i.use? = some (use, place.field)) (places : i.place? = some place)
    (at_ : m.position? place = some p) : ⟨use, place.field, p⟩ ∈ m.touch? i := by
  simp [touch?, uses, places, at_]

namespace Frame

variable (frame : Frame α)

-- What a run of a block touches, from the first statement to the last one it gets to. An instruction that
-- fails writes nothing.
def touches : Block α → Machine α → List Touch
  | .nil, _ => []
  | .instr i rest, m =>
    match frame.instr i m with
    | .ok _ m' => (m.touch? i).toList ++ touches rest m'
    | .error _ _ => (m.touch? i).toList.filter fun touch => !touch.writes
  | .branch cond onTrue onFalse rest, m =>
    match m.value? cond with
    | none => []
    | some x =>
      let inner := if Scalar.isZero x then touches onFalse m else touches onTrue m
      match frame.block (taken x onTrue onFalse) m with
      | .ok _ m' => inner ++ touches rest m'
      | .error _ _ => inner

variable {frame} {m n m' : Machine α} {slots : Slot → Prop}

theorem touches_ok {i : Instr α} (ran : frame.instr i m = .ok () m') (rest : Block α) :
    frame.touches (.instr i rest) m = (m.touch? i).toList ++ frame.touches rest m' := by
  rw [touches, ran]

theorem touches_error {i : Instr α} {e : KernelFault} (failed : frame.instr i m = .error e m')
    (rest : Block α) :
    frame.touches (.instr i rest) m = (m.touch? i).toList.filter fun touch => !touch.writes := by
  rw [touches, failed]

theorem touches_branch {cond : ValueId} {x : α} (value : m.value? cond = some x)
    (onTrue onFalse rest : Block α) : frame.touches (.branch cond onTrue onFalse rest) m =
      frame.touches (taken x onTrue onFalse) m ++
        match frame.block (taken x onTrue onFalse) m with
        | .ok _ m' => frame.touches rest m'
        | .error _ _ => [] := by
  have inner : (if Scalar.isZero x then frame.touches onFalse m else frame.touches onTrue m) =
      frame.touches (taken x onTrue onFalse) m := by
    unfold taken
    split <;> rfl
  rw [touches, value]
  simp only [inner]
  cases frame.block (taken x onTrue onFalse) m with
  | ok => rfl
  | error => exact (List.append_nil _).symm

theorem reads_touched {i : Instr α} {rest : Block α} {touch : Touch} (here : touch ∈ m.touch? i)
    (reads : touch.writes = false) : touch ∈ frame.touches (.instr i rest) m := by
  have listed : touch ∈ (m.touch? i).toList := Option.mem_toList.mpr here
  rw [touches]
  split
  · exact List.mem_append_left _ listed
  · exact List.mem_filter.mpr ⟨listed, by rw [reads]; rfl⟩

theorem touch?_agree (agree : m.AgreeAt slots n) (i : Instr α) : n.touch? i = m.touch? i := by
  have positions : ∀ place, n.position? place = m.position? place := fun place =>
    Machine.position?_congr agree.table.agreeIn fun v _ => agree.value? v
  simp only [Machine.touch?, positions]

variable (frame)

omit [Scalar α] in
theorem keeps_assign (v : ValueId) (x : α) : Moves Machine.SameTable (frame.assign v x) := by
  intro m
  rw [assign, run_get_bind]
  split <;> rfl

theorem keeps_addAdjoint (v : ValueId) (delta : α) : Moves Machine.SameTable (frame.addAdjoint v delta) :=
  (frame.quiet_adjoint v).moves (fun _ => rfl) fun _ => Moves.modify fun _ => rfl

theorem respects_slots_coordinates (place : Place) :
    Respects (Machine.AgreeAt slots) (frame.coordinates place) :=
  Exec.respects_keeping (frame.quiet_coordinates place).sameTable (frame.respects_coordinates place)

omit [Scalar α] in
theorem respects_slots_value (v : ValueId) : Respects (Machine.AgreeAt slots) (frame.value v) :=
  Exec.respects_keeping (frame.quiet_value v).sameTable (frame.respects_value v)

omit [Scalar α] in
theorem respects_slots_adjoint (v : ValueId) : Respects (Machine.AgreeAt slots) (frame.adjoint v) :=
  Exec.respects_keeping (frame.quiet_adjoint v).sameTable (frame.respects_adjoint v)

theorem respects_slots_addAdjoint (v : ValueId) (delta : α) :
    Respects (Machine.AgreeAt slots) (frame.addAdjoint v delta) :=
  Exec.respects_keeping (frame.keeps_addAdjoint v delta) (frame.respects_addAdjoint v delta)

omit [Scalar α] in
theorem respects_slots_lift {β : Type} (x : Except KernelFault β) :
    Respects (Machine.AgreeAt slots) (Exec.lift x : Exec α β) :=
  Exec.respects_keeping (quiet_lift x).sameTable (Exec.respects_lift x)

omit [Scalar α] in
theorem respects_slots_change {f : FieldTable α → FieldTable α}
    (step : ∀ t u, t.AgreeAt slots u → (f t).AgreeAt slots (f u)) :
    Respects (Machine.AgreeAt slots) (Exec.change f) :=
  Respects.modify fun _ _ agree => ⟨step _ _ agree.table, agree.values, agree.adjoints⟩

variable {frame}

theorem abreast_coordinates {β : Type} {place : Place} {f : List Int → Exec α β} (agree : m.AgreeAt slots n)
    (each : ∀ index n', place.index.mapM m.coordinate? = some index → m.AgreeAt slots n' →
      Abreast (Machine.AgreeAt slots) Eq (f index m) (f index n')) :
    Abreast (Machine.AgreeAt slots) Eq ((frame.coordinates place >>= f) m) ((frame.coordinates place >>= f) n) := by
  refine (frame.respects_slots_coordinates place m n agree).bind fun index _ m' n' ran agree' same => ?_
  obtain ⟨held, rfl⟩ := coordinates_ok.mp ran
  subst same
  exact each index n' held agree'

theorem abreast_expr {dst : ValueId} {e : Expr α} (agree : m.AgreeAt slots n)
    (reads : ∀ touch ∈ m.touch? (.define dst e), touch.writes = false → slots touch.slot) :
    Abreast (Machine.AgreeAt slots) Eq (frame.expr e m) (frame.expr e n) := by
  cases e with
  | load place =>
    refine abreast_coordinates agree fun index n' held agree' => ?_
    have counts : ∀ p, m.table.locate place.field index = .ok p → slots (.data place.field p) := by
      intro p at_
      have found : m.position? place = some p := located_ok.mp ⟨index, held, at_⟩
      exact reads _ (Machine.mem_touch? rfl rfl found) rfl
    rw [run_get_bind, run_get_bind, agree'.table.read counts]
    exact respects_slots_lift _ m n' agree'
  | const | index | arg | binary | unary | compare =>
    refine Exec.respects_keeping (frame.quiet_expr _).sameTable (frame.respects_expr ?_) m n agree
    intro place load
    cases load

theorem abreast_instr {i : Instr α} (agree : m.AgreeAt slots n)
    (reads : ∀ touch ∈ m.touch? i, touch.writes = false → slots touch.slot) :
    Abreast (Machine.AgreeAt slots) Eq (frame.instr i m) (frame.instr i n) := by
  cases i with
  | define dst e =>
    refine (abreast_expr agree reads).bind fun x _ m' n' _ agree' same => ?_
    subst same
    exact Exec.respects_keeping (frame.keeps_assign dst x) (frame.respects_assign dst x) m' n' agree'
  | store place v =>
    refine abreast_coordinates agree fun index n' held agree' => ?_
    refine Respects.bind (frame.respects_slots_value v) (fun x => ?_) m n' agree'
    refine .get_bind (fun m n agree => ?_) fun m => .bind (respects_slots_lift _) fun position => ?_
    · rw [agree.table.agreeIn.locate]
    · exact respects_slots_change fun t u tables => tables.setAt place.field position x
  | readGrad target place =>
    refine abreast_coordinates agree fun index n' held agree' => ?_
    have counts : ∀ p, m.table.locate place.field index = .ok p → slots (.grad place.field p) := by
      intro p at_
      have found : m.position? place = some p := located_ok.mp ⟨index, held, at_⟩
      exact reads _ (Machine.mem_touch? rfl rfl found) rfl
    rw [run_get_bind, run_get_bind, agree'.table.readGrad counts]
    refine Respects.bind (respects_slots_lift _) (fun grad => ?_) m n' agree'
    exact frame.respects_slots_addAdjoint target grad
  | propagate target source scale =>
    refine Respects.bind ?_ (fun factor => ?_) m n agree
    · exact Exec.respects_keeping (frame.quiet_factor scale).sameTable (frame.respects_factor scale)
    · exact .bind (frame.respects_slots_adjoint source) fun _ => frame.respects_slots_addAdjoint target _
  | addGrad place source =>
    refine abreast_coordinates agree fun index n' held agree' => ?_
    refine Respects.bind (frame.respects_slots_adjoint source) (fun delta => ?_) m n' agree'
    refine .get_bind (fun m n agree => ?_) fun m => .bind (respects_slots_lift _) fun position => ?_
    · rw [agree.table.gradLocate]
    · exact respects_slots_change fun t u tables => tables.addGradAt place.field position delta

-- A whole block. The induction is on the block: a branch is read off a register, so both runs take it
-- alike, and what a statement reads counts because the run touches it.
theorem abreast_block {block : Block α} (agree : m.AgreeAt slots n)
    (touched : ∀ touch ∈ frame.touches block m, slots touch.slot) :
    frame.touches block n = frame.touches block m ∧
      Abreast (Machine.AgreeAt slots) Eq (frame.block block m) (frame.block block n) := by
  induction block generalizing m n with
  | nil => exact ⟨rfl, .ok agree rfl⟩
  | instr i rest ih =>
    have here : Abreast (Machine.AgreeAt slots) Eq (frame.instr i m) (frame.instr i n) :=
      abreast_instr agree fun touch used reads => touched touch (reads_touched used reads)
    have same := touch?_agree agree i
    rw [Frame.block, run_bind, run_bind]
    rcases here.either with ⟨_, _, m', n', ran, ran', agree', -⟩ | ⟨e, m', n', ran, ran', agree'⟩
    · have later := ih agree' fun touch used => touched touch (by
        rw [touches_ok ran]
        exact List.mem_append_right _ used)
      rw [touches_ok ran, touches_ok ran', same, later.1, ran, ran']
      exact ⟨rfl, later.2⟩
    · rw [touches_error ran, touches_error ran', same, ran, ran']
      exact ⟨rfl, .error e agree'⟩
  | branch cond onTrue onFalse rest ihTrue ihFalse ihRest =>
    have read : n.value? cond = m.value? cond := agree.value? cond
    rw [block_branch]
    cases value : m.value? cond with
    | none =>
      rw [value] at read
      refine ⟨by rw [touches, touches, value, read], ?_⟩
      refine (frame.respects_slots_value cond m n agree).bind fun x _ m' n' ran _ _ => ?_
      have held := (value_ok.mp ran).1
      cases value.symm.trans held
    | some x =>
      rw [value] at read
      have inner : frame.touches (taken x onTrue onFalse) n = frame.touches (taken x onTrue onFalse) m ∧
          Abreast (Machine.AgreeAt slots) Eq (frame.block (taken x onTrue onFalse) m)
            (frame.block (taken x onTrue onFalse) n) := by
        have counts : ∀ touch ∈ frame.touches (taken x onTrue onFalse) m, slots touch.slot :=
          fun touch used => touched touch (by
            rw [touches_branch value]
            exact List.mem_append_left _ used)
        unfold taken at counts ⊢
        split at counts
        · next zero =>
          rw [if_pos zero]
          exact ihFalse agree counts
        · next other =>
          rw [if_neg other]
          exact ihTrue agree counts
      have valueM : frame.value cond m = .ok x m := value_ok.mpr ⟨value, rfl⟩
      have valueN : frame.value cond n = .ok x n := value_ok.mpr ⟨read, rfl⟩
      rw [touches_branch value] at touched
      rw [touches_branch value, touches_branch read, inner.1, bind_after valueM, bind_after valueN,
        run_bind, run_bind]
      rcases inner.2.either with ⟨_, _, m', n', ran, ran', agree', -⟩ | ⟨e, m', n', ran, ran', agree'⟩
      · rw [ran] at touched
        have later := ihRest agree' fun touch used => touched touch (List.mem_append_right _ used)
        rw [ran, ran']
        exact ⟨congrArg (_ ++ ·) later.1, later.2⟩
      · rw [ran, ran']
        exact ⟨rfl, .error e agree'⟩

theorem backs_instr (i : Instr α) : Backs (frame.instr i) := by
  have get_ : Quiet (get : Exec α (Machine α)) := fun _ => rfl
  cases i with
  | define dst e =>
    refine (frame.quiet_expr e).bind_backs fun x m e m' failed => ?_
    rw [assign, run_get_bind] at failed
    split at failed
    · cases failed
    · cases failed
      rfl
  | store place v =>
    refine (frame.quiet_coordinates place).bind_backs fun _ => (frame.quiet_value v).bind_backs fun _ => ?_
    exact get_.bind_backs fun _ => (quiet_lift _).bind_backs fun _ => backs_modify _
  | readGrad target place =>
    refine (frame.quiet_coordinates place).bind_backs fun _ => get_.bind_backs fun _ => ?_
    exact (quiet_lift _).bind_backs fun _ => (frame.quiet_adjoint target).bind_backs fun _ => backs_modify _
  | propagate target source scale =>
    refine (frame.quiet_factor scale).bind_backs fun _ => (frame.quiet_adjoint source).bind_backs fun _ => ?_
    exact (frame.quiet_adjoint target).bind_backs fun _ => backs_modify _
  | addGrad place source =>
    refine (frame.quiet_coordinates place).bind_backs fun _ => (frame.quiet_adjoint source).bind_backs fun _ => ?_
    exact get_.bind_backs fun _ => (quiet_lift _).bind_backs fun _ => backs_modify _

theorem Steps.spares {i : Instr α} (step : frame.Steps m i m') :
    m.table.AgreeAt (Unwritten (m.touch? i).toList) m'.table := by
  have written : ∀ touch ∈ m.touch? i, touch.writes = true → ∀ slot,
      Unwritten (m.touch? i).toList slot → slot ≠ touch.slot := fun touch here writes slot spared same =>
    spared touch (Option.mem_toList.mpr here) writes same.symm
  cases step with
  | @store place v p x at_ value =>
    have here : ⟨.write, place.field, p⟩ ∈ m.touch? (.store place v) := Machine.mem_touch? rfl rfl at_
    exact (m.table.agreeAt_setAt place.field p x).weaken (written _ here rfl)
  | @addGrad place source p a at_ graded from_ =>
    have here : ⟨.gradWrite, place.field, p⟩ ∈ m.touch? (.addGrad place source) :=
      Machine.mem_touch? rfl rfl at_
    exact (m.table.agreeAt_addGradAt place.field p a).weaken (written _ here rfl)
  | define | readGrad | propagate => exact .refl _

theorem block_spares (block : Block α) (m : Machine α) :
    m.table.AgreeAt (Unwritten (frame.touches block m)) (ended (frame.block block m)).table := by
  induction block generalizing m with
  | nil => exact .refl _
  | instr i rest ih =>
    rw [Frame.block, run_bind]
    cases ran : frame.instr i m with
    | error e m' =>
      rw [frame.backs_instr i ran]
      exact .refl _
    | ok _ m' =>
      have here := (instr_exact.mp ran).spares
      rw [touches_ok ran]
      exact (here.weaken fun _ spared => (unwritten_append.mp spared).1).trans
        ((ih m').weaken fun _ spared => (unwritten_append.mp spared).2)
  | branch cond onTrue onFalse rest ihTrue ihFalse ihRest =>
    have inner : ∀ (x : α) (m : Machine α), m.table.AgreeAt (Unwritten (frame.touches (taken x onTrue onFalse) m))
        (ended (frame.block (taken x onTrue onFalse) m)).table := by
      intro x m
      unfold taken
      split
      · exact ihFalse m
      · exact ihTrue m
    rw [block_branch, run_bind]
    cases read : frame.value cond m with
    | error e m' =>
      have same : m' = m := (frame.quiet_value cond).error read
      rw [same]
      exact .refl _
    | ok x m' =>
      obtain ⟨value, rfl⟩ := value_ok.mp read
      have here := inner x m'
      rw [touches_branch value]
      dsimp only
      rw [run_bind]
      cases ran : frame.block (taken x onTrue onFalse) m' with
      | error e m₁ =>
        rw [ran] at here
        exact here.weaken fun _ spared => (unwritten_append.mp spared).1
      | ok _ m₁ =>
        rw [ran] at here
        exact (here.weaken fun _ spared => (unwritten_append.mp spared).1).trans
          ((ihRest m₁).weaken fun _ spared => (unwritten_append.mp spared).2)

end Frame

end FieldKernel
