import Mathlib.Data.Finset.Insert
import FieldKernel.Proofs.Field.Location
import FieldKernel.Proofs.Reverse.Pass

-- Tapes agree with the analysis of the kernel that recorded them.
namespace FieldKernel

variable {α : Type} [Scalar α]

namespace Event

def dst? : Event α → Option ValueId
  | plain dst | load dst _ _ | binary dst _ _ _ _ _ | unary dst _ _ _ => some dst
  | store _ _ _ => none

def loaded? : Event α → Option (String × Nat)
  | load _ field position => some (field, position)
  | _ => none

def stored? : Event α → Option (String × Nat)
  | store field position _ => some (field, position)
  | _ => none

def known (before : Finset ValueId) (e : Event α) : Finset ValueId :=
  match e.dst? with
  | some dst => insert dst before
  | none => before

omit [Scalar α] in
theorem mem_known {before : Finset ValueId} {e : Event α} {v : ValueId} :
    v ∈ e.known before ↔ v ∈ before ∨ v ∈ e.dst? := by
  unfold known
  cases e.dst? with
  | none => simp
  | some dst => simp [eq_comm, or_comm]

end Event

namespace Reversal

variable (r : Reversal α)

def isActive (v : ValueId) : Prop := v ∈ r.activity.active

structure Flows (dst : ValueId) (operands : List ValueId) : Prop where
  active : ∀ v ∈ operands, r.isActive v → r.isActive dst
  needs : r.needs dst = true → ∀ v ∈ operands, r.isActive v → r.needs v = true

def Fits (real : String → Bool) (locations : Finset (String × Nat)) (known : Finset ValueId) :
    Event α → Prop
  | .plain dst => dst ∉ known
  | .load dst field position => dst ∉ known ∧ (r.isActive dst ↔ real field = true) ∧
      (real field = true → (field, position) ∈ locations)
  | .store field position v => v ∈ known ∧ r.signatures.isReal field = real field ∧
      (real field = true → r.isActive v → r.needs v = true) ∧
      r.activity.written.contains field = true ∧ (real field = true → (field, position) ∈ locations)
  | .binary dst op lhs rhs _ _ => dst ∉ known ∧ lhs ∈ known ∧ rhs ∈ known ∧ r.Flows dst [lhs, rhs] ∧
      (r.needs dst = true → op ≠ .mod ∧ op ≠ .floorDiv)
  | .unary dst op operand _ => dst ∉ known ∧ operand ∈ known ∧ (op ≠ .sgn → r.Flows dst [operand]) ∧
      (r.needs dst = true → op ≠ .sgn)

def TapeFits (real : String → Bool) (locations : Finset (String × Nat)) :
    Finset ValueId → Tape α → Prop
  | _, [] => True
  | known, e :: rest => r.Fits real locations known e ∧ TapeFits real locations (e.known known) rest

end Reversal

def Tape.known (before : Finset ValueId) (tape : Tape α) : Finset ValueId :=
  tape.foldl (fun known e => e.known known) before

omit [Scalar α] in
theorem Tape.known_append (before : Finset ValueId) (first second : Tape α) :
    Tape.known before (first ++ second) = second.known (first.known before) := List.foldl_append

namespace Reversal

variable {r : Reversal α} {real : String → Bool} {locations : Finset (String × Nat)}
  {known : Finset ValueId}

omit [Scalar α] in
theorem tapeFits_append {first second : Tape α} : r.TapeFits real locations known (first ++ second) ↔
    r.TapeFits real locations known first ∧ r.TapeFits real locations (first.known known) second := by
  induction first generalizing known with
  | nil => simp [TapeFits, Tape.known]
  | cons e rest ih =>
    simp only [List.cons_append, TapeFits, ih, Tape.known, List.foldl_cons, and_assoc]

-- What the analysis of a kernel settles about an instruction of its body.
def Analysed (r : Reversal α) (real : String → Bool) : Instr α → Prop
  | .define dst (.load place) => r.isActive dst ↔ real place.field = true
  | .define dst (.binary op lhs rhs) => r.Flows dst [lhs, rhs] ∧
      (r.needs dst = true → op ≠ .mod ∧ op ≠ .floorDiv)
  | .define dst (.unary op operand) => (op ≠ .sgn → r.Flows dst [operand]) ∧
      (r.needs dst = true → op ≠ .sgn)
  | .store place v => r.signatures.isReal place.field = real place.field ∧
      (real place.field = true → r.isActive v → r.needs v = true) ∧
      r.activity.written.contains place.field = true
  | _ => True

variable {f : Frame α} {m m' : Machine α} {table : FieldTable α} {writes gradWrites : String → Prop}

theorem record_loads {i : Instr α} {e : Event α} (recorded : e ∈ m.record i) {l : String × Nat}
    (loaded : l ∈ e.loaded?) : i.use? = some (.read, l.1) := by
  cases i with
  | define dst expr =>
    cases expr with
    | load place =>
      simp only [Machine.record, List.mem_map] at recorded
      obtain ⟨p, -, rfl⟩ := recorded
      cases loaded
      rfl
    | binary op lhs rhs =>
      simp only [Machine.record] at recorded
      split at recorded
      · cases List.mem_singleton.mp recorded
        cases loaded
      · cases recorded
    | unary op operand =>
      simp only [Machine.record, List.mem_map] at recorded
      obtain ⟨a, -, rfl⟩ := recorded
      cases loaded
    | const | index | arg | compare =>
      cases List.mem_singleton.mp recorded
      cases loaded
  | store place v =>
    simp only [Machine.record, List.mem_map] at recorded
    obtain ⟨p, -, rfl⟩ := recorded
    cases loaded
  | readGrad | propagate | addGrad => cases recorded

theorem trace_loads {block : Block α} {e : Event α} (recorded : e ∈ f.trace block m) {l : String × Nat}
    (loaded : l ∈ e.loaded?) : block.Uses .read l.1 := by
  induction block generalizing m with
  | nil => cases recorded
  | instr i rest ih =>
    rw [Frame.trace] at recorded
    split at recorded
    · rcases List.mem_append.mp recorded with here | later
      · exact ⟨i, List.mem_cons_self, record_loads here loaded⟩
      · exact (ih later).inside (List.subset_cons_self _ _)
    · cases recorded
  | branch cond onTrue onFalse rest ihTrue ihFalse ihRest =>
    have branched : ∀ (x : α), e ∈ (if Scalar.isZero x then f.trace onFalse m else f.trace onTrue m) →
        (Block.branch cond onTrue onFalse rest).Uses .read l.1 := by
      intro x member
      split at member
      · exact (ihFalse member).inside fun s inside => by simp [Block.statements, inside]
      · exact (ihTrue member).inside fun s inside => by simp [Block.statements, inside]
    rw [Frame.trace] at recorded
    split at recorded
    · cases recorded
    · next x _ =>
      dsimp only at recorded
      split at recorded
      · rcases List.mem_append.mp recorded with inner | later
        · exact branched x inner
        · exact (ihRest later).inside fun s inside => by simp [Block.statements, inside]
      · exact branched x recorded

theorem position_located (alike : table.Altered writes gradWrites m.table) {place : Place} {p : Nat}
    (at_ : m.position? place = some p) (real : table.isReal place.field = true) :
    (place.field, p) ∈ table.realLocations := by
  obtain ⟨index, field, -, found, located⟩ := Machine.position?_eq_some.mp at_
  obtain ⟨before, stored, changed⟩ := alike.find_back found
  refine FieldTable.mem_realLocations.mpr ⟨before, stored, ?_, ?_⟩
  · simpa [FieldTable.isReal, stored] using real
  · rw [← changed.shape]
    exact (Field.locate_ok.mp located).2

theorem record_fits {i : Instr α} (step : f.Steps m i m') (alike : table.Altered writes gradWrites m.table)
    (analysed : r.Analysed table.isReal i) (operands : ∀ v ∈ i.operands, v ∈ known)
    (fresh : ∀ v ∈ i.dst?, v ∉ known) :
    r.TapeFits table.isReal table.realLocations known (m.record i) ∧
      ∀ v, v ∈ (m.record i).known known ↔ v ∈ known ∨ v ∈ i.dst? := by
  have single : ∀ e : Event α, m.record i = [e] → r.Fits table.isReal table.realLocations known e →
      e.dst? = i.dst? → r.TapeFits table.isReal table.realLocations known (m.record i) ∧
        ∀ v, v ∈ (m.record i).known known ↔ v ∈ known ∨ v ∈ i.dst? := by
    intro e recorded fits same
    rw [recorded, ← same]
    exact ⟨⟨fits, trivial⟩, fun v => Event.mem_known⟩
  cases step with
  | @define dst e x evaluates room =>
    cases e with
    | load place =>
      obtain ⟨field, p, -, at_, -⟩ := evaluates
      refine single (.load dst place.field p) (by simp [Machine.record, at_]) ?_ rfl
      exact ⟨fresh dst rfl, analysed, position_located alike at_⟩
    | binary op lhs rhs =>
      obtain ⟨a, b, left, right, -⟩ := evaluates
      refine single (.binary dst op lhs rhs a b) (by simp [Machine.record, left, right]) ?_ rfl
      exact ⟨fresh dst rfl, operands lhs (by simp [Instr.operands, Expr.operands]),
        operands rhs (by simp [Instr.operands, Expr.operands]), analysed⟩
    | unary op operand =>
      obtain ⟨a, value, -⟩ := evaluates
      refine single (.unary dst op operand a) (by simp [Machine.record, value]) ?_ rfl
      exact ⟨fresh dst rfl, operands operand (by simp [Instr.operands, Expr.operands]), analysed⟩
    | const | index | arg | compare => exact single (.plain dst) rfl (fresh dst rfl) rfl
  | @store place v p x at_ value =>
    refine single (.store place.field p v) (by simp [Machine.record, at_]) ?_ rfl
    obtain ⟨same, needs, written⟩ := analysed
    exact ⟨operands v (by simp [Instr.operands]), same, needs, written, position_located alike at_⟩
  | readGrad | propagate | addGrad => exact ⟨trivial, fun v => by simp [Machine.record, Tape.known, Instr.dst?]⟩

theorem trace_fits {block : Block α} {limits : Limits} {visible defined : List ValueId}
    (analysed : ∀ i, .instr i ∈ block.statements → r.Analysed table.isReal i)
    (formed : block.WellFormed limits visible defined) (runs : f.Runs m block m')
    (alike : table.Altered (fun _ => True) (fun _ => True) m.table) (seen : ∀ v ∈ visible, v ∈ known)
    (old : ∀ v ∈ known, v ∈ defined) :
    r.TapeFits table.isReal table.realLocations known (f.trace block m) ∧
      (∀ v ∈ known, v ∈ (f.trace block m).known known) ∧
      ∀ v ∈ (f.trace block m).known known, v ∈ known ∨ v ∈ block.assigned := by
  induction block generalizing visible defined known m m' with
  | nil => exact ⟨trivial, fun v => id, fun v => .inl⟩
  | instr i rest ih =>
    obtain ⟨operands, -, fresh, formedRest⟩ := formed
    cases runs with
    | instr step others =>
      obtain ⟨fits, defines⟩ := record_fits step alike (analysed i List.mem_cons_self)
        (fun v used => seen v (operands v used)) fun v dst inside => fresh v dst (old v inside)
      have later : ∀ v ∈ i.dst?.toList ++ visible, v ∈ (m.record i).known known := by
        intro v member
        rw [defines]
        exact (List.mem_append.mp member).elim (fun here => .inr (Option.mem_toList.mp here))
          fun before => .inl (seen v before)
      have oldLater : ∀ v ∈ (m.record i).known known, v ∈ i.dst?.toList ++ defined := by
        intro v member
        rw [List.mem_append, Option.mem_toList]
        exact ((defines v).mp member).elim (fun before => .inr (old v before)) .inl
      have moved : m.table.Altered _ _ _ := (Frame.Runs.instr step .nil).altered.table
      obtain ⟨fitsRest, keeps, within⟩ := ih (fun i member => analysed i (List.mem_cons_of_mem _ member))
        formedRest others (alike.trans (moved.mono (fun _ _ => trivial) fun _ _ => trivial)) later oldLater
      rw [Frame.trace_instr step, tapeFits_append, Tape.known_append]
      refine ⟨⟨fits, fitsRest⟩, fun v before => keeps v ((defines v).mpr (.inl before)), fun v after => ?_⟩
      rw [Block.assigned_instr, List.mem_append, Option.mem_toList]
      rcases within v after with before | inside
      · exact ((defines v).mp before).imp id .inl
      · exact .inr (.inr inside)
  | branch cond onTrue onFalse rest ihTrue ihFalse ihRest =>
    obtain ⟨-, formedTrue, formedFalse, formedRest⟩ := formed
    cases runs with
    | @branch _ m₁ _ _ x _ _ _ value inner others =>
      obtain ⟨fits, keeps, within⟩ : r.TapeFits table.isReal table.realLocations known
          (f.trace (Frame.taken x onTrue onFalse) m) ∧
          (∀ v ∈ known, v ∈ (f.trace (Frame.taken x onTrue onFalse) m).known known) ∧
          ∀ v ∈ (f.trace (Frame.taken x onTrue onFalse) m).known known,
            v ∈ known ∨ v ∈ onTrue.assigned ++ onFalse.assigned := by
        unfold Frame.taken at inner ⊢
        split at inner
        · next zero =>
          rw [if_pos zero]
          obtain ⟨fits, keeps, within⟩ := ihFalse (fun i member => analysed i (Block.onFalse_subset member))
            formedFalse inner alike seen fun v member => List.mem_append_right _ (old v member)
          exact ⟨fits, keeps, fun v after => (within v after).imp id (List.mem_append_right _)⟩
        · next nonzero =>
          rw [if_neg nonzero]
          obtain ⟨fits, keeps, within⟩ := ihTrue (fun i member => analysed i (Block.onTrue_subset member))
            formedTrue inner alike seen old
          exact ⟨fits, keeps, fun v after => (within v after).imp id (List.mem_append_left _)⟩
      obtain ⟨fitsRest, keepsRest, withinRest⟩ := ihRest
        (fun i member => analysed i (Block.rest_subset member)) formedRest others
        (alike.trans (inner.altered.table.mono (fun _ _ => trivial) fun _ _ => trivial))
        (fun v member => keeps v (seen v member)) fun v member => by
          rw [List.mem_append, List.mem_append]
          rcases within v member with before | inside
          · exact .inr (.inr (old v before))
          · exact (List.mem_append.mp inside).elim (fun first => .inr (.inl first)) .inl
      rw [Frame.trace_branch value inner, tapeFits_append, Tape.known_append]
      refine ⟨⟨fits, fitsRest⟩, fun v before => keepsRest v (keeps v before), fun v after => ?_⟩
      rw [Block.assigned_branch, List.mem_append]
      rcases withinRest v after with before | inside
      · exact (within v before).imp id .inl
      · exact .inr (.inr inside)

theorem rules_ran {block : Block α} {rules : Block α} {k k' : Nat}
    (ran : (r.rules block).run k = .ok (rules, k')) {i : Instr α} (member : .instr i ∈ block.statements) :
    ∃ l code l', (r.instr i).run l = .ok (code, l') := by
  induction block generalizing rules k k' with
  | nil => cases member
  | instr j rest ih =>
    obtain ⟨later, l, ranRest, others⟩ := Fresh.run_bind_ok.mp ran
    obtain ⟨code, l', ranCode, -⟩ := Fresh.run_bind_ok.mp others
    rcases List.mem_cons.mp member with same | inRest
    · cases same
      exact ⟨l, code, l', ranCode⟩
    · exact ih ranRest inRest
  | branch cond onTrue onFalse rest ihTrue ihFalse ihRest =>
    obtain ⟨later, l, ranRest, others⟩ := Fresh.run_bind_ok.mp ran
    obtain ⟨inTrue, l', ranTrue, others⟩ := Fresh.run_bind_ok.mp others
    obtain ⟨inFalse, l'', ranFalse, -⟩ := Fresh.run_bind_ok.mp others
    simp only [Block.statements, List.mem_cons, reduceCtorEq, false_or, List.mem_append] at member
    rcases member with (first | second) | inRest
    · exact ihTrue ranTrue first
    · exact ihFalse ranFalse second
    · exact ihRest ranRest inRest

end Reversal

namespace Kernel

variable {δ : Type} [Digest δ] {kernel grad : Kernel α} {table : FieldTable α} {bound : Bound α δ}

theorem isReal_bound (binds : kernel.bind table = .ok bound) {use : Use} {name : String}
    (used : kernel.body.Uses use name) : bound.signatures.isReal name = table.isReal name := by
  obtain ⟨-, -, resolved, -⟩ := binds_iff.mp binds
  have listed : name ∈ (Access.ofBlock kernel.body).fields.names :=
    NameMap.mem_names.mpr (Access.contains_fields.mpr ⟨use, Access.contains_ofBlock.mpr used⟩)
  unfold Signatures.isReal FieldTable.isReal
  rw [(resolve_finds resolved).2, if_pos listed]
  cases table.find? name <;> rfl

theorem analysed (binds : kernel.bind table = .ok bound)
    (reversed : kernel.reverse bound.signatures = .ok grad) {i : Instr α}
    (member : .instr i ∈ kernel.body.statements) :
    (kernel.reversal bound.signatures).Analysed table.isReal i := by
  obtain ⟨checked, -⟩ := binds_iff.mp binds
  obtain ⟨body, counter, numbered, -⟩ := reverse_ok.mp reversed
  obtain ⟨-, rules, ran, -⟩ := backward_ok numbered
  have ordered : Ordered [] kernel.body.statements :=
    (check_ok.mp checked).ordered (List.Subset.refl _) fun _ => Iff.rfl
  have active : ∀ {dst e}, .instr (.define dst e) ∈ kernel.body.statements →
      ((kernel.reversal bound.signatures).isActive dst ↔
        Activity.exprActive bound.signatures (kernel.reversal bound.signatures).activity.active e = true) :=
    fun member => Activity.activeFold_iff ordered (List.Subset.refl _) member
  have flows : ∀ {dst e}, .instr (.define dst e) ∈ kernel.body.statements → Activity.Passes e →
      (∀ v ∈ e.operands, (kernel.reversal bound.signatures).isActive v →
        (kernel.reversal bound.signatures).isActive dst) →
      (kernel.reversal bound.signatures).Flows dst e.operands := by
    intro dst e member passes upward
    refine ⟨upward, fun needed v operand operandActive => ?_⟩
    simp only [Reversal.needs, Activity.carriesAdjoint, Bool.and_eq_true, List.contains_iff_mem] at needed ⊢
    exact ⟨operandActive,
      Activity.useful_of_result ordered passes member operand operandActive needed.2⟩
  cases i with
  | define dst e =>
    cases e with
    | load place =>
      have read : kernel.body.Uses .read place.field := ⟨_, member, rfl⟩
      exact (active member).trans (by rw [Activity.exprActive, isReal_bound binds read])
    | binary op lhs rhs =>
      refine ⟨flows member (.inl ⟨_, _, _, rfl⟩) ?_, fun needed => ?_⟩
      · intro v operand operandActive
        rw [active member]
        simp only [Expr.operands, List.mem_cons, List.not_mem_nil, or_false] at operand
        simp only [Activity.exprActive, Bool.or_eq_true, List.contains_iff_mem]
        rcases operand with rfl | rfl
        · exact .inl operandActive
        · exact .inr operandActive
      · -- remainder and rounded quotient have no rule
        obtain ⟨l, code, l', ranRule⟩ := Reversal.rules_ran ran member
        have needed : (kernel.reversal bound.signatures).activity.carriesAdjoint dst = true := needed
        rw [Reversal.instr, needed] at ranRule
        constructor
        · rintro rfl
          cases ranRule
        · rintro rfl
          cases ranRule
    | unary op operand =>
      refine ⟨fun passes => flows member (.inr ⟨_, _, rfl⟩) ?_, fun needed => ?_⟩
      · intro v isOperand operandActive
        rw [active member]
        simp only [Expr.operands, List.mem_singleton] at isOperand
        subst isOperand
        simp only [Activity.exprActive, Bool.and_eq_true, decide_eq_true_eq, List.contains_iff_mem]
        exact ⟨passes, operandActive⟩
      · exact (settled checked member needed).1
    | const | index | arg | compare => trivial
  | store place v =>
    have written : kernel.body.Uses .write place.field := ⟨_, member, rfl⟩
    refine ⟨isReal_bound binds written, fun real operandActive => ?_, Access.contains_ofBlock.mpr written⟩
    simp only [Reversal.needs, Activity.carriesAdjoint, Bool.and_eq_true, List.contains_iff_mem]
    exact ⟨operandActive, Activity.useful_of_stored member ((isReal_bound binds written).trans real)
      operandActive⟩
  | readGrad | propagate | addGrad => trivial

theorem launch_runs {args : List α} {order : VisitOrder} {t t' : FieldTable α}
    (binds : kernel.bind table = .ok bound) (forward : bound.launch args order t = .ok () t') :
    (kernel.domain.points order).forM (kernel.runPoint args) t = .ok () t' := by
  obtain ⟨-, -, -, same⟩ := binds_iff.mp binds
  obtain ⟨-, ran⟩ := Bound.launch_ok.mp forward
  rwa [same, execute_eq] at ran

theorem tapeAt_fits {args : List α} {order : VisitOrder} {table' : FieldTable α}
    (binds : kernel.bind table = .ok bound) (reversed : kernel.reverse bound.signatures = .ok grad)
    (forward : bound.launch args order table = .ok () table') {point : Point}
    (visited : point ∈ kernel.domain.points order) :
    (kernel.reversal bound.signatures).TapeFits table.isReal table.realLocations ∅
      (kernel.tapeAt args order table point) := by
  obtain ⟨checked, -⟩ := binds_iff.mp binds
  have ran := launch_runs binds forward
  have changed : table.Altered _ _ table' := (kernel.moves_points args _).ok ran
  obtain ⟨before, after, there, recorded, later⟩ :=
    points_taped (kernel.domain.nodup_points order) ran visited
  have moved : before.Altered _ _ after := (kernel.moves_runPoint args point).ok there
  obtain ⟨m, runs, -⟩ := runPoint_ok.mp there
  have alike : table.Altered (fun _ => True) (fun _ => True) before :=
    (changed.trans (moved.trans later).symm).mono (fun _ _ => trivial) fun _ _ => trivial
  rw [tapeAt, recorded]
  exact (Reversal.trace_fits (fun i inBody => analysed binds reversed inBody)
    (check_ok.mp checked) runs alike (fun v none_ => by cases none_) fun v none_ => by simp at none_).1

theorem tapeAt_loads {args : List α} {order : VisitOrder} {point : Point} {e : Event α}
    (recorded : e ∈ kernel.tapeAt args order table point) {l : String × Nat} (loaded : l ∈ e.loaded?) :
    kernel.body.Uses .read l.1 := by
  have traced : ∀ (points : List Point) (t : FieldTable α),
      ∀ tape ∈ (kernel.tapes args points t).lookup point, e ∈ tape → kernel.body.Uses .read l.1 := by
    intro points
    induction points with
    | nil => exact fun t tape none_ => nomatch none_
    | cons p rest ih =>
      intro t tape found member
      rw [tapes, List.lookup_cons] at found
      split at found
      · cases found
        exact Reversal.trace_loads member loaded
      · split at found
        · exact ih _ tape found member
        · cases found
  rw [tapeAt] at recorded
  cases found : (kernel.tapes args (kernel.domain.points order) table).lookup point with
  | none =>
    rw [found] at recorded
    cases recorded
  | some tape =>
    rw [found] at recorded
    exact traced _ _ tape found recorded

end Kernel

end FieldKernel
