import FieldKernel.Proofs.Execution.Sharing
import FieldKernel.Proofs.Execution.Verdict

-- Kernels that are the same under other names for their values come to the same, failures included.
namespace FieldKernel

variable {α δ : Type} {R : ValueId → ValueId → Prop}

inductive Statement.Renamed (R : ValueId → ValueId → Prop) : Statement α → Statement α → Prop
  | instr {i j} (renamed : i.Renamed R j) : Renamed R (.instr i) (.instr j)
  | branch {v w} (cond : R v w) : Renamed R (.branch v) (.branch w)

theorem Block.Renamed.statements {a b : Block α} (renamed : a.Renamed R b) :
    List.Forall₂ (Statement.Renamed R) a.statements b.statements := by
  induction renamed with
  | nil => exact .nil
  | instr first _ ih => exact .cons (.instr first) ih
  | branch cond _ _ _ ihTrue ihFalse ihRest =>
    exact .cons (.branch cond) (List.rel_append (List.rel_append ihTrue ihFalse) ihRest)

theorem Instr.Renamed.place {i j : Instr α} (renamed : i.Renamed R j) {place : Place}
    (addressed : i.place? = some place) : ∃ place', j.place? = some place' ∧ place.Renamed R place' := by
  cases renamed with
  | define dst expr =>
    cases expr with
    | load place =>
      cases addressed
      exact ⟨_, rfl, place⟩
    | const | index | arg | binary | unary | compare => cases addressed
  | store place | addGrad place =>
    cases addressed
    exact ⟨_, rfl, place⟩
  | readGrad target place =>
    cases addressed
    exact ⟨_, rfl, place⟩
  | propagate => cases addressed

def Block.Fixes (R : ValueId → ValueId → Prop) (block : Block α) : Prop :=
  ∀ place, block.Addressed place → ∀ v ∈ place.index, ∀ w, R v w → w = v

theorem forall₂_fixed {vs ws : List ValueId} (named : List.Forall₂ R vs ws)
    (fixed : ∀ v ∈ vs, ∀ w, R v w → w = v) : ws = vs := by
  induction named with
  | nil => rfl
  | cons first _ ih =>
    obtain ⟨here, later⟩ := List.forall_mem_cons.mp fixed
    rw [here _ first, ih later]

theorem Place.Renamed.fixed {p q : Place} (renamed : p.Renamed R q)
    (fixed : ∀ v ∈ p.index, ∀ w, R v w → w = v) : q = p := by
  cases p
  cases q
  cases renamed.field
  cases forall₂_fixed renamed.index fixed
  rfl

theorem Statement.Renamed.place? {s t : Statement α} (renamed : s.Renamed R t)
    (fixed : ∀ place ∈ s.place?, ∀ v ∈ place.index, ∀ w, R v w → w = v) : t.place? = s.place? := by
  cases renamed with
  | branch => rfl
  | @instr i j renamed =>
    cases renamed with
    | define dst expr =>
      cases expr with
      | load place => exact congrArg some (place.fixed (fixed _ rfl))
      | const | index | arg | binary | unary | compare => rfl
    | store place | addGrad place => exact congrArg some (place.fixed (fixed _ rfl))
    | readGrad target place => exact congrArg some (place.fixed (fixed _ rfl))
    | propagate => rfl

theorem Statement.Renamed.access {s t : Statement α} (renamed : s.Renamed R t) (access : Access) :
    access.addStatement t = access.addStatement s := by
  cases renamed with
  | branch => rfl
  | @instr i j renamed =>
    change access.addInstr j = access.addInstr i
    cases renamed with
    | define dst expr =>
      cases expr with
      | load place => simp only [Access.addInstr, place.field]
      | const | index | arg | binary | unary | compare => rfl
    | store place | addGrad place => simp only [Access.addInstr, place.field]
    | readGrad target place => simp only [Access.addInstr, place.field]
    | propagate => rfl

theorem access_renamed {ss ts : List (Statement α)} (renamed : List.Forall₂ (Statement.Renamed R) ss ts)
    (access : Access) : ts.foldl Access.addStatement access = ss.foldl Access.addStatement access := by
  induction renamed generalizing access with
  | nil => rfl
  | cons first _ ih => rw [List.foldl_cons, List.foldl_cons, first.access, ih]

theorem places_renamed {ss ts : List (Statement α)} (renamed : List.Forall₂ (Statement.Renamed R) ss ts)
    (fixed : ∀ s ∈ ss, ∀ place ∈ s.place?, ∀ v ∈ place.index, ∀ w, R v w → w = v) :
    ts.filterMap Statement.place? = ss.filterMap Statement.place? := by
  induction renamed with
  | nil => rfl
  | cons first _ ih =>
    obtain ⟨here, later⟩ := List.forall_mem_cons.mp fixed
    rw [List.filterMap_cons, List.filterMap_cons, first.place? here, ih later]

-- Kernels that differ in the names of values that address no element.
structure Kernel.Renamed (R : ValueId → ValueId → Prop) (a b : Kernel α) : Prop where
  name : b.name = a.name
  domain : b.domain = a.domain
  argCount : b.argCount = a.argCount
  body : a.body.Renamed R b.body
  one : OneToOne R
  level : ∀ v w, R v w → (v.index < a.counter ↔ w.index < b.counter)
  fixes : a.body.Fixes R

variable [Scalar α]

theorem Frame.Reaches.linked {T : FieldTable α → FieldTable α → Prop} {uses : Use → String → Prop}
    {f g : Frame α} {m m' m₁ : Machine α} (frames : f.Alike g) (one : OneToOne R)
    (sustained : FieldTable.Sustained T uses) {a b : Block α} {s : Statement α}
    (reaches : f.Reaches m a m₁ s) (linked : m.Linked R T m') (renamed : a.Renamed R b)
    (used : ∀ use name, a.Uses use name → uses use name) :
    ∃ m₁' t, g.Reaches m' b m₁' t ∧ m₁.Linked R T m₁' ∧ s.Renamed R t := by
  induction reaches generalizing m' b with
  | instr =>
    cases renamed with
    | instr first => exact ⟨m', _, .instr, linked, .instr first⟩
  | branch =>
    cases renamed with
    | branch cond => exact ⟨m', _, .branch, linked, .branch cond⟩
  | @later m m₂ m₁ i rest s step _ ih =>
    cases renamed with
    | instr first renamedRest =>
      have uses_ : ∀ use name, i.use? = some (use, name) → uses use name :=
        fun use name uses => used use name ⟨i, List.mem_cons_self, uses⟩
      obtain ⟨n, step', linked'⟩ := step.linked frames one sustained linked first uses_
      obtain ⟨m₁', t, reaches', shown⟩ := ih linked' renamedRest fun use name uses =>
        used use name (uses.inside (List.subset_cons_self _ _))
      exact ⟨m₁', t, .later step' reaches', shown⟩
  | @inside m m₁ v x onTrue onFalse rest s value _ ih =>
    cases renamed with
    | @branch _ w _ a' _ b' _ _ cond renamedTrue renamedFalse =>
      obtain ⟨m₁', t, reaches', shown⟩ := ih linked (renamedTrue.taken renamedFalse x) fun use name uses =>
        used use name (uses.inside (Frame.taken_subset v x onTrue onFalse rest))
      exact ⟨m₁', t, .inside ((linked.values cond).trans value) reaches', shown⟩
  | @after m m₂ m₁ v x onTrue onFalse rest s value inner _ ih =>
    cases renamed with
    | @branch _ w _ a' _ b' _ _ cond renamedTrue renamedFalse renamedRest =>
      obtain ⟨n, inner', linked'⟩ := inner.linked frames one sustained linked
        (renamedTrue.taken renamedFalse x) fun use name uses =>
          used use name (uses.inside (Frame.taken_subset v x onTrue onFalse rest))
      obtain ⟨m₁', t, reaches', shown⟩ := ih linked' renamedRest fun use name uses =>
        used use name (uses.inside Block.rest_subset)
      exact ⟨m₁', t, .after ((linked.values cond).trans value) inner' reaches', shown⟩

theorem Machine.Misses.linked {m m' : Machine α} {place : Place} {e : KernelFault} (misses : m.Misses place e)
    (tables : m'.table = m.table) (same : ∀ v ∈ place.index, m'.value? v = m.value? v) :
    m'.Misses place e := by
  cases misses with
  | @nonIntegral before after v x index coordinate value fraction integral =>
    rw [coordinate, List.forall_mem_append, List.forall_mem_cons] at same
    exact .nonIntegral coordinate (same.2.1.trans value) fraction
      ((Machine.coordinates_congr same.1).trans integral)
  | unlocated coordinates found missed =>
    refine .unlocated ((Machine.coordinates_congr same).trans coordinates) ?_ missed
    rw [tables]
    exact found

namespace Kernel.Renamed

variable {a b : Kernel α}

omit [Scalar α] in
theorem access (renamed : a.Renamed R b) : Access.ofBlock b.body = Access.ofBlock a.body :=
  access_renamed renamed.body.statements _

omit [Scalar α] in
theorem places (renamed : a.Renamed R b) :
    b.body.statements.filterMap Statement.place? = a.body.statements.filterMap Statement.place? :=
  places_renamed renamed.body.statements fun s member place addressed =>
    renamed.fixes place ⟨s, member, addressed⟩

omit [Scalar α] in
theorem accessRanks (renamed : a.Renamed R b) (signatures : Signatures) :
    b.accessRanks signatures = a.accessRanks signatures := by
  have faults : b.accessRankFault? signatures = a.accessRankFault? signatures := by
    funext place
    rw [accessRankFault?, accessRankFault?, renamed.name]
  rw [Kernel.accessRanks, Kernel.accessRanks, renamed.places, faults]

theorem follows (renamed : a.Renamed R b) : a.Follows R Eq (fun _ _ => True) b where
  one := renamed.one
  body := renamed.body
  level := renamed.level
  sustained := .same _
  used := fun _ _ _ => trivial

end Kernel.Renamed

namespace Bound

variable {a b : Bound α δ} {table : FieldTable α} {args : List α} {order : VisitOrder} {e : KernelFault}

omit [Scalar α] in
theorem Refuses.renamed (refuses : a.Refuses args table e) (renamed : a.kernel.Renamed R b.kernel) :
    b.Refuses args table e := by
  have uses : ∀ {name}, b.kernel.body.UsesGrad name ↔ a.kernel.body.UsesGrad name := by
    intro name
    rw [Block.UsesGrad, Block.UsesGrad, ← Access.contains_ofBlock, ← Access.contains_ofBlock,
      ← Access.contains_ofBlock, ← Access.contains_ofBlock, renamed.access]
  cases refuses with
  | argumentCount other =>
    rw [← renamed.name, ← renamed.argCount]
    exact .argumentCount (renamed.argCount ▸ other)
  | ungraded count used bare first =>
    refine .ungraded (count.trans renamed.argCount.symm) (uses.mpr used) bare ?_
    intro before smaller used'
    exact first before smaller (uses.mp used')

theorem Stops.renamed (stops : a.Stops args order table e) (renamed : a.kernel.Renamed R b.kernel)
    (launchable : b.launchable args table = .ok ()) : b.Stops args order table e := by
  obtain ⟨m, i, place, ⟨-, before, point, after, t, points, ran, reaches⟩, addressed, misses⟩ := stops
  obtain ⟨t', ran', same⟩ := renamed.follows.points rfl ran
  cases same
  have frames : (Frame.mk a.kernel args point).Alike ⟨b.kernel, args, point⟩ := ⟨rfl, rfl⟩
  obtain ⟨m', s, reaches', linked, named⟩ := reaches.linked frames renamed.one (.same fun _ _ => True)
    (Kernel.start_linked renamed.level (Eq.refl t)) renamed.body fun _ _ _ => trivial
  cases named with
  | @instr _ j named =>
    obtain ⟨place', addressed', placed⟩ := named.place addressed
    have fixed : ∀ v ∈ place.index, ∀ w, R v w → w = v :=
      renamed.fixes place ⟨.instr i, reaches.member, addressed⟩
    cases placed.fixed fixed
    refine ⟨m', j, place, ⟨launchable, before, point, after, t, ?_, ran', reaches'⟩, addressed', ?_⟩
    · rw [renamed.domain]
      exact points
    · refine misses.linked linked.table.symm fun v coordinate => ?_
      exact linked.values (List.forall₂_same.mp placed.index v coordinate)

theorem launch_renamed [Digest δ] (bindsA : a.kernel.bind table = .ok a) (bindsB : b.kernel.bind table = .ok b)
    (renamed : a.kernel.Renamed R b.kernel) (args : List α) (order : VisitOrder) :
    b.launch args order table = a.launch args order table := by
  have access : b.access = a.access := by
    rw [access_of_binds bindsA, access_of_binds bindsB, renamed.access]
  cases ran : a.launch args order table with
  | ok _ after =>
    obtain ⟨after', ran', same⟩ := launch_follows renamed.follows renamed.argCount renamed.domain
      (access_of_binds bindsA) access (Eq.refl table) ran
    rw [ran', same]
  | error e after =>
    obtain ⟨rfl, refuses | stops⟩ := (launch_error_iff bindsA).mp ran
    · exact (launch_error_iff bindsB).mpr ⟨rfl, .inl (refuses.renamed renamed)⟩
    · have launchable : b.launchable args after = .ok () := by
        have launchable := stops.launchable
        rw [launchable_ok] at launchable ⊢
        rw [access, renamed.argCount]
        exact launchable
      exact (launch_error_iff bindsB).mpr ⟨rfl, .inr (stops.renamed renamed launchable)⟩

end Bound

-- What a kernel comes to on a table: what binding it or launching it comes to.
def Kernel.outcome (δ : Type) [Digest δ] (kernel : Kernel α) (args : List α) (order : VisitOrder) : Pass α Unit :=
  fun table =>
    match (kernel.bind table : Except KernelFault (Bound α δ)) with
    | .error error => .error error table
    | .ok bound => bound.launch args order table

theorem Kernel.moves_outcome (δ : Type) [Digest δ] (kernel : Kernel α) (args : List α) (order : VisitOrder) :
    Moves (FieldTable.Altered (kernel.body.Uses .write) (kernel.body.Uses .gradWrite))
      (kernel.outcome δ args order) := by
  intro table
  unfold outcome
  split
  · exact .refl table
  · next bound binds =>
    obtain ⟨-, -, -, same⟩ := binds_iff.mp binds
    cases ran : bound.launch args order table with
    | ok _ after =>
      obtain ⟨-, executed⟩ := Bound.launch_ok.mp ran
      rw [same, execute_eq] at executed
      exact (kernel.moves_points args _).ok executed
    | error e after =>
      have kept : after = table := Bound.launch_error (by rw [same]) ran
      rw [kept]
      exact .refl table

-- Kernels that come to the same on every table, whatever they are given.
def Kernel.SameOutcome (δ : Type) [Digest δ] (a b : Kernel α) : Prop :=
  ∀ args order table, a.outcome δ args order table = b.outcome δ args order table

namespace Kernel.SameOutcome

variable [Digest δ] {a b c : Kernel α}

theorem symm (same : SameOutcome δ a b) : SameOutcome δ b a := fun args order table => (same args order table).symm

theorem trans (first : SameOutcome δ a b) (second : SameOutcome δ b c) : SameOutcome δ a c :=
  fun args order table => (first args order table).trans (second args order table)

end Kernel.SameOutcome

theorem Kernel.Renamed.binds [Digest δ] {a b : Kernel α} (renamed : a.Renamed R b) (left : a.check = .ok ())
    (right : b.check = .ok ()) (table : FieldTable α) : (b.bind table : Except KernelFault (Bound α δ)) =
      (a.bind table : Except KernelFault (Bound α δ)).map fun bound =>
        ⟨b, bound.signatures, bound.access, b.digest bound.signatures⟩ := by
  have ranks : b.accessRanks = a.accessRanks := funext renamed.accessRanks
  unfold Kernel.bind
  rw [left, right, renamed.access, ranks]
  simp only [Bind.bind, Except.bind]
  cases resolve table (Access.ofBlock a.body).fields.names with
  | error e => rfl
  | ok signatures =>
    dsimp only
    cases a.accessRanks signatures with
    | error e => rfl
    | ok _ => rfl

theorem Kernel.Renamed.outcome [Digest δ] {a b : Kernel α} (renamed : a.Renamed R b)
    (left : a.check = .ok ()) (right : b.check = .ok ()) (args : List α) (order : VisitOrder)
    (table : FieldTable α) : b.outcome δ args order table = a.outcome δ args order table := by
  have binds := renamed.binds (δ := δ) left right table
  rw [Kernel.outcome, Kernel.outcome]
  cases bindsA : (a.bind table : Except KernelFault (Bound α δ)) with
  | error e =>
    rw [binds, bindsA]
    rfl
  | ok bound =>
    rw [bindsA] at binds
    rw [binds]
    cases binds_kernel bindsA
    exact Bound.launch_renamed bindsA binds renamed args order

end FieldKernel
