import FieldKernel.Proofs.Reverse.Adjoint

-- Recurrences over exact numbers: tangents pass from point to point through the fields, and in the opposite
-- order gradients do.
namespace FieldKernel

variable {α : Type}

def Event.location? (e : Event α) : Option (String × Nat) := e.loaded? <|> e.stored?

namespace Tape

def stores (tape : Tape α) : List (String × Nat) := tape.filterMap Event.stored?

-- Each location is stored to once at most, and not loaded before.
def SingleAssignment (tape : Tape α) : Prop :=
  tape.Pairwise fun e later => ∀ l ∈ e.location?, l ∉ later.stored?

instance (tape : Tape α) : Decidable tape.SingleAssignment :=
  inferInstanceAs (Decidable (List.Pairwise _ tape))

theorem SingleAssignment.untouched {e : Event α} {rest : Tape α} (single : SingleAssignment (e :: rest)) :
    ∀ l ∈ e.location?, l ∉ stores rest := by
  intro l touched stored
  obtain ⟨later, member, stored⟩ := List.mem_filterMap.mp stored
  exact (List.pairwise_cons.mp single).1 later member l touched stored

theorem stores_store (field : String) (position : Nat) (v : ValueId) (rest : Tape α) :
    stores (.store field position v :: rest) = (field, position) :: stores rest := rfl

theorem stores_append (first second : Tape α) : stores (first ++ second) = stores first ++ stores second :=
  List.filterMap_append

end Tape

structure Flow (K : Type) where
  memory : String → Nat → K
  values : ValueId → K

variable {K : Type} [ExactNumber K] [Elementary K]

-- Forward mode with a memory: a store to a real field leaves the tangent of the value at the location,
-- where loads find it. Integer fields have tangent zero, whatever is stored to them.
def Flow.step (real : String → Bool) (flow : Flow K) (e : Event K) : Flow K where
  memory :=
    match e with
    | .store field position v => fun key p =>
      if real field ∧ (key, p) = (field, position) then flow.values v else flow.memory key p
    | _ => flow.memory
  values := e.push real flow.memory flow.values

def Tape.flow (real : String → Bool) (tape : Tape K) (flow : Flow K) : Flow K :=
  tape.foldl (Flow.step real) flow

def flowPoints (real : String → Bool) (tapeAt : Point → Tape K) (points : List Point)
    (d : String → Nat → K) : String → Nat → K :=
  points.foldl (fun d point => ((tapeAt point).flow real ⟨d, fun _ => 0⟩).memory) d

def Tape.spared (tape : Tape α) (locations : Finset (String × Nat)) : Finset (String × Nat) :=
  locations.filter (· ∉ tape.stores)

theorem Tape.mem_spared {tape : Tape α} {locations : Finset (String × Nat)} {l : String × Nat} :
    l ∈ tape.spared locations ↔ l ∈ locations ∧ l ∉ tape.stores := Finset.mem_filter

theorem Tape.spared_append (first second : Tape α) (locations : Finset (String × Nat)) :
    Tape.spared (first ++ second) locations = first.spared (second.spared locations) := by
  ext l
  rw [mem_spared, mem_spared, mem_spared, stores_append, List.mem_append, not_or, and_assoc]
  exact and_congr_right fun _ => and_comm

namespace Reversal

variable {r : Reversal K} {real : String → Bool} {known : Finset ValueId} {locations : Finset (String × Nat)}

theorem contribution_flows {e : Event K} {rest : Tape K} {u : FieldTable K} {flow : Flow K}
    (fits : r.Fits real u.realLocations known e) (untouched : ∀ l ∈ e.location?, l ∉ rest.stores)
    (reaches : ∀ l ∈ e.location?, l ∈ u.realLocations → l ∈ locations)
    (isReal : ∀ l ∈ locations, real l.1 = true) (t : FieldTable K) :
    t.paired flow.memory (Tape.spared (e :: rest) locations) + contribution real t.gradAt flow.values e =
      t.paired (flow.step real e).memory (rest.spared locations) := by
  cases e with
  | plain | load | binary | unary => simp [contribution, Flow.step, Tape.spared, Tape.stores, Event.stored?]
  | store field position v =>
    have split : Tape.spared (.store field position v :: rest) locations =
        (rest.spared locations).erase (field, position) := by
      ext l
      rw [Finset.mem_erase, Tape.mem_spared, Tape.mem_spared, Tape.stores_store, List.mem_cons, not_or]
      exact and_left_comm
    rw [split]
    cases kind : real field with
    | false =>
      have absent : (field, position) ∉ rest.spared locations := fun member => by
        rw [isReal _ (Tape.mem_spared.mp member).1] at kind
        cases kind
      simp [Finset.erase_eq_of_notMem absent, contribution, Flow.step, kind]
    | true =>
      obtain ⟨-, -, -, -, located⟩ := fits
      have present : (field, position) ∈ rest.spared locations :=
        Tape.mem_spared.mpr ⟨reaches _ rfl (located kind), untouched _ rfl⟩
      have others : ∀ l ∈ (rest.spared locations).erase (field, position),
          t.gradAt l.1 l.2 * (flow.step real (.store field position v)).memory l.1 l.2 =
            t.gradAt l.1 l.2 * flow.memory l.1 l.2 := by
        intro l member
        have other : ¬(real field = true ∧ (l.1, l.2) = (field, position)) :=
          fun same => (Finset.mem_erase.mp member).1 same.2
        simp only [Flow.step, if_neg other]
      rw [FieldTable.paired, FieldTable.paired, ← Finset.sum_erase_add _ _ present, Finset.sum_congr rfl others]
      simp [Flow.step, contribution, kind]

-- The walk back over a tape. After it the gradients are those at the beginning of the tape, of the
-- locations that neither the tape nor anything later stores to; the gradients of what it stores to are
-- used up.
theorem walk_flows {tape : Tape K} {u : FieldTable K} (flow : Flow K) (supported : r.Supported flow.values)
    (fits : r.TapeFits real u.realLocations known tape) (single : tape.SingleAssignment)
    (inside : locations ⊆ u.realLocations)
    (reaches : ∀ e ∈ tape, ∀ l ∈ e.location?, l ∈ u.realLocations → l ∈ locations)
    (isReal : ∀ l ∈ locations, real l.1 = true) (sized : u.Sized) (graded : u.Graded) :
    (r.walk tape (.start u)).table.paired flow.memory (tape.spared locations) +
        pairing (r.walk tape (.start u)).adjoint flow.values known =
      u.paired (tape.flow real flow).memory locations := by
  induction tape generalizing known flow with
  | nil => simp [walk, Sweep.start, pairing, Tape.flow, Tape.spared, Tape.stores]
  | cons e rest ih =>
    obtain ⟨first, others⟩ := fits
    have untouched := single.untouched
    have reachesHere := reaches e List.mem_cons_self
    have altered := r.walk_altered rest (.start u)
    have real_ : (r.walk rest (.start u)).table.realLocations = u.realLocations :=
      FieldTable.realLocations_altered altered
    have within : Tape.spared (e :: rest) locations ⊆ (r.walk rest (.start u)).table.realLocations :=
      real_.symm ▸ (Finset.filter_subset _ _).trans inside
    have step := back_transposes (d := flow.memory) supported (r.walk_carries rest u) (real_ ▸ first) within ?_
      (sized.altered altered) (graded.altered altered)
    · have later := ih (flow.step real e) (supported.push first) others
        (List.pairwise_cons.mp single).2 fun e member => reaches e (List.mem_cons_of_mem _ member)
      calc (r.walk (e :: rest) (.start u)).table.paired flow.memory (Tape.spared (e :: rest) locations) +
            pairing (r.walk (e :: rest) (.start u)).adjoint flow.values known
          = (r.walk rest (.start u)).table.paired flow.memory (Tape.spared (e :: rest) locations) +
              pairing (r.walk rest (.start u)).adjoint (flow.step real e).values (e.known known) +
              contribution real (r.walk rest (.start u)).table.gradAt flow.values e := step
        _ = (r.walk rest (.start u)).table.paired (flow.step real e).memory (Tape.spared rest locations) +
              pairing (r.walk rest (.start u)).adjoint (flow.step real e).values (e.known known) := by
            rw [← contribution_flows first untouched reachesHere isReal]
            ring
        _ = u.paired (Tape.flow real (e :: rest) flow).memory locations := later
    · -- what an event loads, neither it nor a later one stores to
      intro l loaded member
      have touched : l ∈ e.location? := by
        cases e with
        | load => exact loaded
        | plain | store | binary | unary => cases loaded
      refine Tape.mem_spared.mpr ⟨reachesHere l touched (real_ ▸ member), fun stored => ?_⟩
      cases e with
      | load => exact untouched l touched stored
      | plain | store | binary | unary => cases loaded

-- The gradient pass in the opposite order. The induction is on the points: those later in the forward
-- run have been walked back already.
theorem walkPoints_flows {tapeAt : Point → Tape K} {points : List Point} {u : FieldTable K}
    (fits : ∀ point ∈ points, r.TapeFits real u.realLocations ∅ (tapeAt point))
    (single : Tape.SingleAssignment (points.flatMap tapeAt)) (isReal : ∀ l ∈ u.realLocations, real l.1 = true)
    (sized : u.Sized) (graded : u.Graded) (d : String → Nat → K) :
    (r.walkPoints tapeAt points.reverse u).paired d (Tape.spared (points.flatMap tapeAt) u.realLocations) =
      u.paired (flowPoints real tapeAt points d) u.realLocations := by
  induction points generalizing d with
  | nil => simp [walkPoints, flowPoints, Tape.spared, Tape.stores]
  | cons point rest ih =>
    rw [List.flatMap_cons] at single ⊢
    obtain ⟨singleHere, singleLater, apart⟩ := List.pairwise_append.mp single
    have later := ih (fun q member => fits q (List.mem_cons_of_mem _ member)) singleLater
      ((tapeAt point).flow real ⟨d, fun _ => 0⟩).memory
    have walked : r.walkPoints tapeAt (point :: rest).reverse u =
        r.walkPoint (tapeAt point) (r.walkPoints tapeAt rest.reverse u) := by
      simp [walkPoints, List.foldl_append]
    have altered := r.walkPoints_altered tapeAt rest.reverse u
    have real_ : (r.walkPoints tapeAt rest.reverse u).realLocations = u.realLocations :=
      FieldTable.realLocations_altered altered
    have fitsHere : r.TapeFits real (r.walkPoints tapeAt rest.reverse u).realLocations ∅ (tapeAt point) :=
      real_ ▸ fits point List.mem_cons_self
    have within : Tape.spared (rest.flatMap tapeAt) u.realLocations ⊆
        (r.walkPoints tapeAt rest.reverse u).realLocations :=
      real_.symm ▸ Finset.filter_subset _ _
    have here := walk_flows ⟨d, fun _ => 0⟩ (fun _ _ => rfl) fitsHere singleHere within ?_
      (fun l member => isReal l (Tape.mem_spared.mp member).1) (sized.altered altered) (graded.altered altered)
    · rw [Tape.spared_append, walked, walkPoint]
      simpa [pairing, later, flowPoints] using here
    · intro e recorded l touched member
      refine Tape.mem_spared.mpr ⟨real_ ▸ member, fun stored => ?_⟩
      obtain ⟨e', recorded', stored'⟩ := List.mem_filterMap.mp stored
      exact apart e recorded e' recorded' l touched stored'

end Reversal

namespace Kernel

variable {δ : Type} [Digest δ] {kernel grad : Kernel K} {args : List K}

def history (kernel : Kernel K) (args : List K) (order : VisitOrder) (table : FieldTable K) : Tape K :=
  (kernel.domain.points order).flatMap (kernel.tapeAt args order table)

def tangents (kernel : Kernel K) (args : List K) (order : VisitOrder) (table : FieldTable K)
    (d : String → Nat → K) : String → Nat → K :=
  flowPoints table.isReal (kernel.tapeAt args order table) (kernel.domain.points order) d

-- Exact reverse mode through the fields. Let a kernel run in one order, storing to no location twice or
-- after a load of it, and its gradient kernel in the opposite order. Then the gradients before the
-- gradient pass, paired with the tangents that the run leaves, are the gradients after it, paired with
-- the tangents that the run starts from, at the locations that the run keeps.
theorem gradient_launch_reverses_recurrence {bound gradBound : Bound K δ} {order gradOrder : VisitOrder}
    {table s₀ s₁ s₂ : FieldTable K} (binds : kernel.bind s₀ = .ok bound)
    (reversed : kernel.reverse bound.signatures = .ok grad) (gradBinds : grad.bind table = .ok gradBound)
    (opposite : gradOrder ≠ order) (single : (kernel.history args order s₀).SingleAssignment)
    (sized : s₀.Sized) (graded : s₀.Graded) (forward : bound.launch args order s₀ = .ok () s₁)
    (backward : gradBound.launch args gradOrder s₁ = .ok () s₂) (d : String → Nat → K) :
    ∑ l ∈ s₀.realLocations, s₁.gradAt l.1 l.2 * kernel.tangents args order s₀ d l.1 l.2 =
      ∑ l ∈ (kernel.history args order s₀).spared s₀.realLocations, s₂.gradAt l.1 l.2 * d l.1 l.2 := by
  obtain ⟨gradChecked, -, -, gradBoundIs⟩ := binds_iff.mp gradBinds
  have walked := launches_walk binds reversed (by rw [gradBoundIs]) gradChecked forward backward
  have changed : s₀.Altered _ _ s₁ := (kernel.moves_points args _).ok (launch_runs binds forward)
  have locations := FieldTable.realLocations_altered changed
  have fits : ∀ point ∈ kernel.domain.points order,
      (kernel.reversal bound.signatures).TapeFits s₀.isReal s₁.realLocations ∅
        (kernel.tapeAt args order s₀ point) := fun point member =>
    locations.symm ▸ tapeAt_fits binds reversed forward member
  have isReal : ∀ l ∈ s₁.realLocations, s₀.isReal l.1 = true := by
    intro l member
    obtain ⟨field, found, real, -⟩ := FieldTable.mem_realLocations.mp (locations ▸ member)
    simpa [FieldTable.isReal, found] using real
  have flows := Reversal.walkPoints_flows fits single isReal (sized.altered changed) (graded.altered changed) d
  rw [← kernel.domain.points_opposite opposite, ← walked, locations] at flows
  exact flows.symm

end Kernel

-- `y[i + 1] = y[i] + x[i] * x[i]`
namespace RunningSum

def kernel : Kernel ℚ := .ofBody "running_sum" (.ofExtents [2]) 0 <|
  .instr (.define ⟨0⟩ (.index 0)) <| .instr (.define ⟨1⟩ (.const 1)) <|
  .instr (.define ⟨2⟩ (.binary .add ⟨0⟩ ⟨1⟩)) <| .instr (.define ⟨3⟩ (.load ⟨"y", [⟨0⟩]⟩)) <|
  .instr (.define ⟨4⟩ (.load ⟨"x", [⟨0⟩]⟩)) <| .instr (.define ⟨5⟩ (.binary .mul ⟨4⟩ ⟨4⟩)) <|
  .instr (.define ⟨6⟩ (.binary .add ⟨3⟩ ⟨5⟩)) <| .instr (.store ⟨"y", [⟨2⟩]⟩ ⟨6⟩) .nil

def gradient : Kernel ℚ := .ofBody "running_sum_grad" (.ofExtents [2]) 0 <|
  kernel.body.definitions ++
  .instr (.readGrad ⟨6⟩ ⟨"y", [⟨2⟩]⟩) (.instr (.propagate ⟨3⟩ ⟨6⟩ .one) <|
    .instr (.propagate ⟨5⟩ ⟨6⟩ .one) <| .instr (.propagate ⟨4⟩ ⟨5⟩ (.value ⟨4⟩)) <|
    .instr (.propagate ⟨4⟩ ⟨5⟩ (.value ⟨4⟩)) <| .instr (.addGrad ⟨"x", [⟨0⟩]⟩ ⟨4⟩) <|
    .instr (.addGrad ⟨"y", [⟨0⟩]⟩ ⟨3⟩) .nil)

def fields (y dx dy : Array ℚ) : FieldTable ℚ := .ofList [
  ("x", ⟨rootGroup, .f64, [2], #[3, -1], some dx⟩), ("y", ⟨rootGroup, .f64, [3], y, some dy⟩)]

def bound (kernel : Kernel ℚ) : Bound ℚ Unit :=
  ⟨kernel, .ofList [("x", ⟨.f64, [2]⟩), ("y", ⟨.f64, [3]⟩)], .ofBlock kernel.body, ()⟩

def before : FieldTable ℚ := fields #[5, 0, 0] #[0, 0] #[0, 0, 1]

def between : FieldTable ℚ := fields #[5, 14, 15] #[0, 0] #[0, 0, 1]

def after : FieldTable ℚ := fields #[5, 14, 15] #[6, -2] #[1, 1, 1]

theorem before_sized : before.Sized :=
  (FieldTable.sized_empty.insert ⟨rfl, fun _ stored => Option.some.inj stored ▸ rfl⟩).insert
    ⟨rfl, fun _ stored => Option.some.inj stored ▸ rfl⟩

theorem gradient_launch_reverses_recurrence_running_sum :
    ∑ l ∈ before.realLocations,
        between.gradAt l.1 l.2 * kernel.tangents [] .forward before (fun _ p => p + 1) l.1 l.2 =
      ∑ l ∈ (kernel.history [] .forward before).spared before.realLocations,
        after.gradAt l.1 l.2 * (l.2 + 1) := by
  have binds : kernel.bind before = .ok (bound kernel) := by decide +kernel
  have reversed : kernel.reverse (bound kernel).signatures = .ok gradient := by decide +kernel
  have gradBinds : gradient.bind before = .ok (bound gradient) := by decide +kernel
  have single : (kernel.history [] .forward before).SingleAssignment := by decide +kernel
  have graded : before.Graded := FieldTable.graded_of_entries (by decide +kernel)
  have forward : (bound kernel).launch [] .forward before = .ok () between := by decide +kernel
  have backward : (bound gradient).launch [] .reverse between = .ok () after := by decide +kernel
  exact Kernel.gradient_launch_reverses_recurrence binds reversed gradBinds (by decide) single before_sized
    graded forward backward fun _ p => p + 1

end RunningSum

end FieldKernel
