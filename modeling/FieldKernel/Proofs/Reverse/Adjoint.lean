import Mathlib.Algebra.BigOperators.Ring.Finset
import Mathlib.Tactic.LinearCombination
import FieldKernel.Proofs.Reverse.Fits
import FieldKernel.Proofs.Reverse.Tangent

-- Over exact numbers reverse mode is the transpose of forward mode.
namespace FieldKernel

variable {K : Type} [ExactNumber K] [Elementary K]

def pairing (adjoint tangent : ValueId → K) (known : Finset ValueId) : K :=
  ∑ v ∈ known, adjoint v * tangent v

-- Gradients paired with the tangents of some locations.
def FieldTable.paired (table : FieldTable K) (d : String → Nat → K)
    (locations : Finset (String × Nat)) : K :=
  ∑ l ∈ locations, table.gradAt l.1 l.2 * d l.1 l.2

variable {s : Sweep K} {tangent : ValueId → K} {known : Finset ValueId} {v dst : ValueId}

theorem pairing_add (member : v ∈ known) (delta : K) :
    pairing (s.add v delta).adjoint tangent known =
      pairing s.adjoint tangent known + delta * tangent v := by
  have split : ∀ w, (s.add v delta).adjoint w * tangent w =
      s.adjoint w * tangent w + if w = v then delta * tangent v else 0 := by
    intro w
    by_cases same : w = v
    · subst same
      simp [Sweep.add, add_mul]
    · simp [Sweep.add, same]
  simp only [pairing, split, Finset.sum_add_distrib, Finset.sum_ite_eq', if_pos member]

theorem pairing_addIf {needed : Bool} (member : v ∈ known) (idle : needed = false → tangent v = 0)
    (delta : K) : pairing (s.addIf needed v delta).adjoint tangent known =
      pairing s.adjoint tangent known + delta * tangent v := by
  cases needed with
  | true => exact pairing_add member delta
  | false => simp [Sweep.addIf, idle rfl]

theorem pairing_insert (fresh : dst ∉ known) (adjoint : ValueId → K) (x : K) :
    pairing adjoint (Function.update tangent dst x) (insert dst known) =
      adjoint dst * x + pairing adjoint tangent known := by
  rw [pairing, Finset.sum_insert fresh, Function.update_self]
  congr 1
  refine Finset.sum_congr rfl fun w member => ?_
  have other : w ≠ dst := fun same => fresh (same ▸ member)
  rw [Function.update_of_ne other]

theorem paired_addGradAt {table : FieldTable K} (sized : table.Sized) (graded : table.Graded)
    {locations : Finset (String × Nat)} (inside : locations ⊆ table.realLocations) {name : String}
    {position : Nat} (located : (name, position) ∈ locations) (d : String → Nat → K) (delta : K) :
    (table.addGradAt name position delta).paired d locations =
      table.paired d locations + delta * d name position := by
  have split : ∀ l : String × Nat, (table.addGradAt name position delta).gradAt l.1 l.2 * d l.1 l.2 =
      table.gradAt l.1 l.2 * d l.1 l.2 + if l = (name, position) then delta * d name position else 0 := by
    intro l
    rw [FieldTable.gradAt_addGradAt sized graded (inside located)]
    by_cases same : l = (name, position)
    · subst same
      rw [if_pos rfl, if_pos rfl]
      exact add_mul _ _ _
    · simp [same]
  simp only [FieldTable.paired, split, Finset.sum_add_distrib, Finset.sum_ite_eq', if_pos located]

namespace Reversal

variable {r : Reversal K} {real : String → Bool} {locations : Finset (String × Nat)}
  {d : String → Nat → K}

-- Tangents that vanish wherever no derivative flows, and adjoints that vanish wherever none is carried.
def Supported (r : Reversal K) (tangent : ValueId → K) : Prop := ∀ v, ¬r.isActive v → tangent v = 0

def Carried (r : Reversal K) (adjoint : ValueId → K) : Prop := ∀ v, r.needs v = false → adjoint v = 0

omit [Elementary K] in
theorem Supported.update {x : K} (supported : r.Supported tangent) (zero : ¬r.isActive dst → x = 0) :
    r.Supported (Function.update tangent dst x) := by
  intro v idle
  by_cases same : v = dst
  · subst same
    rw [Function.update_self, zero idle]
  · rw [Function.update_of_ne same, supported v idle]

theorem Supported.push {e : Event K} (supported : r.Supported tangent)
    (fits : r.Fits real locations known e) : r.Supported (e.push real d tangent) := by
  cases e with
  | plain dst => exact supported.update fun _ => rfl
  | load dst field position =>
    obtain ⟨-, active, -⟩ := fits
    refine supported.update fun idle => ?_
    rw [if_neg fun isReal => idle (active.mpr isReal)]
  | store field position v => exact supported
  | binary dst op lhs rhs a b =>
    obtain ⟨-, -, -, flows, -⟩ := fits
    refine supported.update fun idle => ?_
    rw [supported lhs fun active => idle (flows.active lhs (by simp) active),
      supported rhs fun active => idle (flows.active rhs (by simp) active)]
    exact op.tangent_zero a b
  | unary dst op operand a =>
    obtain ⟨-, -, flows, -⟩ := fits
    refine supported.update fun idle => ?_
    by_cases sign : op = .sgn
    · subst sign
      rfl
    · rw [supported operand fun active => idle ((flows sign).active operand (by simp) active)]
      exact op.tangent_zero a

theorem Carried.addIf {adjoint : K} (carried : r.Carried s.adjoint) {needed : Bool}
    (only : needed = true → r.needs v = true) : r.Carried (s.addIf needed v adjoint).adjoint := by
  intro w idle
  cases needed with
  | false => exact carried w idle
  | true =>
    have other : w ≠ v := fun same => by
      rw [same, only rfl] at idle
      cases idle
    simp [Sweep.addIf, Sweep.add, other, carried w idle]

theorem Carried.back {e : Event K} (carried : r.Carried s.adjoint) : r.Carried (r.back e s).adjoint := by
  cases e with
  | plain dst => exact carried
  | load dst field position =>
    rw [Reversal.back]
    split
    · exact carried
    · exact carried
  | store field position v => exact carried.addIf fun both => (Bool.and_eq_true _ _ ▸ both).2
  | binary dst op lhs rhs a b =>
    rw [Reversal.back]
    split
    · exact (carried.addIf id).addIf id
    · exact carried
  | unary dst op operand a =>
    rw [Reversal.back]
    split
    · exact carried.addIf id
    · exact carried

def contribution (real : String → Bool) (gradAt : String → Nat → K) (tangent : ValueId → K) : Event K → K
  | .store field position v => if real field then gradAt field position * tangent v else 0
  | _ => 0

-- One event, seen from behind: what its adjoints and gradients gain before it, they lose after it, but
-- for what a store brings in.
theorem back_transposes {e : Event K} (supported : r.Supported tangent) (carried : r.Carried s.adjoint)
    (fits : r.Fits real s.table.realLocations known e) (inside : locations ⊆ s.table.realLocations)
    (reaches : ∀ l ∈ e.loaded?, l ∈ s.table.realLocations → l ∈ locations) (sized : s.table.Sized)
    (graded : s.table.Graded) :
    (r.back e s).table.paired d locations + pairing (r.back e s).adjoint tangent known =
      s.table.paired d locations + pairing s.adjoint (e.push real d tangent) (e.known known) +
        contribution real s.table.gradAt tangent e := by
  cases e with
  | plain dst =>
    have after : pairing s.adjoint (Function.update tangent dst 0) (insert dst known) = _ :=
      pairing_insert fits _ _
    simp only [back, Event.push, Event.known, Event.dst?, after, contribution]
    ring
  | load dst field position =>
    obtain ⟨fresh, active, located⟩ := fits
    simp only [Event.push, Event.known, Event.dst?, pairing_insert fresh, contribution, add_zero]
    by_cases needed : r.needs dst = true
    · have isReal : real field = true := active.mp (by
        simp only [needs, Activity.carriesAdjoint, Bool.and_eq_true, List.contains_iff_mem] at needed
        exact needed.1)
      simp only [back, needed, if_true, isReal]
      rw [paired_addGradAt sized graded inside (reaches _ rfl (located isReal))]
      ring
    · have idle : r.needs dst = false := by simpa using needed
      simp only [back, idle, Bool.false_eq_true, if_false, carried dst idle]
      ring
  | store field position v =>
    obtain ⟨member, same, needs, -⟩ := fits
    rw [back, Sweep.addIf_table, same]
    cases isReal : real field with
    | false => simp [Sweep.addIf, Event.push, Event.known, Event.dst?, contribution, isReal]
    | true =>
      have idle : (true && r.needs v) = false → tangent v = 0 := fun idle =>
        supported v fun active => by
          rw [needs isReal active] at idle
          cases idle
      rw [pairing_addIf member idle]
      simp only [Event.push, Event.known, Event.dst?, contribution, isReal, if_true]
      ring
  | binary dst op lhs rhs a b =>
    obtain ⟨fresh, left, right, flows, smooth⟩ := fits
    simp only [Event.push, Event.known, Event.dst?, pairing_insert fresh, contribution, add_zero]
    cases needed : r.needs dst with
    | false =>
      simp only [back, needed, Bool.false_eq_true, if_false, carried dst needed]
      ring
    | true =>
      have idle : ∀ v ∈ [lhs, rhs], r.needs v = false → tangent v = 0 := fun v operand idle =>
        supported v fun active => by
          rw [flows.needs needed v operand active] at idle
          cases idle
      obtain ⟨mod_, floorDiv_⟩ := smooth needed
      have other : dst ≠ lhs := fun same => fresh (same ▸ left)
      have kept_ : ∀ delta, (s.addIf (r.needs lhs) lhs delta).adjoint dst = s.adjoint dst := by
        intro delta
        cases r.needs lhs
        · rfl
        · simp [Sweep.addIf, Sweep.add, other]
      simp only [back, needed, if_true, Sweep.addIf_table, kept_]
      rw [pairing_addIf right (idle rhs (by simp)), pairing_addIf left (idle lhs (by simp)),
        BinaryOp.tangent_eq mod_ floorDiv_]
      ring
  | unary dst op operand a =>
    obtain ⟨fresh, member, flows, smooth⟩ := fits
    simp only [Event.push, Event.known, Event.dst?, pairing_insert fresh, contribution, add_zero]
    cases needed : r.needs dst with
    | false =>
      simp only [back, needed, Bool.false_eq_true, if_false, carried dst needed]
      ring
    | true =>
      have idle : r.needs operand = false → tangent operand = 0 := fun idle =>
        supported operand fun active => by
          rw [(flows (smooth needed)).needs needed operand (by simp) active] at idle
          cases idle
      simp only [back, needed, if_true, Sweep.addIf_table]
      rw [pairing_addIf member idle, UnaryOp.tangent_eq]
      ring

theorem walk_keeps {tape : Tape K} {field : String} (apart : ∀ e ∈ tape, ∀ l ∈ e.loaded?, l.1 ≠ field)
    (s : Sweep K) : (r.walk tape s).table.find? field = s.table.find? field := by
  induction tape with
  | nil => rfl
  | cons e rest ih =>
    refine Eq.trans ?_ (ih fun e member => apart e (List.mem_cons_of_mem _ member))
    change (r.back e (r.walk rest s)).table.find? field = _
    cases e with
    | plain dst => rfl
    | load dst loaded position =>
      have other : field ≠ loaded := (apart _ List.mem_cons_self (loaded, position) rfl).symm
      rw [back]
      split
      · rw [FieldTable.find?_addGradAt, if_neg other]
      · rfl
    | store stored position v => rw [back, Sweep.addIf_table]
    | binary dst op lhs rhs a b =>
      rw [back]
      split
      · simp only [Sweep.addIf_table]
      · rfl
    | unary dst op operand a =>
      rw [back]
      split
      · rw [Sweep.addIf_table]
      · rfl

theorem walk_carries (tape : Tape K) (u : FieldTable K) : r.Carried (r.walk tape (.start u)).adjoint := by
  induction tape with
  | nil => exact fun v _ => exact_zero
  | cons e rest ih => exact ih.back

end Reversal

-- The gradients of all locations a tape stores to, paired with the tangents of what it stores there.
def Tape.weighed (tape : Tape K) (real : String → Bool) (d : String → Nat → K)
    (tangent : ValueId → K) (gradAt : String → Nat → K) : K :=
  ((tape.stored real d tangent).map fun x => gradAt x.1.1 x.1.2 * x.2).sum

theorem Tape.weighed_cons (e : Event K) (rest : Tape K) (real : String → Bool) (d : String → Nat → K)
    (tangent : ValueId → K) (gradAt : String → Nat → K) :
    Tape.weighed (e :: rest) real d tangent gradAt = Reversal.contribution real gradAt tangent e +
      Tape.weighed rest real d (e.push real d tangent) gradAt := by
  cases e with
  | store field position v =>
    cases isReal : real field <;>
      simp [weighed, stored, Reversal.contribution, Event.push, isReal]
  | plain | load | binary | unary => simp [weighed, stored, Reversal.contribution]

namespace Reversal

variable {r : Reversal K} {real : String → Bool} {d : String → Nat → K}

def Apart (r : Reversal K) (tape : Tape K) : Prop :=
  ∀ e ∈ tape, ∀ l ∈ e.loaded?, r.activity.written.contains l.1 = false

omit [ExactNumber K] [Elementary K] in
theorem Apart.other {tape : Tape K} (apart : r.Apart tape) {field : String}
    (written : r.activity.written.contains field = true) : ∀ e ∈ tape, ∀ l ∈ e.loaded?, l.1 ≠ field :=
  fun e member l loaded same => by
    have := apart e member l loaded
    rw [same, written] at this
    cases this

theorem contribution_congr {e : Event K} {locations : Finset (String × Nat)} {gradAt gradAt' : String → Nat → K}
    (fits : r.Fits real locations known e)
    (same : ∀ field, r.activity.written.contains field = true → gradAt field = gradAt' field) :
    contribution real gradAt tangent e = contribution real gradAt' tangent e := by
  cases e with
  | store field position v =>
    obtain ⟨-, -, -, written, -⟩ := fits
    rw [contribution, contribution, same field written]
  | plain | load | binary | unary => rfl

theorem walk_transposes {tape : Tape K} {u : FieldTable K} (supported : r.Supported tangent)
    (fits : r.TapeFits real u.realLocations known tape) (apart : r.Apart tape) (sized : u.Sized)
    (graded : u.Graded) :
    (r.walk tape (.start u)).table.paired d u.realLocations +
        pairing (r.walk tape (.start u)).adjoint tangent known =
      u.paired d u.realLocations + tape.weighed real d tangent u.gradAt := by
  induction tape generalizing known tangent with
  | nil => simp [walk, Sweep.start, pairing, Tape.weighed, Tape.stored]
  | cons e rest ih =>
    obtain ⟨first, others⟩ := fits
    have apartRest : r.Apart rest := fun e member => apart e (List.mem_cons_of_mem _ member)
    have altered := r.walk_altered rest (.start u)
    have locations : (r.walk rest (.start u)).table.realLocations = u.realLocations :=
      FieldTable.realLocations_altered altered
    have kept : ∀ field, r.activity.written.contains field = true →
        (r.walk rest (.start u)).table.gradAt field = u.gradAt field := by
      intro field written
      funext p
      unfold FieldTable.gradAt
      rw [walk_keeps (apartRest.other written)]
      rfl
    have step := back_transposes (d := d) supported (r.walk_carries rest u) (locations ▸ first)
      (Finset.Subset.refl _) (fun _ _ => id) (sized.altered altered) (graded.altered altered)
    rw [contribution_congr first kept, locations] at step
    calc (r.walk (e :: rest) (.start u)).table.paired d u.realLocations +
          pairing (r.walk (e :: rest) (.start u)).adjoint tangent known
        = (r.walk rest (.start u)).table.paired d u.realLocations +
            pairing (r.walk rest (.start u)).adjoint (e.push real d tangent) (e.known known) +
            contribution real u.gradAt tangent e := step
      _ = u.paired d u.realLocations + Tape.weighed rest real d (e.push real d tangent) u.gradAt +
            contribution real u.gradAt tangent e := by rw [ih (supported.push first) others apartRest]
      _ = u.paired d u.realLocations + Tape.weighed (e :: rest) real d tangent u.gradAt := by
        rw [Tape.weighed_cons]
        ring

theorem weighed_congr {tape : Tape K} {locations : Finset (String × Nat)} {gradAt gradAt' : String → Nat → K}
    (fits : r.TapeFits real locations known tape)
    (same : ∀ field, r.activity.written.contains field = true → gradAt field = gradAt' field) :
    tape.weighed real d tangent gradAt = tape.weighed real d tangent gradAt' := by
  induction tape generalizing known tangent with
  | nil => rfl
  | cons e rest ih =>
    obtain ⟨first, others⟩ := fits
    rw [Tape.weighed_cons, Tape.weighed_cons, ih others, contribution_congr first same]

theorem walkPoints_transpose {tapeAt : Point → Tape K} {points : List Point} {u : FieldTable K}
    {gradAt : String → Nat → K}
    (fits : ∀ point ∈ points, r.TapeFits real u.realLocations ∅ (tapeAt point))
    (apart : ∀ point ∈ points, r.Apart (tapeAt point)) (sized : u.Sized) (graded : u.Graded)
    (kept : ∀ field, r.activity.written.contains field = true → u.gradAt field = gradAt field) :
    (r.walkPoints tapeAt points u).paired d u.realLocations = u.paired d u.realLocations +
      (points.map fun point => (tapeAt point).weighed real d (fun _ => 0) gradAt).sum := by
  induction points generalizing u with
  | nil => simp [walkPoints]
  | cons point rest ih =>
    have first := fits point List.mem_cons_self
    have apartHere := apart point List.mem_cons_self
    have altered := r.walk_altered (tapeAt point) (.start u)
    have locations : (r.walkPoint (tapeAt point) u).realLocations = u.realLocations :=
      FieldTable.realLocations_altered altered
    have here : (r.walkPoint (tapeAt point) u).paired d u.realLocations =
        u.paired d u.realLocations + (tapeAt point).weighed real d (fun _ => 0) gradAt := by
      have transposes := walk_transposes (d := d) (fun _ _ => rfl) first apartHere sized graded
      rw [weighed_congr first kept] at transposes
      simpa [pairing, walkPoint] using transposes
    have keptThen : ∀ field, r.activity.written.contains field = true →
        (r.walkPoint (tapeAt point) u).gradAt field = gradAt field := by
      intro field written
      rw [← kept field written]
      funext p
      unfold FieldTable.gradAt walkPoint
      rw [walk_keeps (apartHere.other written)]
      rfl
    have others := ih (u := r.walkPoint (tapeAt point) u)
      (fun q member => locations.symm ▸ fits q (List.mem_cons_of_mem _ member))
      (fun q member => apart q (List.mem_cons_of_mem _ member)) (sized.altered altered)
      (graded.altered altered) keptThen
    rw [locations, here] at others
    rw [List.map_cons, List.sum_cons, ← add_assoc]
    exact others

end Reversal

namespace Kernel

variable {δ : Type} [Digest δ] {kernel grad : Kernel K} {args : List K}

-- Exact reverse mode. Let a kernel load no field it stores to, and all real fields have gradients. Then
-- what a gradient launch adds to the gradients, paired with any tangents of the locations, is what the
-- gradients of the stored locations come to, paired with the tangents that forward mode gives the
-- stored values.
theorem gradient_launch_is_transpose {bound gradBound : Bound K δ} {order gradOrder : VisitOrder}
    {table s₀ s₁ s₂ : FieldTable K} (binds : kernel.bind s₀ = .ok bound)
    (reversed : kernel.reverse bound.signatures = .ok grad) (gradBinds : grad.bind table = .ok gradBound)
    (apart : bound.access.reads.disjoint bound.access.writes = true) (sized : s₀.Sized)
    (graded : s₀.Graded) (forward : bound.launch args order s₀ = .ok () s₁)
    (backward : gradBound.launch args gradOrder s₁ = .ok () s₂) (d : String → Nat → K) :
    ∑ l ∈ s₀.realLocations, (s₂.gradAt l.1 l.2 - s₁.gradAt l.1 l.2) * d l.1 l.2 =
      ((kernel.domain.points order).map fun point =>
        (kernel.tapeAt args order s₀ point).weighed s₀.isReal d (fun _ => 0) s₁.gradAt).sum := by
  obtain ⟨-, -, -, boundIs⟩ := binds_iff.mp binds
  obtain ⟨gradChecked, -, -, gradBoundIs⟩ := binds_iff.mp gradBinds
  have walked := launches_walk binds reversed (by rw [gradBoundIs]) gradChecked forward backward
  have changed : s₀.Altered _ _ s₁ := (kernel.moves_points args _).ok (launch_runs binds forward)
  have locations := FieldTable.realLocations_altered changed
  have visited : kernel.domain.points gradOrder ⊆ kernel.domain.points order :=
    (kernel.domain.points_perm gradOrder order).subset
  have fits : ∀ point ∈ kernel.domain.points gradOrder,
      (kernel.reversal bound.signatures).TapeFits s₀.isReal s₁.realLocations ∅
        (kernel.tapeAt args order s₀ point) := fun point member =>
    locations.symm ▸ tapeAt_fits binds reversed forward (visited member)
  have apartThere : ∀ point ∈ kernel.domain.points gradOrder,
      (kernel.reversal bound.signatures).Apart (kernel.tapeAt args order s₀ point) := by
    intro point member e recorded l loaded
    rw [boundIs] at apart
    exact NameSet.disjoint_iff.mp apart l.1 (Access.contains_ofBlock.mpr (tapeAt_loads recorded loaded))
  have transposed := Reversal.walkPoints_transpose (d := d) fits apartThere (sized.altered changed)
    (graded.altered changed) fun _ _ => rfl
  rw [← walked, locations] at transposed
  have turned := ((kernel.domain.points_perm gradOrder order).map fun point =>
    (kernel.tapeAt args order s₀ point).weighed s₀.isReal d (fun _ => 0) s₁.gradAt).sum_eq
  simp only [sub_mul, Finset.sum_sub_distrib]
  rw [← turned]
  exact sub_eq_of_eq_add' transposed

end Kernel

namespace Square

theorem fields_sized (y dx : Array ℚ) (ySize : y.size = 2) (dxSize : dx.size = 2) : (fields y dx).Sized :=
  (FieldTable.sized_empty.insert ⟨rfl, fun _ stored => Option.some.inj stored ▸ dxSize⟩).insert
    ⟨ySize, fun _ stored => Option.some.inj stored ▸ rfl⟩

theorem fields_graded (y dx : Array ℚ) : (fields y dx).Graded := by
  intro name field found _
  change NameMap.find? (NameMap.insert (NameMap.insert NameMap.empty "x" _) "y" _) name = _ at found
  rw [NameMap.find?_insert, NameMap.find?_insert] at found
  split at found
  · cases found
    rfl
  · split at found
    · cases found
      rfl
    · cases found

theorem gradient_launch_is_transpose_square :
    ∑ l ∈ (fields #[0, 0] #[0, 0]).realLocations,
        ((fields #[9, -1] #[6, 1]).gradAt l.1 l.2 - (fields #[9, -1] #[0, 0]).gradAt l.1 l.2) * (l.2 + 1) =
      ((kernel.domain.points .forward).map fun point =>
        (kernel.tapeAt [] .forward (fields #[0, 0] #[0, 0]) point).weighed (fields #[0, 0] #[0, 0]).isReal
          (fun _ p => p + 1) (fun _ => 0) (fields #[9, -1] #[0, 0]).gradAt).sum := by
  have binds : kernel.bind (fields #[0, 0] #[0, 0]) = .ok (bound kernel) := by decide +kernel
  have reversed : kernel.reverse (bound kernel).signatures = .ok gradient := by decide +kernel
  have gradBinds : gradient.bind (fields #[0, 0] #[0, 0]) = .ok (bound gradient) := by decide +kernel
  have apart : (bound kernel).access.reads.disjoint (bound kernel).access.writes = true := by decide +kernel
  have forward : (bound kernel).launch [] .forward (fields #[0, 0] #[0, 0]) =
      .ok () (fields #[9, -1] #[0, 0]) := by decide +kernel
  have backward : (bound gradient).launch [] .reverse (fields #[9, -1] #[0, 0]) =
      .ok () (fields #[9, -1] #[6, 1]) := by decide +kernel
  exact Kernel.gradient_launch_is_transpose binds reversed gradBinds apart (fields_sized _ _ rfl rfl)
    (fields_graded _ _) forward backward fun _ p => p + 1

end Square

end FieldKernel
