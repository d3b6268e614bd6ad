import FieldKernel.Proofs.Execution.Touches
import FieldKernel.Proofs.Scalar.Rational

-- Points that do not touch what other points write to can be visited in any order.
namespace FieldKernel

variable {α δ : Type} [Scalar α]

def Touched (touches : List Touch) (slot : Slot) : Prop := ∃ touch ∈ touches, touch.slot = slot

def Leaves (touches others : List Touch) : Prop :=
  ∀ touch ∈ touches, touch.writes = true → ∀ other ∈ others, other.slot ≠ touch.slot

instance (touches others : List Touch) : Decidable (Leaves touches others) :=
  List.decidableBAll (fun touch : Touch => touch.writes = true → ∀ other ∈ others, other.slot ≠ touch.slot) touches

theorem Leaves.unwritten {touches others : List Touch} (leaves : Leaves touches others) {slot : Slot}
    (touched : Touched others slot) : Unwritten touches slot := by
  obtain ⟨other, used, rfl⟩ := touched
  exact fun touch here writes same => leaves touch here writes other used same.symm

omit [Scalar α] in
theorem touched_of_written {touches : List Touch} {slot : Slot} (written : ¬Unwritten touches slot) :
    Touched touches slot := by
  simp only [Unwritten, not_forall, not_not] at written
  obtain ⟨touch, used, -, same⟩ := written
  exact ⟨touch, used, same⟩

namespace Kernel

variable (kernel : Kernel α) (args : List α)

def touches (table : FieldTable α) (point : Point) : List Touch :=
  (Frame.mk kernel args point).touches kernel.body (.start table kernel.counter)

-- At no point of the domain is anything touched that is written to at another.
def Independent (table : FieldTable α) : Prop :=
  ∀ p ∈ kernel.domain.points .forward, ∀ q ∈ kernel.domain.points .forward, p ≠ q →
    Leaves (kernel.touches args table p) (kernel.touches args table q)

instance (table : FieldTable α) : Decidable (kernel.Independent args table) :=
  List.decidableBAll (fun p => ∀ q ∈ kernel.domain.points .forward, p ≠ q →
    Leaves (kernel.touches args table p) (kernel.touches args table q)) _

def Separate (table : FieldTable α) (p q : Point) : Prop :=
  Leaves (kernel.touches args table p) (kernel.touches args table q) ∧
    Leaves (kernel.touches args table q) (kernel.touches args table p)

variable {kernel args} {point : Point} {slots : Slot → Prop} {t u u' : FieldTable α}

theorem abreast_runPoint (agree : t.AgreeAt slots u)
    (touched : ∀ touch ∈ kernel.touches args t point, slots touch.slot) :
    kernel.touches args u point = kernel.touches args t point ∧
      Abreast (FieldTable.AgreeAt slots) Eq (kernel.runPoint args point t) (kernel.runPoint args point u) := by
  have start : (Machine.start t kernel.counter).AgreeAt slots (.start u kernel.counter) :=
    ⟨agree, rfl, rfl⟩
  obtain ⟨same, ran⟩ := Frame.abreast_block start touched
  refine ⟨same, ?_⟩
  unfold runPoint
  rcases ran.either with ⟨_, _, m, n, ran, ran', agree', -⟩ | ⟨e, m, n, ran, ran', agree'⟩
  · rw [ran, ran']
    exact .ok agree'.table rfl
  · rw [ran, ran']
    exact .error e agree'.table

theorem runPoint_spares (t : FieldTable α) (point : Point) :
    t.AgreeAt (Unwritten (kernel.touches args t point)) (ended (kernel.runPoint args point t)) := by
  have spares := (Frame.mk kernel args point).block_spares kernel.body (.start t kernel.counter)
  unfold runPoint
  revert spares
  cases (Frame.mk kernel args point).block kernel.body (.start t kernel.counter) with
  | ok _ m => exact id
  | error e m => exact id

-- What has become of a table `u` when points were visited one after the other: each of them has come to
-- what it comes to alone on the table `t`, and what none of them writes to is as it was.
structure Settled (kernel : Kernel α) (args : List α) (t : FieldTable α) (points : List Point)
    (u u' : FieldTable α) : Prop where
  own : ∀ p ∈ points, ∃ r, kernel.runPoint args p t = .ok () r ∧
    r.AgreeAt (Touched (kernel.touches args t p)) u'
  others : u.AgreeAt (fun slot => ∀ p ∈ points, Unwritten (kernel.touches args t p) slot) u'

-- The induction is on the points: a point leaves to those after it what they touch.
theorem settles {points : List Point}
    (apart : points.Pairwise (kernel.Separate args t))
    (agree : ∀ p ∈ points, t.AgreeAt (Touched (kernel.touches args t p)) u) :
    (∃ u', points.forM (kernel.runPoint args) u = .ok () u' ∧ kernel.Settled args t points u u') ∨
      (∃ e u', points.forM (kernel.runPoint args) u = .error e u') ∧
        ∃ p ∈ points, ∃ e r, kernel.runPoint args p t = .error e r := by
  induction points generalizing u with
  | nil => exact .inl ⟨u, rfl, nofun, .refl u⟩
  | cons p rest ih =>
    obtain ⟨apart, apartRest⟩ := List.pairwise_cons.mp apart
    obtain ⟨agree, agreeRest⟩ := List.forall_mem_cons.mp agree
    obtain ⟨same, here⟩ := abreast_runPoint agree fun touch used => ⟨touch, used, rfl⟩
    have spares : u.AgreeAt (Unwritten (kernel.touches args u p)) (ended (kernel.runPoint args p u)) :=
      kernel.runPoint_spares u p
    rw [same] at spares
    rcases here.either with ⟨_, _, r, u₁, ran, ran', result, -⟩ | ⟨e, r, u₁, ran, ran', -⟩
    · rw [ran'] at spares
      have ready : ∀ q ∈ rest, t.AgreeAt (Touched (kernel.touches args t q)) u₁ := fun q member =>
        (agreeRest q member).trans (spares.weaken fun _ => (apart q member).1.unwritten)
      rcases ih apartRest ready with ⟨u', others, settled⟩ | ⟨⟨e, u', failed⟩, q, member, alone⟩
      · refine .inl ⟨u', bind_ok.mpr ⟨(), u₁, ran', others⟩, ?_, ?_⟩
        · refine List.forall_mem_cons.mpr ⟨⟨r, ran, result.trans (settled.others.weaken ?_)⟩, settled.own⟩
          exact fun slot touched q member => (apart q member).2.unwritten touched
        · refine (spares.weaken fun slot spared => ?_).trans (settled.others.weaken fun slot spared => ?_)
          · exact spared p List.mem_cons_self
          · exact fun q member => spared q (List.mem_cons_of_mem _ member)
      · refine .inr ⟨⟨e, u', bind_error.mpr (.inr ⟨(), u₁, ran', failed⟩)⟩, q, ?_, alone⟩
        exact List.mem_cons_of_mem _ member
    · exact .inr ⟨⟨e, u₁, bind_error.mpr (.inl ran')⟩, p, List.mem_cons_self, e, r, ran⟩

theorem Settled.unique {points points' : List Point} {v : FieldTable α}
    (left : kernel.Settled args t points u u') (right : kernel.Settled args t points' u v)
    (same : ∀ p, p ∈ points ↔ p ∈ points') : v = u' := by
  have shape : u'.AgreeAt (fun _ => False) v :=
    (left.others.symm.weaken fun _ => False.elim).trans (right.others.weaken fun _ => False.elim)
  refine (shape.of_each fun slot _ => ?_).eq
  by_cases written : ∃ p ∈ points, ¬Unwritten (kernel.touches args t p) slot
  · obtain ⟨p, member, written⟩ := written
    obtain ⟨r, ran, here⟩ := left.own p member
    obtain ⟨r', ran', there⟩ := right.own p ((same p).mp member)
    cases ran.symm.trans ran'
    refine (here.symm.trans there).weaken fun _ equal => ?_
    exact equal ▸ touched_of_written written
  · have unwritten : ∀ p ∈ points, Unwritten (kernel.touches args t p) slot := by
      intro p member
      by_contra other
      exact written ⟨p, member, other⟩
    refine (left.others.symm.weaken fun _ equal => ?_).trans (right.others.weaken fun _ equal => ?_)
    · exact equal ▸ unwritten
    · exact equal ▸ fun p member => unwritten p ((same p).mpr member)

theorem points_order {points points' : List Point} (nodup : points.Nodup) (perm : points.Perm points')
    (apart : ∀ p ∈ points, ∀ q ∈ points, p ≠ q →
      Leaves (kernel.touches args t p) (kernel.touches args t q)) :
    (∃ after, points.forM (kernel.runPoint args) t = .ok () after ∧
        points'.forM (kernel.runPoint args) t = .ok () after) ∨
      (∃ e u, points.forM (kernel.runPoint args) t = .error e u) ∧
        ∃ e u, points'.forM (kernel.runPoint args) t = .error e u := by
  have both : ∀ p ∈ points, ∀ q ∈ points, p ≠ q → kernel.Separate args t p q :=
    fun p inP q inQ other => ⟨apart p inP q inQ other, apart q inQ p inP other.symm⟩
  have separate : points.Pairwise (kernel.Separate args t) :=
    nodup.imp_of_mem fun inP inQ => both _ inP _ inQ
  have separate' : points'.Pairwise (kernel.Separate args t) :=
    (perm.nodup_iff.mp nodup).imp_of_mem fun inP inQ =>
      both _ (perm.mem_iff.mpr inP) _ (perm.mem_iff.mpr inQ)
  have one := settles separate fun _ _ => .refl t
  have other := settles separate' fun _ _ => .refl t
  rcases one with ⟨after, ran, settled⟩ | ⟨failed, p, member, e, r, alone⟩
  · rcases other with ⟨after', ran', settled'⟩ | ⟨-, p, member, e, r, alone⟩
    · rw [settled.unique settled' fun _ => perm.mem_iff] at ran'
      exact .inl ⟨after, ran, ran'⟩
    · obtain ⟨r', ran, -⟩ := settled.own p (perm.mem_iff.mpr member)
      cases ran.symm.trans alone
  · rcases other with ⟨after', -, settled'⟩ | ⟨failed', -⟩
    · obtain ⟨r', ran, -⟩ := settled'.own p (perm.mem_iff.mp member)
      cases ran.symm.trans alone
    · exact .inr ⟨failed, failed'⟩

end Kernel

-- A launch does not depend on the order of independent points: forward and in reverse it succeeds with one
-- outcome, or it fails.
theorem Bound.launch_either_order (bound : Bound α δ) (args : List α) (table : FieldTable α)
    (independent : bound.kernel.Independent args table) :
    (∃ after, bound.launch args .forward table = .ok () after ∧
        bound.launch args .reverse table = .ok () after) ∨
      (∃ e left, bound.launch args .forward table = .error e left) ∧
        ∃ e left, bound.launch args .reverse table = .error e left := by
  have orders := Kernel.points_order (bound.kernel.domain.nodup_points .forward)
    (bound.kernel.domain.points_perm .forward .reverse) independent
  rw [← Kernel.execute_eq, ← Kernel.execute_eq] at orders
  unfold launch
  cases bound.launchable args table with
  | error e => exact .inr ⟨⟨e, table, rfl⟩, e, table, rfl⟩
  | ok _ =>
    dsimp only
    rcases orders with ⟨after, ran, ran'⟩ | ⟨⟨e, u, failed⟩, e', u', failed'⟩
    · rw [ran, ran']
      exact .inl ⟨after, rfl, rfl⟩
    · rw [failed, failed']
      exact .inr ⟨⟨e, _, rfl⟩, e', _, rfl⟩

-- Doubles the element of `y` that `at` points to, unless it is zero: where the body writes, and whether it
-- does, is read off the table.
namespace Scatter

def body : Block ℚ :=
  .instr (.define ⟨0⟩ (.index 0)) <| .instr (.define ⟨1⟩ (.load ⟨"at", [⟨0⟩]⟩)) <|
  .instr (.define ⟨2⟩ (.load ⟨"y", [⟨1⟩]⟩)) <|
  .branch ⟨2⟩ (.instr (.define ⟨3⟩ (.binary .add ⟨2⟩ ⟨2⟩)) <| .instr (.store ⟨"y", [⟨1⟩]⟩ ⟨3⟩) .nil) .nil .nil

def kernel : Kernel ℚ := .ofBody "double" (.ofExtents [3]) 0 body

def fields (y : Array ℚ) : FieldTable ℚ := .ofList [
  ("at", ⟨rootGroup, .i32, [3], #[2, 0, 1], none⟩), ("y", ⟨rootGroup, .f64, [3], y, none⟩)]

def bound : Bound ℚ (List UInt8) :=
  let signatures := .ofList [("at", ⟨.i32, [3]⟩), ("y", ⟨.f64, [3]⟩)]
  ⟨kernel, signatures, .ofBlock body, kernel.digest signatures⟩

theorem launch_either_order_scattered : kernel.bind (fields #[5, 0, 7]) = .ok bound ∧
    bound.kernel.Independent [] (fields #[5, 0, 7]) ∧
    bound.launch [] .forward (fields #[5, 0, 7]) = .ok () (fields #[10, 0, 14]) ∧
    bound.launch [] .reverse (fields #[5, 0, 7]) = .ok () (fields #[10, 0, 14]) := by
  have binds : kernel.bind (fields #[5, 0, 7]) = .ok bound := by decide +kernel
  have independent : bound.kernel.Independent [] (fields #[5, 0, 7]) := by decide +kernel
  have forward : bound.launch [] .forward (fields #[5, 0, 7]) = .ok () (fields #[10, 0, 14]) := by
    decide +kernel
  refine ⟨binds, independent, forward, ?_⟩
  rcases Bound.launch_either_order bound [] _ independent with ⟨after, ran, reverse⟩ | ⟨⟨e, left, failed⟩, -⟩
  · cases forward.symm.trans ran
    exact reverse
  · cases forward.symm.trans failed

end Scatter

end FieldKernel
