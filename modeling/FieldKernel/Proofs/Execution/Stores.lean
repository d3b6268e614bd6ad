import FieldKernel.Proofs.Execution.Verdict
import FieldKernel.Proofs.Field.Advance

-- What launches write: of the data after a launch, every number was there before or is one that was stored.
namespace FieldKernel

variable {α δ : Type} [Scalar α]

namespace Frame

variable {frame : Frame α} {m m' : Machine α} {block : Block α}

def Stores (frame : Frame α) (m : Machine α) (block : Block α) (name : String) (v : α) : Prop :=
  ∃ m' place u, frame.Reaches m block m' (.instr (.store place u)) ∧ place.field = name ∧ m'.value? u = some v

theorem Steps.advances {i : Instr α} {rest : Block α} (step : frame.Steps m i m') :
    m.table.Advances (frame.Stores m (.instr i rest)) FieldTable.Never m'.table := by
  cases step with
  | define | readGrad | propagate => exact .refl m.table
  | store at_ value => exact m.table.advances_setAt ⟨m, _, _, .instr, rfl, value⟩ _
  | addGrad at_ graded from_ => exact m.table.advances_addGradAt _ _ _

theorem Runs.advances (runs : frame.Runs m block m') :
    m.table.Advances (frame.Stores m block) FieldTable.Never m'.table := by
  induction runs with
  | nil => exact .refl _
  | instr step _ ih =>
    refine step.advances.trans (ih.still fun name v stores => ?_)
    obtain ⟨m', place, u, reaches, field, value⟩ := stores
    exact ⟨m', place, u, .later step reaches, field, value⟩
  | branch value inner _ ihInner ihRest =>
    refine (ihInner.still fun name v stores => ?_).trans (ihRest.still fun name v stores => ?_)
    · obtain ⟨m', place, u, reaches, field, stored⟩ := stores
      exact ⟨m', place, u, .inside value reaches, field, stored⟩
    · obtain ⟨m', place, u, reaches, field, stored⟩ := stores
      exact ⟨m', place, u, .after value inner reaches, field, stored⟩

end Frame

namespace Bound

variable {bound : Bound α δ} {args : List α} {order : VisitOrder} {table : FieldTable α}

def Stores (bound : Bound α δ) (args : List α) (order : VisitOrder) (table : FieldTable α) (name : String)
    (v : α) : Prop :=
  ∃ m place u, bound.Meets args order table m (.instr (.store place u)) ∧ place.field = name ∧
    m.value? u = some v

-- The induction is on the points still to come, after those that have run.
theorem points_advance (launchable : bound.launchable args table = .ok ()) {before rest : List Point}
    (points : bound.kernel.domain.points order = before ++ rest) {t t' : FieldTable α}
    (ran : before.forM (bound.kernel.runPoint args) table = .ok () t)
    (runs : rest.forM (bound.kernel.runPoint args) t = .ok () t') :
    t.Advances (bound.Stores args order table) FieldTable.Never t' := by
  induction rest generalizing before t with
  | nil =>
    cases runs
    exact .refl _
  | cons point rest ih =>
    obtain ⟨_, t₁, first, others⟩ := bind_ok.mp runs
    have further : (before ++ [point]).forM (bound.kernel.runPoint args) table = .ok () t₁ :=
      forM_append_ok.mpr ⟨t, ran, forM_single_ok.mpr first⟩
    obtain ⟨m, body, rfl⟩ := Kernel.runPoint_ok.mp first
    refine (body.advances.still fun name v stores => ?_).trans (ih (by simpa using points) further others)
    obtain ⟨m', place, u, reaches, field, value⟩ := stores
    exact ⟨m', place, u, ⟨launchable, before, point, rest, t, points, ran, reaches⟩, field, value⟩

theorem launch_advances (access : bound.access = .ofBlock bound.kernel.body) (args : List α) (order : VisitOrder)
    (table : FieldTable α) :
    table.Advances (fun name v => (∃ table', bound.launch args order table = .ok () table') ∧
      bound.Stores args order table name v) FieldTable.Never (ended (bound.launch args order table)) := by
  cases ran : bound.launch args order table with
  | error e table' =>
    rw [ended_error, launch_error access ran]
    exact .refl table
  | ok _ table' =>
    obtain ⟨launchable, executed⟩ := launch_ok.mp ran
    rw [Kernel.execute_eq] at executed
    have advances := points_advance launchable (List.nil_append _).symm rfl executed
    exact advances.still fun name v stores => ⟨⟨table', rfl⟩, stores⟩

end Bound

end FieldKernel
