import FieldKernel.Kernel.Binding
import FieldKernel.Proofs.Field.Table
import FieldKernel.Proofs.Kernel.Access
import FieldKernel.Proofs.Kernel.Scope

-- What binding establishes.
namespace FieldKernel

variable {α δ : Type} [Scalar α] [Digest δ]

namespace Kernel

variable {kernel : Kernel α} {table : FieldTable α} {signatures : Signatures}

omit [Scalar α] in
theorem resolve_finds {names : List String} (resolved : resolve table names = .ok signatures) :
    (∀ name ∈ names, table.contains name = true) ∧
      ∀ name, signatures.find? name =
        if name ∈ names then (table.find? name).map Field.signature else none := by
  induction names generalizing signatures with
  | nil =>
    cases resolved
    refine ⟨fun name none_ => ?_, fun _ => rfl⟩
    cases none_
  | cons name names ih =>
    simp only [resolve, Except.bind_ok, FieldTable.field_ok] at resolved
    obtain ⟨field, found, rest, others, same⟩ := resolved
    cases same
    obtain ⟨there, finds⟩ := ih others
    refine ⟨fun n member => ?_, fun n => ?_⟩
    · rcases List.mem_cons.mp member with rfl | later
      · simp [NameMap.contains, found]
      · exact there n later
    · rw [NameMap.find?_insert, finds]
      by_cases same : n = name
      · subst same
        simp [found]
      · simp [same]

omit [Scalar α] in
theorem resolve_total {names : List String} (there : ∀ name ∈ names, table.contains name = true) :
    ∃ signatures, resolve table names = .ok signatures := by
  induction names with
  | nil => exact ⟨_, rfl⟩
  | cons name names ih =>
    obtain ⟨field, found⟩ := Option.isSome_iff_exists.mp (there name List.mem_cons_self)
    obtain ⟨rest, others⟩ := ih fun n later => there n (List.mem_cons_of_mem _ later)
    refine ⟨rest.insert name field.signature, ?_⟩
    simp only [resolve, Except.bind_ok, FieldTable.field_ok]
    exact ⟨field, found, rest, others, rfl⟩

-- Every access has a coordinate for each axis of its field, as far as the field is known.
def Ranked (kernel : Kernel α) (signatures : Signatures) : Prop :=
  ∀ s ∈ kernel.body.statements, ∀ place ∈ s.place?, ∀ signature ∈ signatures.find? place.field,
    signature.shape.length = place.index.length

omit [Scalar α] in
theorem accessRanks_ok : kernel.accessRanks signatures = .ok () ↔ kernel.Ranked signatures := by
  have single : ∀ place, kernel.accessRankFault? signatures place = none ↔
      ∀ signature ∈ signatures.find? place.field, signature.shape.length = place.index.length := by
    intro place
    unfold accessRankFault?
    cases signatures.find? place.field with
    | none => simp
    | some signature => by_cases same : signature.shape.length = place.index.length <;> simp [same]
  unfold accessRanks Ranked
  split
  · next fault found =>
    obtain ⟨place, member, fault⟩ := List.exists_of_findSome?_eq_some found
    obtain ⟨s, inBody, addressed⟩ := List.mem_filterMap.mp member
    simp only [reduceCtorEq, false_iff]
    intro ranked
    have fine := (single place).mpr (ranked s inBody place addressed)
    rw [fine] at fault
    cases fault
  · next none_ =>
    simp only [true_iff]
    intro s inBody place addressed
    exact (single place).mp (List.findSome?_eq_none_iff.mp none_ place
      (List.mem_filterMap.mpr ⟨s, inBody, addressed⟩))

omit [Scalar α] in
theorem ranked_iff (resolved : resolve table (Access.ofBlock kernel.body).fields.names = .ok signatures) :
    kernel.Ranked signatures ↔ ∀ s ∈ kernel.body.statements, ∀ place ∈ s.place?,
      ∀ field ∈ table.find? place.field, field.shape.length = place.index.length := by
  obtain ⟨-, finds⟩ := resolve_finds resolved
  refine forall₄_congr fun s member place addressed => ?_
  obtain ⟨use, used⟩ := Block.uses_of_place member addressed
  have named : place.field ∈ (Access.ofBlock kernel.body).fields.names :=
    NameMap.mem_names.mpr (Access.contains_fields.mpr ⟨use, Access.contains_ofBlock.mpr used⟩)
  rw [finds, if_pos named]
  simp only [Option.mem_def, Option.map_eq_some_iff]
  constructor
  · exact fun each field found => each field.signature ⟨field, found, rfl⟩
  · rintro each _ ⟨field, found, rfl⟩
    exact each field found

theorem binds_iff {bound : Bound α δ} : kernel.bind table = .ok bound ↔
    kernel.check = .ok () ∧ kernel.Ranked bound.signatures ∧
      resolve table (Access.ofBlock kernel.body).fields.names = .ok bound.signatures ∧
      bound = ⟨kernel, bound.signatures, .ofBlock kernel.body, kernel.digest bound.signatures⟩ := by
  simp only [bind, Except.bind_ok, ← accessRanks_ok]
  constructor
  · rintro ⟨_, checked, signatures, resolved, _, ranked, same⟩
    cases same
    exact ⟨checked, ranked, resolved, rfl⟩
  · rintro ⟨checked, ranked, resolved, same⟩
    exact ⟨(), checked, bound.signatures, resolved, (), ranked, congrArg Except.ok same.symm⟩

theorem check_of_bind_error {e : KernelFault} (failed : kernel.bind table = (.error e : Except _ (Bound α δ)))
    (binds : kernel.check = .ok () → ∃ bound : Bound α δ, kernel.bind table = .ok bound) : kernel.check = .error e := by
  cases checked : kernel.check with
  | ok _ =>
    obtain ⟨bound, binds⟩ := binds checked
    cases binds.symm.trans failed
  | error e' =>
    rw [bind, checked] at failed
    cases failed
    rfl

end Kernel

namespace Bound

variable {bound : Bound α δ} {table : FieldTable α}

theorem access_of_binds (binds : bound.kernel.bind table = .ok bound) :
    bound.access = .ofBlock bound.kernel.body := by
  obtain ⟨-, -, -, same⟩ := Kernel.binds_iff.mp binds
  rw [same]

theorem digest_of_binds (binds : bound.kernel.bind table = .ok bound) :
    bound.digest = bound.kernel.digest bound.signatures := by
  obtain ⟨-, -, -, same⟩ := Kernel.binds_iff.mp binds
  rw [same]

end Bound

end FieldKernel
