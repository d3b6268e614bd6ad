import FieldKernel.Reverse.Basic
import FieldKernel.Session.Schedule
import FieldKernel.Proofs.Kernel.Binding
import FieldKernel.Proofs.Kernel.Numbering

-- Kernels that differ in their counters at most, and fused kernels.
namespace FieldKernel

variable {α δ : Type} [Scalar α] [Digest δ]

namespace Kernel

-- Kernels that are the same but for the counter; they print alike.
structure Alike (a b : Kernel α) : Prop where
  name : b.name = a.name
  domain : b.domain = a.domain
  argCount : b.argCount = a.argCount
  body : b.body = a.body

-- The counter is above every value that the kernel defines.
def Counted (kernel : Kernel α) : Prop := ∀ v ∈ kernel.body.assigned, v.index < kernel.counter

variable {a b c kernel : Kernel α} {table table' : FieldTable α}

omit [Scalar α] in
theorem Alike.refl (kernel : Kernel α) : kernel.Alike kernel := ⟨rfl, rfl, rfl, rfl⟩

omit [Scalar α] in
theorem Alike.symm (alike : a.Alike b) : b.Alike a :=
  ⟨alike.name.symm, alike.domain.symm, alike.argCount.symm, alike.body.symm⟩

omit [Scalar α] in
theorem Alike.trans (first : a.Alike b) (second : b.Alike c) : a.Alike c :=
  ⟨second.name.trans first.name, second.domain.trans first.domain,
    second.argCount.trans first.argCount, second.body.trans first.body⟩

omit [Scalar α] in
theorem counted_of_check (checked : kernel.check = .ok ()) : kernel.Counted :=
  fun _ => (check_ok.mp checked).assigned_lt

omit [Scalar α] in
theorem forwardOnly_ok : kernel.forwardOnly = .ok () ↔
    ∀ s ∈ kernel.body.statements, s.isReverseOnly = false := by
  unfold forwardOnly
  split
  · next s found =>
    have member := List.mem_of_find?_eq_some found
    have only := List.find?_some found
    simp only [reduceCtorEq, false_iff, not_forall]
    exact ⟨s, member, by simp [only]⟩
  · next none_ => simpa using List.find?_eq_none.mp none_

omit [Scalar α] in
theorem Alike.forwardOnly (alike : a.Alike b) : b.forwardOnly = a.forwardOnly := by
  unfold Kernel.forwardOnly
  rw [alike.body, alike.name]

omit [Scalar α] in
theorem resolve_keeps {names : List String} {signatures : Signatures}
    (resolved : resolve table names = .ok signatures) (keeps : table.Keeps table') :
    resolve table' names = .ok signatures := by
  induction names generalizing signatures with
  | nil => exact resolved
  | cons name names ih =>
    simp only [resolve, Except.bind_ok, FieldTable.field_ok] at resolved ⊢
    obtain ⟨field, found, rest, others, same⟩ := resolved
    obtain ⟨field', found', signature⟩ := keeps name field found
    refine ⟨field', found', rest, ih others, ?_⟩
    rw [signature]
    exact same

theorem bind_keeps {bound : Bound α δ} (binds : kernel.bind table = .ok bound)
    (keeps : table.Keeps table') : kernel.bind table' = .ok bound := by
  obtain ⟨checked, ranked, resolved, same⟩ := binds_iff.mp binds
  exact binds_iff.mpr ⟨checked, ranked, resolve_keeps resolved keeps, same⟩

theorem Alike.digest (alike : a.Alike b) (signatures : Signatures) :
    (b.digest signatures : δ) = a.digest signatures := by
  simp only [Kernel.digest, identity, text, header, alike.name, alike.domain, alike.argCount, alike.body]

omit [Scalar α] in
theorem Alike.check (alike : a.Alike b) (counted : b.Counted) (checked : a.check = .ok ()) :
    b.check = .ok () := by
  have formed := check_ok.mp checked
  rw [check_ok, alike.body]
  have limits : b.limits = { a.limits with counter := b.counter } := by
    simp only [Kernel.limits, alike.domain, alike.argCount]
  rw [limits]
  exact formed.recount fun v member => counted v (alike.body ▸ member)

end Kernel

structure Bound.Alike (a b : Bound α δ) : Prop where
  kernel : a.kernel.Alike b.kernel
  signatures : b.signatures = a.signatures
  access : b.access = a.access
  digest : b.digest = a.digest

namespace Kernel

variable {a b kernel : Kernel α} {table : FieldTable α}

theorem binds_kernel {bound : Bound α δ} (binds : kernel.bind table = .ok bound) :
    bound.kernel = kernel := by
  obtain ⟨-, -, -, same⟩ := binds_iff.mp binds
  rw [same]

theorem Alike.bind_of_check (alike : a.Alike b) (checked : b.check = .ok ()) {bound : Bound α δ}
    (binds : a.bind table = .ok bound) : b.bind table = .ok { bound with kernel := b } := by
  obtain ⟨-, ranked, resolved, same⟩ := binds_iff.mp binds
  have access : bound.access = .ofBlock a.body := by rw [same]
  have digest : bound.digest = a.digest bound.signatures := by rw [same]
  refine binds_iff.mpr ⟨checked, ?_, ?_, ?_⟩
  · intro s member
    exact ranked s (alike.body ▸ member)
  · rw [alike.body]
    exact resolved
  · rw [alike.body, alike.digest bound.signatures, ← access, ← digest]

-- What the check says of a value that is defined beyond the counter.
def beyond (kernel : Kernel α) (v : ValueId) : KernelFault := .malformed kernel.name (.beyondCounter v kernel.counter)

omit [Scalar α] in
theorem Alike.checkInstr_beyond (alike : a.Alike b) {visible defined : List ValueId} {i : Instr α}
    (checked : a.checkInstr visible defined i = .ok ()) : b.checkInstr visible defined i = .ok () ∨
      ∃ v ∈ i.dst?, b.counter.toNat ≤ v.index ∧ b.checkInstr visible defined i = .error (b.beyond v) := by
  obtain ⟨operands, within, fresh⟩ := checkInstr_ok.mp checked
  have scope : b.operandsInScope visible (.instr i) = .ok () := operandsInScope_ok.mpr operands
  cases i with
  | define dst e =>
    have bounds : b.exprInBounds e = .ok () := by
      rw [exprInBounds_ok]
      cases e with
      | index axis => exact Nat.lt_of_lt_of_eq within.1 (congrArg Domain.rank alike.domain.symm)
      | arg position => exact Nat.lt_of_lt_of_eq within.1 alike.argCount.symm
      | const | load | binary | unary | compare => trivial
    by_cases below : dst.index < b.counter
    · exact .inl (checkInstr_ok.mpr ⟨operands, ⟨exprInBounds_ok.mp bounds, below⟩, fresh⟩)
    · have beyond := Nat.le_of_not_lt below
      refine .inr ⟨dst, rfl, beyond, ?_⟩
      rw [checkInstr, scope]
      change (b.exprInBounds e >>= fun _ => b.definable defined dst) = _
      rw [bounds]
      exact if_pos beyond
  | store | readGrad | propagate | addGrad => exact .inl (checkInstr_ok.mpr ⟨operands, trivial, fresh⟩)

-- Of kernels that print alike the one passes the check as the other does, unless it defines a value beyond its
-- counter; the first such value is what it fails by. The induction is on the block that is checked.
omit [Scalar α] in
theorem Alike.checkBlock_beyond (alike : a.Alike b) {visible defined after : List ValueId} {block : Block α}
    (checked : a.checkBlock visible defined block = .ok after) : b.checkBlock visible defined block = .ok after ∨
      ∃ v ∈ block.assigned, b.counter.toNat ≤ v.index ∧ b.checkBlock visible defined block = .error (b.beyond v) := by
  induction block generalizing visible defined after with
  | nil => exact .inl checked
  | instr i rest ih =>
    obtain ⟨first, others⟩ := Except.then_ok.mp checked
    rw [checkBlock, Block.assigned_instr]
    rcases alike.checkInstr_beyond first with here | ⟨v, dst, beyond, fault⟩
    · rw [here]
      refine (ih others).imp id fun found => ?_
      obtain ⟨v, later, fault⟩ := found
      exact ⟨v, List.mem_append_right _ later, fault⟩
    · rw [fault]
      exact .inr ⟨v, List.mem_append_left _ (Option.mem_toList.mpr dst), beyond, rfl⟩
  | branch cond onTrue onFalse rest ihTrue ihFalse ihRest =>
    obtain ⟨scope, blocks⟩ := Except.then_ok.mp checked
    obtain ⟨defined₁, first, blocks⟩ := Except.bind_ok.mp blocks
    obtain ⟨defined₂, second, others⟩ := Except.bind_ok.mp blocks
    have condition : b.operandsInScope visible (.branch cond) = .ok () :=
      operandsInScope_ok.mpr (operandsInScope_ok.mp scope)
    rw [checkBlock, condition, Block.assigned_branch]
    change (b.checkBlock visible defined onTrue >>= fun _ => _) = _ ∨ ∃ v ∈ _, _ ∧
      (b.checkBlock visible defined onTrue >>= fun _ => _) = _
    rcases ihTrue first with here | ⟨v, inside, beyond, fault⟩
    · rw [here]
      change (b.checkBlock visible defined₁ onFalse >>= fun _ => _) = _ ∨ ∃ v ∈ _, _ ∧
        (b.checkBlock visible defined₁ onFalse >>= fun _ => _) = _
      rcases ihFalse second with here | ⟨v, inside, beyond, fault⟩
      · rw [here]
        refine (ihRest others).imp id fun found => ?_
        obtain ⟨v, later, fault⟩ := found
        exact ⟨v, List.mem_append_right _ later, fault⟩
      · rw [fault]
        exact .inr ⟨v, List.mem_append_left _ (List.mem_append_right _ inside), beyond, rfl⟩
    · rw [fault]
      exact .inr ⟨v, List.mem_append_left _ (List.mem_append_left _ inside), beyond, rfl⟩

theorem Alike.bind_beyond (alike : a.Alike b) {bound : Bound α δ} (binds : a.bind table = .ok bound) :
    b.bind table = .ok { bound with kernel := b } ∨
      ∃ v ∈ b.body.assigned, b.counter.toNat ≤ v.index ∧
        b.bind table = (.error (b.beyond v) : Except KernelFault (Bound α δ)) := by
  obtain ⟨after, checked, -⟩ := Except.map_ok.mp (binds_iff.mp binds).1
  rw [← alike.body] at checked
  rcases alike.checkBlock_beyond checked with passed | ⟨v, inside, beyond, fault⟩
  · refine .inl (alike.bind_of_check ?_ binds)
    rw [Kernel.check, passed]
    rfl
  · refine .inr ⟨v, inside, beyond, ?_⟩
    rw [Kernel.bind, Kernel.check, fault]
    rfl

omit [Scalar α] in
theorem fused_body (a b : Kernel α) : (a.fused b).body = a.body ++ b.body.shift a.counter := rfl

omit [Scalar α] in
theorem fused_check (left : a.check = .ok ()) (right : b.check = .ok ()) (domain : a.domain = b.domain)
    (leftArgs : a.argCount = 0) (rightArgs : b.argCount = 0) (room : a.counter.toNat + b.counter < 4294967296) :
    (a.fused b).check = .ok () := by
  have formedLeft := check_ok.mp left
  have formedRight := check_ok.mp right
  have limitsLeft : (a.fused b).limits = { a.limits with counter := a.counter + b.counter } := by
    simp only [limits, fused, leftArgs, ShortWord.ofNat_eq room]
  have limitsRight : (a.fused b).limits = { b.limits with counter := a.counter + b.counter } := by
    simp only [limits, fused, rightArgs, domain, ShortWord.ofNat_eq room]
  have moved : ∀ v : ValueId, v.index < b.counter → v.shift a.counter = ⟨v.index + a.counter⟩ :=
    fun v inside => ValueId.shift_eq (by omega)
  rw [check_ok, fused_body]
  refine Block.WellFormed.append ?_ ?_
  · rw [limitsLeft]
    refine formedLeft.recount fun v member => ?_
    have : v.index < a.counter := formedLeft.assigned_lt member
    omega
  · rw [limitsRight]
    refine (formedRight.rename (fun v inside => ?_) (fun v w inV inW => ?_) (List.forall_mem_nil _)).apart
      (List.Subset.refl _) fun v second first => ?_
    · have : v.index < b.counter := inside
      rw [moved v this, Nat.add_comm a.counter]
      exact Nat.add_lt_add_right this _
    · exact ValueId.shift_inj (Nat.lt_trans inV b.counter.short) (Nat.lt_trans inW b.counter.short)
    · rw [List.append_nil] at first
      rw [Block.assigned_rename] at second
      obtain ⟨w, inside, rfl⟩ := List.mem_map.mp second
      have : (w.shift a.counter).index < a.counter := formedLeft.assigned_lt first
      rw [moved w (formedRight.assigned_lt inside)] at this
      exact absurd this (Nat.not_lt.mpr (Nat.le_add_left _ _))

omit [Scalar α] in
theorem contains_access_fused (use : Use) (name : String) :
    ((Access.ofBlock (a.fused b).body).of use).contains name = true ↔
      ((Access.ofBlock a.body).of use).contains name = true ∨
        ((Access.ofBlock b.body).of use).contains name = true := by
  rw [Access.contains_ofBlock, Access.contains_ofBlock, Access.contains_ofBlock, fused_body,
    Block.uses_append, Block.shift, Block.uses_rename]

omit [Scalar α] in
theorem contains_fields_fused {name : String} :
    (Access.ofBlock (a.fused b).body).fields.contains name = true ↔
      (Access.ofBlock a.body).fields.contains name = true ∨
        (Access.ofBlock b.body).fields.contains name = true := by
  simp only [Access.contains_fields, contains_access_fused, exists_or]

theorem fused_binds {boundA boundB : Bound α δ} (left : a.bind table = .ok boundA)
    (right : b.bind table = .ok boundB) (checked : (a.fused b).check = .ok ()) :
    ∃ bound : Bound α δ, (a.fused b).bind table = .ok bound := by
  obtain ⟨-, rankedA, resolvedA, -⟩ := binds_iff.mp left
  obtain ⟨-, rankedB, resolvedB, -⟩ := binds_iff.mp right
  obtain ⟨thereA, -⟩ := resolve_finds resolvedA
  obtain ⟨thereB, -⟩ := resolve_finds resolvedB
  obtain ⟨signatures, resolved⟩ : ∃ signatures,
      resolve table (Access.ofBlock (a.fused b).body).fields.names = .ok signatures := by
    refine resolve_total fun name member => ?_
    rcases contains_fields_fused.mp (NameMap.mem_names.mp member) with first | second
    · exact thereA name (NameMap.mem_names.mpr first)
    · exact thereB name (NameMap.mem_names.mpr second)
  refine ⟨⟨a.fused b, signatures, .ofBlock (a.fused b).body, (a.fused b).digest signatures⟩,
    binds_iff.mpr ⟨checked, ?_, resolved, rfl⟩⟩
  rw [ranked_iff resolved, fused_body, Block.statements_append, Block.shift, Block.statements_rename,
    List.forall_mem_append, List.forall_mem_map]
  refine ⟨(ranked_iff resolvedA).mp rankedA, fun s member place addressed field found => ?_⟩
  obtain ⟨place', addressed', rfl⟩ := Statement.place?_rename addressed
  rw [Place.rename, List.length_map]
  exact (ranked_iff resolvedB).mp rankedB s member place' addressed' field found

end Kernel

end FieldKernel
