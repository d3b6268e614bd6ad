import FieldKernel.Session.Derivations
import FieldKernel.Proofs.Kernel.Identity
import FieldKernel.Proofs.Reverse.Renaming

-- What the caches give for a kernel is what binding or reversing one that prints alike gives.
namespace FieldKernel

variable {α δ : Type}

theorem Instr.worded_iff {i : Instr α} :
    i.Worded ↔ ∀ use name, i.use? = some (use, name) → IsWord name := by
  cases i with
  | define dst e => cases e <;> simp [Worded, Expr.Worded, use?, eq_comm]
  | store | readGrad | propagate | addGrad => simp [Worded, use?, eq_comm]

theorem Block.worded_iff {block : Block α} :
    block.Worded ↔ ∀ use name, block.Uses use name → IsWord name := by
  constructor
  · rintro worded use name ⟨i, member, used⟩
    exact Instr.worded_iff.mp (worded i member) use name used
  · intro words i member
    exact Instr.worded_iff.mpr fun use name used => words use name ⟨i, member, used⟩

theorem isWord_append {a b : String} (left : IsWord a) (right : IsWord b) : IsWord (a ++ b) := by
  intro c member
  rw [String.toList_append, List.mem_append] at member
  exact member.elim (left c) (right c)

variable [Scalar α]

omit [Scalar α] in
theorem Kernel.Worded.fused {a b : Kernel α} (left : a.Worded) (right : b.Worded) : (a.fused b).Worded where
  name := by
    have under : IsWord "_" := by decide
    have first : IsWord "fused_" := by decide
    exact isWord_append (isWord_append (isWord_append first left.name) under) right.name
  body := Block.worded_iff.mpr fun use name used => by
    rw [fused_body, Block.uses_append, Block.shift, Block.uses_rename] at used
    rcases used with inA | inB
    · exact Block.worded_iff.mp left.body use name inA
    · exact Block.worded_iff.mp right.body use name inB

omit [Scalar α] in
theorem Kernel.Worded.fields {kernel : Kernel α} (worded : kernel.Worded) {name : String}
    (member : (Access.ofBlock kernel.body).fields.contains name = true) : IsWord name := by
  obtain ⟨use, used⟩ := Access.contains_fields.mp member
  exact Block.worded_iff.mp worded.body use name (Access.contains_ofBlock.mp used)

omit [Scalar α] in
theorem Kernel.resolved_word {kernel : Kernel α} (worded : kernel.Worded) {table : FieldTable α}
    {signatures : Signatures} (resolved : resolve table (Access.ofBlock kernel.body).fields.names = .ok signatures)
    {name : String} (member : name ∈ signatures.names) : IsWord name := by
  obtain ⟨signature, found⟩ := NameMap.contains_iff.mp (NameMap.mem_names.mp member)
  rw [(resolve_finds resolved).2 name] at found
  split at found
  · next named => exact worded.fields (NameMap.mem_names.mp named)
  · cases found

theorem Kernel.Worded.reverse {kernel grad : Kernel α} (worded : kernel.Worded) {signatures : Signatures}
    (counted : kernel.Counted) (reversed : kernel.reverse signatures = .ok grad) : grad.Worded where
  name := by
    have suffix : IsWord gradSuffix := by decide
    rw [reverse_name reversed]
    exact isWord_append worded.name suffix
  body := Block.worded_iff.mpr fun use name used => by
    obtain ⟨use', used'⟩ := reverse_uses counted reversed used
    exact Block.worded_iff.mp worded.body use' name used'

omit [Scalar α] in
theorem Kernel.Worded.alike {a b : Kernel α} (worded : a.Worded) (alike : a.Alike b) : b.Worded where
  name := alike.name ▸ worded.name
  body := alike.body ▸ worded.body

-- Kernels that a session makes, with more values than there are words.
inductive Kernel.Overflows : Kernel α → Prop
  | fused {a b : Kernel α} (left : a.check = .ok ()) (right : b.check = .ok ())
      (beyond : 4294967296 ≤ a.counter.toNat + b.counter) : Overflows (a.fused b)
  | gradient {kernel grad : Kernel α} {signatures : Signatures} {body : Block α} {counter : Nat}
      (checked : kernel.check = .ok ()) (reversed : kernel.reverse signatures = .ok grad)
      (numbered : kernel.backward signatures = .ok (body, counter)) (beyond : 4294967296 ≤ counter) : Overflows grad

-- What the check says of one of them.
def KernelFault.Overflow (α : Type) [Scalar α] (e : KernelFault) : Prop :=
  ∃ kernel : Kernel α, kernel.Overflows ∧ kernel.check = .error e

omit [Scalar α] in
theorem Kernel.fused_short {a b : Kernel α} {e : KernelFault} (left : a.check = .ok ()) (right : b.check = .ok ())
    (domain : a.domain = b.domain) (leftArgs : a.argCount = 0) (rightArgs : b.argCount = 0)
    (failed : (a.fused b).check = .error e) : 4294967296 ≤ a.counter.toNat + b.counter := by
  by_contra room
  cases (fused_check left right domain leftArgs rightArgs (Nat.lt_of_not_le room)).symm.trans failed

variable [Digest δ] {table table' : FieldTable α}

-- A bound kernel as binding it gives it, of a kernel whose text can be read back.
structure Bound.Genuine (table : FieldTable α) (bound : Bound α δ) : Prop where
  binds : bound.kernel.bind table = .ok bound
  worded : bound.kernel.Worded

namespace Bound.Genuine

variable {bound a b : Bound α δ} {kernel : Kernel α}

theorem keeps (genuine : bound.Genuine table) (keeps : table.Keeps table') : bound.Genuine table' :=
  ⟨Kernel.bind_keeps genuine.binds keeps, genuine.worded⟩

theorem of_binds (binds : kernel.bind table = .ok bound) (worded : kernel.Worded) : bound.Genuine table := by
  have same := Kernel.binds_kernel binds
  subst same
  exact ⟨binds, worded⟩

theorem checked (genuine : bound.Genuine table) : bound.kernel.check = .ok () :=
  (Kernel.binds_iff.mp genuine.binds).1

theorem access (genuine : bound.Genuine table) : bound.access = .ofBlock bound.kernel.body :=
  access_of_binds genuine.binds

theorem digest (genuine : bound.Genuine table) : bound.digest = bound.kernel.digest bound.signatures :=
  digest_of_binds genuine.binds

theorem outcome (genuine : bound.Genuine table) (args : List α) (order : VisitOrder) :
    bound.kernel.outcome δ args order table = bound.launch args order table := by
  rw [Kernel.outcome, genuine.binds]

theorem launch_same (left : a.Genuine table) (right : b.Genuine table)
    (same : Kernel.SameOutcome δ a.kernel b.kernel) (args : List α) (order : VisitOrder) :
    a.launch args order table = b.launch args order table := by
  rw [← left.outcome, ← right.outcome, same]

theorem bind_alike (genuine : bound.Genuine table) (alike : bound.kernel.Alike kernel)
    (checked : kernel.check = .ok ()) : kernel.bind table = .ok { bound with kernel := kernel } :=
  alike.bind_of_check checked genuine.binds

theorem signatures_alike (left : a.Genuine table) (right : b.Genuine table) (alike : a.kernel.Alike b.kernel) :
    b.signatures = a.signatures := by
  have binds := left.bind_alike alike right.checked
  rw [right.binds] at binds
  rw [Except.ok.inj binds]

theorem words (genuine : bound.Genuine table) {name : String} (member : name ∈ bound.signatures.names) :
    IsWord name := by
  obtain ⟨-, -, resolved, -⟩ := Kernel.binds_iff.mp genuine.binds
  exact Kernel.resolved_word genuine.worded resolved member

theorem prints_alike (legible : Legible α) (free : Function.Injective (Digest.ofBytes : _ → δ))
    (genuine : bound.Genuine table) (worded : kernel.Worded) {signatures : Signatures}
    (words : ∀ name ∈ signatures.names, IsWord name) (same : kernel.digest signatures = bound.digest) :
    kernel.Alike bound.kernel ∧ signatures = bound.signatures := by
  rw [genuine.digest] at same
  exact Kernel.identity_inj legible worded genuine.worded words (fun _ => genuine.words) (free same)

theorem alike_of_digest (legible : Legible α) (free : Function.Injective (Digest.ofBytes : _ → δ))
    (left : a.Genuine table) (right : b.Genuine table') (same : a.digest = b.digest) :
    a.kernel.Alike b.kernel ∧ a.signatures = b.signatures :=
  right.prints_alike legible free left.worded (fun _ => left.words) (left.digest ▸ same)

end Bound.Genuine

omit [Scalar α] in
theorem FieldTable.mem_signatures {names : NameSet} {name : String}
    (member : name ∈ (table.signatures names).names) : names.contains name = true := by
  obtain ⟨signature, found⟩ := NameMap.contains_iff.mp (NameMap.mem_names.mp member)
  have listed := NameMap.find?_ofList_filterMap names.names (fun key =>
    (table.find? key).map Field.signature) name
  simp only [Option.map_map, Function.comp_def] at listed
  rw [signatures, listed] at found
  split at found
  · next named => exact NameMap.mem_names.mp named
  · cases found

namespace Compiler

-- Every cached kernel is what binding it gives, and stands under its digest.
def Sound (table : FieldTable α) (compiler : Compiler α δ) : Prop :=
  ∀ digest bound, (digest, bound) ∈ compiler.cache → bound.digest = digest ∧ bound.Genuine table

variable [DecidableEq δ] {compiler compiler' : Compiler α δ} {kernel : Kernel α} {bound : Bound α δ}
  {e : KernelFault}

omit [DecidableEq δ] in
theorem Sound.keeps (sound : compiler.Sound table) (keeps : table.Keeps table') : compiler.Sound table' :=
  fun digest bound member => ⟨(sound digest bound member).1, (sound digest bound member).2.keeps keeps⟩

omit [DecidableEq δ] in
theorem sound_empty (table : FieldTable α) (stats : Stats) : Sound table (⟨[], stats⟩ : Compiler α δ) :=
  fun _ _ none_ => nomatch none_

theorem compile_eq (kernel : Kernel α) (table : FieldTable α) (compiler : Compiler α δ) :
    compile kernel table compiler =
      match compiler.cache.lookup (kernel.digest (table.signatures (Access.ofBlock kernel.body).fields)) with
      | some bound => .ok bound { compiler with
          stats := { compiler.stats with cacheHits := compiler.stats.cacheHits + 1 } }
      | none =>
        match kernel.bind table with
        | .error e => .error e compiler
        | .ok bound => .ok bound ⟨(bound.digest, bound) :: compiler.cache,
            { compiler.stats with compilations := compiler.stats.compilations + 1 }⟩ := by
  unfold compile
  rw [run_get_bind]
  cases compiler.cache.lookup (kernel.digest (table.signatures (Access.ofBlock kernel.body).fields)) with
  | some bound => rfl
  | none => cases (kernel.bind table : Except KernelFault (Bound α δ)) <;> rfl

theorem compile_ok (legible : Legible α) (free : Function.Injective (Digest.ofBytes : _ → δ))
    (sound : compiler.Sound table) (worded : kernel.Worded)
    (compiled : compile kernel table compiler = .ok bound compiler') :
    bound.Genuine table ∧ kernel.Alike bound.kernel ∧ compiler'.Sound table := by
  rw [compile_eq] at compiled
  split at compiled
  · next cached found =>
    cases compiled
    obtain ⟨before, after, entries, -⟩ := List.lookup_eq_some_iff.mp found
    obtain ⟨same, genuine⟩ := sound _ _ (entries ▸ List.mem_append_cons_self)
    refine ⟨genuine, ?_, sound⟩
    exact (genuine.prints_alike legible free worded
      (fun name member => worded.fields (FieldTable.mem_signatures member)) same.symm).1
  · split at compiled
    · cases compiled
    · next binds =>
      cases compiled
      have genuine : bound.Genuine table := .of_binds binds worded
      refine ⟨genuine, ?_, ?_⟩
      · rw [Kernel.binds_kernel binds]
        exact .refl kernel
      · intro digest other member
        rcases List.mem_cons.mp member with new | old
        · cases new
          exact ⟨rfl, genuine⟩
        · exact sound digest other old

theorem compile_error (failed : compile kernel table compiler = .error e compiler') :
    kernel.bind table = (.error e : Except _ (Bound α δ)) ∧ compiler' = compiler := by
  rw [compile_eq] at failed
  split at failed
  · cases failed
  · split at failed
    · next fault =>
      cases failed
      exact ⟨fault, rfl⟩
    · cases failed

end Compiler

-- A gradient kernel of a bound kernel, or of a well-formed one that prints alike.
def Bound.HasGradient (bound : Bound α δ) (grad : Kernel α) : Prop :=
  ∃ kernel : Kernel α, bound.kernel.Alike kernel ∧ kernel.check = .ok () ∧
    kernel.reverse bound.signatures = .ok grad

namespace Bound.HasGradient

variable {bound a b : Bound α δ} {kernel grad grad' : Kernel α}

omit [Digest δ] in
theorem worded (hasGradient : bound.HasGradient grad) (worded : bound.kernel.Worded) : grad.Worded := by
  obtain ⟨kernel, alike, checked, reversed⟩ := hasGradient
  exact (worded.alike alike).reverse (Kernel.counted_of_check checked) reversed

-- If a gradient kernel is not well formed there are no words for its values, nor for those of one that prints alike.
omit [Digest δ] in
theorem overflow (hasGradient : bound.HasGradient grad) {e : KernelFault} (failed : grad.check = .error e) :
    e.Overflow α := by
  obtain ⟨kernel, -, checked, reversed⟩ := hasGradient
  obtain ⟨body, counter, numbered, -⟩ := Kernel.reverse_ok.mp reversed
  refine ⟨grad, .gradient checked reversed numbered (Nat.le_of_not_lt fun short => ?_), failed⟩
  cases ((Kernel.reverse_check_iff checked numbered reversed).mpr short).symm.trans failed

omit [Digest δ] in
theorem check_alike (hasGradient : bound.HasGradient grad) {other : Kernel α} (alike : grad.Alike other)
    (otherChecked : other.check = .ok ()) : grad.check = .ok () := by
  obtain ⟨kernel, -, checked, reversed⟩ := hasGradient
  obtain ⟨body, counter, numbered, rfl⟩ := Kernel.reverse_ok.mp reversed
  exact (Kernel.reverse_check_iff checked numbered reversed).mpr (Kernel.reverse_short numbered alike.body otherChecked)

omit [Digest δ] in
theorem alike (hasGradient : a.HasGradient grad) (alike : a.kernel.Alike b.kernel)
    (signatures : b.signatures = a.signatures) : b.HasGradient grad := by
  obtain ⟨kernel, alike', checked, reversed⟩ := hasGradient
  exact ⟨kernel, alike.symm.trans alike', checked, signatures ▸ reversed⟩

theorem binds (hasGradient : bound.HasGradient grad) (genuine : bound.Genuine table) (gradChecked : grad.check = .ok ()) :
    ∃ gradBound : Bound α δ, grad.bind table = .ok gradBound := by
  obtain ⟨kernel, alike, checked, reversed⟩ := hasGradient
  exact Kernel.reverse_binds (genuine.bind_alike alike checked) reversed gradChecked

theorem same_outcome (left : bound.HasGradient grad) (right : bound.HasGradient grad') (checked : grad.check = .ok ())
    (checked' : grad'.check = .ok ()) : Kernel.SameOutcome δ grad grad' := by
  obtain ⟨a, alike, checkedA, reversed⟩ := left
  obtain ⟨b, alike', checkedB, reversed'⟩ := right
  have both := (alike.symm.trans alike').reverse_outcome (δ := δ) checkedA checkedB bound.signatures
  rw [reversed, reversed'] at both
  exact both.related checked checked'

end Bound.HasGradient

namespace Derivations

def Sound (derivations : Derivations α δ) : Prop :=
  ∀ digest derived, (digest, derived) ∈ derivations.derived → ∃ (bound : Bound α δ) (table : FieldTable α),
    bound.Genuine table ∧ bound.digest = digest ∧ derived = bound.kernel.reverse bound.signatures

variable [DecidableEq δ] {derivations derivations' : Derivations α δ} {bound : Bound α δ}
  {derived : Derived α} {grad : Kernel α}

omit [DecidableEq δ] in
theorem sound_empty : Sound (empty : Derivations α δ) := fun _ _ none_ => nomatch none_

omit [Digest δ] in
theorem derive_eq (bound : Bound α δ) (derivations : Derivations α δ) :
    derive bound derivations =
      match derivations.cached bound.digest with
      | some derived => (derived, derivations)
      | none =>
        (bound.kernel.reverse bound.signatures,
          ⟨(bound.digest, bound.kernel.reverse bound.signatures) :: derivations.derived,
            derivations.made + 1⟩) := by
  have looked : derive bound derivations =
      (match derivations.cached bound.digest with
        | some derived => pure derived
        | none => do
          modify fun derivations => ⟨(bound.digest, bound.kernel.reverse bound.signatures) ::
            derivations.derived, derivations.made + 1⟩
          return bound.kernel.reverse bound.signatures : StateM (Derivations α δ) (Derived α))
        derivations := rfl
  rw [looked]
  cases derivations.cached bound.digest <;> rfl

theorem derive_from (legible : Legible α) (free : Function.Injective (Digest.ofBytes : _ → δ))
    (sound : derivations.Sound) (genuine : bound.Genuine table) :
    (derive bound derivations).2.Sound ∧ ∃ kernel, bound.kernel.Alike kernel ∧ kernel.check = .ok () ∧
      (derive bound derivations).1 = kernel.reverse bound.signatures := by
  rw [derive_eq]
  split
  · next derived found =>
    obtain ⟨before, after, entries, -⟩ := List.lookup_eq_some_iff.mp found
    obtain ⟨other, origin, genuine', same, reversed⟩ := sound _ _ (entries ▸ List.mem_append_cons_self)
    obtain ⟨alike, signatures⟩ := genuine.alike_of_digest legible free genuine' same.symm
    exact ⟨sound, other.kernel, alike, genuine'.checked, signatures ▸ reversed⟩
  · refine ⟨fun digest derived member => ?_, bound.kernel, .refl _, genuine.checked, rfl⟩
    rcases List.mem_cons.mp member with new | old
    · cases new
      exact ⟨bound, table, genuine, rfl, rfl⟩
    · exact sound digest derived old

theorem derive_ok (legible : Legible α) (free : Function.Injective (Digest.ofBytes : _ → δ))
    (sound : derivations.Sound) (genuine : bound.Genuine table)
    (derived : (derive bound derivations).1 = .ok grad) : bound.HasGradient grad := by
  obtain ⟨-, kernel, alike, checked, same⟩ := derive_from legible free sound genuine
  exact ⟨kernel, alike, checked, same.symm.trans derived⟩

end Derivations

end FieldKernel
