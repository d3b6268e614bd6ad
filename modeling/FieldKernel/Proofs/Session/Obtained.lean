import FieldKernel.Proofs.Execution.Verdict
import FieldKernel.Proofs.Scalar.Rational
import FieldKernel.Proofs.Session.Caches

-- The bound kernels that a session gets hold of.
namespace FieldKernel

variable {α δ : Type} [Scalar α]

namespace Compiler

variable [Digest δ] [DecidableEq δ]

-- Compilers that have only compiled against a table on its way to what it is now.
inductive Reached : FieldTable α → Compiler α δ → Prop
  | start (table : FieldTable α) (stats : Stats) : Reached table ⟨[], stats⟩
  | counted {table : FieldTable α} {compiler : Compiler α δ} (reached : Reached table compiler) (stats : Stats) :
    Reached table { compiler with stats := stats }
  | later {table table' : FieldTable α} {compiler : Compiler α δ} (reached : Reached table compiler)
    (keeps : table.Keeps table') : Reached table' compiler
  | compiled {table : FieldTable α} {compiler : Compiler α δ} (reached : Reached table compiler)
    (kernel : Kernel α) : Reached table (ended (compile kernel table compiler))

theorem Reached.binds {table : FieldTable α} {compiler : Compiler α δ} (reached : Reached table compiler) :
    ∀ digest bound, (digest, bound) ∈ compiler.cache → bound.kernel.bind table = .ok bound := by
  induction reached with
  | start => exact fun _ _ none_ => nomatch none_
  | counted _ _ ih => exact ih
  | later _ keeps ih => exact fun digest bound member => Kernel.bind_keeps (ih digest bound member) keeps
  | @compiled table compiler _ kernel ih =>
    intro digest bound member
    rw [compile_eq] at member
    split at member
    · exact ih digest bound member
    · split at member
      · exact ih digest bound member
      · next binds =>
        rcases List.mem_cons.mp member with new | old
        · cases new
          rw [Kernel.binds_kernel binds]
          exact binds
        · exact ih digest bound old

end Compiler

-- Bound kernels as a session gets hold of them, for a table that may have gone on since.
inductive Bound.Obtained [Digest δ] [DecidableEq δ] : FieldTable α → Bound α δ → Prop
  | bound {kernel : Kernel α} {table : FieldTable α} {bound : Bound α δ}
    (binds : kernel.bind table = .ok bound) : Obtained table bound
  | compiled {kernel : Kernel α} {table : FieldTable α} {compiler compiler' : Compiler α δ}
    {bound : Bound α δ} (reached : compiler.Reached table)
    (compiled : Compiler.compile kernel table compiler = .ok bound compiler') : Obtained table bound
  | later {table table' : FieldTable α} {bound : Bound α δ} (obtained : Obtained table bound)
    (keeps : table.Keeps table') : Obtained table' bound

theorem Bound.Obtained.binds [Digest δ] [DecidableEq δ] {table : FieldTable α} {bound : Bound α δ}
    (obtained : bound.Obtained table) : bound.kernel.bind table = .ok bound := by
  induction obtained with
  | bound binds =>
    rw [Kernel.binds_kernel binds]
    exact binds
  | compiled reached compiled =>
    rw [Compiler.compile_eq] at compiled
    split at compiled
    · next cached found =>
      cases compiled
      obtain ⟨before, after, entries, -⟩ := List.lookup_eq_some_iff.mp found
      exact reached.binds _ _ (entries ▸ List.mem_append_cons_self)
    · split at compiled
      · cases compiled
      · next binds =>
        cases compiled
        rw [Kernel.binds_kernel binds]
        exact binds
  | later _ keeps ih => exact Kernel.bind_keeps ih keeps

namespace Bound

variable {bound : Bound α δ} {table : FieldTable α}

-- A launch that fails leaves every field as it was, and one that succeeds has run to its end.
theorem launch_all_or_nothing [Digest δ] [DecidableEq δ] (obtained : bound.Obtained table)
    (args : List α) (order : VisitOrder) :
    (∀ e after, bound.launch args order table = .error e after → after = table) ∧
      ∀ after, bound.launch args order table = .ok () after →
        bound.launchable args table = .ok () ∧ bound.kernel.execute args order table = .ok () after := by
  refine ⟨fun e after failed => launch_error (access_of_binds obtained.binds) failed, ?_⟩
  intro after ran
  exact launch_ok.mp ran

end Bound

-- A kernel that copies, doubles gradients, and at its second point goes beyond the second field, after it
-- has written to the first.
namespace Doubling

def kernel : Kernel ℚ := .ofBody "doubling" (.ofExtents [2]) 0 <|
  .instr (.define ⟨0⟩ (.index 0)) <| .instr (.define ⟨1⟩ (.load ⟨"x", [⟨0⟩]⟩)) <|
  .instr (.store ⟨"y", [⟨0⟩]⟩ ⟨1⟩) <| .instr (.readGrad ⟨1⟩ ⟨"x", [⟨0⟩]⟩) <|
  .instr (.addGrad ⟨"x", [⟨0⟩]⟩ ⟨1⟩) <|
  .branch ⟨0⟩ (.instr (.store ⟨"x", [⟨0⟩]⟩ ⟨0⟩) <| .instr (.define ⟨2⟩ (.const 9)) <|
    .instr (.store ⟨"y", [⟨2⟩]⟩ ⟨1⟩) .nil) .nil .nil

def fields (x dx y : Array ℚ) : FieldTable ℚ := .ofList [
  ("x", ⟨rootGroup, .f64, [2], x, some dx⟩), ("y", ⟨rootGroup, .f64, [2], y, none⟩)]

def before : FieldTable ℚ := fields #[7, 8] #[5, 6] #[3, 4]

def bound : Bound ℚ (List UInt8) :=
  let signatures := .ofList [("x", ⟨.f64, [2]⟩), ("y", ⟨.f64, [2]⟩)]
  ⟨kernel, signatures, .ofBlock kernel.body, kernel.digest signatures⟩

def beyond : KernelFault := .shapeMismatch "y" (.index (.outOfRange 9 2 0))

theorem launch_all_or_nothing_doubling :
    bound.Obtained before ∧ bound.kernel.execute [] .forward before =
        .error beyond (fields #[7, 1] #[10, 12] #[7, 8]) ∧
      ∀ e after, bound.launch [] .forward before = .error e after → after = before := by
  have binds : kernel.bind before = .ok bound := by decide +kernel
  have obtained : bound.Obtained before := .bound binds
  exact ⟨obtained, by decide +kernel, (Bound.launch_all_or_nothing obtained [] .forward).1⟩

end Doubling

end FieldKernel
