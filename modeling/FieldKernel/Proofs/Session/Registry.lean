import Mathlib.Data.List.Dedup
import Mathlib.Data.List.Induction
import FieldKernel.Proofs.Session.Obtained

-- Derivations that sessions share.
namespace FieldKernel

variable {α δ : Type} [Scalar α] [DecidableEq δ]

namespace Derivations

def serve (requests : List (Bound α δ)) : Derivations α δ :=
  requests.foldl (fun derivations bound => (derive bound derivations).2) .empty

-- What stands on record after a history of requests: for each digest asked for one derivation, made for
-- a bound kernel with the digest.
structure Serves (requests : List (Bound α δ)) (derivations : Derivations α δ) : Prop where
  made : derivations.made = derivations.size
  distinct : (derivations.derived.map Prod.fst).Nodup
  keys : ∀ digest, digest ∈ derivations.derived.map Prod.fst ↔ digest ∈ requests.map Bound.digest
  derived : ∀ entry ∈ derivations.derived, ∃ bound ∈ requests,
    entry = (bound.digest, bound.kernel.reverse bound.signatures)

variable {requests : List (Bound α δ)} {derivations : Derivations α δ}

omit [Scalar α] in
theorem cached_none {digest : δ} : derivations.cached digest = none ↔
    digest ∉ derivations.derived.map Prod.fst := by
  rw [cached, List.lookup_eq_none_iff, List.mem_map]
  constructor
  · intro other found
    obtain ⟨entry, member, same⟩ := found
    exact absurd same.symm (bne_iff_ne.mp (other entry member))
  · intro absent entry member
    exact bne_iff_ne.mpr fun same => absent ⟨entry, member, same.symm⟩

theorem Serves.derive (serves : Serves requests derivations) (bound : Bound α δ) :
    Serves (requests ++ [bound]) (derive bound derivations).2 := by
  have later : ∀ entry ∈ derivations.derived, ∃ other ∈ requests ++ [bound],
      entry = (other.digest, other.kernel.reverse other.signatures) := by
    intro entry member
    obtain ⟨other, asked, same⟩ := serves.derived entry member
    exact ⟨other, List.mem_append_left _ asked, same⟩
  rw [derive_eq]
  cases found : derivations.cached bound.digest with
  | some derived =>
    have known : bound.digest ∈ derivations.derived.map Prod.fst :=
      Decidable.not_not.mp fun absent => by simp [cached_none.mpr absent] at found
    refine ⟨serves.made, serves.distinct, fun digest => ?_, later⟩
    rw [serves.keys, List.map_append, List.mem_append]
    refine ⟨.inl, fun asked => asked.elim id fun new => ?_⟩
    rw [List.mem_singleton.mp new]
    exact (serves.keys _).mp known
  | none =>
    refine ⟨congrArg (· + 1) serves.made, ?_, fun digest => ?_, ?_⟩
    · exact List.nodup_cons.mpr ⟨cached_none.mp found, serves.distinct⟩
    · rw [List.map_cons, List.mem_cons, serves.keys, List.map_append, List.mem_append, List.map_singleton,
        List.mem_singleton]
      exact or_comm
    · exact List.forall_mem_cons.mpr ⟨⟨bound, List.mem_append_right _ (List.mem_singleton_self _), rfl⟩, later⟩

theorem serve_append (requests : List (Bound α δ)) (bound : Bound α δ) :
    serve (requests ++ [bound]) = (derive bound (serve requests)).2 := by
  rw [serve, List.foldl_append]
  rfl

theorem serves (requests : List (Bound α δ)) : Serves requests (serve requests) := by
  induction requests using List.reverseRecOn with
  | nil => exact ⟨rfl, .nil, fun _ => Iff.rfl, nofun⟩
  | append_singleton requests bound ih =>
    rw [serve_append]
    exact ih.derive bound

theorem serve_size (requests : List (Bound α δ)) :
    (serve requests).size = (requests.map Bound.digest).dedup.length := by
  have each := serves requests
  have perm : ((serve requests).derived.map Prod.fst).Perm (requests.map Bound.digest).dedup := by
    rw [List.perm_ext_iff_of_nodup each.distinct (List.nodup_dedup _)]
    intro digest
    rw [each.keys, List.mem_dedup]
  rw [← perm.length_eq, List.length_map, size]

end Derivations

variable [Digest δ]

-- A bound kernel of any session, whose names are words.
structure Bound.Presented (bound : Bound α δ) : Prop where
  obtained : ∃ table, bound.Obtained table
  worded : bound.kernel.Worded

-- There are words for the values of its gradient kernel.
def Bound.ReverseShort (bound : Bound α δ) : Prop :=
  ∀ body counter, bound.kernel.backward bound.signatures = .ok (body, counter) → counter < 4294967296

omit [DecidableEq δ] [Digest δ] in
theorem Bound.ReverseShort.check {bound : Bound α δ} {grad : Kernel α} (short : bound.ReverseShort)
    (checked : bound.kernel.check = .ok ()) (reversed : bound.kernel.reverse bound.signatures = .ok grad) :
    grad.check = .ok () := by
  obtain ⟨body, counter, numbered, -⟩ := Kernel.reverse_ok.mp reversed
  exact (Kernel.reverse_check_iff checked numbered reversed).mpr (short body counter numbered)

theorem Bound.Presented.genuine {bound : Bound α δ} (presented : bound.Presented) :
    ∃ table, bound.Genuine table := by
  obtain ⟨⟨table, obtained⟩, worded⟩ := presented
  exact ⟨table, obtained.binds, worded⟩

namespace Derivations

variable {requests : List (Bound α δ)} {bound : Bound α δ}

omit [Digest δ] in
theorem serve_from (requests : List (Bound α δ)) (bound : Bound α δ) : ∃ other ∈ bound :: requests,
    other.digest = bound.digest ∧ (derive bound (serve requests)).1 = other.kernel.reverse other.signatures := by
  rw [derive_eq]
  split
  · next derived found =>
    obtain ⟨before, after, entries, -⟩ := List.lookup_eq_some_iff.mp found
    obtain ⟨other, asked, same⟩ := (serves requests).derived _ (entries ▸ List.mem_append_cons_self)
    obtain ⟨digests, reversed⟩ := Prod.mk.inj same
    exact ⟨other, List.mem_cons_of_mem _ asked, digests.symm, reversed⟩
  · exact ⟨bound, List.mem_cons_self, rfl, rfl⟩

-- Whatever was asked for before, the answer is the error that a derivation made for the bound kernel alone
-- gives, or a gradient kernel where it gives one. These come to the same if there are words for the values of
-- all gradient kernels that may stand under the digest.
theorem serve_answers (legible : Legible α) (free : Function.Injective (Digest.ofBytes : List UInt8 → δ))
    (presented : ∀ other ∈ bound :: requests, other.Presented) :
    Coincide (fun grad own => (∀ other ∈ bound :: requests, other.digest = bound.digest → other.ReverseShort) →
        Kernel.SameOutcome δ grad own)
      (derive bound (serve requests)).1 (bound.kernel.reverse bound.signatures) := by
  obtain ⟨other, asked, digests, answer⟩ := serve_from requests bound
  obtain ⟨table, genuine⟩ := (presented other asked).genuine
  obtain ⟨table', genuine'⟩ := (presented bound List.mem_cons_self).genuine
  obtain ⟨alike, signatures⟩ := genuine.alike_of_digest legible free genuine' digests
  rw [answer]
  have outcomes := alike.reverse_outcome (δ := δ) genuine.checked genuine'.checked other.signatures
  rw [← signatures]
  refine outcomes.mono fun grad own reversed reversedOwn same short => same ?_ ?_
  · exact (short other asked digests).check genuine.checked reversed
  · exact (short bound List.mem_cons_self rfl).check genuine'.checked (signatures ▸ reversedOwn)

-- As long as there are words for the values of all gradient kernels, sharing derivations makes no difference to
-- what they come to. In any case the same errors are given, and each derivation is made once.
theorem serve_shares (legible : Legible α) (free : Function.Injective (Digest.ofBytes : List UInt8 → δ))
    (requests : List (Bound α δ)) (presented : ∀ bound ∈ requests, bound.Presented) :
    (∀ bound : Bound α δ, bound.Presented →
      Coincide (fun grad own => (∀ other ∈ bound :: requests, other.digest = bound.digest → other.ReverseShort) →
          Kernel.SameOutcome δ grad own)
        (derive bound (serve requests)).1 (bound.kernel.reverse bound.signatures)) ∧
      (serve requests).made = (serve requests).size ∧
      (serve requests).size = (requests.map Bound.digest).dedup.length :=
  ⟨fun _ asked => serve_answers legible free (List.forall_mem_cons.mpr ⟨asked, presented⟩),
    (serves requests).made, serve_size requests⟩

end Derivations

-- `y = 1 / x`, with fresh values from different counters on.
namespace Inverse

def body : Block ℚ :=
  .instr (.define ⟨0⟩ (.index 0)) <| .instr (.define ⟨1⟩ (.load ⟨"x", [⟨0⟩]⟩)) <|
  .instr (.define ⟨2⟩ (.const 1)) <| .instr (.define ⟨3⟩ (.binary .div ⟨2⟩ ⟨1⟩)) <|
  .instr (.store ⟨"y", [⟨0⟩]⟩ ⟨3⟩) .nil

def kernel (counter : Nat) : Kernel ℚ := ⟨"inverse", .ofExtents [2], 0, body, counter⟩

-- The quotient of the quotient by the divisor, negated, is the factor of the divisor.
def gradient (counter : Nat) : Kernel ℚ :=
  let rule : Block ℚ := .instr (.readGrad ⟨3⟩ ⟨"y", [⟨0⟩]⟩) <|
    .instr (.define ⟨counter⟩ (.binary .div ⟨3⟩ ⟨1⟩)) <| .instr (.define ⟨counter + 1⟩ (.unary .neg ⟨counter⟩)) <|
    .instr (.propagate ⟨1⟩ ⟨3⟩ (.value ⟨counter + 1⟩)) <| .instr (.addGrad ⟨"x", [⟨0⟩]⟩ ⟨1⟩) .nil
  ⟨"inverse_grad", .ofExtents [2], 0, (body.definitions ++ rule).words, .ofNat (counter + 2)⟩

def fields : FieldTable ℚ := .ofList [
  ("x", ⟨rootGroup, .f64, [2], #[2, 4], none⟩), ("y", ⟨rootGroup, .f64, [2], #[0, 0], none⟩)]

def bound (counter : Nat) : Bound ℚ (List UInt8) :=
  let signatures := .ofList [("x", ⟨.f64, [2]⟩), ("y", ⟨.f64, [2]⟩)]
  ⟨kernel counter, signatures, .ofBlock body, (kernel counter).digest signatures⟩

theorem presented {counter : Nat} (binds : (kernel counter).bind fields = .ok (bound counter)) :
    (bound counter).Presented where
  obtained := ⟨fields, .bound binds⟩
  worded := by
    have name : IsWord "inverse" := by decide
    have x : IsWord "x" := by decide
    have y : IsWord "y" := by decide
    refine ⟨name, ?_⟩
    simp [Block.Worded, bound, kernel, body, Block.statements, Instr.Worded, Expr.Worded, x, y]

theorem reverseShort {counter : Nat} (last : Nat)
    (numbered : ((kernel counter).backward (bound counter).signatures).map Prod.snd = .ok last)
    (short : last < 4294967296) : (bound counter).ReverseShort := by
  intro body counter' numbered'
  rw [show (bound counter).kernel = kernel counter from rfl] at numbered'
  rw [numbered'] at numbered
  cases numbered
  exact short

theorem serve_shares_inverse :
    (Derivations.derive (bound 9) (Derivations.serve [bound 4])).1 = .ok (gradient 4) ∧
      (kernel 9).reverse (bound 9).signatures = .ok (gradient 9) ∧
      Kernel.SameOutcome (List UInt8) (gradient 4) (gradient 9) := by
  have first : (bound 4).Presented := presented (by decide +kernel)
  have second : (bound 9).Presented := presented (by decide +kernel)
  have answer : (Derivations.derive (bound 9) (Derivations.serve [bound 4])).1 = .ok (gradient 4) := by
    decide +kernel
  have own : (kernel 9).reverse (bound 9).signatures = .ok (gradient 9) := by decide +kernel
  have short₄ : (bound 4).ReverseShort := reverseShort 6 (by decide +kernel) (by decide)
  have short₉ : (bound 9).ReverseShort := reverseShort 11 (by decide +kernel) (by decide)
  have whole := Derivations.serve_shares Rational.legible byteString_free [bound 4] (by simpa using first)
  have same := whole.1 (bound 9) second
  rw [answer, show (bound 9).kernel.reverse (bound 9).signatures = .ok (gradient 9) from own] at same
  cases same with
  | ok same => exact ⟨answer, own, same (by simp [short₄, short₉])⟩

-- With the last word for a counter one fresh value takes it and the other takes zero; and the gradient kernel of
-- that is served for the other kernel, too.
theorem serve_strays_inverse :
    (bound 4294967295).Presented ∧ (bound 4).Presented ∧
      (Derivations.derive (bound 4) (Derivations.serve [bound 4294967295])).1 = .ok (gradient 4294967295) ∧
      (kernel 4).reverse (bound 4).signatures = .ok (gradient 4) ∧
      (gradient 4294967295).outcome (List UInt8) [] .forward (fields.enableGrads rootGroup) =
        .error (.malformed "inverse_grad" (.beyondCounter ⟨1⟩ 1)) (fields.enableGrads rootGroup) ∧
      (gradient 4).outcome (List UInt8) [] .forward (fields.enableGrads rootGroup) =
        .ok () (fields.enableGrads rootGroup) := by
  refine ⟨presented (by decide +kernel), presented (by decide +kernel), ?_, ?_, ?_, ?_⟩ <;> decide +kernel

end Inverse

end FieldKernel
