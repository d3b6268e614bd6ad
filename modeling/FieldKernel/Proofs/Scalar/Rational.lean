import FieldKernel.Proofs.Kernel.Identity
import FieldKernel.Proofs.Scalar.Exact

-- Rational numbers and whole byte strings, as scalars and digests that concrete sessions can be run on.
namespace FieldKernel

instance : Digest (List UInt8) := ⟨id⟩

theorem byteString_free : Function.Injective (Digest.ofBytes : List UInt8 → List UInt8) := fun _ _ same => same

namespace Rational

def denominatorText (q : ℚ) : List Char := if q.den = 1 then [] else '/' :: q.den.repr.toList

theorem toList_literal (q : ℚ) :
    (Scalar.literal q).toList = (toString q.num).toList ++ denominatorText q := by
  change (if q.den = 1 then toString q.num else toString q.num ++ "/" ++ q.den.repr).toList = _
  unfold denominatorText
  split
  · simp
  · simp

theorem denominatorText_ends (q : ℚ) : ∀ c ∈ (denominatorText q).head?, inBound c = false := by
  intro c first
  unfold denominatorText at first
  split at first
  · cases first
  · cases first
    decide

theorem denominatorText_inj {p q : ℚ} (same : denominatorText p = denominatorText q) : p.den = q.den := by
  unfold denominatorText at same
  split at same
  · next one =>
    split at same
    · next one' => exact one.trans one'.symm
    · cases same
  · split at same
    · cases same
    · exact Nat.repr_injective (String.toList_inj.mp (List.cons.inj same).2)

theorem literal_injective : Function.Injective (Scalar.literal : ℚ → String) := by
  intro p q same
  have chars := congrArg String.toList same
  rw [toList_literal, toList_literal] at chars
  obtain ⟨numerators, rest⟩ := int_inj (denominatorText_ends p) (denominatorText_ends q) chars
  exact Rat.ext numerators (denominatorText_inj rest)

theorem legible : Legible ℚ where
  told _ _ same := .inl (literal_injective same)
  single _ _ same _ _ := literal_injective same
  unbroken := by
    intro q member
    rw [toList_literal, List.mem_append] at member
    rcases member with first | second
    · cases inBound_toString q.num _ first
    · unfold denominatorText at second
      split at second
      · cases second
      · rcases List.mem_cons.mp second with slash | digit
        · cases slash
        · exact (isWord_repr q.den).unbroken digit

end Rational

end FieldKernel
