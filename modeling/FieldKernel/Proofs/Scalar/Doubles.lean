import FieldKernel.Proofs.Source.Literals

-- Doubles are told apart by how they are spelled.
namespace FieldKernel

variable {α : Type} [Scalar α]

theorem Numeral.Legal.value_inj {n n' : Numeral} (legal : n.Legal) (legal' : n'.Legal)
    (same : n.chars = n'.chars) : (n.value : α) = n'.value := by
  have read := Numeral.number_chars legal ends_nil rfl
  have read' := Numeral.number_chars legal' ends_nil rfl
  rw [← same, read] at read'
  have lexemes : n.lexeme = n'.lexeme := Option.some.inj (congrArg Piece.lexeme? read')
  have magnitudes : some (n.value : α) = some n'.value := by
    rw [← n.magnitude?, ← n'.magnitude?, lexemes]
  exact Option.some.inj magnitudes

theorem Numeral.Legal.unbroken {n : Numeral} (legal : n.Legal) : '\n' ∉ n.chars := by
  have digits : ∀ ds, Digits ds → '\n' ∉ ds := fun ds digits member => by
    cases digits.2 _ member
  simp only [Numeral.chars, List.mem_append, not_or]
  refine ⟨digits _ legal.whole, ?_, ?_⟩
  · cases fraction : n.fraction? with
    | none => exact List.not_mem_nil
    | some ds => simpa [Numeral.fractionChars] using digits ds (legal.fraction ds fraction)
  · cases power : n.exponent? with
    | none => exact List.not_mem_nil
    | some e =>
      obtain ⟨negative, es⟩ := e
      have inside := digits es (legal.exponent _ power)
      cases negative <;> simpa [Numeral.exponentChars] using inside

namespace Binary64

def ofFields (negative : Bool) (scale low : Nat) : Binary64 :=
  if scale = 2047 then if low = 0 then .infinite negative else .nan
  else if scale = 0 then .finite negative low leastExponent
  else .finite negative (hiddenBit + low) (scale - 1 + leastExponent)

theorem ofBits_eq (bits : Nat) :
    ofBits bits = ofFields (bits / Nat.pow 2 63 % 2 == 1) (bits / hiddenBit % Nat.pow 2 11) (bits % hiddenBit) :=
  rfl

theorem ofFields_inj {negative negative' : Bool} {scale scale' low low' : Nat} (below : low < hiddenBit)
    (below' : low' < hiddenBit) (number : ofFields negative scale low ≠ .nan)
    (same : ofFields negative scale low = ofFields negative' scale' low') :
    negative = negative' ∧ scale = scale' ∧ low = low' := by
  unfold ofFields at same number
  grind

theorem ofBits_inj {a b : Nat} (left : a < 2 ^ 64) (right : b < 2 ^ 64) (number : ofBits a ≠ .nan)
    (same : ofBits a = ofBits b) : a = b := by
  have parity : ∀ m n : Nat, (m % 2 == 1) = (n % 2 == 1) → m % 2 = n % 2 := by
    intro m n same
    rw [Bool.eq_iff_iff, beq_iff_eq, beq_iff_eq] at same
    omega
  rw [ofBits_eq] at number
  rw [ofBits_eq, ofBits_eq] at same
  have positive : 0 < hiddenBit := by decide
  obtain ⟨sign, scale, low⟩ := ofFields_inj (Nat.mod_lt a positive) (Nat.mod_lt b positive) number same
  have top : a / 9223372036854775808 % 2 = b / 9223372036854775808 % 2 := parity _ _ sign
  change a / 4503599627370496 % 2048 = b / 4503599627370496 % 2048 at scale
  change a % 4503599627370496 = b % 4503599627370496 at low
  omega

theorem ofBits_nan {bits : Nat} (nan : ofBits bits = .nan) :
    bits / 4503599627370496 % 2048 = 2047 ∧ bits % 4503599627370496 ≠ 0 := by
  rw [ofBits_eq, ofFields] at nan
  split at nan
  · next scale =>
    split at nan
    · cases nan
    · next low => exact ⟨scale, low⟩
  · split at nan <;> cases nan

theorem canonical_ofBits {bits mantissa : Nat} {negative : Bool} {exponent : Int}
    (finite : ofBits bits = .finite negative mantissa exponent) : Digits.Canonical mantissa exponent := by
  have below : bits % hiddenBit < hiddenBit := Nat.mod_lt bits (by decide)
  rw [ofBits_eq, ofFields] at finite
  split at finite
  · split at finite <;> cases finite
  · split at finite
    · cases finite
      exact ⟨by omega, Int.le_refl _, fun less => absurd less (Int.lt_irrefl _)⟩
    · cases finite
      exact ⟨by omega, by omega, fun _ => Nat.le_add_right _ _⟩

inductive Spelled : Binary64 → Bool → List Char → Prop where
  | nan : Spelled .nan false "NaN".toList
  | infinite (negative : Bool) : Spelled (.infinite negative) negative "inf".toList
  | finite {mantissa : Nat} {exponent : Int} {n : Numeral} (negative : Bool)
      (canonical : Digits.Canonical mantissa exponent) (legal : n.Legal)
      (covers : (Digits.cell mantissa exponent).Covers n.value) :
      Spelled (.finite negative mantissa exponent) negative n.chars

theorem spelled (bits : Nat) : ∃ negative cs, Spelled (ofBits bits) negative cs ∧
    ((ofBits bits).text .literal).toList = signChars negative ++ cs := by
  cases value : ofBits bits with
  | nan => exact ⟨_, _, .nan, rfl⟩
  | infinite negative => exact ⟨_, _, .infinite negative, toList_signed negative "inf"⟩
  | finite negative mantissa exponent =>
    have canonical := canonical_ofBits value
    obtain ⟨n, legal, chars, covers⟩ := finite_spelled negative mantissa exponent
    exact ⟨_, _, .finite negative canonical legal (covers canonical), chars⟩

namespace Spelled

variable {a b : Binary64} {s s' : Bool} {cs cs' : List Char}

theorem first {n : Numeral} (legal : n.Legal) {c : Char} (other : Piece.isDigit c = false) :
    n.chars.head? ≠ some c := by
  obtain ⟨d, ds, chars, digit⟩ := n.chars_cons legal
  rw [chars]
  rintro ⟨⟩
  cases digit.symm.trans other

theorem unsigned (spelled : Spelled a s cs) : cs.head? ≠ some '-' := by
  cases spelled with
  | nan | infinite => decide
  | finite _ _ legal => exact first legal rfl

theorem unbroken (spelled : Spelled a s cs) : '\n' ∉ cs := by
  cases spelled with
  | nan | infinite => decide
  | finite _ _ legal => exact legal.unbroken

theorem sign (spelled : Spelled a s cs) (spelled' : Spelled b s' cs')
    (same : signChars s ++ cs = signChars s' ++ cs') : s = s' ∧ cs = cs' := by
  have unsigned := spelled.unsigned
  have unsigned' := spelled'.unsigned
  cases s <;> cases s'
  · exact ⟨rfl, same⟩
  · rw [show cs = '-' :: cs' from same] at unsigned
    exact absurd rfl unsigned
  · rw [show cs' = '-' :: cs from same.symm] at unsigned'
    exact absurd rfl unsigned'
  · exact ⟨rfl, (List.cons.inj same).2⟩

theorem unique (spelled : Spelled a s cs) (spelled' : Spelled b s cs') (same : cs = cs') : a = b := by
  have head := congrArg List.head? same
  cases spelled with
  | nan =>
    cases spelled' with
    | nan => rfl
    | infinite => cases head
    | finite _ _ legal => exact absurd head.symm (first legal rfl)
  | infinite =>
    cases spelled' with
    | nan => cases head
    | infinite => rfl
    | finite _ _ legal => exact absurd head.symm (first legal rfl)
  | finite _ canonical legal covers =>
    cases spelled' with
    | nan | infinite => exact absurd head (first legal rfl)
    | finite _ canonical' legal' covers' =>
      rw [← legal.value_inj legal' same] at covers'
      obtain ⟨rfl, rfl⟩ := Digits.cell_unique canonical canonical' covers covers'
      rfl

end Spelled

theorem text_inj {a b : Nat} (same : (ofBits a).text .literal = (ofBits b).text .literal) :
    ofBits a = ofBits b := by
  obtain ⟨s, cs, left, text⟩ := spelled a
  obtain ⟨s', cs', right, text'⟩ := spelled b
  rw [same, text'] at text
  obtain ⟨rfl, chars⟩ := right.sign left text
  exact left.unique right chars.symm

end Binary64

namespace Double

theorem toBits_inj {x y : Float} (same : x.toBits = y.toBits) : x = y := by
  obtain ⟨x, validX⟩ := x
  obtain ⟨y, validY⟩ := y
  cases same
  rfl

section Bits

open Float.Model Float.Model.UnpackedFloat

variable (bits : BitVec Format.binary64.numBits)

theorem toNat_unpackExponent : (unpackExponent bits).toNat = bits.toNat / 4503599627370496 % 2048 := by
  simp [unpackExponent, Nat.shiftRight_eq_div_pow]

theorem toNat_unpackMantissa : (unpackMantissa bits).toNat = bits.toNat % 4503599627370496 := by
  simp [unpackMantissa]

-- There is one double that is no number.
theorem nan_bits {x : Float} (nan : Binary64.ofFloat x = .nan) :
    x.toBits.toBitVec = packedNaN Format.binary64 := by
  obtain ⟨scale, low⟩ := Binary64.ofBits_nan nan
  refine x.toModel.valid.eq_packedNaN (BitVec.eq_of_toNat_eq ?_) fun zero => low ?_
  · exact (toNat_unpackExponent _).trans scale
  · exact (toNat_unpackMantissa _).symm.trans (congrArg BitVec.toNat zero)

end Bits

theorem literal_injective : Function.Injective (Scalar.literal : Float → String) := by
  intro x y same
  have value : Binary64.ofFloat x = Binary64.ofFloat y := Binary64.text_inj same
  apply toBits_inj
  by_cases nan : Binary64.ofFloat x = .nan
  · exact UInt64.toBitVec_inj.mp ((nan_bits nan).trans (nan_bits (value ▸ nan)).symm)
  · exact UInt64.toNat_inj.mp (Binary64.ofBits_inj x.toBits.toNat_lt y.toBits.toNat_lt nan value)

theorem unbroken_literal (x : Float) : '\n' ∉ (Scalar.literal x).toList := by
  obtain ⟨s, cs, spelled, chars⟩ := Binary64.spelled x.toBits.toNat
  rw [show Scalar.literal x = (Binary64.ofBits x.toBits.toNat).text .literal from rfl, chars, List.mem_append]
  rintro (sign | inside)
  · cases s <;> simp [signChars] at sign
  · exact spelled.unbroken inside

theorem legible : Legible Float where
  told _ _ same := .inl (literal_injective same)
  unbroken := unbroken_literal
  single _ _ same _ _ := literal_injective same

end Double

end FieldKernel
