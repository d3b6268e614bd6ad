import FieldKernel.Scalar.Double
import FieldKernel.Proofs.Decimal.Shortest
import FieldKernel.Proofs.Source.Lexemes

-- How doubles are spelled in kernel texts, and what is asked of one that is to be read back.
namespace FieldKernel

theorem Digits.append {ds es : List Char} (digits : Digits ds) (more : ∀ c ∈ es, Piece.isDigit c = true) :
    Digits (ds ++ es) :=
  ⟨List.append_ne_nil_of_left_ne_nil digits.1 _, List.forall_mem_append.mpr ⟨digits.2, more⟩⟩

theorem zeros_digits (n : Nat) : ∀ c ∈ List.replicate n '0', Piece.isDigit c = true := by
  intro c member
  rw [List.eq_of_mem_replicate member]
  decide

namespace Numeral.Legal

variable {ws ds es : List Char}

theorem point (whole : Digits ws) (fraction : Digits ds) : Legal ⟨ws, some ds, none⟩ :=
  ⟨whole, fun _ same => Option.some.inj same ▸ fraction, nofun, nofun⟩

theorem power {fraction : Option (List Char)} (negative : Bool) (whole : Digits ws)
    (digits : ∀ ds ∈ fraction, Digits ds) (exponent : Digits es) : Legal ⟨ws, fraction, some (negative, es)⟩ :=
  ⟨whole, digits, fun _ same => Option.some.inj same ▸ exponent, nofun⟩

end Numeral.Legal

namespace Decimal

theorem digitsOfNat_digits (n : Nat) : Digits (digitsOfNat n) := by
  have digits := digits_repr n
  rwa [Nat.toList_repr] at digits

theorem natOfDigits_digitsOfNat (n : Nat) : natOfDigits (digitsOfNat n) = n := by
  have value := natOfDigits_repr n
  rwa [Nat.toList_repr] at value

theorem natOfDigits_trailing (ds : List Char) (zeros : Nat) :
    natOfDigits (ds ++ List.replicate zeros '0') = natOfDigits ds * 10 ^ zeros := by
  induction zeros with
  | zero => simp
  | succ zeros ih =>
    have last : natOfDigits (ds ++ List.replicate zeros '0' ++ ['0']) =
        10 * natOfDigits (ds ++ List.replicate zeros '0') := by simp [natOfDigits, digitValue]
    rw [List.replicate_succ', ← List.append_assoc, last, ih, Nat.pow_succ]
    ring

theorem natOfDigits_leading (zeros : Nat) (ds : List Char) :
    natOfDigits (List.replicate zeros '0' ++ ds) = natOfDigits ds := by
  induction zeros with
  | zero => rfl
  | succ zeros ih => exact ih

theorem toList_intText (i : Int) : ∃ negative, ∃ ds, Digits ds ∧
    Numeral.exponentValue (some (negative, ds)) = i ∧ (intText i).toList = signChars negative ++ ds := by
  rw [intText, Int.toString_eq_repr, Int.repr_eq_if]
  split
  · next natural =>
    refine ⟨false, _, digits_repr _, ?_, rfl⟩
    simp only [Numeral.exponentValue, Bool.false_eq_true, if_false, natOfDigits_repr]
    omega
  · next negative =>
    refine ⟨true, _, digits_repr _, ?_, String.toList_append⟩
    simp only [Numeral.exponentValue, if_true, natOfDigits_repr]
    omega

theorem scientificText_spelled (d : Decimal) : ∃ n : Numeral, n.Legal ∧
    d.scientificText.toList = n.chars ∧ (n.value : ℚ) = d.exact := by
  obtain ⟨nonempty, digits⟩ := digitsOfNat_digits d.digits
  obtain ⟨negative, es, exponent, value, chars⟩ :=
    toList_intText (d.exponent + (digitsOfNat d.digits).length - 1)
  have count := List.length_pos_iff.mpr nonempty
  simp only [scientificText, String.toList_append, String.toList_ofList, chars]
  split
  · next short =>
    have noFraction : ∀ ds ∈ (none : Option (List Char)), Digits ds := fun _ absent =>
      absurd absent (Option.not_mem_none _)
    have same : ofParts (digitsOfNat d.digits) [] (Numeral.exponentValue (some (negative, es))) = d := by
      rw [ofParts, List.append_nil, natOfDigits_digitsOfNat, value, List.length_nil]
      congr 1
      omega
    refine ⟨_, .power negative ⟨nonempty, digits⟩ noFraction exponent, ?_, congrArg exact same⟩
    simp [Numeral.chars, Numeral.fractionChars, Numeral.exponentChars, signChars]
  · next long =>
    have first : Digits ((digitsOfNat d.digits).take 1) :=
      ⟨by simpa using nonempty, fun c member => digits c (List.mem_of_mem_take member)⟩
    have others : Digits ((digitsOfNat d.digits).drop 1) := by
      refine ⟨?_, fun c member => digits c (List.mem_of_mem_drop member)⟩
      rw [Ne, List.drop_eq_nil_iff]
      exact long
    have same : ofParts ((digitsOfNat d.digits).take 1) ((digitsOfNat d.digits).drop 1)
        (Numeral.exponentValue (some (negative, es))) = d := by
      rw [ofParts, List.take_append_drop, natOfDigits_digitsOfNat, value, List.length_drop]
      congr 1
      omega
    refine ⟨_, .power negative first (fun _ same => Option.some.inj same ▸ others) exponent, ?_,
      congrArg exact same⟩
    simp [Numeral.chars, Numeral.fractionChars, Numeral.exponentChars, signChars]

theorem positionalText_spelled (d : Decimal) : ∃ n : Numeral, n.Legal ∧
    (d.positionalText true).toList = n.chars ∧ (n.value : ℚ) = d.exact := by
  have digits := digitsOfNat_digits d.digits
  simp only [positionalText]
  split
  · next natural =>
    have whole := digits.append (zeros_digits d.exponent.toNat)
    have zero : Digits ['0'] := by decide
    refine ⟨_, .point whole zero, ?_, ?_⟩
    · simp [Numeral.chars, Numeral.fractionChars, Numeral.exponentChars]
    · change (ofParts _ ['0'] 0).exact = d.exact
      obtain ⟨zeros, power⟩ := Int.eq_ofNat_of_zero_le natural
      have last : List.replicate zeros '0' ++ ['0'] = List.replicate (zeros + 1) '0' := List.replicate_succ'.symm
      rw [ofParts, exact_eq, exact_eq, power, Int.toNat_natCast, List.append_assoc, last, natOfDigits_trailing,
        natOfDigits_digitsOfNat]
      have point : (10 : ℚ) ^ ((0 : Int) - (['0'] : List Char).length) = 10⁻¹ := by simp
      rw [point, zpow_natCast]
      push_cast
      ring
  · next negative =>
    obtain ⟨places, after⟩ : ∃ places, (-d.exponent).toNat = places + 1 :=
      ⟨(-d.exponent).toNat - 1, by omega⟩
    rw [after]
    generalize padding : List.replicate (places + 1 + 1 - (digitsOfNat d.digits).length) '0' ++
      digitsOfNat d.digits = padded
    have inside : ∀ c ∈ padded, Piece.isDigit c = true := by
      rw [← padding]
      exact List.forall_mem_append.mpr ⟨zeros_digits _, digits.2⟩
    have long : places + 2 ≤ padded.length := by
      rw [← padding, List.length_append, List.length_replicate]
      omega
    have whole : Digits (padded.take (padded.length - (places + 1))) := by
      refine ⟨?_, fun c member => inside c (List.mem_of_mem_take member)⟩
      rw [Ne, List.take_eq_nil_iff, not_or]
      exact ⟨by omega, List.ne_nil_of_length_pos (by omega)⟩
    have fraction : Digits (padded.drop (padded.length - (places + 1))) := by
      refine ⟨?_, fun c member => inside c (List.mem_of_mem_drop member)⟩
      rw [Ne, List.drop_eq_nil_iff]
      omega
    have same : ofParts (padded.take (padded.length - (places + 1)))
        (padded.drop (padded.length - (places + 1))) 0 = d := by
      rw [ofParts, List.take_append_drop, ← padding, natOfDigits_leading, natOfDigits_digitsOfNat, padding,
        List.length_drop]
      congr 1
      omega
    refine ⟨_, .point whole fraction, ?_, congrArg exact same⟩
    simp [Numeral.chars, Numeral.fractionChars, Numeral.exponentChars]

theorem text_spelled (d : Decimal) : ∃ n : Numeral, n.Legal ∧
    (d.text .literal).toList = n.chars ∧ (n.value : ℚ) = d.exact := by
  rw [text]
  split
  · exact d.positionalText_spelled
  · exact d.scientificText_spelled

end Decimal

namespace Binary64

theorem toList_signed (negative : Bool) (text : String) :
    (signed negative text).toList = signChars negative ++ text.toList := by
  cases negative with
  | true => exact String.toList_append
  | false => rfl

theorem finite_spelled (negative : Bool) (mantissa : Nat) (exponent : Int) : ∃ n : Numeral, n.Legal ∧
    ((finite negative mantissa exponent).text .literal).toList = signChars negative ++ n.chars ∧
    (Digits.Canonical mantissa exponent → (Digits.cell mantissa exponent).Covers n.value) := by
  simp only [text, textWith, toList_signed]
  split
  · next nothing =>
    have zero : Digits ['0'] := by decide
    refine ⟨_, .point zero zero, rfl, fun _ => ?_⟩
    have value : ((Numeral.mk ['0'] (some ['0']) none).value : ℚ) = 0 := by
      change (Decimal.ofParts ['0'] ['0'] 0).exact = (0 : ℚ)
      have nothing : (Decimal.ofParts ['0'] ['0'] 0).digits = 0 := by decide
      rw [Decimal.exact_eq, nothing]
      simp
    rw [value, nothing]
    exact Digits.covers_zero exponent
  · next positive =>
    obtain ⟨n, legal, chars, value⟩ := (Digits.shortest mantissa exponent).text_spelled
    refine ⟨n, legal, by rw [← chars], fun canonical => ?_⟩
    rw [value]
    exact Digits.shortest_covers canonical (Nat.pos_of_ne_zero positive)

end Binary64

-- What doubles are known to do: equality tells what is no number, there are two infinities, and a numeral
-- that a finite number is spelled with denotes the number.
structure Double.Faithful (x : Float) : Prop where
  undefined : Binary64.ofFloat x = .nan → Scalar.eq x x = false ∧ Binary64.ofFloat (Scalar.nan : Float) = .nan
  infinite : ∀ negative, Binary64.ofFloat x = .infinite negative →
    Scalar.eq x x = true ∧ x = signed negative Scalar.infinity
  finite : ∀ negative mantissa exponent, Binary64.ofFloat x = .finite negative mantissa exponent →
    Scalar.eq x x = true ∧ ∀ n : Numeral, (Scalar.literal x).toList = signChars negative ++ n.chars →
      x = signed negative n.value

theorem Double.Faithful.written {x : Float} (faithful : Double.Faithful x) :
    Written x (Scalar.literal x).toList := by
  have literal : ∀ y : Float, Scalar.literal y = (Binary64.ofFloat y).text .literal := fun _ => rfl
  cases bits : Binary64.ofFloat x with
  | nan =>
    obtain ⟨differs, same⟩ := faithful.undefined bits
    refine .undefined differs ?_ ?_
    · rw [literal, bits]
      rfl
    · rw [literal, same]
      rfl
  | infinite negative =>
    obtain ⟨equal, value⟩ := faithful.infinite negative bits
    refine .infinite equal negative value ?_
    rw [literal, bits]
    exact Binary64.toList_signed negative "inf"
  | finite negative mantissa exponent =>
    obtain ⟨equal, denotes⟩ := faithful.finite negative mantissa exponent bits
    obtain ⟨n, legal, chars, -⟩ := Binary64.finite_spelled negative mantissa exponent
    rw [← bits, ← literal] at chars
    exact .finite equal negative n legal (denotes n chars) chars

end FieldKernel
