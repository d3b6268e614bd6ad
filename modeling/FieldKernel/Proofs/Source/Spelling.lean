import FieldKernel.Proofs.Kernel.Text
import FieldKernel.Source.Scan

-- What texts are scanned as, lexeme by lexeme from the front.
namespace FieldKernel

theorem takeWhile_class {p : Char → Bool} {cs after : List Char} (inside : ∀ c ∈ cs, p c = true)
    (outside : ∀ c ∈ after.head?, p c = false) : (cs ++ after).takeWhile p = cs := by
  rw [List.takeWhile_append_of_pos inside]
  cases after with
  | nil => simp
  | cons c after => simp [outside c rfl]

-- Names of kernels and fields: words that begin with no digit and are no keywords.
def IsName (name : String) : Prop :=
  IsWord name ∧ name.toList.head?.any Piece.startsWord = true ∧ Mark.ofKeyword? name = none

instance : DecidablePred IsName := fun name =>
  inferInstanceAs (Decidable (IsWord name ∧ name.toList.head?.any Piece.startsWord = true ∧
    Mark.ofKeyword? name = none))

def Digits (ds : List Char) : Prop := ds ≠ [] ∧ ∀ c ∈ ds, Piece.isDigit c = true

instance : DecidablePred Digits := fun ds =>
  have : Decidable (∀ c ∈ ds, Piece.isDigit c = true) := List.decidableBAll (fun c => Piece.isDigit c = true) ds
  inferInstanceAs (Decidable (ds ≠ [] ∧ ∀ c ∈ ds, Piece.isDigit c = true))

def IsAscii (cs : List Char) : Prop := ∀ c ∈ cs, c.toNat < 128

instance : DecidablePred IsAscii := fun cs => List.decidableBAll (fun c : Char => c.toNat < 128) cs

namespace Piece

theorem isDigit_iff {c : Char} : isDigit c = true ↔ 48 ≤ c.toNat ∧ c.toNat ≤ 57 := by
  simp only [isDigit, Bool.and_eq_true, decide_eq_true_eq]
  exact Iff.rfl

theorem startsWord_ascii {c : Char} (starts : startsWord c = true) : c.toNat < 128 := by
  have letter : ∀ {d : Char}, c ≤ d → d.toNat < 128 → c.toNat < 128 := fun below small =>
    Nat.lt_of_le_of_lt below small
  simp only [startsWord, isLetter, Bool.or_eq_true, Bool.and_eq_true, decide_eq_true_eq] at starts
  rcases starts with (⟨-, below⟩ | ⟨-, below⟩) | rfl
  · exact letter below (by decide)
  · exact letter below (by decide)
  · decide

theorem isDigit_ascii {c : Char} (digit : isDigit c = true) : c.toNat < 128 := by
  have := isDigit_iff.mp digit
  omega

theorem isDigit_notLetter {c : Char} (digit : isDigit c = true) : startsWord c = false := by
  have bounds := isDigit_iff.mp digit
  cases starts : startsWord c with
  | false => rfl
  | true =>
    have above : ∀ {d : Char}, d ≤ c → 57 < d.toNat → 57 < c.toNat := fun le high => Nat.lt_of_lt_of_le high le
    simp only [startsWord, isLetter, Bool.or_eq_true, Bool.and_eq_true, decide_eq_true_eq] at starts
    rcases starts with (⟨above_, -⟩ | ⟨above_, -⟩) | rfl
    · have := above above_ (by decide)
      omega
    · have := above above_ (by decide)
      omega
    · exact absurd digit (by decide)

theorem continuesWord_ascii {c : Char} (continues : continuesWord c = true) : c.toNat < 128 := by
  rcases Bool.or_eq_true_iff.mp continues with starts | digit
  · exact startsWord_ascii starts
  · exact isDigit_ascii digit

theorem isDigit_ends {c : Char} (ends : continuesWord c = false) : isDigit c = false :=
  (Bool.or_eq_false_iff.mp ends).2

end Piece

theorem Ends.noDigit {after : List Char} (ends : Ends after) : ∀ c ∈ after.head?, Piece.isDigit c = false :=
  fun c first => Piece.isDigit_ends (ends c first)

theorem digits_repr (n : Nat) : Digits n.repr.toList := by
  rw [Nat.toList_repr]
  refine ⟨Nat.toDigits_ne_nil, fun c member => ?_⟩
  have digit := Nat.isDigit_of_mem_toDigits (by decide) (by decide) member
  simp only [Char.isDigit, Bool.and_eq_true, decide_eq_true_eq] at digit
  simp only [Piece.isDigit, Bool.and_eq_true, decide_eq_true_eq]
  exact digit

theorem natOfDigits_repr (n : Nat) : Decimal.natOfDigits n.repr.toList = n := by
  rw [Nat.toList_repr]
  exact Nat.ofDigitChars_toDigits (by decide) (by decide)

-- A number without a sign as texts spell it: digits, a fraction, an exponent with or without a minus.
structure Numeral where
  whole : List Char
  fraction? : Option (List Char)
  exponent? : Option (Bool × List Char)

namespace Numeral

def fractionChars : Option (List Char) → List Char
  | none => []
  | some ds => '.' :: ds

def exponentChars : Option (Bool × List Char) → List Char
  | none => []
  | some (negative, ds) => 'e' :: ((if negative then ['-'] else []) ++ ds)

def chars (n : Numeral) : List Char := n.whole ++ (fractionChars n.fraction? ++ exponentChars n.exponent?)

def exponentValue : Option (Bool × List Char) → Int
  | none => 0
  | some (negative, ds) => if negative then -(Decimal.natOfDigits ds : Int) else Decimal.natOfDigits ds

def lexeme (n : Numeral) : Lexeme :=
  if n.fraction? = none ∧ n.exponent? = none then .integer (Decimal.natOfDigits n.whole)
  else .number (.ofParts n.whole (n.fraction?.getD []) (exponentValue n.exponent?))

structure Legal (n : Numeral) : Prop where
  whole : Digits n.whole
  fraction : ∀ ds ∈ n.fraction?, Digits ds
  exponent : ∀ e ∈ n.exponent?, Digits e.2
  bounded : n.fraction? = none → n.exponent? = none → Decimal.natOfDigits n.whole ≤ maxInteger

def ofNat (n : Nat) : Numeral := ⟨n.repr.toList, none, none⟩

theorem chars_ofNat (n : Nat) : (ofNat n).chars = n.repr.toList := List.append_nil _

theorem lexeme_ofNat (n : Nat) : (ofNat n).lexeme = .integer n := by
  rw [lexeme, if_pos ⟨rfl, rfl⟩]
  exact congrArg Lexeme.integer (natOfDigits_repr n)

theorem legal_ofNat {n : Nat} (bounded : n ≤ maxInteger) : (ofNat n).Legal where
  whole := digits_repr n
  fraction := nofun
  exponent := nofun
  bounded := fun _ _ => (natOfDigits_repr n).symm ▸ bounded

theorem chars_cons {n : Numeral} (legal : n.Legal) :
    ∃ c cs, n.chars = c :: cs ∧ Piece.isDigit c = true := by
  obtain ⟨nonempty, digits⟩ := legal.whole
  cases whole : n.whole with
  | nil => exact absurd whole nonempty
  | cons c cs =>
    rw [whole] at digits
    exact ⟨c, _, by rw [chars, whole]; rfl, digits c List.mem_cons_self⟩

theorem ascii_chars {n : Numeral} (legal : n.Legal) : IsAscii n.chars := by
  have digits : ∀ ds, Digits ds → IsAscii ds := fun ds digits c member =>
    Piece.isDigit_ascii (digits.2 c member)
  intro c member
  rw [chars, List.mem_append, List.mem_append] at member
  rcases member with inWhole | inFraction | inExponent
  · exact digits _ legal.whole c inWhole
  · cases fraction : n.fraction? with
    | none => simp [fraction, fractionChars] at inFraction
    | some ds =>
      rw [fraction] at inFraction
      rcases List.mem_cons.mp inFraction with rfl | inside
      · decide
      · exact digits ds (legal.fraction ds fraction) c inside
  · cases exponent : n.exponent? with
    | none => simp [exponent, exponentChars] at inExponent
    | some e =>
      rw [exponent] at inExponent
      rcases List.mem_cons.mp inExponent with rfl | inside
      · decide
      · rcases List.mem_append.mp inside with sign | inside
        · split at sign
          · cases List.mem_singleton.mp sign
            decide
          · cases sign
        · exact digits e.2 (legal.exponent e exponent) c inside

theorem ends_exponent {exponent : Option (Bool × List Char)} {after : List Char} (ends : Ends after) :
    ∀ c ∈ (exponentChars exponent ++ after).head?, Piece.isDigit c = false := by
  cases exponent with
  | none => exact ends.noDigit
  | some =>
    intro c first
    cases first
    decide

theorem exponent?_none {after : List Char} (ends : Ends after) : Piece.exponent? after = none := by
  cases after with
  | nil => rfl
  | cons c after =>
    have notLetter : ¬(c = 'e' ∨ c = 'E') := by
      rintro (rfl | rfl)
      · exact absurd (ends 'e' rfl) (by decide)
      · exact absurd (ends 'E' rfl) (by decide)
    unfold Piece.exponent?
    exact if_neg notLetter

theorem exponentDigits_eq {ds after : List Char} (digits : Digits ds) (ends : Ends after) (negative : Bool)
    (mark : Nat) : Piece.exponentDigits negative mark (ds ++ after) =
      some ⟨mark + ds.length, exponentValue (some (negative, ds))⟩ := by
  have taken : (ds ++ after).takeWhile Piece.isDigit = ds := takeWhile_class digits.2 ends.noDigit
  simp [Piece.exponentDigits, taken, digits.1, exponentValue]

theorem exponent?_some {negative : Bool} {ds after : List Char} (digits : Digits ds) (ends : Ends after) :
    Piece.exponent? (exponentChars (some (negative, ds)) ++ after) =
      some ⟨(exponentChars (some (negative, ds))).length, exponentValue (some (negative, ds))⟩ := by
  have letter : 'e' = 'e' ∨ 'e' = 'E' := .inl rfl
  cases negative with
  | true =>
    have read : Piece.exponent? ('e' :: '-' :: (ds ++ after)) = Piece.exponentDigits true 2 (ds ++ after) := by
      unfold Piece.exponent?
      exact if_pos letter
    simp only [exponentChars, if_true, List.cons_append, List.nil_append]
    rw [read, exponentDigits_eq digits ends, List.length_cons, List.length_cons, Nat.add_comm]
  | false =>
    -- the first digit is no sign
    have read : Piece.exponent? ('e' :: (ds ++ after)) = Piece.exponentDigits false 1 (ds ++ after) := by
      unfold Piece.exponent?
      refine (if_pos letter).trans ?_
      cases ds with
      | nil => exact absurd rfl digits.1
      | cons d ds =>
        have digit := digits.2 d List.mem_cons_self
        simp only [List.cons_append]
        split
        · next same =>
          cases same
          exact absurd digit (by decide)
        · next same =>
          cases same
          exact absurd digit (by decide)
        · rfl
    simp only [exponentChars, Bool.false_eq_true, if_false, List.nil_append, List.cons_append]
    rw [read, exponentDigits_eq digits ends, List.length_cons, Nat.add_comm]

theorem exponent?_chars {exponent : Option (Bool × List Char)} {after : List Char}
    (digits : ∀ e ∈ exponent, Digits e.2) (ends : Ends after) :
    Piece.exponent? (exponentChars exponent ++ after) =
      exponent.map fun e => ⟨(exponentChars (some e)).length, exponentValue (some e)⟩ := by
  cases exponent with
  | none => exact exponent?_none ends
  | some e => exact exponent?_some (digits e rfl) ends

theorem fraction?_chars {fraction : Option (List Char)} {exponent : Option (Bool × List Char)}
    {after : List Char} (digits : ∀ ds ∈ fraction, Digits ds) (ends : Ends after)
    (closed : Piece.fraction? after = none) :
    Piece.fraction? (fractionChars fraction ++ (exponentChars exponent ++ after)) = fraction := by
  cases fraction with
  | none =>
    cases exponent with
    | none => exact closed
    | some => rfl
  | some ds =>
    obtain ⟨nonempty, digits⟩ := digits ds rfl
    have taken : (ds ++ (exponentChars exponent ++ after)).takeWhile Piece.isDigit = ds :=
      takeWhile_class digits (ends_exponent ends)
    cases ds with
    | nil => exact absurd rfl nonempty
    | cons d ds =>
      -- two points in a row belong to a range
      have noPoint : d ≠ '.' := by
        rintro rfl
        exact absurd (digits '.' List.mem_cons_self) (by decide)
      simp only [fractionChars, List.cons_append] at taken ⊢
      unfold Piece.fraction?
      split
      · next same => exact absurd (List.cons.inj (List.cons.inj same).2).1 noPoint
      · next same =>
        cases (List.cons.inj same).2
        rw [taken]
      · next noFraction => exact absurd rfl (noFraction _)

theorem number_chars {n : Numeral} (legal : n.Legal) {after : List Char} (ends : Ends after)
    (closed : Piece.fraction? after = none) :
    Piece.number (n.chars ++ after) = .ofLexeme n.chars.length n.lexeme := by
  obtain ⟨whole, fraction, exponent⟩ := n
  obtain ⟨wholeDigits, fractionDigits, exponentDigits, bounded⟩ := legal
  have taken : (whole ++ (fractionChars fraction ++ exponentChars exponent) ++ after).takeWhile Piece.isDigit =
      whole := by
    rw [List.append_assoc]
    refine takeWhile_class wholeDigits.2 ?_
    cases fraction with
    | none => exact ends_exponent ends
    | some ds =>
      intro c first
      cases first
      decide
  have left : (whole ++ (fractionChars fraction ++ exponentChars exponent) ++ after).drop whole.length =
      fractionChars fraction ++ (exponentChars exponent ++ after) := by
    rw [List.append_assoc, List.append_assoc, List.drop_left]
  have exponentRead := exponent?_chars exponentDigits ends
  simp only [chars, Piece.number]
  rw [taken, left, fraction?_chars fractionDigits ends closed]
  cases fraction with
  | none =>
    simp only [fractionChars, List.nil_append, List.drop_zero, exponentRead]
    cases exponent with
    | none => simp [Piece.integer, bounded rfl rfl, lexeme, exponentChars]
    | some e => simp [lexeme]
  | some ds =>
    have dropped : (fractionChars (some ds) ++ (exponentChars exponent ++ after)).drop (ds.length + 1) =
        exponentChars exponent ++ after := List.drop_left' rfl
    simp only [dropped, exponentRead]
    cases exponent with
    | none => simp [lexeme, fractionChars, exponentChars, exponentValue]
    | some e => simp [lexeme, fractionChars, Nat.add_assoc, Nat.add_comm 1]

end Numeral

namespace Scan

theorem ofOctets_nil (fuel start : Nat) : ofOctets fuel start [] = ⟨[], [], start⟩ := by
  cases fuel <;> rfl

-- A text without characters above ASCII that is scanned as some lexemes, with nothing wrong.
structure Spells (cs : List Char) (lexemes : List Lexeme) : Prop where
  ascii : IsAscii cs
  scanned : ∀ fuel start, cs.length ≤ fuel →
    (ofOctets fuel start cs).tokens.map (·.node) = lexemes ∧ (ofOctets fuel start cs).issues = []

namespace Spells

variable {cs after : List Char} {lexemes : List Lexeme}

theorem nil : Spells [] [] where
  ascii := nofun
  scanned := fun fuel start _ => by
    rw [ofOctets_nil]
    exact ⟨rfl, rfl⟩

theorem blank {c : Char} (blank : isBlank c = true) (later : Spells cs lexemes) : Spells (c :: cs) lexemes where
  ascii := by
    refine List.forall_mem_cons.mpr ⟨?_, later.ascii⟩
    simp only [isBlank, Bool.or_eq_true, decide_eq_true_eq] at blank
    rcases blank with (((rfl | rfl) | rfl) | rfl) | rfl <;> decide
  scanned := fun fuel start enough => by
    cases fuel with
    | zero => cases enough
    | succ fuel =>
      rw [ofOctets, if_pos blank]
      exact later.scanned fuel (start + 1) (Nat.le_of_succ_le_succ enough)

theorem piece {c : Char} {lexeme : Lexeme} (ascii : IsAscii (c :: cs)) (visible : isBlank c = false)
    (noComment : c ≠ '#') (head : Piece.ofHead c (cs ++ after) = .ofLexeme (cs.length + 1) lexeme)
    (later : Spells after lexemes) : Spells (c :: cs ++ after) (lexeme :: lexemes) where
  ascii := fun d member => (List.mem_append.mp member).elim (ascii d) (later.ascii d)
  scanned := fun fuel start enough => by
    cases fuel with
    | zero => simp at enough
    | succ fuel =>
      have left : (c :: (cs ++ after)).drop (cs.length + 1) = after := by
        rw [List.drop_succ_cons, List.drop_left]
      have enough : after.length ≤ fuel := by
        simp only [List.cons_append, List.length_cons, List.length_append] at enough
        omega
      obtain ⟨nodes, issues⟩ := later.scanned fuel (start + (cs.length + 1)) enough
      rw [List.cons_append, ofOctets, if_neg (by simp [visible]), if_neg noComment, head]
      simp [Piece.ofLexeme, left, addPiece, nodes, issues]

theorem mark {c : Char} {m : Mark} (cs : List Char) (ascii : IsAscii (c :: cs)) (visible : isBlank c = false)
    (noComment : c ≠ '#') (head : Piece.ofHead c (cs ++ after) = .ofMark m)
    (width : m.text.length = cs.length + 1) (later : Spells after lexemes) :
    Spells (c :: cs ++ after) (.mark m :: lexemes) :=
  piece ascii visible noComment (head.trans (by rw [Piece.ofMark, width])) later

theorem wordPiece {c : Char} (starts : Piece.startsWord c = true)
    (continues : ∀ d ∈ cs, Piece.continuesWord d = true) (ends : Ends after) (later : Spells after lexemes) :
    Spells (c :: cs ++ after) (Lexeme.ofWord (String.ofList (c :: cs)) :: lexemes) := by
  have inside : ∀ d ∈ c :: cs, Piece.continuesWord d = true :=
    List.forall_mem_cons.mpr ⟨by simp [Piece.continuesWord, starts], continues⟩
  refine piece (fun d member => Piece.continuesWord_ascii (inside d member)) ?_ ?_ ?_ later
  · have letter : ∀ d : Char, Piece.startsWord d = true → isBlank d = false := by
      intro d starts
      cases blank : isBlank d with
      | false => rfl
      | true =>
        simp only [isBlank, Bool.or_eq_true, decide_eq_true_eq] at blank
        rcases blank with (((rfl | rfl) | rfl) | rfl) | rfl <;> exact absurd starts (by decide)
    exact letter c starts
  · rintro rfl
    exact absurd starts (by decide)
  · have taken : (c :: (cs ++ after)).takeWhile Piece.continuesWord = c :: cs :=
      takeWhile_class inside ends
    rw [Piece.ofHead, if_pos starts, Piece.word, taken]
    rfl

theorem word {name : String} (isName : IsName name) (ends : Ends after) (later : Spells after lexemes) :
    Spells (name.toList ++ after) (.word name :: lexemes) := by
  obtain ⟨letters, starts, free⟩ := isName
  have read : Lexeme.ofWord (String.ofList name.toList) = .word name := by
    rw [String.ofList_toList, Lexeme.ofWord, free]
  unfold IsWord at letters
  cases chars : name.toList with
  | nil => simp [chars] at starts
  | cons c cs =>
    rw [chars] at letters starts read
    rw [← read]
    exact wordPiece (by simpa using starts) (fun d member => letters d (List.mem_cons_of_mem _ member)) ends later

theorem keyword {m : Mark} (listed : m ∈ Mark.keywords) (ends : Ends after) (later : Spells after lexemes) :
    Spells (m.text.toList ++ after) (.mark m :: lexemes) := by
  have read : ∀ m ∈ Mark.keywords, ∃ c cs, m.text.toList = c :: cs ∧ Piece.startsWord c = true ∧
      cs.all Piece.continuesWord = true ∧ Lexeme.ofWord (String.ofList (c :: cs)) = .mark m := by
    intro m listed
    simp only [Mark.keywords, List.mem_cons, List.not_mem_nil, or_false] at listed
    rcases listed with rfl | rfl | rfl | rfl | rfl | rfl | rfl | rfl | rfl | rfl <;>
      exact ⟨_, _, rfl, by decide, by decide, by decide⟩
  obtain ⟨c, cs, chars, starts, continues, read⟩ := read m listed
  rw [chars, ← read]
  exact wordPiece starts (List.all_eq_true.mp continues) ends later

theorem numeral {n : Numeral} (legal : n.Legal) (ends : Ends after) (closed : Piece.fraction? after = none)
    (later : Spells after lexemes) : Spells (n.chars ++ after) (n.lexeme :: lexemes) := by
  have read := n.number_chars legal ends closed
  have ascii := n.ascii_chars legal
  obtain ⟨c, cs, chars, digit⟩ := n.chars_cons legal
  rw [chars] at read ascii ⊢
  have bounds := Piece.isDigit_iff.mp digit
  refine piece ascii ?_ ?_ ?_ later
  · cases blank : isBlank c with
    | false => rfl
    | true =>
      simp only [isBlank, Bool.or_eq_true, decide_eq_true_eq] at blank
      rcases blank with (((rfl | rfl) | rfl) | rfl) | rfl <;> exact absurd digit (by decide)
  · rintro rfl
    exact absurd digit (by decide)
  · have notLetter : Piece.startsWord c = false := Piece.isDigit_notLetter digit
    rw [Piece.ofHead, notLetter, if_neg Bool.false_ne_true, if_pos digit]
    exact read

theorem integer {n : Nat} (bounded : n ≤ maxInteger) (ends : Ends after)
    (closed : Piece.fraction? after = none) (later : Spells after lexemes) :
    Spells (n.repr.toList ++ after) (.integer n :: lexemes) := by
  rw [← Numeral.chars_ofNat, ← Numeral.lexeme_ofNat]
  exact numeral (Numeral.legal_ofNat bounded) ends closed later

theorem value {v : ValueId} (bounded : v.index ≤ maxValueNumber) (ends : Ends after)
    (later : Spells after lexemes) : Spells (v.text.toList ++ after) (.value v.index :: lexemes) := by
  have digits := digits_repr v.index
  have taken : (v.index.repr.toList ++ after).takeWhile Piece.isDigit = v.index.repr.toList :=
    takeWhile_class digits.2 ends.noDigit
  have nonempty : v.index.repr.toList.isEmpty = false := List.isEmpty_eq_false_iff.mpr digits.1
  rw [ValueId.toList_text]
  refine piece ?_ (by decide) (by decide) ?_ later
  · exact List.forall_mem_cons.mpr ⟨by decide, fun d member => Piece.isDigit_ascii (digits.2 d member)⟩
  · change Piece.value _ = _
    rw [Piece.value, taken, natOfDigits_repr, nonempty]
    simp [bounded]

def symbols : List (Char × Mark) := [('\x7b', .leftBrace), ('\x7d', .rightBrace), ('[', .leftBracket),
  (']', .rightBracket), (',', .comma), ('=', .equals), ('*', .star)]

theorem symbol {c : Char} {m : Mark} (listed : (c, m) ∈ symbols) (later : Spells after lexemes) :
    Spells (c :: after) (.mark m :: lexemes) := by
  simp only [symbols, List.mem_cons, Prod.mk.injEq, List.not_mem_nil, or_false] at listed
  rcases listed with ⟨rfl, rfl⟩ | ⟨rfl, rfl⟩ | ⟨rfl, rfl⟩ | ⟨rfl, rfl⟩ | ⟨rfl, rfl⟩ | ⟨rfl, rfl⟩ | ⟨rfl, rfl⟩ <;>
    exact mark [] (by decide) (by decide) (by decide) rfl rfl later

theorem dotDot (later : Spells after lexemes) : Spells ('.' :: '.' :: after) (.mark .dotDot :: lexemes) :=
  mark ['.'] (by decide) (by decide) (by decide) rfl rfl later

theorem plusEquals (later : Spells after lexemes) :
    Spells ('+' :: '=' :: after) (.mark .plusEquals :: lexemes) :=
  mark ['='] (by decide) (by decide) (by decide) rfl rfl later

theorem minusEquals (later : Spells after lexemes) :
    Spells ('-' :: '=' :: after) (.mark .minusEquals :: lexemes) :=
  mark ['='] (by decide) (by decide) (by decide) rfl rfl later

theorem minus (other : ∀ c ∈ after.head?, c ≠ '=') (later : Spells after lexemes) :
    Spells ('-' :: after) (.mark .minus :: lexemes) := by
  have head : Piece.ofHead '-' after = .ofMark .minus := by
    cases after with
    | nil => rfl
    | cons c after =>
      have := other c rfl
      change Piece.symbol '-' (c :: after) = _
      unfold Piece.symbol
      split <;> simp_all
  exact mark [] (by decide) (by decide) (by decide) head rfl later

end Spells

def octetsOf (c : Char) : List Char := (String.utf8EncodeChar c).map fun b => Char.ofNat b.toNat

theorem octets_eq (text : String) : octets text = text.toList.flatMap octetsOf := by
  have ofList : ∀ cs : List Char, (String.ofList cs).toUTF8.data.toList = cs.flatMap String.utf8EncodeChar :=
    fun cs => congrArg Array.toList List.data_toByteArray
  have encoded := ofList text.toList
  rw [String.ofList_toList] at encoded
  rw [octets, encoded, List.map_flatMap]
  rfl

theorem octetsOf_ascii {c : Char} (ascii : c.toNat < 128) : octetsOf c = [c] := by
  have one : c.utf8Size = 1 := Char.utf8Size_eq_one_iff.mpr (Nat.le_of_lt_succ ascii)
  have same : c.val.toUInt8.toNat = c.toNat := by
    rw [UInt32.toNat_toUInt8]
    exact Nat.mod_eq_of_lt (Nat.lt_trans ascii (by decide))
  rw [octetsOf, String.utf8EncodeChar_eq_singleton one, List.map_singleton, same, Char.ofNat_toNat]

theorem octets_ascii {text : String} (ascii : IsAscii text.toList) : octets text = text.toList := by
  rw [octets_eq]
  generalize text.toList = cs at ascii
  induction cs with
  | nil => rfl
  | cons c cs ih =>
    obtain ⟨first, rest⟩ := List.forall_mem_cons.mp ascii
    rw [List.flatMap_cons, octetsOf_ascii first, ih rest]
    rfl

theorem ofText_spells {text : String} {lexemes : List Lexeme} (spells : Spells text.toList lexemes) :
    (ofText text).tokens.map (·.node) = lexemes ∧ (ofText text).issues = [] := by
  rw [ofText, octets_ascii spells.ascii]
  exact spells.scanned _ _ (Nat.le_refl _)

end Scan

end FieldKernel
