import FieldKernel.Proofs.Source.Spelling

-- How far pieces of program texts reach, and which of the characters that follow them matter.
namespace FieldKernel

theorem takeWhile_within {p : Char → Bool} {cs after : List Char}
    (within : ((cs ++ after).takeWhile p).length ≤ cs.length) :
    (cs ++ after).takeWhile p = cs.takeWhile p := by
  rw [List.takeWhile_append] at within ⊢
  split at within
  · next all =>
    rw [List.length_append] at within
    have stopped : after.takeWhile p = [] := List.eq_nil_of_length_eq_zero (by omega)
    rw [if_pos all, (List.takeWhile_prefix p).eq_of_length all, stopped, List.append_nil]
  · next some => rw [if_neg some]

def separators : List Char := [' ', '\t', '\n', '\x0c', '\r', '#']

theorem mem_separators {c : Char} : c ∈ separators ↔ Scan.isBlank c = true ∨ c = '#' := by
  simp [separators, Scan.isBlank, or_assoc]

def Inked (c : Char) : Prop := c.toNat < 128 ∧ c ∉ separators

instance : DecidablePred Inked := fun c => inferInstanceAs (Decidable (c.toNat < 128 ∧ c ∉ separators))

namespace Piece

def signs : List Char := ['%', '\x7b', '\x7d', '[', ']', ',', ':', '=', '*', '.', '+', '-']

-- The characters that lexemes are made of. Each of them can begin one.
def isPart (c : Char) : Bool := continuesWord c || signs.contains c

variable {c : Char} {cs rest after ds : List Char}

theorem inked_of_part (part : isPart c = true) : Inked c := by
  refine ⟨?_, fun separates => ?_⟩
  · rcases Bool.or_eq_true_iff.mp part with word | sign
    · exact continuesWord_ascii word
    · have ascii : signs.all (·.toNat < 128) = true := by decide
      exact of_decide_eq_true (List.all_eq_true.mp ascii c (List.contains_iff_mem.mp sign))
  · have apart : separators.any isPart = false := by decide
    exact List.any_eq_false.mp apart c separates part

theorem symbol_cons (d : Char) (cs : List Char) : symbol c (d :: cs) = symbol c [d] := by
  unfold symbol
  split <;> first | rfl | simp_all

theorem symbol_width (c : Char) (rest : List Char) :
    (symbol c rest).width = 1 ∨ (symbol c rest).width = 2 ∧ rest ≠ [] := by
  unfold symbol
  split <;> first | exact .inl rfl | exact .inr ⟨rfl, List.cons_ne_nil _ _⟩

theorem symbol_heard : (symbol c rest).lexeme?.isSome ∨ (symbol c rest).issue?.isSome := by
  unfold symbol
  split <;> first | exact .inl rfl | exact .inr rfl

theorem exponentDigits_width {negative : Bool} {mark : Nat} {e : Exponent} (positive : 1 ≤ mark)
    (found : exponentDigits negative mark cs = some e) : 2 ≤ e.width ∧ e.width ≤ cs.length + mark := by
  unfold exponentDigits at found
  dsimp only at found
  split at found
  · cases found
  · next nonempty =>
    cases found
    have some := List.length_pos_iff.mpr (List.isEmpty_eq_false_iff.mp (Bool.eq_false_iff.mpr nonempty))
    have few := (List.takeWhile_prefix (l := cs) isDigit).length_le
    dsimp only
    omega

theorem exponent?_width {e : Exponent} (found : exponent? cs = some e) : 2 ≤ e.width ∧ e.width ≤ cs.length := by
  unfold exponent? at found
  split at found
  · cases found
  · split at found
    · split at found
      · obtain ⟨two, few⟩ := exponentDigits_width (by decide) found
        exact ⟨two, few⟩
      · obtain ⟨two, few⟩ := exponentDigits_width (by decide) found
        exact ⟨two, few⟩
      · exact exponentDigits_width (Nat.le_refl 1) found
    · cases found

theorem fraction?_width (found : fraction? cs = some ds) : ds.length + 1 ≤ cs.length := by
  unfold fraction? at found
  split at found
  · cases found
  · cases found
    exact Nat.succ_le_succ (List.takeWhile_prefix isDigit).length_le
  · cases found

def fractionWidth (fraction : Option (List Char)) : Nat :=
  match fraction with
  | some digits => digits.length + 1
  | none => 0

def exponentWidth (exponent : Option Exponent) : Nat :=
  match exponent with
  | some e => e.width
  | none => 0

def assemble (whole : List Char) (fraction : Option (List Char)) (exponent : Option Exponent) : Piece :=
  match fraction, exponent with
  | none, none => integer whole
  | some digits, none =>
    .ofLexeme (whole.length + fractionWidth fraction) (.number (.ofParts whole digits 0))
  | digits, some e =>
    .ofLexeme (whole.length + fractionWidth fraction + e.width) (.number (.ofParts whole (digits.getD []) e.value))

theorem number_eq (cs : List Char) : number cs =
    assemble (cs.takeWhile isDigit) (fraction? (cs.drop (cs.takeWhile isDigit).length))
      (exponent? ((cs.drop (cs.takeWhile isDigit).length).drop
        (fractionWidth (fraction? (cs.drop (cs.takeWhile isDigit).length))))) := by
  unfold number assemble fractionWidth
  rfl

theorem assemble_width (whole : List Char) (fraction : Option (List Char)) (exponent : Option Exponent) :
    (assemble whole fraction exponent).width = whole.length + fractionWidth fraction + exponentWidth exponent := by
  unfold assemble
  split
  · unfold integer
    dsimp only
    split <;> rfl
  · rfl
  · rfl

theorem fractionWidth_le (cs : List Char) : fractionWidth (fraction? cs) ≤ cs.length := by
  cases found : fraction? cs with
  | none => exact Nat.zero_le _
  | some ds => exact fraction?_width found

theorem exponentWidth_le (cs : List Char) : exponentWidth (exponent? cs) ≤ cs.length := by
  cases found : exponent? cs with
  | none => exact Nat.zero_le _
  | some e => exact (exponent?_width found).2

theorem number_width (digit : isDigit c = true) :
    1 ≤ (number (c :: rest)).width ∧ (number (c :: rest)).width ≤ rest.length + 1 := by
  have some : 1 ≤ ((c :: rest).takeWhile isDigit).length := by
    rw [List.takeWhile_cons, if_pos digit]
    exact Nat.succ_le_succ (Nat.zero_le _)
  have few : ((c :: rest).takeWhile isDigit).length ≤ rest.length + 1 := (List.takeWhile_prefix _).length_le
  have first := fractionWidth_le ((c :: rest).drop ((c :: rest).takeWhile isDigit).length)
  rw [number_eq, assemble_width]
  have second := exponentWidth_le (((c :: rest).drop ((c :: rest).takeWhile isDigit).length).drop
    (fractionWidth (fraction? ((c :: rest).drop ((c :: rest).takeWhile isDigit).length))))
  rw [List.length_drop] at first second
  rw [List.length_drop, List.length_cons] at second
  rw [List.length_cons] at first
  omega

theorem value_width : 1 ≤ (value rest).width ∧ (value rest).width ≤ rest.length + 1 := by
  have few := (List.takeWhile_prefix (l := rest) isDigit).length_le
  unfold value
  dsimp only
  split
  · exact ⟨Nat.le_refl 1, Nat.succ_le_succ (Nat.zero_le _)⟩
  · split
    · exact ⟨Nat.succ_le_succ (Nat.zero_le _), Nat.succ_le_succ few⟩
    · exact ⟨Nat.succ_le_succ (Nat.zero_le _), Nat.succ_le_succ few⟩

theorem word_width (starts : startsWord c = true) :
    1 ≤ (word (c :: rest)).width ∧ (word (c :: rest)).width ≤ rest.length + 1 := by
  have first : continuesWord c = true := by rw [continuesWord, starts, Bool.true_or]
  have width : (word (c :: rest)).width = (rest.takeWhile continuesWord).length + 1 := by
    rw [word, List.takeWhile_cons, if_pos first]
    rfl
  rw [width]
  exact ⟨Nat.succ_le_succ (Nat.zero_le _), Nat.succ_le_succ (List.takeWhile_prefix _).length_le⟩

theorem ofHead_width (c : Char) (rest : List Char) :
    1 ≤ (ofHead c rest).width ∧ (ofHead c rest).width ≤ rest.length + 1 := by
  unfold ofHead
  split
  · next starts => exact word_width starts
  · split
    · next digit => exact number_width digit
    · split
      · exact value_width
      · rcases symbol_width c rest with one | ⟨two, more⟩
        · rw [one]
          exact ⟨Nat.le_refl 1, Nat.succ_le_succ (Nat.zero_le _)⟩
        · rw [two]
          exact ⟨by decide, Nat.succ_le_succ (List.length_pos_iff.mpr more)⟩

theorem ofHead_heard (c : Char) (rest : List Char) :
    (ofHead c rest).lexeme?.isSome ∨ (ofHead c rest).issue?.isSome := by
  unfold ofHead
  split
  · exact .inl rfl
  · split
    · rw [number_eq]
      unfold assemble integer
      split
      · dsimp only
        split <;> exact .inl rfl
      · exact .inl rfl
      · exact .inl rfl
    · split
      · unfold value
        dsimp only
        split
        · exact .inr rfl
        · split
          · exact .inl rfl
          · exact .inr rfl
      · exact symbol_heard

theorem isPart_word (continues : continuesWord c = true) : isPart c = true := by
  rw [isPart, continues, Bool.true_or]

theorem isPart_digit (digit : isDigit c = true) : isPart c = true :=
  isPart_word (by rw [continuesWord, digit, Bool.or_true])

theorem takeWhile_parts {p : Char → Bool} (parts : ∀ {d}, p d = true → isPart d = true) :
    ∀ d ∈ cs.takeWhile p, isPart d = true :=
  fun d member => parts (List.all_eq_true.mp List.all_takeWhile d member)

theorem take_takeWhile (p : Char → Bool) (cs : List Char) :
    cs.take (cs.takeWhile p).length = cs.takeWhile p :=
  (List.prefix_iff_eq_take.mp (List.takeWhile_prefix p)).symm

theorem fraction?_parts (cs : List Char) : ∀ d ∈ cs.take (fractionWidth (fraction? cs)), isPart d = true := by
  unfold fraction?
  split
  · exact nofun
  · next rest =>
    rw [fractionWidth, List.take_succ_cons, take_takeWhile]
    exact List.forall_mem_cons.mpr ⟨by decide, takeWhile_parts isPart_digit⟩
  · exact nofun

theorem exponentDigits_parts (signs : List Char) (signed : ∀ d ∈ signs, isPart d = true) (negative : Bool) :
    ∀ d ∈ (signs ++ cs).take (exponentWidth (exponentDigits negative signs.length cs)), isPart d = true := by
  unfold exponentDigits
  dsimp only
  split
  · exact nofun
  · rw [exponentWidth, List.take_length_add_append, take_takeWhile]
    exact List.forall_mem_append.mpr ⟨signed, takeWhile_parts isPart_digit⟩

theorem exponent?_parts (cs : List Char) : ∀ d ∈ cs.take (exponentWidth (exponent? cs)), isPart d = true := by
  unfold exponent?
  split
  · exact nofun
  · next e cs =>
    split
    · next letter =>
      have letter : isPart e = true := by
        rcases letter with rfl | rfl <;> decide
      have minus : isPart '-' = true := by decide
      have plus : isPart '+' = true := by decide
      split
      · exact exponentDigits_parts [e, '-'] (by simp [letter, minus]) true
      · exact exponentDigits_parts [e, '+'] (by simp [letter, plus]) false
      · exact exponentDigits_parts [e] (by simp [letter]) false
    · exact nofun

theorem number_parts (cs : List Char) : ∀ d ∈ cs.take (number cs).width, isPart d = true := by
  rw [number_eq, assemble_width, List.take_add, List.take_add, take_takeWhile, ← List.drop_drop]
  exact List.forall_mem_append.mpr ⟨List.forall_mem_append.mpr ⟨takeWhile_parts isPart_digit,
    fraction?_parts _⟩, exponent?_parts _⟩

theorem value_parts (cs : List Char) : ∀ d ∈ ('%' :: cs).take (value cs).width, isPart d = true := by
  have percent : isPart '%' = true := by decide
  have all : ∀ d ∈ '%' :: cs.takeWhile isDigit, isPart d = true :=
    List.forall_mem_cons.mpr ⟨percent, takeWhile_parts isPart_digit⟩
  unfold value
  dsimp only
  split
  · simpa [ofIssue] using percent
  · split
    all_goals
      simp only [ofLexeme, ofIssue, List.take_succ_cons, take_takeWhile]
      exact all

theorem word_parts (cs : List Char) : ∀ d ∈ cs.take (word cs).width, isPart d = true := by
  rw [word, ofLexeme, take_takeWhile]
  exact takeWhile_parts isPart_word

theorem symbol_parts : (∀ d ∈ (c :: rest).take (symbol c rest).width, isPart d = true) ∨
    symbol c rest = .ofIssue 1 (.unexpectedCharacter c) := by
  unfold symbol
  split <;> first
    | exact .inr rfl
    | exact .inl (List.forall_mem_singleton.mpr (by decide))
    | exact .inl (List.forall_mem_cons.mpr ⟨by decide, List.forall_mem_singleton.mpr (by decide)⟩)

theorem ofHead_parts (c : Char) (rest : List Char) :
    (∀ d ∈ (c :: rest).take (ofHead c rest).width, isPart d = true) ∨
      ofHead c rest = .ofIssue 1 (.unexpectedCharacter c) := by
  unfold ofHead
  split
  · exact .inl (word_parts _)
  · split
    · exact .inl (number_parts _)
    · split
      · next percent =>
        subst percent
        exact .inl (value_parts _)
      · exact symbol_parts

theorem ofHead_inked (c : Char) (rest : List Char) :
    (∀ d ∈ (c :: rest).take (ofHead c rest).width, Inked d) ∨
      (ofHead c rest).width = 1 ∧ (ofHead c rest).lexeme? = none := by
  rcases ofHead_parts c rest with parts | stray
  · exact .inl fun d member => inked_of_part (parts d member)
  · rw [stray]
    exact .inr ⟨rfl, rfl⟩

theorem exponentDigits_append {mark : Nat} {negative : Bool} (cs : List Char)
    (within : exponentWidth (exponentDigits negative mark (cs ++ after)) ≤ cs.length + mark) :
    exponentDigits negative mark (cs ++ after) = exponentDigits negative mark cs := by
  have taken : (cs ++ after).takeWhile isDigit = cs.takeWhile isDigit := by
    apply takeWhile_within
    unfold exponentDigits at within
    dsimp only at within
    split at within
    · next empty =>
      rw [List.isEmpty_iff.mp empty]
      exact Nat.zero_le _
    · dsimp only [exponentWidth] at within
      omega
  rw [exponentDigits, exponentDigits, taken]

theorem exponent?_plain {e : Char} (letter : e = 'e' ∨ e = 'E')
    (plain : ∀ d ∈ cs.head?, d ≠ '-' ∧ d ≠ '+') : exponent? (e :: cs) = exponentDigits false 1 cs := by
  simp only [exponent?, if_pos letter]
  split
  · exact absurd rfl (plain '-' rfl).1
  · exact absurd rfl (plain '+' rfl).2
  · rfl

theorem exponent?_append (within : exponentWidth (exponent? (cs ++ after)) ≤ cs.length) :
    exponent? (cs ++ after) = exponent? cs := by
  -- an exponent is at least two characters wide
  have short : cs.length ≤ 1 → exponent? (cs ++ after) = none := by
    intro short
    cases found : exponent? (cs ++ after) with
    | none => rfl
    | some e =>
      have wide := (exponent?_width found).1
      rw [found, exponentWidth] at within
      omega
  match cs with
  | [] => exact short (Nat.zero_le 1)
  | [e] =>
    have none_ : exponent? [e] = none := by
      unfold exponent?
      exact ite_self _
    rw [short (Nat.le_refl 1), none_]
  | e :: sign :: ds =>
    by_cases letter : e = 'e' ∨ e = 'E'
    · by_cases minus : sign = '-'
      · subst minus
        simp only [exponent?, List.cons_append, if_pos letter] at within ⊢
        exact exponentDigits_append _ within
      · by_cases plus : sign = '+'
        · subst plus
          simp only [exponent?, List.cons_append, if_pos letter] at within ⊢
          exact exponentDigits_append _ within
        · have plain : ∀ {rest : List Char}, ∀ d ∈ (sign :: rest).head?, d ≠ '-' ∧ d ≠ '+' := by
            intro rest d first
            cases first
            exact ⟨minus, plus⟩
          rw [List.cons_append, List.cons_append, exponent?_plain letter plain] at within ⊢
          rw [exponent?_plain letter plain]
          exact exponentDigits_append (sign :: ds) within
    · simp only [exponent?, List.cons_append, if_neg letter]

theorem fraction?_other (other : c ≠ '.') : fraction? (c :: cs) = none := by
  unfold fraction?
  split
  · next same => exact absurd (List.cons.inj same).1 other
  · next same => exact absurd (List.cons.inj same).1 other
  · rfl

theorem fraction?_point (other : cs.head? ≠ some '.') : fraction? ('.' :: cs) = some (cs.takeWhile isDigit) := by
  unfold fraction?
  split
  · next same =>
    cases same
    exact absurd rfl other
  · next same =>
    cases same
    rfl
  · next none_ => exact absurd rfl (none_ cs)

theorem fraction?_append (within : fractionWidth (fraction? (cs ++ after)) ≤ cs.length)
    (points : cs = ['.'] → after.head? ≠ some '.') : fraction? (cs ++ after) = fraction? cs := by
  match cs with
  | [] =>
    cases found : fraction? ([] ++ after) with
    | none => rfl
    | some ds =>
      rw [found] at within
      exact absurd within (Nat.not_succ_le_zero _)
  | c :: cs =>
    by_cases point : c = '.'
    · subst point
      by_cases second : cs.head? = some '.'
      · obtain ⟨ds, rfl⟩ := List.head?_eq_some_iff.mp second
        rfl
      · have single : (cs ++ after).head? ≠ some '.' := by
          cases cs with
          | nil => exact points rfl
          | cons d ds => exact second
        rw [List.cons_append, fraction?_point single] at within ⊢
        rw [fraction?_point second, takeWhile_within (Nat.le_of_succ_le_succ within)]
    · rw [List.cons_append, fraction?_other point, fraction?_other point]

theorem number_append (cs : List Char) (within : (number (cs ++ after)).width ≤ cs.length)
    (points : cs.drop (number (cs ++ after)).width = ['.'] → after.head? ≠ some '.') :
    number (cs ++ after) = number cs := by
  rw [number_eq, assemble_width] at within points
  have taken : (cs ++ after).takeWhile isDigit = cs.takeWhile isDigit := takeWhile_within (by omega)
  have whole : (cs.takeWhile isDigit).length ≤ cs.length := (List.takeWhile_prefix _).length_le
  rw [number_eq, number_eq cs, taken]
  rw [taken, List.drop_append_of_le_length whole] at within points
  rw [List.drop_append_of_le_length whole]
  have left : (cs.drop (cs.takeWhile isDigit).length).length = cs.length - (cs.takeWhile isDigit).length :=
    List.length_drop
  rw [Nat.add_assoc, ← List.drop_drop] at points
  generalize cs.drop (cs.takeWhile isDigit).length = rest at left within points ⊢
  have fraction : fraction? (rest ++ after) = fraction? rest := by
    apply fraction?_append (by omega)
    intro one dots
    subst one
    obtain ⟨more, rfl⟩ := List.head?_eq_some_iff.mp dots
    exact points rfl rfl
  rw [fraction] at within ⊢
  have some : fractionWidth (fraction? rest) ≤ rest.length := fractionWidth_le rest
  rw [List.drop_append_of_le_length some] at within ⊢
  rw [exponent?_append]
  rw [List.length_drop]
  omega

theorem value_digits (cs : List Char) : (cs.takeWhile isDigit).length + 1 ≤ (value cs).width := by
  unfold value
  dsimp only
  split
  · next empty =>
    rw [List.isEmpty_iff.mp empty]
    exact Nat.le_refl 1
  · split <;> exact Nat.le_refl _

theorem symbol_short (one : (symbol c rest).width ≤ 1) : symbol c rest = symbol c [] := by
  unfold symbol at one ⊢
  split at one <;> first
    | rfl
    | exact absurd one (by decide)
    | (split <;> first | rfl | contradiction)

-- What a text goes on with does not matter to a piece that ends inside it, except that a number ends
-- before two points and not before one.
theorem ofHead_append (within : (ofHead c (cs ++ after)).width ≤ cs.length + 1)
    (points : (c :: cs).drop (ofHead c (cs ++ after)).width = ['.'] → after.head? ≠ some '.') :
    ofHead c (cs ++ after) = ofHead c cs := by
  unfold ofHead at within points ⊢
  split
  · next starts =>
    rw [if_pos starts] at within
    have taken : (c :: cs ++ after).takeWhile continuesWord = (c :: cs).takeWhile continuesWord :=
      takeWhile_within within
    rw [word, word, ← List.cons_append, taken]
  · next other =>
    rw [if_neg other] at within points
    split
    · next digit =>
      rw [if_pos digit] at within points
      exact number_append (c :: cs) within points
    · next noDigit =>
      rw [if_neg noDigit] at within points
      split
      · next percent =>
        rw [if_pos percent] at within
        have taken : (cs ++ after).takeWhile isDigit = cs.takeWhile isDigit := by
          apply takeWhile_within
          have := value_digits (cs ++ after)
          omega
        rw [value, value, taken]
      · next noPercent =>
        rw [if_neg noPercent] at within points
        cases cs with
        | nil => exact symbol_short within
        | cons d cs => rw [List.cons_append, symbol_cons, symbol_cons d cs]

theorem ofHead_before (separated : ∀ d ∈ after.head?, d ∈ separators) : ofHead c (cs ++ after) = ofHead c cs := by
  have within : (ofHead c (cs ++ after)).width ≤ cs.length + 1 := by
    rcases ofHead_inked c (cs ++ after) with inked | ⟨one, -⟩
    · cases after with
      | nil =>
        rw [List.append_nil]
        exact (ofHead_width c cs).2
      | cons d after =>
        apply Nat.le_of_not_lt
        intro beyond
        have taken : d ∈ (c :: (cs ++ d :: after)).take (ofHead c (cs ++ d :: after)).width := by
          rw [← List.cons_append, List.take_append, List.mem_append]
          apply Or.inr
          rw [List.length_cons, ← Nat.succ_pred_eq_of_pos (Nat.sub_pos_of_lt beyond)]
          exact List.mem_cons_self
        exact (inked d taken).2 (separated d rfl)
    · rw [one]
      exact Nat.succ_le_succ (Nat.zero_le _)
  apply ofHead_append within
  intro _ dots
  exact absurd (separated '.' dots) (by decide)

end Piece

end FieldKernel
