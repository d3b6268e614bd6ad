import FieldKernel.Proofs.Source.Cutting

-- Cutting a text into lexemes leaves out blanks and comments only, and more of them change nothing.
namespace FieldKernel

-- Blanks, and comments up to the end of their line.
inductive Filler : List Char → Prop where
  | nil : Filler []
  | blank {c : Char} {cs : List Char} : Scan.isBlank c = true → Filler cs → Filler (c :: cs)
  | comment {inside cs : List Char} : '\n' ∉ inside → Filler cs → Filler ('#' :: (inside ++ '\n' :: cs))

theorem Filler.separates {filler after : List Char} (fills : Filler filler) (some : filler ≠ []) :
    ∀ d ∈ (filler ++ after).head?, d ∈ separators := by
  cases fills with
  | nil => exact absurd rfl some
  | blank blank _ =>
    intro d first
    cases first
    exact mem_separators.mpr (.inl blank)
  | comment =>
    intro d first
    cases first
    exact mem_separators.mpr (.inr rfl)

namespace Scan

-- Texts with the same lexemes and the same problems, wherever these stand.
def Alike (a b : Scan) : Prop :=
  a.tokens.map (·.node) = b.tokens.map (·.node) ∧ a.issues.map (·.node) = b.issues.map (·.node)

theorem Alike.refl (a : Scan) : Alike a a := ⟨rfl, rfl⟩

theorem Alike.addPiece {a b : Scan} (alike : Alike a b) (start start' : Nat) (piece : Piece) :
    Alike (a.addPiece start piece) (b.addPiece start' piece) := by
  obtain ⟨nodes, issues⟩ := alike
  constructor
  · simp only [Scan.addPiece, List.map_append, nodes]
    cases piece.lexeme? <;> rfl
  · simp only [Scan.addPiece, List.map_append, issues]
    cases piece.issue? <;> rfl

end Scan

theorem takeWhile_inside {p : Char → Bool} {cs after : List Char} (short : (cs.takeWhile p).length < cs.length) :
    (cs ++ after).takeWhile p = cs.takeWhile p := by
  rw [List.takeWhile_append, if_neg (Nat.ne_of_lt short)]

namespace Cut

variable {start : Nat} {cs after filler : List Char} {scan : Scan}

theorem moved (cut : Cut start cs scan) (start' : Nat) : ∃ scan', Cut start' cs scan' ∧ scan'.Alike scan := by
  induction cut generalizing start' with
  | done => exact ⟨_, .done, .refl _⟩
  | blank blank _ ih =>
    obtain ⟨scan', cut, alike⟩ := ih (start' + 1)
    exact ⟨scan', .blank blank cut, alike⟩
  | @comment _ rest _ _ ih =>
    obtain ⟨scan', cut, alike⟩ := ih (start' + 1 + (rest.takeWhile (· ≠ '\n')).length)
    exact ⟨scan', .comment cut, alike⟩
  | @piece _ c rest _ visible _ ih =>
    obtain ⟨scan', cut, alike⟩ := ih (start' + (Piece.ofHead c rest).width)
    exact ⟨_, .piece visible cut, alike.addPiece _ _ _⟩

theorem filled (fills : Filler filler) (cut : Cut (start + filler.length) cs scan) :
    Cut start (filler ++ cs) scan := by
  induction fills generalizing start with
  | nil => exact cut
  | blank blank _ ih =>
    apply Cut.blank blank
    apply ih
    rwa [Nat.add_assoc, Nat.add_comm 1]
  | @comment inside filler line _ ih =>
    have text : (inside ++ '\n' :: filler) ++ cs = inside ++ '\n' :: (filler ++ cs) := List.append_assoc _ _ _
    have taken : (inside ++ '\n' :: (filler ++ cs)).takeWhile (· ≠ '\n') = inside := by
      apply takeWhile_class
      · intro c member
        exact decide_eq_true fun same => line (same ▸ member)
      · intro c first
        cases first
        rfl
    rw [List.cons_append, text]
    apply Cut.comment
    rw [taken, List.drop_left]
    apply Cut.blank (by decide)
    apply ih
    rw [List.length_cons, List.length_append, List.length_cons] at cut
    have offset : start + 1 + inside.length + 1 + filler.length = start + (inside.length + (filler.length + 1) + 1) := by
      omega
    rwa [offset]

theorem points (cut : Cut start ('.' :: '.' :: cs) scan) {t : Located Lexeme} (member : t ∈ scan.tokens) :
    t.span.stop ≠ start + 1 := by
  cases cut with
  | blank blank => exact absurd blank (by decide)
  | piece _ later =>
    rcases Scan.mem_tokens_addPiece.mp member with ⟨-, here⟩ | member
    · rw [here]
      exact Nat.ne_of_gt (Nat.lt_succ_self _)
    · obtain ⟨low, some, -⟩ := later.token_within member
      have two : (Piece.ofHead '.' ('.' :: cs)).width = 2 := rfl
      omega

theorem inserted_behind (fills : Filler filler) (some : filler ≠ []) {d : Char} {before : List Char}
    (visible : d ∉ separators) (width : (Piece.ofHead d (before ++ after)).width = (d :: before).length)
    (later : Cut (start + (d :: before).length) after scan) :
    ∃ scan', Cut start (d :: (before ++ (filler ++ after))) scan' ∧
      scan'.Alike (scan.addPiece start (Piece.ofHead d (before ++ after))) := by
  have same : Piece.ofHead d (before ++ after) = Piece.ofHead d before := by
    apply Piece.ofHead_append (Nat.le_of_eq width)
    rw [width, List.drop_length]
    nofun
  have ended : Piece.ofHead d (before ++ (filler ++ after)) = Piece.ofHead d before :=
    Piece.ofHead_before (fills.separates some)
  rw [same] at width ⊢
  obtain ⟨scan', cut, alike⟩ := later.moved (start + (d :: before).length + filler.length)
  have whole := @Cut.piece start d (before ++ (filler ++ after)) scan' visible
  rw [ended, width, ← List.cons_append, List.drop_left] at whole
  exact ⟨_, whole (filled fills cut), alike.addPiece _ _ _⟩

theorem ofHead_earlier {d : Char} {before : List Char}
    (later : Cut (start + (Piece.ofHead d (before ++ after)).width)
      ((d :: (before ++ after)).drop (Piece.ofHead d (before ++ after)).width) scan)
    {t : Located Lexeme} (member : t ∈ scan.tokens) (here : t.span.stop = start + (d :: before).length) :
    (Piece.ofHead d before).width ≤ (d :: before).length ∧
      Piece.ofHead d (before ++ after) = Piece.ofHead d before := by
  obtain ⟨low, some, -⟩ := later.token_within member
  have within : (Piece.ofHead d (before ++ after)).width ≤ (d :: before).length := by omega
  refine ⟨(Piece.ofHead_width d before).2, ?_⟩
  apply Piece.ofHead_append within
  intro point dots
  obtain ⟨more, rfl⟩ := List.head?_eq_some_iff.mp dots
  rw [← List.cons_append, List.drop_append_of_le_length within, point] at later
  apply later.points member
  have one := congrArg List.length point
  rw [List.length_drop, List.length_singleton] at one
  omega

-- Filler behind a lexeme. What is cut off before the filler is cut off as it was: a piece that ends at the
-- filler is ended by it, and an earlier one does not reach beyond the filler's place.
theorem inserted (fills : Filler filler) (some : filler ≠ []) {before : List Char}
    (cut : Cut start (before ++ after) scan) {t : Located Lexeme} (member : t ∈ scan.tokens)
    (here : t.span.stop = start + before.length) :
    ∃ scan', Cut start (before ++ (filler ++ after)) scan' ∧ scan'.Alike scan := by
  generalize split : before ++ after = cs at cut
  have nonempty : ∀ {start cs scan}, Cut start cs scan → t ∈ scan.tokens → t.span.stop ≠ start := by
    intro start cs scan cut member
    obtain ⟨low, some, -⟩ := cut.token_within member
    exact Nat.ne_of_gt (Nat.lt_of_le_of_lt low some)
  induction cut generalizing before with
  | done => cases member
  | @blank start c rest _ blank later ih =>
    cases before with
    | nil => exact absurd here (nonempty (.blank blank later) member)
    | cons d before =>
      rw [List.cons_append] at split
      obtain ⟨rfl, rfl⟩ := List.cons.inj split
      rw [List.length_cons] at here
      obtain ⟨scan', cut, alike⟩ := @ih before member (by omega) rfl
      exact ⟨scan', .blank blank cut, alike⟩
  | @comment start rest _ later ih =>
    cases before with
    | nil => exact absurd here (nonempty (.comment later) member)
    | cons d before =>
      rw [List.cons_append] at split
      obtain ⟨rfl, rfl⟩ := List.cons.inj split
      obtain ⟨low, some, -⟩ := later.token_within member
      rw [List.length_cons] at here
      have short : ((before ++ after).takeWhile (· ≠ '\n')).length < before.length := by omega
      have taken : (before ++ after).takeWhile (· ≠ '\n') = before.takeWhile (· ≠ '\n') :=
        takeWhile_within (Nat.le_of_lt short)
      rw [taken] at short ih
      rw [List.drop_append_of_le_length (Nat.le_of_lt short)] at ih
      have left : (before.drop (before.takeWhile (· ≠ '\n')).length).length =
          before.length - (before.takeWhile (· ≠ '\n')).length := List.length_drop
      obtain ⟨scan', cut, alike⟩ := ih member (by omega) rfl
      refine ⟨scan', @Cut.comment start (before ++ (filler ++ after)) scan' ?_, alike⟩
      rw [takeWhile_inside short, List.drop_append_of_le_length (Nat.le_of_lt short)]
      exact cut
  | @piece start c rest scan visible later ih =>
    cases before with
    | nil => exact absurd here (nonempty (.piece visible later) member)
    | cons d before =>
      rw [List.cons_append] at split
      obtain ⟨rfl, rfl⟩ := List.cons.inj split
      rcases Scan.mem_tokens_addPiece.mp member with ⟨-, last⟩ | earlier
      · rw [last] at here
        have width : (Piece.ofHead d (before ++ after)).width = (d :: before).length := Nat.add_left_cancel here
        rw [width, ← List.cons_append, List.drop_left] at later
        exact inserted_behind fills some visible width later
      · obtain ⟨within, same⟩ := ofHead_earlier later earlier here
        have ended : Piece.ofHead d (before ++ (filler ++ after)) = Piece.ofHead d before :=
          Piece.ofHead_before (fills.separates some)
        have left : ((d :: before).drop (Piece.ofHead d before).width).length =
            (d :: before).length - (Piece.ofHead d before).width := List.length_drop
        rw [same, ← List.cons_append, List.drop_append_of_le_length within] at ih
        obtain ⟨scan', cut, alike⟩ := ih earlier (by omega) rfl
        have whole := @Cut.piece start d (before ++ (filler ++ after)) scan' visible
        rw [ended, ← List.cons_append, List.drop_append_of_le_length within] at whole
        rw [same]
        exact ⟨_, whole cut, alike.addPiece _ _ _⟩

end Cut

namespace Scan

theorem ofText_eq {text : String} {scan : Scan} (cut : Cut 0 (octets text) scan) : ofText text = scan :=
  cut.unique (Nat.le_refl _)

theorem octets_append (a b : String) : octets (a ++ b) = octets a ++ octets b := by
  rw [octets_eq, octets_eq, octets_eq, String.toList_append, List.flatMap_append]

theorem octetsOf_wide {c d : Char} (wide : 128 ≤ c.toNat) (part : d ∈ octetsOf c) : 128 ≤ d.toNat := by
  obtain ⟨b, encoded, rfl⟩ := List.mem_map.mp part
  have small := b.toNat_lt
  have valid : b.toNat.isValidChar := .inl (by omega)
  rw [Char.ofNat, dif_pos valid]
  change 128 ≤ b.toNat
  have large : ¬ c.val.toNat ≤ 127 := Nat.not_le_of_lt wide
  -- every byte of a longer encoding has its top bit set
  simp only [String.utf8EncodeChar, if_neg large] at encoded
  split at encoded
  · simp only [List.mem_cons, List.not_mem_nil, or_false] at encoded
    rcases encoded with rfl | rfl <;> rw [UInt8.toNat_ofNat'] <;> omega
  · split at encoded
    · simp only [List.mem_cons, List.not_mem_nil, or_false] at encoded
      rcases encoded with rfl | rfl | rfl <;> rw [UInt8.toNat_ofNat'] <;> omega
    · simp only [List.mem_cons, List.not_mem_nil, or_false] at encoded
      rcases encoded with rfl | rfl | rfl | rfl <;> rw [UInt8.toNat_ofNat'] <;> omega

theorem filler_octets {filler : List Char} (fills : Filler filler) : Filler (filler.flatMap octetsOf) := by
  induction fills with
  | nil => exact .nil
  | @blank c cs blank _ ih =>
    have ascii : ∀ d ∈ separators, d.toNat < 128 := by simp [separators]
    rw [List.flatMap_cons, octetsOf_ascii (ascii c (mem_separators.mpr (.inl blank)))]
    exact .blank blank ih
  | @comment inside cs line _ ih =>
    rw [List.flatMap_cons, List.flatMap_append, List.flatMap_cons, octetsOf_ascii (by decide),
      octetsOf_ascii (by decide)]
    apply Filler.comment _ ih
    intro part
    obtain ⟨c, member, part⟩ := List.mem_flatMap.mp part
    by_cases ascii : c.toNat < 128
    · rw [octetsOf_ascii ascii] at part
      exact line (List.mem_singleton.mp part ▸ member)
    · exact absurd (octetsOf_wide (Nat.le_of_not_lt ascii) part) (by decide)

theorem split_octets {cs : List Char} {i : Nat} {d : Char} (here : (cs.flatMap octetsOf)[i]? = some d)
    (ascii : d.toNat < 128) :
    ∃ before after, cs = before ++ after ∧ (before.flatMap octetsOf).length = i + 1 := by
  induction cs generalizing i with
  | nil => cases here
  | cons c cs ih =>
    rw [List.flatMap_cons] at here
    by_cases later : (octetsOf c).length ≤ i
    · rw [List.getElem?_append_right later] at here
      obtain ⟨before, after, rfl, width⟩ := ih here
      refine ⟨c :: before, after, rfl, ?_⟩
      rw [List.flatMap_cons, List.length_append, width]
      omega
    · rw [List.getElem?_append_left (Nat.lt_of_not_le later)] at here
      by_cases small : c.toNat < 128
      · rw [octetsOf_ascii small] at here later
        refine ⟨[c], cs, rfl, ?_⟩
        rw [List.flatMap_cons, octetsOf_ascii small, List.flatMap_nil, List.append_nil]
        rw [List.length_singleton] at later ⊢
        omega
      · exact absurd (octetsOf_wide (Nat.le_of_not_lt small) (List.mem_of_getElem? here)) (Nat.not_le_of_lt ascii)

theorem split_token {text : String} {t : Located Lexeme} (member : t ∈ (ofText text).tokens) :
    ∃ before after, text = before ++ after ∧ before.utf8ByteSize = t.span.stop := by
  obtain ⟨-, some, -⟩ := (cut_ofText text).token_within member
  obtain ⟨d, here, ascii, -⟩ := (cut_ofText text).inked member (i := t.span.stop - 1) (by omega) (by omega)
  rw [octets_eq] at here
  obtain ⟨before, after, split, width⟩ := split_octets here ascii
  refine ⟨String.ofList before, String.ofList after, ?_, ?_⟩
  · rw [← String.ofList_append, ← split, String.ofList_toList]
  · rw [← length_octets, octets_eq, String.toList_ofList, width]
    omega

-- A scan covers its text: lexemes are not empty, follow each other and lie in the text, and what neither a
-- lexeme nor a problem covers are blanks and comments. More of these, at the start of a text or behind a
-- lexeme, leave the lexemes as they are.
theorem ofText_covers (text : String) :
    (ofText text).stop = text.utf8ByteSize ∧
      (ofText text).tokens.Pairwise (fun a b => a.span.stop ≤ b.span.start) ∧
      (∀ span ∈ (ofText text).spans, span.start < span.stop ∧ span.stop ≤ text.utf8ByteSize) ∧
      (∀ i c, (octets text)[i]? = some c →
        (∀ span ∈ (ofText text).spans, ¬ (span.start ≤ i ∧ i < span.stop)) →
        isBlank c = true ∨ InComment (octets text) i) ∧
      ∀ filler : String, Filler filler.toList → (ofText (filler ++ text)).Alike (ofText text) ∧
        ∀ t ∈ (ofText text).tokens, ∃ before after, text = before ++ after ∧
          before.utf8ByteSize = t.span.stop ∧
          (ofText (before ++ (filler ++ after))).Alike (ofText text) := by
  have cut := cut_ofText text
  have length := length_octets text
  refine ⟨?_, cut.tokens_ordered, ?_, ?_, ?_⟩
  · rw [cut.stop_eq, length, Nat.zero_add]
  · intro span member
    obtain ⟨-, some, within⟩ := cut.spans_within span member
    exact ⟨some, by rwa [length, Nat.zero_add] at within⟩
  · intro i c here uncovered
    exact cut.covered here (by rwa [Nat.zero_add])
  · intro filler fills
    have filled := filler_octets fills
    rw [← octets_eq] at filled
    refine ⟨?_, ?_⟩
    · obtain ⟨scan, moved, alike⟩ := cut.moved (0 + (octets filler).length)
      have inFront := moved.filled filled
      rw [← octets_append] at inFront
      rw [ofText_eq inFront]
      exact alike
    · intro t member
      obtain ⟨before, after, rfl, width⟩ := split_token member
      refine ⟨before, after, rfl, width, ?_⟩
      by_cases none_ : octets filler = []
      · have same : octets (before ++ (filler ++ after)) = octets (before ++ after) := by
          rw [octets_append, octets_append, octets_append, none_, List.nil_append]
        rw [ofText_eq (same ▸ cut)]
        exact .refl _
      · rw [octets_append] at cut
        obtain ⟨scan, inserted, alike⟩ := cut.inserted filled none_ member (by rw [length_octets, width, Nat.zero_add])
        rw [← octets_append, ← octets_append] at inserted
        rw [ofText_eq inserted]
        exact alike

theorem ofText_covers_range :
    Filler "# up to\n".toList ∧ (⟨.integer 0, ⟨0, 1⟩⟩ : Located Lexeme) ∈ (ofText "0 ..4").tokens ∧
      (octets "0 ..4")[1]? = some ' ' ∧
      (∀ span ∈ (ofText "0 ..4").spans, ¬ (span.start ≤ 1 ∧ 1 < span.stop)) ∧
      (isBlank ' ' = true ∨ InComment (octets "0 ..4") 1) ∧
      (ofText ("# up to\n" ++ "0 ..4")).Alike (ofText "0 ..4") ∧
      ∃ before after, "0 ..4" = before ++ after ∧ before.utf8ByteSize = 1 ∧
        (ofText (before ++ ("# up to\n" ++ after))).Alike (ofText "0 ..4") := by
  have fills : Filler "# up to\n".toList := @Filler.comment " up to".toList [] (by decide) .nil
  have first : (⟨.integer 0, ⟨0, 1⟩⟩ : Located Lexeme) ∈ (ofText "0 ..4").tokens := by decide +kernel
  have blank : (octets "0 ..4")[1]? = some ' ' := by decide +kernel
  have uncovered : ∀ span ∈ (ofText "0 ..4").spans, ¬ (span.start ≤ 1 ∧ 1 < span.stop) := by decide +kernel
  obtain ⟨-, -, -, covered, filled⟩ := ofText_covers "0 ..4"
  obtain ⟨before, behind⟩ := filled _ fills
  exact ⟨fills, first, blank, uncovered, covered 1 ' ' blank uncovered, before, behind _ first⟩

end Scan

end FieldKernel
