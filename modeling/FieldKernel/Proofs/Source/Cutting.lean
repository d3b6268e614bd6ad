import FieldKernel.Proofs.Source.Pieces

-- Program texts cut into pieces, and what the cuts leave out.
namespace FieldKernel

def Scan.spans (scan : Scan) : List Span := scan.tokens.map (·.span) ++ scan.issues.map (·.span)

-- What a text is cut into from an offset on, without a bound on the number of cuts.
inductive Cut : Nat → List Char → Scan → Prop where
  | done {start : Nat} : Cut start [] ⟨[], [], start⟩
  | blank {start : Nat} {c : Char} {rest : List Char} {scan : Scan} : Scan.isBlank c = true →
      Cut (start + 1) rest scan → Cut start (c :: rest) scan
  | comment {start : Nat} {rest : List Char} {scan : Scan} :
      Cut (start + 1 + (rest.takeWhile (· ≠ '\n')).length) (rest.drop (rest.takeWhile (· ≠ '\n')).length) scan →
      Cut start ('#' :: rest) scan
  | piece {start : Nat} {c : Char} {rest : List Char} {scan : Scan} : c ∉ separators →
      Cut (start + (Piece.ofHead c rest).width) ((c :: rest).drop (Piece.ofHead c rest).width) scan →
      Cut start (c :: rest) (scan.addPiece start (Piece.ofHead c rest))

namespace Scan

theorem cut_ofOctets {fuel start : Nat} {cs : List Char} (enough : cs.length ≤ fuel) :
    Cut start cs (ofOctets fuel start cs) := by
  induction fuel generalizing start cs with
  | zero =>
    cases List.eq_nil_of_length_eq_zero (Nat.le_zero.mp enough)
    exact .done
  | succ fuel ih =>
    cases cs with
    | nil => exact .done
    | cons c rest =>
      have fewer : rest.length ≤ fuel := Nat.le_of_succ_le_succ enough
      rw [ofOctets]
      split
      · next blank => exact .blank blank (ih fewer)
      · next visible =>
        split
        · next comment =>
          subst comment
          apply Cut.comment
          apply ih
          rw [List.length_drop]
          exact Nat.le_trans (Nat.sub_le _ _) fewer
        · next noComment =>
          apply Cut.piece
          · rw [mem_separators]
            exact not_or_intro visible noComment
          · apply ih
            have := (Piece.ofHead_width c rest).1
            rw [List.length_drop, List.length_cons]
            omega

theorem mem_spans {scan : Scan} {span : Span} :
    span ∈ scan.spans ↔ (∃ t ∈ scan.tokens, t.span = span) ∨ ∃ issue ∈ scan.issues, issue.span = span := by
  simp [spans]

theorem tokens_addPiece {scan : Scan} {start : Nat} {piece : Piece} :
    (scan.addPiece start piece).tokens =
      (piece.lexeme?.map (Located.mk · ⟨start, start + piece.width⟩)).toList ++ scan.tokens := rfl

theorem mem_tokens_addPiece {scan : Scan} {start : Nat} {piece : Piece} {t : Located Lexeme} :
    t ∈ (scan.addPiece start piece).tokens ↔
      (piece.lexeme? = some t.node ∧ t.span = ⟨start, start + piece.width⟩) ∨ t ∈ scan.tokens := by
  rw [tokens_addPiece, List.mem_append]
  apply or_congr_left
  rw [Option.mem_toList, Option.map_eq_some_iff]
  constructor
  · rintro ⟨lexeme, found, rfl⟩
    exact ⟨found, rfl⟩
  · rintro ⟨found, here⟩
    exact ⟨t.node, found, by rw [← here]⟩

theorem mem_spans_addPiece {scan : Scan} {start : Nat} {piece : Piece} {span : Span}
    (heard : piece.lexeme?.isSome ∨ piece.issue?.isSome) :
    span ∈ (scan.addPiece start piece).spans ↔ span = ⟨start, start + piece.width⟩ ∨ span ∈ scan.spans := by
  obtain ⟨width, lexeme?, issue?⟩ := piece
  cases lexeme? <;> cases issue? <;> simp_all [spans, addPiece, or_left_comm]

end Scan

def InComment (cs : List Char) (i : Nat) : Prop :=
  ∃ before inside after, cs = before ++ '#' :: (inside ++ after) ∧ '\n' ∉ inside ∧
    before.length ≤ i ∧ i ≤ before.length + inside.length

theorem InComment.of_drop (cs : List Char) {i skipped : Nat} (few : skipped ≤ cs.length)
    (within : InComment (cs.drop skipped) i) : InComment cs (skipped + i) := by
  obtain ⟨before, inside, after, split, line, low, high⟩ := within
  have width : (cs.take skipped).length = skipped := List.length_take_of_le few
  refine ⟨cs.take skipped ++ before, inside, after, ?_, line, ?_, ?_⟩
  · rw [List.append_assoc, ← split, List.take_append_drop]
  · rw [List.length_append, width]
    exact Nat.add_le_add_left low _
  · rw [List.length_append, width, Nat.add_assoc]
    exact Nat.add_le_add_left high _

namespace Cut

variable {start : Nat} {cs : List Char} {scan : Scan}

theorem unique (cut : Cut start cs scan) {fuel : Nat} (enough : cs.length ≤ fuel) :
    Scan.ofOctets fuel start cs = scan := by
  induction cut generalizing fuel with
  | done => exact Scan.ofOctets_nil _ _
  | blank blank _ ih =>
    cases fuel with
    | zero => cases enough
    | succ fuel =>
      rw [Scan.ofOctets, if_pos blank]
      exact ih (Nat.le_of_succ_le_succ enough)
  | comment _ ih =>
    cases fuel with
    | zero => cases enough
    | succ fuel =>
      rw [Scan.ofOctets, if_neg (by decide), if_pos rfl]
      apply ih
      rw [List.length_drop]
      exact Nat.le_trans (Nat.sub_le _ _) (Nat.le_of_succ_le_succ enough)
  | @piece start c rest _ visible _ ih =>
    cases fuel with
    | zero => cases enough
    | succ fuel =>
      obtain ⟨noBlank, noComment⟩ := not_or.mp (mt mem_separators.mpr visible)
      rw [Scan.ofOctets, if_neg noBlank, if_neg noComment]
      dsimp only
      rw [ih]
      have := (Piece.ofHead_width c rest).1
      rw [List.length_cons] at enough
      rw [List.length_drop, List.length_cons]
      omega

theorem stop_eq (cut : Cut start cs scan) : scan.stop = start + cs.length := by
  induction cut with
  | done => rfl
  | blank _ _ ih => rw [ih, List.length_cons, Nat.add_assoc, Nat.add_comm 1]
  | @comment start rest _ _ ih =>
    have := (List.takeWhile_prefix (l := rest) (· ≠ '\n')).length_le
    rw [ih, List.length_drop, List.length_cons]
    omega
  | @piece start c rest _ _ _ ih =>
    have := (Piece.ofHead_width c rest).2
    change _ = _
    rw [Scan.addPiece, ih, List.length_drop, List.length_cons]
    omega

theorem spans_within (cut : Cut start cs scan) : ∀ span ∈ scan.spans,
    start ≤ span.start ∧ span.start < span.stop ∧ span.stop ≤ start + cs.length := by
  induction cut with
  | done => nofun
  | blank _ _ ih =>
    intro span member
    obtain ⟨low, some, high⟩ := ih span member
    rw [List.length_cons]
    omega
  | @comment start rest _ _ ih =>
    intro span member
    obtain ⟨low, some, high⟩ := ih span member
    have := (List.takeWhile_prefix (l := rest) (· ≠ '\n')).length_le
    rw [List.length_drop] at high
    rw [List.length_cons]
    omega
  | @piece start c rest _ _ _ ih =>
    obtain ⟨positive, few⟩ := Piece.ofHead_width c rest
    intro span member
    rw [List.length_cons]
    rcases (Scan.mem_spans_addPiece (Piece.ofHead_heard c rest)).mp member with rfl | later
    · dsimp only
      omega
    · obtain ⟨low, some, high⟩ := ih span later
      rw [List.length_drop, List.length_cons] at high
      omega

theorem token_within (cut : Cut start cs scan) {t : Located Lexeme} (member : t ∈ scan.tokens) :
    start ≤ t.span.start ∧ t.span.start < t.span.stop ∧ t.span.stop ≤ start + cs.length :=
  cut.spans_within t.span (Scan.mem_spans.mpr (.inl ⟨t, member, rfl⟩))

theorem tokens_ordered (cut : Cut start cs scan) :
    scan.tokens.Pairwise fun a b => a.span.stop ≤ b.span.start := by
  induction cut with
  | done => exact .nil
  | blank _ _ ih | comment _ ih => exact ih
  | @piece start c rest _ _ later ih =>
    rw [Scan.tokens_addPiece]
    cases (Piece.ofHead c rest).lexeme? with
    | none => exact ih
    | some lexeme =>
      refine List.pairwise_cons.mpr ⟨?_, ih⟩
      intro t member
      exact (later.token_within member).1

theorem covered (cut : Cut start cs scan) {i : Nat} {c : Char} (here : cs[i]? = some c)
    (uncovered : ∀ span ∈ scan.spans, ¬ (span.start ≤ start + i ∧ start + i < span.stop)) :
    Scan.isBlank c = true ∨ InComment cs i := by
  induction cut generalizing i with
  | done => cases here
  | @blank start d rest _ blank _ ih =>
    cases i with
    | zero =>
      cases here
      exact .inl blank
    | succ i =>
      rw [Nat.add_comm i, ← Nat.add_assoc] at uncovered
      have later := ih here uncovered
      rw [Nat.add_comm i]
      exact later.imp_right (InComment.of_drop (d :: rest) (Nat.succ_le_succ (Nat.zero_le _)))
  | @comment start rest _ _ ih =>
    have few := (List.takeWhile_prefix (l := rest) (· ≠ '\n')).length_le
    by_cases inside : i ≤ (rest.takeWhile (· ≠ '\n')).length
    · refine .inr ⟨[], rest.takeWhile (· ≠ '\n'), rest.dropWhile (· ≠ '\n'), ?_, ?_, Nat.zero_le _, ?_⟩
      · rw [List.takeWhile_append_dropWhile]
        rfl
      · intro line
        exact absurd (List.all_eq_true.mp List.all_takeWhile '\n' line) (by decide)
      · rwa [List.length_nil, Nat.zero_add]
    · obtain ⟨k, rfl⟩ := Nat.exists_eq_add_of_lt (Nat.lt_of_not_le inside)
      rw [Nat.add_right_comm] at here uncovered ⊢
      apply (ih (i := k) ?_ ?_).imp_right (InComment.of_drop ('#' :: rest) (Nat.succ_le_succ few))
      · rw [List.getElem?_drop]
        rwa [Nat.add_right_comm] at here
      · rwa [Nat.add_assoc start, Nat.add_comm 1, Nat.add_assoc start]
  | @piece start d rest _ _ _ ih =>
    obtain ⟨-, few⟩ := Piece.ofHead_width d rest
    have heard := Piece.ofHead_heard d rest
    have behind : (Piece.ofHead d rest).width ≤ i := by
      apply Nat.le_of_not_lt
      intro inside
      exact uncovered _ ((Scan.mem_spans_addPiece heard).mpr (.inl rfl)) ⟨Nat.le_add_right _ _, Nat.add_lt_add_left inside _⟩
    obtain ⟨k, rfl⟩ := Nat.exists_eq_add_of_le behind
    apply (ih (i := k) ?_ ?_).imp_right (InComment.of_drop (d :: rest) few)
    · rwa [List.getElem?_drop]
    · intro span member
      rw [Nat.add_assoc]
      exact uncovered span ((Scan.mem_spans_addPiece heard).mpr (.inr member))

theorem inked (cut : Cut start cs scan) {t : Located Lexeme} (member : t ∈ scan.tokens) {i : Nat}
    (low : t.span.start ≤ start + i) (high : start + i < t.span.stop) : ∃ c, cs[i]? = some c ∧ Inked c := by
  induction cut generalizing i with
  | done => cases member
  | @blank start d rest _ _ later ih =>
    have := (later.token_within member).1
    cases i with
    | zero => omega
    | succ i => exact ih member (by omega) (by omega)
  | @comment start rest _ later ih =>
    have := (later.token_within member).1
    obtain ⟨k, rfl⟩ := Nat.exists_eq_add_of_le (n := i) (m := (rest.takeWhile (· ≠ '\n')).length + 1) (by omega)
    obtain ⟨c, here, inked⟩ := ih member (i := k) (by omega) (by omega)
    rw [List.getElem?_drop] at here
    rw [Nat.add_right_comm]
    exact ⟨c, here, inked⟩
  | @piece start d rest _ _ later ih =>
    rcases Scan.mem_tokens_addPiece.mp member with ⟨lexeme, here⟩ | member
    · rw [here] at high
      have inside := Nat.lt_of_add_lt_add_left high
      rcases Piece.ofHead_inked d rest with inked | ⟨-, silent⟩
      · have few := (Piece.ofHead_width d rest).2
        have bound : i < (d :: rest).length := Nat.lt_of_lt_of_le inside few
        refine ⟨(d :: rest)[i], List.getElem?_eq_getElem bound, inked _ ?_⟩
        exact List.mem_take_iff_getElem.mpr ⟨i, by omega, rfl⟩
      · rw [silent] at lexeme
        cases lexeme
    · have := (later.token_within member).1
      obtain ⟨k, rfl⟩ := Nat.exists_eq_add_of_le (n := i) (m := (Piece.ofHead d rest).width) (by omega)
      obtain ⟨c, here, inked⟩ := ih member (i := k) (by omega) (by omega)
      rw [List.getElem?_drop] at here
      exact ⟨c, here, inked⟩

end Cut

namespace Scan

theorem cut_ofText (text : String) : Cut 0 (octets text) (ofText text) := cut_ofOctets (Nat.le_refl _)

theorem length_octets (text : String) : (octets text).length = text.utf8ByteSize := by
  rw [octets, List.length_map]
  rfl

end Scan

end FieldKernel
