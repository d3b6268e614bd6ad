import Mathlib.Data.List.Basic
import FieldKernel.Proofs.Source.Layout
import FieldKernel.Text.Blank

-- Characters that are no part of the text format: each of their bytes is reported on its own.
namespace FieldKernel

namespace Piece

variable {c : Char} {rest : List Char}

theorem ofLexeme_silent (width : Nat) (lexeme : Lexeme) (issue : Issue) : (ofLexeme width lexeme).issue? ≠ some issue :=
  (Option.some_ne_none issue).symm

theorem integer_expected (digits : List Char) (d : Char) : (integer digits).issue? ≠ some (.unexpectedCharacter d) := by
  unfold integer
  dsimp only
  split
  · exact ofLexeme_silent _ _ _
  · intro same
    cases same

theorem number_expected (cs : List Char) (d : Char) : (number cs).issue? ≠ some (.unexpectedCharacter d) := by
  rw [number_eq]
  unfold assemble
  split
  · exact integer_expected _ d
  · exact ofLexeme_silent _ _ _
  · exact ofLexeme_silent _ _ _

theorem value_expected (cs : List Char) (d : Char) : (value cs).issue? ≠ some (.unexpectedCharacter d) := by
  unfold value
  dsimp only
  split
  · intro same
    cases same
  · split
    · exact ofLexeme_silent _ _ _
    · intro same
      cases same

theorem symbol_sign {c : Char} (sign : c ∈ signs) (other : c ≠ '%') (rest : List Char) :
    (∃ m, symbol c rest = .ofMark m) ∨ symbol c rest = .ofIssue 1 .lonePlus := by
  simp only [signs, List.mem_cons, List.not_mem_nil, or_false, other, false_or] at sign
  rcases sign with rfl | rfl | rfl | rfl | rfl | rfl | rfl | rfl | rfl | rfl | rfl
  · exact .inl ⟨.leftBrace, rfl⟩
  · exact .inl ⟨.rightBrace, rfl⟩
  · exact .inl ⟨.leftBracket, rfl⟩
  · exact .inl ⟨.rightBracket, rfl⟩
  · exact .inl ⟨.comma, rfl⟩
  · exact .inl ⟨.colon, rfl⟩
  · exact .inl ⟨.equals, rfl⟩
  · exact .inl ⟨.star, rfl⟩
  -- a point, a plus and a minus may have another sign behind them
  all_goals
    unfold symbol
    split <;> simp_all

theorem symbol_expected {c : Char} (sign : c ∈ signs) (other : c ≠ '%') (rest : List Char) (d : Char) :
    (symbol c rest).issue? ≠ some (.unexpectedCharacter d) := by
  rcases symbol_sign sign other rest with ⟨m, mark⟩ | lone
  · rw [mark]
    exact ofLexeme_silent _ _ _
  · rw [lone]
    intro same
    cases same

theorem ofHead_expected (rest : List Char) (part : isPart c = true) (d : Char) :
    (ofHead c rest).issue? ≠ some (.unexpectedCharacter d) := by
  unfold ofHead
  split
  · exact ofLexeme_silent _ _ _
  · next noLetter =>
    split
    · exact number_expected _ d
    · next noDigit =>
      split
      · exact value_expected _ d
      · next noPercent =>
        have noWord : continuesWord c = false := by simp [continuesWord, noLetter, noDigit]
        rw [isPart, noWord, Bool.false_or, List.contains_iff_mem] at part
        exact symbol_expected part noPercent rest d

theorem ofHead_part (rest : List Char) (part : isPart c = true) :
    ∀ d ∈ (c :: rest).take (ofHead c rest).width, isPart d = true := by
  rcases ofHead_parts c rest with parts | stray
  · exact parts
  · refine absurd ?_ (ofHead_expected rest part c)
    rw [stray]
    rfl

theorem ofHead_stray (stray : isPart c = false) : ofHead c rest = .ofIssue 1 (.unexpectedCharacter c) := by
  refine (ofHead_parts c rest).resolve_left fun parts => ?_
  obtain ⟨width, some_⟩ := Nat.exists_eq_add_of_le' (ofHead_width c rest).1
  rw [some_, List.take_succ_cons] at parts
  exact absurd (parts c List.mem_cons_self) (by rw [stray]; nofun)

theorem isPart_iff : isPart c = true ↔ ∃ rest, (ofHead c rest).lexeme?.isSome = true := by
  constructor
  · intro part
    have listed : signs.all (fun d => (ofHead d ['0']).lexeme?.isSome || (ofHead d ['=']).lexeme?.isSome) = true := by
      decide
    rcases Bool.or_eq_true_iff.mp part with word | sign
    · refine ⟨[], ?_⟩
      unfold ofHead
      split
      · rfl
      · next noLetter =>
        have digit : isDigit c = true := by simpa [continuesWord, noLetter] using word
        rw [if_pos digit, number_eq]
        unfold assemble integer
        split
        · dsimp only
          split <;> rfl
        · rfl
        · rfl
    · have begins := List.all_eq_true.mp listed c (List.contains_iff_mem.mp sign)
      exact (Bool.or_eq_true_iff.mp begins).elim (⟨_, ·⟩) (⟨_, ·⟩)
  · rintro ⟨rest, begins⟩
    refine Bool.of_not_eq_false fun stray => ?_
    rw [ofHead_stray stray] at begins
    cases begins

end Piece

namespace Scan

-- Characters that neither stand between lexemes nor begin one.
def Stray (c : Char) : Prop := c ∉ separators ∧ ∀ rest, (Piece.ofHead c rest).lexeme? = none

theorem stray_iff {c : Char} : Stray c ↔ c ∉ separators ∧ Piece.isPart c = false := by
  rw [Stray, ← Bool.not_eq_true, Piece.isPart_iff, not_exists]
  simp only [Option.isSome_iff_ne_none, ne_eq, Decidable.not_not]

instance : DecidablePred Stray := fun _ => decidable_of_iff _ stray_iff.symm

def isCommented (before : List Char) : Bool := (before.reverse.takeWhile (· ≠ '\n')).contains '#'

-- The stray characters of a text outside comments, each with the bytes that it takes.
def straysFrom (before : List Char) : List Char → List (Located Char)
  | [] => []
  | c :: cs =>
    let start := Text.byteLength before
    if Stray c ∧ isCommented before = false then
      ⟨c, ⟨start, start + c.utf8Size⟩⟩ :: straysFrom (before ++ [c]) cs
    else straysFrom (before ++ [c]) cs

def strays (text : String) : List (Located Char) := straysFrom [] text.toList

def named (stray : Located Char) : Diagnostic := ⟨.unexpectedCharacter stray.node, stray.span⟩

-- A report for every byte, under the name of the character of its number.
def bytewise (stray : Located Char) : List Diagnostic :=
  (octetsOf stray.node).mapIdx fun i octet =>
    ⟨.unexpectedCharacter octet, ⟨stray.span.start + i, stray.span.start + i + 1⟩⟩

def isUnexpected (issue : Diagnostic) : Bool := issue.node matches .unexpectedCharacter _

-- The reports on a sequence of bytes, within a comment or outside.
def report (start : Nat) (commented : Bool) : List Char → List Diagnostic
  | [] => []
  | c :: cs =>
    let later := report (start + 1) (c ≠ '\n' && (commented || c = '#')) cs
    if Stray c ∧ commented = false then ⟨.unexpectedCharacter c, ⟨start, start + 1⟩⟩ :: later else later

variable {start : Nat} {commented : Bool} {cs rest : List Char} {c : Char}

theorem stray_separator (separates : c ∈ separators) : ¬ Stray c := fun stray => stray.1 separates

theorem stray_part (part : Piece.isPart c = true) : ¬ Stray c := by
  rw [stray_iff, part]
  exact fun stray => nomatch stray.2

theorem report_plain (plain : ¬ Stray c) : report start commented (c :: cs) =
    report (start + 1) (c ≠ '\n' && (commented || c = '#')) cs := by
  rw [report, if_neg fun stray => plain stray.1]

theorem report_commented (line : c ≠ '\n') : report start true (c :: cs) = report (start + 1) true cs := by
  rw [report, if_neg (by simp), Bool.true_or, Bool.and_true, decide_eq_true line]

theorem report_comment {inside : List Char} (line : ∀ d ∈ inside, d ≠ '\n') :
    report start true (inside ++ rest) = report (start + inside.length) true rest := by
  induction inside generalizing start with
  | nil => rfl
  | cons d inside ih =>
    obtain ⟨first, others⟩ := List.forall_mem_cons.mp line
    rw [List.cons_append, report_commented first, ih others, List.length_cons, Nat.add_assoc, Nat.add_comm 1]

theorem report_line (ends : ∀ d ∈ rest.head?, d = '\n') : report start true rest = report start false rest := by
  cases rest with
  | nil => rfl
  | cons d rest =>
    cases ends d rfl
    rw [report_plain (stray_separator (by decide)), report_plain (stray_separator (by decide))]
    rfl

theorem report_parts {parts : List Char} (made : ∀ d ∈ parts, Piece.isPart d = true) :
    report start false (parts ++ rest) = report (start + parts.length) false rest := by
  induction parts generalizing start with
  | nil => rfl
  | cons d parts ih =>
    obtain ⟨first, others⟩ := List.forall_mem_cons.mp made
    have noComment : d ≠ '#' := by
      rintro rfl
      exact absurd first (by decide)
    rw [List.cons_append, report_plain (stray_part first), Bool.false_or, decide_eq_false noComment, Bool.and_false,
      ih others, List.length_cons, Nat.add_assoc, Nat.add_comm 1]

theorem unexpected_addPiece {scan : Scan} {piece : Piece}
    (expected : ∀ d, piece.issue? ≠ some (.unexpectedCharacter d)) :
    (scan.addPiece start piece).issues.filter isUnexpected = scan.issues.filter isUnexpected := by
  obtain ⟨width, lexeme?, issue?⟩ := piece
  rw [addPiece, List.filter_append]
  cases issue? with
  | none => rfl
  | some issue =>
    cases issue with
    | unexpectedCharacter d => exact absurd rfl (expected d)
    | _ => rfl

end Scan

namespace Cut

open Scan

variable {start : Nat} {cs : List Char} {scan : Scan}

theorem unexpected (cut : Cut start cs scan) : scan.issues.filter isUnexpected = report start false cs := by
  induction cut with
  | done => rfl
  | @blank start c rest _ blank _ ih =>
    have noComment : c ≠ '#' := by
      rintro rfl
      exact absurd blank (by decide)
    rw [report_plain (stray_separator (mem_separators.mpr (.inl blank))), Bool.false_or,
      decide_eq_false noComment, Bool.and_false, ih]
  | @comment start rest _ _ ih =>
    have text : report (start + 1) true rest =
        report (start + 1 + (rest.takeWhile (· ≠ '\n')).length) true (rest.dropWhile (· ≠ '\n')) := by
      conv_lhs => rw [← List.takeWhile_append_dropWhile (p := (· ≠ '\n')) (l := rest)]
      exact report_comment fun d member => of_decide_eq_true (List.all_eq_true.mp List.all_takeWhile d member)
    have left := @List.drop_left _ (rest.takeWhile (· ≠ '\n')) (rest.dropWhile (· ≠ '\n'))
    rw [List.takeWhile_append_dropWhile] at left
    rw [left] at ih
    rw [report_plain (stray_separator (by decide)), ih, ← report_line]
    · exact text.symm
    · intro d first
      have stopped := List.head?_dropWhile_not (· ≠ '\n') rest
      rw [Option.mem_def.mp first] at stopped
      simpa using stopped
  | @piece start c rest scan visible _ ih =>
    cases part : Piece.isPart c with
    | true =>
      have all := Piece.ofHead_part rest part
      have width : ((c :: rest).take (Piece.ofHead c rest).width).length = (Piece.ofHead c rest).width :=
        List.length_take_of_le (Piece.ofHead_width c rest).2
      rw [unexpected_addPiece (Piece.ofHead_expected rest part), ih]
      conv_rhs => rw [← List.take_append_drop (Piece.ofHead c rest).width (c :: rest), report_parts all, width]
    | false =>
      have noComment : c ≠ '#' := by
        rintro rfl
        exact visible (by decide)
      rw [Piece.ofHead_stray part] at ih ⊢
      rw [report, if_pos ⟨stray_iff.mpr ⟨visible, part⟩, rfl⟩, Bool.false_or, decide_eq_false noComment,
        Bool.and_false]
      exact congrArg _ ih

theorem unexpected_apart (cut : Cut start cs scan) {t : Located Lexeme} (token : t ∈ scan.tokens) {issue : Diagnostic}
    (reported : issue ∈ scan.issues) (unexpected : isUnexpected issue = true) :
    t.span.stop ≤ issue.span.start ∨ issue.span.stop ≤ t.span.start := by
  induction cut with
  | done => cases token
  | blank _ _ ih | comment _ ih => exact ih token reported
  | @piece start c rest scan _ later ih =>
    have issues : issue ∈ ((Piece.ofHead c rest).issue?.map
        (Located.mk · ⟨start, start + (Piece.ofHead c rest).width⟩)).toList ++ scan.issues := reported
    rcases Scan.mem_tokens_addPiece.mp token with ⟨lexeme, here⟩ | token
    · rcases List.mem_append.mp issues with same | behind
      · obtain ⟨node, found, rfl⟩ := Option.map_eq_some_iff.mp (Option.mem_toList.mp same)
        cases part : Piece.isPart c with
        | true =>
          cases node with
          | unexpectedCharacter d => exact absurd found (Piece.ofHead_expected rest part d)
          | _ => cases unexpected
        | false =>
          rw [Piece.ofHead_stray part] at lexeme
          cases lexeme
      · rw [here]
        exact .inl (later.spans_within _ (mem_spans.mpr (.inr ⟨issue, behind, rfl⟩))).1
    · rcases List.mem_append.mp issues with same | behind
      · obtain ⟨node, -, rfl⟩ := Option.map_eq_some_iff.mp (Option.mem_toList.mp same)
        exact .inr (later.token_within token).1
      · exact ih token behind

end Cut

namespace Scan

variable {before cs rest : List Char} {c : Char}

theorem isCommented_append : isCommented (before ++ [c]) = (c ≠ '\n' && (isCommented before || c = '#')) := by
  rw [isCommented, List.reverse_append, List.reverse_singleton, List.singleton_append, List.takeWhile_cons]
  by_cases line : c = '\n'
  · simp [line]
  · simp [line, isCommented, Bool.or_comm, eq_comm]

theorem byteLength_append : Text.byteLength (before ++ [c]) = Text.byteLength before + c.utf8Size := by
  rw [Text.byteLength, List.foldl_append]
  rfl

theorem stray_wide (wide : 128 ≤ c.toNat) : Stray c := by
  have noInk : ¬ Inked c := fun inked => Nat.not_lt_of_le wide inked.1
  have noPart : Piece.isPart c = false := Bool.of_not_eq_true fun part => noInk (Piece.inked_of_part part)
  have ascii : separators.all (·.toNat < 128) = true := by decide
  refine stray_iff.mpr ⟨fun separates => Nat.not_lt_of_le wide ?_, noPart⟩
  exact of_decide_eq_true (List.all_eq_true.mp ascii c separates)

theorem report_wide {start : Nat} {commented : Bool} {octets : List Char} (wide : ∀ d ∈ octets, 128 ≤ d.toNat) :
    report start commented (octets ++ rest) =
      (if commented then [] else octets.mapIdx fun i d => ⟨.unexpectedCharacter d, ⟨start + i, start + i + 1⟩⟩) ++
        report (start + octets.length) commented rest := by
  induction octets generalizing start with
  | nil => cases commented <;> rfl
  | cons d octets ih =>
    obtain ⟨first, others⟩ := List.forall_mem_cons.mp wide
    have noLine : d ≠ '\n' := by
      rintro rfl
      exact absurd first (by decide)
    have noComment : d ≠ '#' := by
      rintro rfl
      exact absurd first (by decide)
    have next : (decide (d ≠ '\n') && (commented || decide (d = '#'))) = commented := by simp [noLine, noComment]
    rw [List.cons_append, report, next, ih others, List.length_cons, Nat.add_comm octets.length, ← Nat.add_assoc]
    cases commented with
    | true => simp
    | false => simp [stray_wide first, List.mapIdx_cons, Nat.add_assoc, Nat.add_comm 1]

-- On the bytes of characters, each character is reported or passed over as a whole.
theorem report_octets : report (Text.byteLength before) (isCommented before) (cs.flatMap octetsOf) =
    (straysFrom before cs).flatMap bytewise := by
  induction cs generalizing before with
  | nil => rfl
  | cons c cs ih =>
    have later := @ih (before ++ [c])
    rw [byteLength_append] at later
    rw [List.flatMap_cons, straysFrom]
    by_cases ascii : c.toNat < 128
    · have size : c.utf8Size = 1 := Char.utf8Size_eq_one_iff.mpr (Nat.le_of_lt_succ ascii)
      rw [isCommented_append, size] at later
      rw [octetsOf_ascii ascii, List.singleton_append, report, later]
      split
      · rw [List.flatMap_cons, bytewise, octetsOf_ascii ascii]
        rfl
      · rfl
    · have wide := Nat.le_of_not_lt ascii
      have apart : ∀ d : Char, d.toNat < 128 → c ≠ d := by
        rintro _ small rfl
        exact ascii small
      have same : isCommented (before ++ [c]) = isCommented before := by
        rw [isCommented_append, decide_eq_true (apart '\n' (by decide)), decide_eq_false (apart '#' (by decide)),
          Bool.true_and, Bool.or_false]
      have width : (octetsOf c).length = c.utf8Size := by
        rw [octetsOf, List.length_map, String.length_utf8EncodeChar]
      rw [same] at later
      rw [report_wide fun d part => octetsOf_wide wide part, width, later]
      cases isCommented before with
      | true => simp
      | false =>
        rw [if_neg Bool.false_ne_true, if_pos ⟨stray_wide wide, rfl⟩, List.flatMap_cons]
        rfl

theorem mem_straysFrom {stray : Located Char} (member : stray ∈ straysFrom before cs) :
    stray.span.stop = stray.span.start + stray.node.utf8Size := by
  induction cs generalizing before with
  | nil => cases member
  | cons c cs ih =>
    rw [straysFrom] at member
    split at member
    · rcases List.mem_cons.mp member with rfl | later
      · rfl
      · exact ih later
    · exact ih member

theorem bytewise_ascii {stray : Located Char} (placed : stray.span.stop = stray.span.start + stray.node.utf8Size)
    (ascii : stray.node.toNat < 128) : bytewise stray = [named stray] := by
  have size : stray.node.utf8Size = 1 := Char.utf8Size_eq_one_iff.mpr (Nat.le_of_lt_succ ascii)
  obtain ⟨c, start, stop⟩ := stray
  rw [size] at placed
  dsimp only at placed
  subst placed
  rw [bytewise, octetsOf_ascii ascii]
  rfl

theorem mem_bytewise {stray : Located Char} (placed : stray.span.stop = stray.span.start + stray.node.utf8Size)
    {i : Nat} (low : stray.span.start ≤ i) (high : i < stray.span.stop) :
    ∃ issue ∈ bytewise stray, isUnexpected issue = true ∧ issue.span = ⟨i, i + 1⟩ := by
  obtain ⟨k, rfl⟩ := Nat.exists_eq_add_of_le low
  have bound : k < (octetsOf stray.node).length := by
    rw [octetsOf, List.length_map, String.length_utf8EncodeChar]
    omega
  refine ⟨_, List.mem_mapIdx.mpr ⟨k, bound, rfl⟩, rfl, rfl⟩

-- The reports of unexpected characters are those of the stray characters, each byte on its own. A stray character
-- stands outside lexemes, and where all of them take one byte, each is reported once, as itself. Places are
-- numbers without bound: this is about texts shorter than 2^32 bytes.
theorem ofText_strays (text : String) :
    (ofText text).issues.filter isUnexpected = (strays text).flatMap bytewise ∧
      (∀ stray ∈ strays text, ∀ t ∈ (ofText text).tokens,
        t.span.stop ≤ stray.span.start ∨ stray.span.stop ≤ t.span.start) ∧
      ((∀ stray ∈ strays text, stray.node.toNat < 128) →
        (ofText text).issues.filter isUnexpected = (strays text).map named) := by
  have cut := cut_ofText text
  have reports : (ofText text).issues.filter isUnexpected = (strays text).flatMap bytewise := by
    rw [cut.unexpected, octets_eq]
    exact @report_octets [] text.toList
  refine ⟨reports, fun stray member t token => ?_, fun ascii => ?_⟩
  · have placed := mem_straysFrom member
    have positive := stray.node.utf8Size_pos
    obtain ⟨-, some_, -⟩ := cut.token_within token
    -- a byte of both would be reported and stand in a lexeme
    refine Decidable.byContradiction fun meets => ?_
    obtain ⟨issue, byte, unexpected, here⟩ := mem_bytewise placed
      (i := max stray.span.start t.span.start) (by omega) (by omega)
    have reported : issue ∈ (ofText text).issues.filter isUnexpected :=
      reports ▸ List.mem_flatMap.mpr ⟨stray, member, byte⟩
    have apart := cut.unexpected_apart token (List.mem_filter.mp reported).1 unexpected
    rw [here] at apart
    dsimp only at apart
    omega
  · rw [reports, List.map_eq_flatMap]
    exact List.flatMap_congr fun stray member => bytewise_ascii (mem_straysFrom member) (ascii stray member)

theorem ofText_strays_at :
    (∀ stray ∈ strays "store @ x # @", stray.node.toNat < 128) ∧
      (ofText "store @ x # @").issues.filter isUnexpected = (strays "store @ x # @").map named ∧
      strays "store @ x # @" = [⟨'@', ⟨6, 7⟩⟩] := by
  have ascii : ∀ stray ∈ strays "store @ x # @", stray.node.toNat < 128 := by decide +kernel
  exact ⟨ascii, (ofText_strays "store @ x # @").2.2 ascii, by decide +kernel⟩

theorem ofText_splits_character :
    strays "é" = [⟨'é', ⟨0, 2⟩⟩] ∧ (ofText "é").issues.filter isUnexpected ≠ (strays "é").map named ∧
      (ofText "é").issues.map (·.node.message) =
        ["unexpected character 'Ã' (U+00C3)", "unexpected character '©' (U+00A9)"] := by
  decide +kernel

end Scan

end FieldKernel
