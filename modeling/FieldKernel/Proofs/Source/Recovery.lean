import FieldKernel.Proofs.Source.Cutting
import FieldKernel.Proofs.Source.Onward
import FieldKernel.Scalar.Double
import Mathlib.Logic.Relation

-- Reading comes to an end, whatever the text: every round takes a lexeme, also where the item was wrong.
namespace FieldKernel

variable {α β γ : Type}

open Reader

def Agree (n : Nat) (x y : Read β) : Prop := ∀ cursor : Cursor, cursor.tokens.length ≤ n → x.run cursor = y.run cursor

-- A loop that stops by itself: bounds above the number of lexemes that are left make no difference.
def Stops (loop : Nat → Read β) : Prop :=
  ∀ n fuel fuel', n < fuel → n < fuel' → Agree n (loop fuel) (loop fuel')

theorem ProceedsFrom.congr {cursor : Cursor} {x : Read β} {R : β → Cursor → Prop} {f g : β → Read γ}
    (first : ProceedsFrom cursor x R)
    (second : ∀ b cursor', cursor.Onward cursor' → R b cursor' → (f b).run cursor' = (g b).run cursor') :
    (x >>= f).run cursor = (x >>= g).run cursor := second _ _ first.1 first.2

theorem eat_shorter (m : Mark) (cursor : Cursor) : ProceedsFrom cursor (Reader.eat m) fun taken cursor' =>
    taken = true → cursor'.tokens.length < cursor.tokens.length := by
  apply ProceedsFrom.atMark
  intro here at_
  cases here with
  | true => exact ⟨.advance cursor, fun _ => Cursor.advance_shorter (Takes.atMark_peek at_)⟩
  | false => exact .pure nofun

namespace Agree

variable {n : Nat}

theorem refl (x : Read β) : Agree n x x := fun _ _ => rfl

theorem bind {x y : Read β} {f g : β → Read γ} (first : Agree n x y) (proceeds : Proceeds x)
    (second : ∀ b, Agree n (f b) (g b)) : Agree n (x >>= f) (y >>= g) := by
  intro cursor few
  have fewer := (proceeds cursor).1.fewer
  cases ran : x.run cursor with
  | mk b cursor' =>
    rw [ran] at fewer
    rw [Reads.run_bind ran, Reads.run_bind ((first cursor few).symm.trans ran)]
    exact second b cursor' (Nat.le_trans fewer few)

theorem braced {x y : Read (Option β)} (agree : Agree n x y) (proceeds : Proceeds x) :
    Agree n (Reader.braced x) (Reader.braced y) := by
  have inside : Agree n (Takes.inside x) (Takes.inside y) :=
    bind (.refl _) (fun cursor => (Proceeds.expect _ cursor).any) fun _ => agree.bind proceeds fun _ => .refl _
  intro cursor few
  by_cases room : maxNesting ≤ cursor.depth
  · rw [Reader.braced, Reader.braced, Reads.run_get_bind, Reads.run_get_bind, if_pos room, if_pos room]
  · rw [Takes.run_braced room, Takes.run_braced room, inside { cursor with depth := cursor.depth + 1 } few]

theorem alternative {x y : Read (Option (Block α))} (agree : Agree n x y) (proceeds : Proceeds x) :
    Agree n (do if ← Reader.eat .otherwise then Reader.braced x else return some .nil)
      (do if ← Reader.eat .otherwise then Reader.braced y else return some .nil) := by
  apply bind (.refl _) (Proceeds.eat _)
  intro otherwise
  cases otherwise with
  | true => exact agree.braced proceeds
  | false => exact .refl _

end Agree

namespace Stops

theorem commaList {element : Read β} (proceeds : Proceeds element) : Stops (Reader.commaList element) := by
  intro n fuel
  induction fuel generalizing n with
  | zero => nofun
  | succ fuel ih =>
    intro fuel' enough enough' cursor few
    cases fuel' with
    | zero => cases enough'
    | succ fuel' =>
      apply (Proceeds.atMark _ cursor).congr
      intro closed cursor₁ onward₁ _
      apply (Proceeds.atEnd cursor₁).congr
      intro ended cursor₂ onward₂ _
      split
      · rfl
      · apply (proceeds cursor₂).congr
        intro first cursor₃ onward₃ _
        apply (eat_shorter .comma cursor₃).congr
        intro more cursor₄ onward₄ shorter
        cases more with
        | false => rfl
        | true =>
          have := shorter rfl
          have := onward₁.fewer
          have := onward₂.fewer
          have := onward₃.fewer
          have agree := ih cursor₄.tokens.length fuel' (by omega) (by omega)
          exact agree.bind (Proceeds.commaList proceeds fuel) (fun _ => .refl _) cursor₄ (Nat.le_refl _)

theorem groupTail (path : Located String) : Stops fun fuel => Reader.groupTail fuel path := by
  intro n fuel
  induction fuel generalizing n path with
  | zero => nofun
  | succ fuel ih =>
    intro fuel' enough enough' cursor few
    cases fuel' with
    | zero => cases enough'
    | succ fuel' =>
      apply (eat_shorter .dot cursor).congr
      intro more cursor₁ onward shorter
      cases more with
      | false => rfl
      | true =>
        apply (Proceeds.expectWord cursor₁).congr
        intro part cursor₂ onward₂ _
        have := shorter rfl
        have := onward₂.fewer
        exact ih _ cursor₂.tokens.length fuel' (by omega) (by omega) cursor₂ (Nat.le_refl _)

section Scalars

variable [Scalar α]

theorem statements : Stops (Reader.statements (α := α)) := by
  intro n fuel
  induction fuel generalizing n with
  | zero => nofun
  | succ fuel ih =>
    intro fuel' enough enough' cursor few
    cases fuel' with
    | zero => cases enough'
    | succ fuel' =>
      apply (Proceeds.atMark _ cursor).congr
      intro closed cursor₁ onward₁ _
      apply (Proceeds.atEnd cursor₁).congr
      intro ended cursor₂ onward₂ _
      split
      · rfl
      · apply (Proceeds.statement cursor₂).congr
        intro s? cursor₃ onward₃ shorter
        have := onward₁.fewer
        have := onward₂.fewer
        have proceeds : Proceeds (Reader.statements (α := α) fuel) := .statements fuel
        split
        · rfl
        · have := shorter rfl
          have agree := ih cursor₃.tokens.length fuel' (by omega) (by omega)
          exact agree.bind proceeds (fun _ => .refl _) cursor₃ (Nat.le_refl _)
        · have := shorter rfl
          have agree := ih cursor₃.tokens.length fuel' (by omega) (by omega)
          refine (agree.braced proceeds).bind (.braced proceeds) (fun onTrue? => ?_) cursor₃ (Nat.le_refl _)
          split
          · exact .refl _
          · refine (agree.alternative proceeds).bind (.alternative proceeds) fun onFalse? => ?_
            split
            · exact .refl _
            · exact agree.bind proceeds fun _ => .refl _

end Scalars

end Stops

namespace Reader

def Cursor.start (text : String) : Cursor := ⟨(Scan.ofText text).tokens, (Scan.ofText text).stop, .point 0, 0, []⟩

theorem Cursor.stop_start (text : String) : (Cursor.start text).stop = text.utf8ByteSize := by
  have stop := (Scan.cut_ofText text).stop_eq
  rwa [Scan.length_octets, Nat.zero_add] at stop

theorem Cursor.sound_start (text : String) : (Cursor.start text).Sound where
  tokens := fun token member => by
    obtain ⟨-, some, within⟩ := (Scan.cut_ofText text).token_within member
    rw [Scan.length_octets, Nat.zero_add, ← stop_start] at within
    exact ⟨Nat.le_of_lt some, within⟩
  last := ⟨Nat.le_refl 0, Nat.zero_le _⟩
  issues := List.forall_mem_nil _

theorem skipToItem_suffix (depth : Nat) (tokens : List (Located Lexeme)) : skipToItem depth tokens <:+ tokens := by
  fun_induction skipToItem depth tokens with
  | case1 | case4 | case6 => exact List.suffix_refl _
  | _ => exact List.IsSuffix.trans ‹_› (List.suffix_cons _ _)

theorem skipToItem_behind {token : Located Lexeme} {rest : List (Located Lexeme)}
    (noField : token.node ≠ .mark .field) (noKernel : token.node ≠ .mark .kernel) :
    skipToItem 0 (token :: rest) <:+ rest := by
  rw [skipToItem]
  split
  · exact skipToItem_suffix _ _
  · exact skipToItem_suffix _ _
  · next field => exact absurd field noField
  · next kernel => exact absurd kernel noKernel
  · exact skipToItem_suffix _ _

def Cursor.search (cursor : Cursor) (before : Nat) : Cursor :=
  if before < cursor.issues.length then { cursor with tokens := skipToItem 0 cursor.tokens } else cursor

theorem Cursor.Onward.search (cursor : Cursor) (before : Nat) : cursor.Onward (cursor.search before) := by
  unfold Cursor.search
  split
  · have suffix := skipToItem_suffix 0 cursor.tokens
    exact ⟨suffix, rfl, rfl, fun sound => ⟨fun t member => sound.tokens t (suffix.subset member), sound.last,
      sound.issues⟩⟩
  · exact .refl _

end Reader

namespace Program

theorem refusals_nil {program : Program α} (none_ : program.refusals = []) {kernel : Located (Kernel α)}
    (member : kernel ∈ program.kernels) : kernel.node.check = .ok () := by
  have accepted := List.filterMap_eq_nil_iff.mp none_ kernel member
  cases check : kernel.node.check with
  | ok => rfl
  | error error =>
    rw [check] at accepted
    cases accepted

theorem span_refusal {program : Program α} {issue : Diagnostic} (member : issue ∈ program.refusals) :
    ∃ kernel ∈ program.kernels, issue.span = kernel.span := by
  obtain ⟨kernel, inProgram, refused⟩ := List.mem_filterMap.mp member
  refine ⟨kernel, inProgram, ?_⟩
  split at refused
  · cases refused
  · cases refused
    rfl

end Program

section Rounds

variable [Scalar α] {state : Program α × Cursor}

namespace Reader

def round (state : Program α × Cursor) : Program α × Cursor :=
  let read := (item state.1).run state.2
  (read.1, read.2.search state.2.issues.length)

-- There are rounds for as long as lexemes are left.
def Rounds : Program α × Cursor → Program α × Cursor → Prop :=
  Relation.ReflTransGen fun state next => state.2.tokens ≠ [] ∧ next = round state

theorem round_onward (state : Program α × Cursor) : state.2.Onward (round state).2 :=
  (Proceeds.item state.1 state.2).1.trans (.search _ _)

theorem round_shorter (remain : state.2.tokens ≠ []) : (round state).2.tokens.length < state.2.tokens.length := by
  obtain ⟨-, -, shorter | ⟨same, reported, noField, noKernel⟩⟩ := Proceeds.item state.1 state.2
  · exact Nat.lt_of_le_of_lt (Cursor.Onward.search _ _).fewer shorter
  · cases tokens : state.2.tokens with
    | nil => exact absurd tokens remain
    | cons token rest =>
      have next : state.2.peek = some token.node := by rw [Cursor.peek, tokens, List.head?_cons, Option.map_some]
      rw [next] at noField noKernel
      have searched : (round state).2 = ((item state.1).run state.2).2.search state.2.issues.length := rfl
      rw [searched, Cursor.search, if_pos reported, same, tokens]
      apply Nat.lt_succ_of_le
      apply List.IsSuffix.length_le
      exact skipToItem_behind (fun same => noField (congrArg some same)) fun same => noKernel (congrArg some same)

theorem round_within {length : Nat} (sound : state.2.Sound) (stop : state.2.stop = length)
    (kernels : ∀ k ∈ state.1.kernels, k.span.Within length) : ∀ k ∈ (round state).1.kernels, k.span.Within length := by
  subst stop
  exact (Proceeds.item state.1 state.2).2.1 sound kernels

theorem rounds_onward {text : String} (rounds : Rounds (.empty, .start text) state) :
    (Cursor.start text).Onward state.2 ∧ ∀ k ∈ state.1.kernels, k.span.Within (Cursor.start text).stop := by
  induction rounds with
  | refl => exact ⟨.refl _, nofun⟩
  | tail _ step ih =>
    obtain ⟨-, rfl⟩ := step
    obtain ⟨onward, kernels⟩ := ih
    exact ⟨onward.trans (round_onward _), round_within (onward.sound (Cursor.sound_start text)) onward.stop kernels⟩

-- The rounds come to an end, where no lexemes are left, and every bound that lets them get there gives
-- what they end with. The recursion is on the lexemes that are left.
theorem items_rounds (state : Program α × Cursor) : ∃ last, Rounds state last ∧ last.2.tokens = [] ∧
    ∀ fuel, state.2.tokens.length < fuel → (items fuel state.1).run state.2 = last := by
  by_cases remain : state.2.tokens = []
  · have ended : Reader.atEnd.run state.2 = (true, state.2) := by
      rw [Reader.atEnd, Reads.run_get_bind, remain]
      rfl
    refine ⟨state, .refl, remain, fun fuel enough => ?_⟩
    cases fuel with
    | zero => cases enough
    | succ fuel =>
      rw [items, Reads.run_bind ended, if_pos rfl]
      rfl
  · have shorter := round_shorter remain
    obtain ⟨last, rounds, ended, ran⟩ := items_rounds (round state)
    refine ⟨last, .head ⟨remain, rfl⟩ rounds, ended, fun fuel enough => ?_⟩
    cases fuel with
    | zero => cases enough
    | succ fuel =>
      rw [run_items remain rfl]
      exact ran fuel (by omega)
termination_by state.2.tokens.length

end Reader

-- What is told of a text: what is spelled wrong in it, or else what the last round has found wrong, or else
-- what the check refuses.
def Reader.told (spelling : List Diagnostic) (last : Program α × Cursor) : Except (List Diagnostic) (Program α) :=
  if spelling ≠ [] then .error spelling
  else if last.2.issues ≠ [] then .error last.2.issues.reverse
  else if last.1.refusals ≠ [] then .error last.1.refusals
  else .ok last.1

namespace Program

theorem read_told {text : String} {last : Program α × Cursor}
    (ran : ∀ fuel, (Scan.ofText text).tokens.length < fuel → (Reader.items fuel .empty).run (.start text) = last) :
    read text = Reader.told (Scan.ofText text).issues last := by
  have told : Reader.program (α := α) (Scan.ofText text).tokens (Scan.ofText text).stop =
      if last.2.issues.isEmpty then .ok last.1 else .error last.2.issues.reverse := by
    have whole := ran _ (Nat.lt_succ_self _)
    dsimp only [Cursor.start] at whole
    rw [Reader.program, whole]
  unfold read Reader.told
  dsimp only
  rw [told]
  by_cases spelled : (Scan.ofText text).issues = []
  · by_cases clean : last.2.issues = []
    · by_cases formed : last.1.refusals = [] <;> simp [spelled, clean, formed]
    · simp [spelled, clean]
  · simp [spelled]

theorem read_outcome (text : String) :
    (∃ program : Program α, read text = .ok program ∧ ∀ kernel ∈ program.kernels, kernel.node.check = .ok ()) ∨
      ∃ issues, (read text : Except _ (Program α)) = .error issues ∧ issues ≠ [] ∧
        ∀ issue ∈ issues, issue.span.Within text.utf8ByteSize := by
  obtain ⟨⟨program, cursor⟩, rounds, -, ran⟩ := Reader.items_rounds ((.empty : Program α), Cursor.start text)
  obtain ⟨onward, kernels⟩ := Reader.rounds_onward rounds
  have sound := onward.sound (Cursor.sound_start text)
  have stop := onward.stop.trans (Cursor.stop_start text)
  rw [Cursor.stop_start] at kernels
  rw [read_told ran, Reader.told]
  split
  · next misspelled =>
    refine .inr ⟨_, rfl, misspelled, fun issue member => ?_⟩
    obtain ⟨-, some, within⟩ := (Scan.cut_ofText text).spans_within issue.span
      (Scan.mem_spans.mpr (.inr ⟨issue, member, rfl⟩))
    rw [Scan.length_octets, Nat.zero_add] at within
    exact ⟨Nat.le_of_lt some, within⟩
  · split
    · next unclear =>
      refine .inr ⟨_, rfl, mt List.reverse_eq_nil_iff.mp unclear, fun issue member => ?_⟩
      rw [← stop]
      exact sound.issues issue (List.mem_reverse.mp member)
    · split
      · next refused =>
        refine .inr ⟨_, rfl, refused, fun issue member => ?_⟩
        obtain ⟨kernel, inProgram, same⟩ := span_refusal member
        exact same ▸ kernels kernel inProgram
      · next formed =>
        exact .inl ⟨program, rfl, fun kernel member => refusals_nil (Decidable.not_not.mp formed) member⟩

-- Reading a text never gets stuck. It has an outcome; every round over the items leaves no brace open and
-- takes lexemes off the list, until none is left, and the outcome is what the last round has found; the loops
-- inside of items stop by themselves; and a level of braces is left where it was entered, so the depth is
-- never taken below nothing.
theorem read_settles (text : String) :
    ((∃ program : Program α, read text = .ok program ∧ ∀ kernel ∈ program.kernels, kernel.node.check = .ok ()) ∨
        ∃ issues, (read text : Except _ (Program α)) = .error issues ∧ issues ≠ [] ∧
          ∀ issue ∈ issues, issue.span.Within text.utf8ByteSize) ∧
      (∀ state : Program α × Cursor, Reader.Rounds (.empty, .start text) state → state.2.depth = 0 ∧
        state.2.tokens <:+ (Scan.ofText text).tokens ∧
        (state.2.tokens ≠ [] → (Reader.round state).2.tokens.length < state.2.tokens.length)) ∧
      (∃ last : Program α × Cursor, Reader.Rounds (.empty, .start text) last ∧ last.2.tokens = [] ∧
        (∀ fuel, (Scan.ofText text).tokens.length < fuel → (Reader.items fuel .empty).run (.start text) = last) ∧
        read text = Reader.told (Scan.ofText text).issues last) ∧
      (Stops (Reader.commaList Reader.expectInteger) ∧ Stops (Reader.commaList Reader.expectValue) ∧
        Stops (Reader.commaList Reader.axis) ∧ (∀ path, Stops fun fuel => Reader.groupTail fuel path) ∧
        Stops (Reader.statements (α := α))) ∧
      ∀ (fuel : Nat) (cursor : Cursor), cursor.depth < maxNesting → ∃ block? last,
        (Takes.inside (Reader.statements (α := α) fuel)).run { cursor with depth := cursor.depth + 1 } =
          (block?, last) ∧
        last.depth = cursor.depth + 1 ∧ last.tokens <:+ cursor.tokens ∧
        (Reader.braced (Reader.statements fuel)).run cursor = (block?, { last with depth := last.depth - 1 }) := by
  refine ⟨read_outcome text, ?_, ?_, ?_, ?_⟩
  · intro state rounds
    obtain ⟨onward, -⟩ := Reader.rounds_onward rounds
    exact ⟨onward.depth, onward.tokens, Reader.round_shorter⟩
  · obtain ⟨last, rounds, ended, ran⟩ := Reader.items_rounds ((.empty : Program α), Cursor.start text)
    exact ⟨last, rounds, ended, ran, read_told ran⟩
  · exact ⟨Stops.commaList .expectInteger, Stops.commaList .expectValue, Stops.commaList .axis, Stops.groupTail,
      Stops.statements⟩
  · intro fuel cursor room
    obtain ⟨onward, -⟩ := Proceeds.inside (.statements (α := α) fuel) { cursor with depth := cursor.depth + 1 }
    refine ⟨_, _, rfl, onward.depth, onward.tokens, ?_⟩
    rw [Takes.run_braced (Nat.not_le_of_lt room)]
    rfl

end Program

end Rounds

theorem Program.read_settles_unopened :
    Reader.Rounds ((.empty : Program Float), .start "\x7d grad\nkernel k") (.empty, .start "\x7d grad\nkernel k") ∧
      (Cursor.start "\x7d grad\nkernel k").tokens ≠ [] ∧
      (Reader.round ((.empty : Program Float), .start "\x7d grad\nkernel k")).2.tokens.length <
        (Cursor.start "\x7d grad\nkernel k").tokens.length ∧
      (Cursor.start "\x7d grad\nkernel k").depth < maxNesting ∧ ∃ block? last,
        (Takes.inside (Reader.statements (α := Float) 5)).run
          { Cursor.start "\x7d grad\nkernel k" with depth := 1 } = (block?, last) ∧ last.depth = 1 := by
  have some : (Cursor.start "\x7d grad\nkernel k").tokens ≠ [] := by decide +kernel
  have room : (Cursor.start "\x7d grad\nkernel k").depth < maxNesting := by decide
  obtain ⟨-, rounds, -, -, braces⟩ := read_settles (α := Float) "\x7d grad\nkernel k"
  obtain ⟨block?, last, ran, depth, -, -⟩ := braces 5 _ room
  exact ⟨.refl, some, (rounds _ .refl).2.2 some, room, block?, last, ran, depth⟩

end FieldKernel
