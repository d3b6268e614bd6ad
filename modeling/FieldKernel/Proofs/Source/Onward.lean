import FieldKernel.Proofs.Source.Acceptance

-- Every reader goes on in its tokens, keeps the depth of braces, and reports problems inside of the text.
namespace FieldKernel

variable {α β γ : Type}

def Span.Within (span : Span) (length : Nat) : Prop := span.start ≤ span.stop ∧ span.stop ≤ length

theorem Span.within_point (offset : Nat) : (Span.point offset).Within offset := ⟨Nat.le_refl _, Nat.le_refl _⟩

theorem Span.Within.merge {a b : Span} {length : Nat} (first : a.Within length) (second : b.Within length) :
    (a.merge b).Within length :=
  ⟨Nat.le_trans (Nat.min_le_left _ _) (Nat.le_trans first.1 (Nat.le_max_left _ _)),
    Nat.max_le.mpr ⟨first.2, second.2⟩⟩

open Reader

namespace Reader.Cursor

structure Sound (cursor : Cursor) : Prop where
  tokens : ∀ token ∈ cursor.tokens, token.span.Within cursor.stop
  last : cursor.last.Within cursor.stop
  issues : ∀ issue ∈ cursor.issues, issue.span.Within cursor.stop

structure Onward (cursor cursor' : Cursor) : Prop where
  tokens : cursor'.tokens <:+ cursor.tokens
  depth : cursor'.depth = cursor.depth
  stop : cursor'.stop = cursor.stop
  sound : cursor.Sound → cursor'.Sound

namespace Onward

variable {a b c : Cursor}

theorem refl (a : Cursor) : Onward a a := ⟨List.suffix_refl _, rfl, rfl, id⟩

theorem trans (first : Onward a b) (second : Onward b c) : Onward a c where
  tokens := second.tokens.trans first.tokens
  depth := second.depth.trans first.depth
  stop := second.stop.trans first.stop
  sound := fun sound => second.sound (first.sound sound)

theorem fewer (onward : Onward a b) : b.tokens.length ≤ a.tokens.length := onward.tokens.length_le

theorem advance (cursor : Cursor) : Onward cursor cursor.advance := by
  obtain ⟨tokens, stop, last, depth, issues⟩ := cursor
  cases tokens with
  | nil => exact refl _
  | cons token tokens =>
    refine ⟨List.suffix_cons _ _, rfl, rfl, fun sound => ⟨?_, ?_, sound.issues⟩⟩
    · exact fun later member => sound.tokens later (List.mem_cons_of_mem _ member)
    · exact sound.tokens token List.mem_cons_self

theorem report {cursor : Cursor} {span : Span} (issue : Issue)
    (within : cursor.Sound → span.Within cursor.stop) : Onward cursor (cursor.report issue span) :=
  ⟨List.suffix_refl _, rfl, rfl, fun sound => ⟨sound.tokens, sound.last,
    List.forall_mem_cons.mpr ⟨within sound, sound.issues⟩⟩⟩

end Onward

theorem Sound.here {cursor : Cursor} (sound : cursor.Sound) : cursor.here.Within cursor.stop := by
  unfold Cursor.here
  split
  · next same => exact sound.tokens _ (same ▸ List.mem_cons_self)
  · exact Span.within_point _

theorem advance_shorter {cursor : Cursor} {l : Lexeme} (next : cursor.peek = some l) :
    cursor.advance.tokens.length < cursor.tokens.length := by
  obtain ⟨tokens, stop, last, depth, issues⟩ := cursor
  cases tokens with
  | nil => cases next
  | cons token tokens => exact Nat.lt_succ_self _

theorem last_advance {cursor : Cursor} {l : Lexeme} (next : cursor.peek = some l) :
    cursor.advance.last = cursor.here := by
  obtain ⟨tokens, stop, last, depth, issues⟩ := cursor
  cases tokens with
  | nil => cases next
  | cons token tokens => rfl

end Reader.Cursor

-- From a cursor a reader goes onward, and what it gives and where it ends are related in some way.
def ProceedsFrom (cursor : Cursor) (x : Read β) (R : β → Cursor → Prop) : Prop :=
  cursor.Onward (x.run cursor).2 ∧ R (x.run cursor).1 (x.run cursor).2

def Proceeds (x : Read β) : Prop := ∀ cursor, ProceedsFrom cursor x fun _ _ => True

section

variable {x : Read β} {f : β → Read γ} {cursor : Cursor} {R R' : β → Cursor → Prop} {Q : γ → Cursor → Prop}

namespace ProceedsFrom

theorem pure {b : β} (holds : R b cursor) : ProceedsFrom cursor (Pure.pure b) R := ⟨.refl _, holds⟩

theorem bind (first : ProceedsFrom cursor x R)
    (second : ∀ b cursor', cursor.Onward cursor' → R b cursor' → ProceedsFrom cursor' (f b) Q) :
    ProceedsFrom cursor (x >>= f) Q := by
  obtain ⟨onward, holds⟩ := second _ _ first.1 first.2
  exact ⟨first.1.trans onward, holds⟩

theorem mono (proceeds : ProceedsFrom cursor x R) (more : ∀ b cursor', R b cursor' → R' b cursor') :
    ProceedsFrom cursor x R' := ⟨proceeds.1, more _ _ proceeds.2⟩

theorem fewer (proceeds : ProceedsFrom cursor x R) :
    ProceedsFrom cursor x fun b cursor' => cursor'.tokens.length ≤ cursor.tokens.length ∧ R b cursor' :=
  ⟨proceeds.1, proceeds.1.fewer, proceeds.2⟩

theorem any (proceeds : ProceedsFrom cursor x R) : ProceedsFrom cursor x fun _ _ => True :=
  proceeds.mono fun _ _ _ => trivial

end ProceedsFrom

theorem ProceedsFrom.peek {g : Option Lexeme → Read γ}
    (proceeds : ∀ next?, cursor.peek = next? → ProceedsFrom cursor (g next?) Q) :
    ProceedsFrom cursor (Reader.peek >>= g) Q := proceeds cursor.peek rfl

theorem ProceedsFrom.atMark {m : Mark} {g : Bool → Read γ}
    (proceeds : ∀ here, cursor.atMark m = here → ProceedsFrom cursor (g here) Q) :
    ProceedsFrom cursor (Reader.atMark m >>= g) Q := proceeds (cursor.atMark m) rfl

theorem ProceedsFrom.here {g : Span → Read γ} (proceeds : ProceedsFrom cursor (g cursor.here) Q) :
    ProceedsFrom cursor (Reader.here >>= g) Q := proceeds

namespace Proceeds

theorem pure (b : β) : Proceeds (Pure.pure b : Read β) := fun _ => .pure trivial

theorem bind (first : Proceeds x) (second : ∀ b, Proceeds (f b)) : Proceeds (x >>= f) := fun cursor =>
  (first cursor).bind fun b cursor' _ _ => second b cursor'

theorem map {g : β → γ} (proceeds : Proceeds x) : Proceeds (g <$> x) := proceeds.bind fun b => pure (g b)

theorem get {g : Cursor → Read γ} (proceeds : ∀ cursor, Proceeds (g cursor)) :
    Proceeds (MonadState.get >>= g) := fun cursor => proceeds cursor cursor

theorem atMark (m : Mark) : Proceeds (Reader.atMark m) := fun cursor => ⟨.refl cursor, trivial⟩

theorem atEnd : Proceeds Reader.atEnd := fun cursor => ⟨.refl cursor, trivial⟩

theorem peek : Proceeds Reader.peek := fun cursor => ⟨.refl cursor, trivial⟩

theorem advance : Proceeds Reader.advance := fun cursor => ⟨.advance cursor, trivial⟩

theorem take {f : Unit → Read γ} {l : Lexeme} (next : cursor.peek = some l) (rest : Proceeds (f ())) :
    ProceedsFrom cursor (Reader.advance >>= f) fun _ cursor' => cursor'.tokens.length < cursor.tokens.length := by
  obtain ⟨onward, -⟩ := rest cursor.advance
  exact ⟨(Cursor.Onward.advance cursor).trans onward,
    Nat.lt_of_le_of_lt onward.fewer (Cursor.advance_shorter next)⟩

theorem reportHere (issue : Issue) : Proceeds (Reader.reportHere issue) :=
  fun _ => ⟨.report issue Cursor.Sound.here, trivial⟩

theorem reportMissing (wanted : Wanted) : Proceeds (Reader.reportMissing wanted) :=
  peek.bind fun _ => reportHere _

theorem eat (m : Mark) : Proceeds (Reader.eat m) := by
  apply (atMark m).bind
  intro here
  cases here with
  | true => exact advance.bind fun _ => pure true
  | false => exact pure false

theorem expect (m : Mark) (cursor : Cursor) :
    ProceedsFrom cursor (Reader.expect m) fun span cursor' => (cursor'.Sound → span.Within cursor'.stop) ∧
      (cursor.peek = some (.mark m) → cursor'.tokens.length < cursor.tokens.length) := by
  apply ProceedsFrom.here
  apply ProceedsFrom.atMark
  intro here at_
  cases here with
  | true =>
    have next := Takes.atMark_peek at_
    have within : cursor.advance.Sound → cursor.here.Within cursor.advance.stop := fun sound =>
      Cursor.last_advance next ▸ sound.last
    exact ⟨.advance cursor, within, fun _ => Cursor.advance_shorter next⟩
  | false =>
    have other : cursor.peek ≠ some (.mark m) := of_decide_eq_false at_
    exact ⟨.report _ Cursor.Sound.here, fun sound => sound.issues _ List.mem_cons_self, fun next => absurd next other⟩

theorem expectWord (cursor : Cursor) :
    ProceedsFrom cursor Reader.expectWord fun word cursor' => cursor'.Sound → word.span.Within cursor'.stop := by
  apply ProceedsFrom.here
  apply ProceedsFrom.peek
  intro next? next
  split
  · exact ⟨.advance cursor, fun sound => Cursor.last_advance next ▸ sound.last⟩
  · exact ⟨.report _ Cursor.Sound.here, fun sound => sound.issues _ List.mem_cons_self⟩

theorem expectInteger : Proceeds Reader.expectInteger := by
  apply peek.bind
  intro next?
  split
  · exact advance.bind fun _ => pure _
  · exact (reportMissing _).bind fun _ => pure 0

theorem expectValue : Proceeds Reader.expectValue := by
  apply peek.bind
  intro next?
  split
  · exact advance.bind fun _ => pure _
  · exact (reportMissing _).bind fun _ => pure _

theorem skip {m : Mark} {f : Span → Read γ} (proceeds : ∀ span, Proceeds (f span)) :
    Proceeds (Reader.expect m >>= f) := bind (fun cursor => (expect m cursor).any) proceeds

theorem word {f : Located String → Read γ} (proceeds : ∀ name, Proceeds (f name)) :
    Proceeds (Reader.expectWord >>= f) := bind (fun cursor => (expectWord cursor).any) proceeds

theorem commaList {element : Read β} (proceeds : Proceeds element) (fuel : Nat) :
    Proceeds (Reader.commaList element fuel) := by
  induction fuel with
  | zero => exact pure []
  | succ fuel ih =>
    refine (atMark _).bind fun closed => atEnd.bind fun ended => ?_
    split
    · exact pure []
    · refine proceeds.bind fun first => (eat _).bind fun more => ?_
      cases more with
      | true => exact ih.bind fun _ => pure _
      | false => exact pure _

theorem bracketed {element : Read β} (proceeds : Proceeds element) : Proceeds (Reader.bracketed element) :=
  skip fun _ => get fun _ => (commaList proceeds _).bind fun _ => skip fun _ => pure _

theorem groupTail (fuel : Nat) (path : Located String) : Proceeds (Reader.groupTail fuel path) := by
  induction fuel generalizing path with
  | zero => exact pure path
  | succ fuel ih =>
    refine (eat _).bind fun more => ?_
    cases more with
    | true => exact word fun _ => ih _
    | false => exact pure path

theorem group : Proceeds Reader.group := word fun first => get fun _ => groupTail _ first

theorem place : Proceeds Reader.place := word fun _ => (bracketed expectValue).bind fun _ => pure _

theorem valuePair : Proceeds Reader.valuePair :=
  expectValue.bind fun _ => skip fun _ => expectValue.bind fun _ => pure _

theorem signed : Proceeds Reader.signed := (eat _).bind fun _ => expectInteger.bind fun _ => pure _

theorem axis : Proceeds Reader.axis := signed.bind fun _ => skip fun _ => signed.bind fun _ => pure _

theorem inside {content : Read (Option β)} (proceeds : Proceeds content) : Proceeds (Takes.inside content) := by
  refine skip fun _ => proceeds.bind fun block? => ?_
  cases block? with
  | none => exact pure none
  | some => exact skip fun _ => pure _

theorem braced {content : Read (Option β)} (proceeds : Proceeds content) : Proceeds (Reader.braced content) := by
  intro cursor
  by_cases room : maxNesting ≤ cursor.depth
  · have reports : Proceeds (do Reader.reportHere .nestingTooDeep; return (none : Option β)) :=
      (reportHere _).bind fun _ => pure none
    rw [ProceedsFrom, Reader.braced, Reads.run_get_bind, if_pos room]
    exact reports cursor
  · obtain ⟨tokens, depth, stop, sound⟩ := (inside proceeds { cursor with depth := cursor.depth + 1 }).1
    rw [ProceedsFrom, Takes.run_braced room]
    refine ⟨⟨tokens, Nat.sub_eq_of_eq_add depth, stop, fun fine => ?_⟩, trivial⟩
    obtain ⟨inTokens, inLast, inIssues⟩ := sound ⟨fine.tokens, fine.last, fine.issues⟩
    exact ⟨inTokens, inLast, inIssues⟩

section Scalars

variable [Scalar α]

theorem constant : Proceeds (Reader.constant (α := α)) := by
  refine (eat _).bind fun negative => peek.bind fun next? => ?_
  split
  · exact advance.bind fun _ => pure _
  · exact (reportMissing _).bind fun _ => pure _

theorem expression : Proceeds (Reader.expression (α := α)) := by
  intro cursor
  apply (expectWord cursor).bind
  intro operation cursor' onward within
  split
  · exact (constant.bind fun _ => pure _) cursor'
  · exact (expectInteger.bind fun _ => pure _) cursor'
  · exact (expectInteger.bind fun _ => pure _) cursor'
  · exact (place.bind fun _ => pure _) cursor'
  · split
    · exact (expectValue.bind fun _ => pure _) cursor'
    · exact (valuePair.bind fun _ => pure _) cursor'
    · exact (valuePair.bind fun _ => pure _) cursor'
    · exact ⟨.report _ within, trivial⟩

omit [Scalar α] in
theorem adjoint : Proceeds (Reader.adjoint (α := α)) := by
  refine expectValue.bind fun target => (eat _).bind fun negated => ?_
  cases negated with
  | true => exact skip fun _ => expectValue.bind fun _ => pure _
  | false =>
    refine skip fun _ => (eat _).bind fun reads => ?_
    cases reads with
    | true => exact place.bind fun _ => pure _
    | false =>
      refine skip fun _ => expectValue.bind fun _ => (eat _).bind fun scaled => ?_
      cases scaled with
      | true => exact expectValue.bind fun _ => pure _
      | false => exact pure _

theorem statement (cursor : Cursor) : ProceedsFrom cursor (Reader.statement (α := α)) fun s? cursor' =>
    s?.isSome = true → cursor'.tokens.length < cursor.tokens.length := by
  apply ProceedsFrom.peek
  intro next? next
  split
  · exact (take next (skip fun _ => expression.bind fun _ => pure _)).mono fun _ _ shorter _ => shorter
  · refine (take next ?_).mono fun _ _ shorter _ => shorter
    exact place.bind fun _ => skip fun _ => expectValue.bind fun _ => pure _
  · exact (take next (expectValue.bind fun _ => pure _)).mono fun _ _ shorter _ => shorter
  · exact (take next (adjoint.bind fun _ => pure _)).mono fun _ _ shorter _ => shorter
  · refine (take next ?_).mono fun _ _ shorter _ => shorter
    exact place.bind fun _ => skip fun _ => skip fun _ => expectValue.bind fun _ => pure _
  · exact (reportHere _ cursor).bind fun _ _ _ _ => .pure nofun

omit [Scalar α] in
theorem alternative {content : Read (Option (Block α))} (proceeds : Proceeds content) :
    Proceeds (do if ← Reader.eat .otherwise then Reader.braced content else return some .nil) := by
  apply (eat _).bind
  intro otherwise
  cases otherwise with
  | true => exact braced proceeds
  | false => exact pure _

theorem statements (fuel : Nat) : Proceeds (Reader.statements (α := α) fuel) := by
  induction fuel with
  | zero => exact pure none
  | succ fuel ih =>
    refine (atMark _).bind fun closed => atEnd.bind fun ended => ?_
    split
    · exact pure _
    · refine bind (fun cursor => (statement cursor).any) fun s? => ?_
      split
      · exact pure none
      · exact ih.bind fun _ => pure _
      · refine (braced ih).bind fun onTrue? => ?_
        split
        · exact pure none
        · refine (alternative ih).bind fun onFalse? => ?_
          split
          · exact pure none
          · exact ih.bind fun _ => pure _

theorem block : Proceeds (Reader.block (α := α)) := get fun _ => braced (statements _)

end Scalars

theorem field (cursor : Cursor) : ProceedsFrom cursor Reader.field fun _ cursor' =>
    cursor.peek = some (.mark .field) → cursor'.tokens.length < cursor.tokens.length := by
  apply (expect .field cursor).bind
  intro start cursor' onward taken
  suffices rest : Proceeds _ from
    (rest cursor').fewer.mono fun _ _ fewer next => Nat.lt_of_le_of_lt fewer.1 (taken.2 next)
  refine word fun name => skip fun _ => ?_
  have rest : ∀ element, Proceeds (do
      let read ← Reader.bracketed Reader.expectInteger
      let group? ← if ← Reader.eat .within then some <$> Reader.group else Pure.pure none
      return (⟨name.node, element, read.1, group?.map (·.node), start.merge read.2⟩ : FieldDecl)) := by
    refine fun element => (bracketed expectInteger).bind fun read => (eat _).bind fun within => ?_
    cases within with
    | true => exact group.map.bind fun _ => pure _
    | false => exact (pure none).bind fun _ => pure _
  intro cursor₁
  apply (expectWord cursor₁).bind
  intro elementName cursor₂ onward₂ within
  split
  · exact ((pure _).bind fun element => rest element) cursor₂
  · have reported : ProceedsFrom cursor₂ (Reader.reportAt (.unknownElementType elementName.node) elementName.span)
        fun _ _ => True := ⟨.report _ within, trivial⟩
    exact reported.bind fun _ cursor₃ _ _ => rest _ cursor₃

end Proceeds

def Gives (x : Read β) (P : Nat → β → Prop) : Prop :=
  ∀ cursor, ProceedsFrom cursor x fun b _ => cursor.Sound → P cursor.stop b

theorem Gives.bind {P : Nat → γ → Prop} (first : Proceeds x) (second : ∀ b, Gives (f b) P) :
    Gives (x >>= f) P := by
  intro cursor
  apply (first cursor).bind
  intro b cursor' onward _
  refine (second b cursor').mono fun c _ holds sound => ?_
  rw [← onward.stop]
  exact holds (onward.sound sound)

theorem Proceeds.kernel [Scalar α] (cursor : Cursor) :
    ProceedsFrom cursor (Reader.kernel (α := α)) fun k? cursor' =>
      (cursor.Sound → ∀ k ∈ k?, k.span.Within cursor.stop) ∧
        (cursor.peek = some (.mark .kernel) → cursor'.tokens.length < cursor.tokens.length) := by
  apply (expect .kernel cursor).bind
  intro start cursor₁ onward taken
  obtain ⟨within, shorter⟩ := taken
  have body : ∀ name axes argCount, Gives (do
      let body ← Reader.block
      let stop := (← MonadState.get).last
      return body.map fun body =>
        (⟨Kernel.ofBody name ⟨axes⟩ argCount body, start.merge stop⟩ : Located (Kernel α)))
      fun stop k? => start.Within stop → ∀ k ∈ k?, k.span.Within stop := by
    intro name axes argCount
    refine Gives.bind block fun block? cursor => ?_
    refine ⟨.refl cursor, fun sound starts k given => ?_⟩
    obtain ⟨body, -, rfl⟩ := Option.map_eq_some_iff.mp given
    exact starts.merge sound.last
  suffices rest : Gives _ fun stop k? => start.Within stop → ∀ k ∈ k?, Span.Within (Located.span k) stop from by
    refine (rest cursor₁).fewer.mono fun k? _ holds => ⟨fun sound => ?_, fun next => ?_⟩
    · rw [← onward.stop]
      exact holds.2 (onward.sound sound) (within (onward.sound sound))
    · exact Nat.lt_of_le_of_lt holds.1 (shorter next)
  refine Gives.bind (fun cursor => (expectWord cursor).any) fun name => ?_
  refine Gives.bind (fun cursor => (expect _ cursor).any) fun _ => ?_
  refine Gives.bind (bracketed axis) fun read => Gives.bind (eat .args) fun counted => ?_
  cases counted with
  | true => exact Gives.bind expectInteger.map (body name.node read.1)
  | false => exact Gives.bind (pure 0) (body name.node read.1)

namespace Proceeds

theorem item [Scalar α] (program : Program α) (cursor : Cursor) :
    ProceedsFrom cursor (Reader.item program) fun program' cursor' =>
      (cursor.Sound → (∀ k ∈ program.kernels, k.span.Within cursor.stop) →
        ∀ k ∈ program'.kernels, k.span.Within cursor.stop) ∧
      (cursor'.tokens.length < cursor.tokens.length ∨ cursor'.tokens = cursor.tokens ∧
        cursor.issues.length < cursor'.issues.length ∧ cursor.peek ≠ some (.mark .field) ∧
          cursor.peek ≠ some (.mark .kernel)) := by
  apply ProceedsFrom.peek
  intro next? next
  split
  · exact (field cursor).bind fun decl cursor' _ shorter => .pure ⟨fun _ kernels => kernels, .inl (shorter next)⟩
  · have first : ProceedsFrom cursor Reader.advance fun _ cursor' =>
        cursor'.tokens.length < cursor.tokens.length := ⟨.advance cursor, Cursor.advance_shorter next⟩
    apply first.bind
    intro _ cursor' _ shorter
    exact (group cursor').fewer.bind fun path _ _ fewer =>
      .pure ⟨fun _ kernels => kernels, .inl (Nat.lt_of_le_of_lt fewer.1 shorter)⟩
  · apply (kernel cursor).bind
    intro k? cursor' _ read
    refine .pure ⟨fun sound kernels => ?_, .inl (read.2 next)⟩
    exact List.forall_mem_append.mpr ⟨kernels, fun k member => read.1 sound k (Option.mem_toList.mp member)⟩
  · next noField _ noKernel =>
    refine ⟨.report _ Cursor.Sound.here, fun _ kernels => kernels, .inr ⟨rfl, Nat.lt_succ_self _, ?_, ?_⟩⟩
    · exact fun same => noField (next.symm.trans same)
    · exact fun same => noKernel (next.symm.trans same)

end Proceeds

end

end FieldKernel
