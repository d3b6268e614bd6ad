import FieldKernel.Proofs.Source.Grammar
import FieldKernel.Proofs.Source.Reading

-- What readers accept. They go on past what is wrong, so nothing was wrong on the way of one that accepts.
namespace FieldKernel

variable {α β γ : Type}

open Reader Grammar

-- If nothing is wrong where a reader ends, the phrase it took and its result are related in some way,
-- which may depend on the depth of braces.
def TakesFrom (cursor : Cursor) (x : Read β) (P : Nat → List Lexeme → β → Prop) : Prop :=
  ∀ b cursor', x.run cursor = (b, cursor') → cursor'.issues = [] →
    cursor.issues = [] ∧ cursor'.depth = cursor.depth ∧ ∃ phrase,
      cursor.tokens.map (·.node) = phrase ++ cursor'.tokens.map (·.node) ∧ P cursor.depth phrase b

def Takes (x : Read β) (P : Nat → List Lexeme → β → Prop) : Prop := ∀ cursor, TakesFrom cursor x P

section

variable {x : Read β} {f : β → Read γ} {P P' : Nat → List Lexeme → β → Prop}
  {Q : Nat → List Lexeme → γ → Prop}

theorem Takes.pure {b : β} (holds : ∀ depth, P depth [] b) : Takes (pure b) P := by
  intro cursor c cursor' ran clean
  cases ran
  exact ⟨clean, rfl, [], rfl, holds _⟩

theorem TakesFrom.bind {cursor : Cursor} (first : TakesFrom cursor x P)
    (second : ∀ b, Takes (f b) fun depth later c => ∀ phrase, P depth phrase b → Q depth (phrase ++ later) c) :
    TakesFrom cursor (x >>= f) Q := by
  intro c cursor₂ ran clean
  obtain ⟨clean₁, depth₂, later, chars₂, related⟩ := second _ (x.run cursor).2 c cursor₂ ran clean
  obtain ⟨clean₀, depth₁, phrase, chars₁, holds⟩ := first (x.run cursor).1 (x.run cursor).2 rfl clean₁
  refine ⟨clean₀, depth₂.trans depth₁, phrase ++ later, ?_, ?_⟩
  · rw [chars₁, chars₂, List.append_assoc]
  · rw [depth₁] at related
    exact related phrase holds

theorem TakesFrom.mono {cursor : Cursor} (takes : TakesFrom cursor x P)
    (more : ∀ depth phrase b, P depth phrase b → P' depth phrase b) : TakesFrom cursor x P' := by
  intro b cursor' ran clean
  obtain ⟨clean₀, depth, phrase, chars, holds⟩ := takes b cursor' ran clean
  exact ⟨clean₀, depth, phrase, chars, more _ _ _ holds⟩

namespace Takes

theorem bind (first : Takes x P)
    (second : ∀ b, Takes (f b) fun depth later c => ∀ phrase, P depth phrase b → Q depth (phrase ++ later) c) :
    Takes (x >>= f) Q := fun cursor => (first cursor).bind second

theorem mono (takes : Takes x P) (more : ∀ depth phrase b, P depth phrase b → P' depth phrase b) :
    Takes x P' := fun cursor => (takes cursor).mono more

theorem map {g : β → γ} (takes : Takes x P) (more : ∀ depth phrase b, P depth phrase b → Q depth phrase (g b)) :
    Takes (g <$> x) Q := by
  have mapped : Takes (x >>= fun b => Pure.pure (g b)) Q := takes.bind fun b => .pure fun depth phrase holds => by
    rw [List.append_nil]
    exact more depth phrase b holds
  exact mapped

theorem get {g : Cursor → Read γ} (takes : ∀ cursor, TakesFrom cursor (g cursor) Q) :
    Takes (MonadState.get >>= g) Q := fun cursor => takes cursor

theorem here {g : Span → Read γ} (takes : ∀ span, Takes (g span) Q) : Takes (Reader.here >>= g) Q :=
  fun cursor => takes cursor.here cursor

theorem atMark {m : Mark} {g : Bool → Read γ}
    (takes : ∀ here cursor, cursor.atMark m = here → TakesFrom cursor (g here) Q) :
    Takes (Reader.atMark m >>= g) Q := fun cursor => takes (cursor.atMark m) cursor rfl

theorem atEnd {g : Bool → Read γ} (takes : ∀ b, Takes (g b) Q) : Takes (Reader.atEnd >>= g) Q :=
  fun cursor => takes cursor.tokens.isEmpty cursor

theorem peek {g : Option Lexeme → Read γ}
    (takes : ∀ next? cursor, cursor.peek = next? → TakesFrom cursor (g next?) Q) :
    Takes (Reader.peek >>= g) Q := fun cursor => takes cursor.peek cursor rfl

theorem reportAt (issue : Issue) (span : Span) : Takes (Reader.reportAt issue span) fun _ _ _ => False := by
  intro cursor b cursor' ran clean
  cases ran
  cases clean

theorem reportHere (issue : Issue) : Takes (Reader.reportHere issue) fun _ _ _ => False :=
  here fun span => reportAt issue span

theorem reportMissing (wanted : Wanted) : Takes (Reader.reportMissing wanted) fun _ _ _ => False :=
  peek fun found cursor _ => reportHere (.expected wanted found) cursor

theorem refused {c : γ} (reports : Takes x fun _ _ _ => False) : Takes (x >>= fun _ => Pure.pure c) Q :=
  reports.bind fun _ => .pure fun _ _ impossible => impossible.elim

theorem advance {cursor : Cursor} {l : Lexeme} (next : cursor.peek = some l) :
    TakesFrom cursor Reader.advance fun _ phrase _ => phrase = [l] := by
  obtain ⟨tokens, stop, last, depth, issues⟩ := cursor
  cases tokens with
  | nil => cases next
  | cons token tokens =>
    intro b cursor' ran clean
    cases ran
    cases next
    exact ⟨clean, rfl, _, rfl, rfl⟩

theorem atMark_peek {cursor : Cursor} {m : Mark} (at_ : cursor.atMark m = true) :
    cursor.peek = some (.mark m) := of_decide_eq_true at_

theorem eat (m : Mark) : Takes (Reader.eat m) fun _ phrase b => phrase = if b then [.mark m] else [] := by
  refine atMark fun here cursor at_ => ?_
  cases here with
  | true =>
    refine (advance (atMark_peek at_)).bind fun _ => .pure ?_
    rintro _ _ rfl
    rfl
  | false => exact Takes.pure (b := false) (fun _ => rfl) cursor

theorem expect (m : Mark) : Takes (Reader.expect m) fun _ phrase _ => phrase = [.mark m] := by
  refine here fun span => atMark fun here cursor at_ => ?_
  cases here with
  | true =>
    refine (advance (atMark_peek at_)).bind fun _ => .pure ?_
    rintro _ _ rfl
    rfl
  | false => exact (refused (reportMissing _)) cursor

theorem expectWord : Takes Reader.expectWord fun _ phrase word => phrase = [.word word.node] := by
  refine here fun span => peek fun next? cursor next => ?_
  split
  · refine (advance next).bind fun _ => .pure ?_
    rintro _ _ rfl
    rfl
  · exact (refused (reportMissing _)) cursor

theorem expectInteger : Takes Reader.expectInteger fun _ => IsInteger := by
  refine peek fun next? cursor next => ?_
  split
  · next n =>
    refine (advance next).bind fun _ => .pure ?_
    rintro _ _ rfl
    exact .integer n
  · exact (refused (reportMissing _)) cursor

theorem expectValue : Takes Reader.expectValue fun _ => IsValue := by
  refine peek fun next? cursor next => ?_
  split
  · next n =>
    refine (advance next).bind fun _ => .pure ?_
    rintro _ _ rfl
    exact .value ⟨n⟩
  · exact (refused (reportMissing _)) cursor

-- The induction is on the fuel, of which every further element takes one with its comma.
theorem commaList {element : Read β} {IsElement : List Lexeme → β → Prop}
    (takes : Takes element fun _ => IsElement) (fuel : Nat) :
    Takes (Reader.commaList element fuel) fun _ phrase bs => phrase.length < fuel → IsListed IsElement phrase bs := by
  induction fuel with
  | zero => exact .pure fun _ enough => absurd enough (Nat.not_lt_zero _)
  | succ fuel ih =>
    refine atMark fun closed cursor _ => atEnd (fun ended => ?_) cursor
    split
    · exact .pure fun _ _ => .none
    · refine takes.bind fun first => (eat .comma).bind fun more => ?_
      cases more with
      | true =>
        refine ih.bind fun others => .pure ?_
        rintro _ later listed _ rfl phrase isElement enough
        simp only [if_true, List.append_nil, List.cons_append, List.nil_append, List.length_append,
          List.length_cons] at enough ⊢
        exact .more isElement (listed (by omega))
      | false =>
        refine .pure ?_
        rintro _ _ rfl phrase isElement _
        simp only [Bool.false_eq_true, if_false, List.append_nil]
        exact .last isElement

theorem enough {cursor : Cursor} (takes : Takes x fun depth phrase b =>
    phrase.length < cursor.tokens.length + 1 → P depth phrase b) : TakesFrom cursor x P := by
  intro b cursor' ran clean
  obtain ⟨clean₀, depth, phrase, chars, holds⟩ := takes cursor b cursor' ran clean
  refine ⟨clean₀, depth, phrase, chars, holds ?_⟩
  have := congrArg List.length chars
  simp only [List.length_map, List.length_append] at this
  omega

theorem bracketed {element : Read β} {IsElement : List Lexeme → β → Prop}
    (takes : Takes element fun _ => IsElement) :
    Takes (Reader.bracketed element) fun _ phrase read => IsBracketed IsElement phrase read.1 := by
  refine (expect _).bind fun _ => get fun cursor => ?_
  refine TakesFrom.bind (enough (commaList takes _)) fun elements => ?_
  refine (expect _).bind fun _ => .pure ?_
  rintro _ _ rfl phrase listed _ rfl
  rw [List.append_nil]
  exact .list listed

theorem groupTail (fuel : Nat) (path : Located String) :
    Takes (Reader.groupTail fuel path) fun _ phrase whole => phrase.length < fuel → ∃ parts : List String,
      phrase = (parts.flatMap fun part => [.mark .dot, .word part]) ∧
        whole.node = ".".intercalate (path.node :: parts) := by
  induction fuel generalizing path with
  | zero => exact .pure fun _ enough => absurd enough (Nat.not_lt_zero _)
  | succ fuel ih =>
    refine (eat .dot).bind fun more => ?_
    cases more with
    | true =>
      refine expectWord.bind fun part => (ih _).mono ?_
      rintro _ later whole tail _ rfl _ rfl enough
      simp only [if_true, List.cons_append, List.nil_append, List.length_cons] at enough ⊢
      obtain ⟨parts, rfl, same⟩ := tail (by omega)
      exact ⟨part.node :: parts, rfl, same⟩
    | false =>
      refine .pure ?_
      rintro _ _ rfl _
      exact ⟨[], rfl, rfl⟩

theorem group : Takes Reader.group fun _ phrase path => IsGroup phrase path.node := by
  refine expectWord.bind fun first => get fun cursor => TakesFrom.mono (enough (groupTail _ first)) ?_
  rintro _ _ path ⟨parts, rfl, same⟩ _ rfl
  rw [same]
  exact .path first.node parts

theorem place : Takes Reader.place fun _ => IsPlace := by
  refine expectWord.bind fun field => (bracketed expectValue).bind fun read => .pure ?_
  rintro _ phrase indices _ rfl
  rw [List.append_nil]
  exact .access field.node indices

theorem valuePair : Takes Reader.valuePair fun _ phrase pair =>
    phrase = [.value pair.1.index, .mark .comma, .value pair.2.index] := by
  refine expectValue.bind fun lhs => (expect _).bind fun _ => expectValue.bind fun rhs => .pure ?_
  rintro _ _ ⟨⟩ _ rfl _ ⟨⟩
  rfl

theorem signed : Takes Reader.signed fun _ => IsSigned := by
  refine (eat .minus).bind fun negative => expectInteger.bind fun n => .pure ?_
  rintro _ _ ⟨⟩ _ rfl
  cases negative with
  | true =>
    rw [if_pos rfl, if_pos rfl, Reader.signedWord_neg]
    exact .negative n
  | false =>
    rw [if_neg Bool.false_ne_true, if_neg Bool.false_ne_true]
    exact .plain n

theorem axis : Takes Reader.axis fun _ => IsAxis := by
  refine signed.bind fun lo => (expect _).bind fun _ => signed.bind fun hi => .pure ?_
  rintro _ high upper _ rfl low lower
  rw [List.append_nil]
  exact .range lower upper

def inside (content : Read (Option β)) : Read (Option β) := do
  let _ ← Reader.expect .leftBrace
  let block ← content
  if block.isSome then
    let _ ← Reader.expect .rightBrace
  return block

theorem run_braced {content : Read (Option β)} {cursor : Cursor} (room : ¬maxNesting ≤ cursor.depth) :
    (Reader.braced content).run cursor =
      ((inside content).run { cursor with depth := cursor.depth + 1 }).map id
        fun last => { last with depth := last.depth - 1 } := by
  rw [Reader.braced, inside, Reads.run_get_bind, if_neg room, Reads.run_modify_bind]
  cases opened : (Reader.expect .leftBrace).run { cursor with depth := cursor.depth + 1 } with
  | mk span cursor₁ =>
    rw [Reads.run_bind opened, Reads.run_bind opened]
    cases read : content.run cursor₁ with
    | mk b? cursor₂ =>
      rw [Reads.run_bind read, Reads.run_bind read]
      cases b? <;> rfl

section

variable {content : Read (Option β)} {IsContent : Nat → List Lexeme → β → Prop} {fuel : Nat}

theorem inside_takes (takes : Takes content fun depth phrase b? =>
    phrase.length < fuel → ∃ b, b? = some b ∧ IsContent depth phrase b) :
    Takes (inside content) fun depth phrase b? => phrase.length < fuel →
      ∃ b inner, b? = some b ∧ phrase = inBraces inner ∧ IsContent depth inner b := by
  refine (expect _).bind fun _ => takes.bind fun b? => ?_
  cases b? with
  | none =>
    refine .pure ?_
    rintro _ inner found _ rfl enough
    simp only [List.append_nil, List.cons_append, List.nil_append, List.length_cons] at enough
    obtain ⟨b, absent, -⟩ := found (by omega)
    cases absent
  | some b =>
    refine (expect _).bind fun _ => .pure ?_
    rintro _ _ rfl inner found _ rfl enough
    simp only [List.cons_append, List.nil_append, List.length_append, List.length_cons, List.length_nil] at enough
    obtain ⟨_, ⟨⟩, isContent⟩ := found (by omega)
    exact ⟨b, inner, rfl, rfl, isContent⟩

theorem braced (takes : Takes content fun depth phrase b? =>
    phrase.length < fuel → ∃ b, b? = some b ∧ IsContent depth phrase b) :
    Takes (Reader.braced content) fun depth phrase b? => phrase.length < fuel →
      ∃ b inner, b? = some b ∧ depth < maxNesting ∧ phrase = inBraces inner ∧ IsContent (depth + 1) inner b := by
  intro cursor b? cursor' ran clean
  by_cases room : maxNesting ≤ cursor.depth
  · rw [Reader.braced, Reads.run_get_bind, if_pos room] at ran
    have wrong : Takes _ fun _ _ _ => False := refused (c := (none : Option β)) (reportHere .nestingTooDeep)
    obtain ⟨-, -, -, -, impossible⟩ := wrong cursor b? cursor' ran clean
    exact impossible.elim
  · rw [run_braced room] at ran
    cases ran
    obtain ⟨clean₀, depth, phrase, chars, holds⟩ := inside_takes takes _ _ _ rfl clean
    refine ⟨clean₀, Nat.sub_eq_of_eq_add depth, phrase, chars, fun enough => ?_⟩
    obtain ⟨b, inner, found, same, isContent⟩ := holds enough
    exact ⟨b, inner, found, Nat.not_le.mp room, same, isContent⟩

end

end Takes

end

section Scalars

variable [Scalar α]

namespace Takes

theorem constant : Takes (Reader.constant (α := α)) fun _ => IsConstant := by
  refine (eat .minus).bind fun negative => peek fun next? cursor next => ?_
  split
  · next x denotes =>
    cases next? with
    | none => cases denotes
    | some lexeme =>
      have isMagnitude := magnitude?_eq_some.mp denotes
      refine (advance next).bind fun _ => .pure ?_
      rintro _ _ rfl _ rfl
      cases negative with
      | true => exact .negative isMagnitude
      | false => exact .plain isMagnitude
  · exact (refused (reportMissing _)) cursor

theorem unary_name {text : String} {op : UnaryOp} (found : UnaryOp.ofName? text = some op) : op.name = text := by
  simpa using List.find?_some (p := fun op : UnaryOp => op.name = text) found

theorem binary_name {text : String} {op : BinaryOp} (found : BinaryOp.ofName? text = some op) : op.name = text := by
  simpa using List.find?_some (p := fun op : BinaryOp => op.name = text) found

theorem compare_name {text : String} {op : CompareOp} (found : CompareOp.ofName? text = some op) :
    op.name = text := by
  simpa using List.find?_some (p := fun op : CompareOp => op.name = text) found

theorem expression : Takes (Reader.expression (α := α)) fun _ phrase e? => ∃ e, e? = some e ∧ IsExpr phrase e := by
  refine expectWord.bind fun operation => ?_
  split
  · next named =>
    refine constant.bind fun x => .pure ?_
    rintro _ phrase isConstant _ rfl
    rw [named, List.append_nil]
    exact ⟨_, rfl, .const isConstant⟩
  · next named =>
    refine expectInteger.bind fun n => .pure ?_
    rintro _ _ ⟨⟩ _ rfl
    rw [named]
    exact ⟨_, rfl, .index n⟩
  · next named =>
    refine expectInteger.bind fun n => .pure ?_
    rintro _ _ ⟨⟩ _ rfl
    rw [named]
    exact ⟨_, rfl, .arg n⟩
  · next named =>
    refine place.bind fun p => .pure ?_
    rintro _ phrase isPlace _ rfl
    rw [named, List.append_nil]
    exact ⟨_, rfl, .load isPlace⟩
  · split
    · next op found =>
      refine expectValue.bind fun operand => .pure ?_
      rintro _ _ ⟨⟩ _ rfl
      rw [← unary_name found]
      exact ⟨_, rfl, .unary op operand⟩
    · next op _ found =>
      refine valuePair.bind fun pair => .pure ?_
      rintro _ _ rfl _ rfl
      rw [← binary_name found]
      exact ⟨_, rfl, .binary op pair.1 pair.2⟩
    · next op _ _ found =>
      refine valuePair.bind fun pair => .pure ?_
      rintro _ _ rfl _ rfl
      rw [← compare_name found]
      exact ⟨_, rfl, .compare op pair.1 pair.2⟩
    · exact refused (reportAt _ _)

theorem adjoint : Takes (Reader.adjoint (α := α)) fun _ phrase i => IsInstr (.mark .adj :: phrase) i := by
  refine expectValue.bind fun target => (eat _).bind fun negated => ?_
  cases negated with
  | true =>
    refine (expect _).bind fun _ => expectValue.bind fun source => .pure ?_
    rintro _ _ ⟨⟩ _ rfl _ rfl _ ⟨⟩
    exact .negated target source
  | false =>
    refine (expect _).bind fun _ => (eat _).bind fun reads => ?_
    cases reads with
    | true =>
      refine place.bind fun p => .pure ?_
      rintro _ phrase isPlace _ rfl _ rfl _ rfl _ ⟨⟩
      rw [List.append_nil]
      exact .readGrad target isPlace
    | false =>
      refine (expect _).bind fun _ => expectValue.bind fun source => (eat _).bind fun scaled => ?_
      cases scaled with
      | true =>
        refine expectValue.bind fun factor => .pure ?_
        rintro _ _ ⟨⟩ _ rfl _ ⟨⟩ _ rfl _ rfl _ rfl _ rfl _ ⟨⟩
        exact .scaled target source factor
      | false =>
        refine .pure ?_
        rintro _ _ rfl _ ⟨⟩ _ rfl _ rfl _ rfl _ rfl _ ⟨⟩
        exact .propagate target source

theorem statement : Takes (Reader.statement (α := α)) fun _ phrase s? => ∃ s, s? = some s ∧ IsStatement phrase s := by
  refine peek fun next? cursor next => ?_
  split
  · next n =>
    refine (advance next).bind fun _ => (expect _).bind fun _ => expression.bind fun e? => .pure ?_
    rintro _ phrase ⟨e, rfl, isExpr⟩ _ rfl _ rfl
    rw [List.append_nil]
    exact ⟨_, rfl, .instr (.define ⟨n⟩ isExpr)⟩
  · refine (advance next).bind fun _ => place.bind fun p => (expect _).bind fun _ => ?_
    refine expectValue.bind fun v => .pure ?_
    rintro _ _ ⟨⟩ _ rfl _ isPlace _ rfl
    exact ⟨_, rfl, .instr (.store isPlace v)⟩
  · refine (advance next).bind fun _ => expectValue.bind fun cond => .pure ?_
    rintro _ _ ⟨⟩ _ rfl
    exact ⟨_, rfl, .branch cond⟩
  · refine (advance next).bind fun _ => adjoint.bind fun i => .pure ?_
    rintro _ phrase isInstr _ rfl
    rw [List.append_nil]
    exact ⟨_, rfl, .instr isInstr⟩
  · refine (advance next).bind fun _ => place.bind fun p => (expect _).bind fun _ => ?_
    refine (expect _).bind fun _ => expectValue.bind fun source => .pure ?_
    rintro _ _ ⟨⟩ _ rfl _ rfl _ isPlace _ rfl
    exact ⟨_, rfl, .instr (.addGrad isPlace source)⟩
  · exact (refused (reportHere _)) cursor

theorem alternative {fuel : Nat} (takes : Takes (Reader.statements (α := α) fuel) fun depth phrase block? =>
    phrase.length < fuel → ∃ block, block? = some block ∧ IsBlock (maxNesting - depth) phrase block) :
    Takes (do if ← Reader.eat .otherwise then Reader.braced (Reader.statements (α := α) fuel) else return some .nil)
      fun depth phrase block? => phrase.length < fuel → ∃ block, block? = some block ∧
        (phrase = [] ∧ block = .nil ∨ ∃ inner, phrase = .mark .otherwise :: inBraces inner ∧
          IsBlock (maxNesting - (depth + 1)) inner block) := by
  refine (eat _).bind fun otherwise => ?_
  cases otherwise with
  | true =>
    refine (braced takes).mono ?_
    rintro depth later block? found _ rfl enough
    simp only [if_true, List.cons_append, List.nil_append, List.length_cons] at enough
    obtain ⟨block, inner, rfl, -, rfl, isBlock⟩ := found (by omega)
    exact ⟨block, rfl, .inr ⟨inner, rfl, isBlock⟩⟩
  | false =>
    refine .pure ?_
    rintro _ _ rfl _
    exact ⟨.nil, rfl, .inl ⟨rfl, rfl⟩⟩

-- The induction is on the fuel, of which every statement takes one with its first lexeme.
theorem statements (fuel : Nat) : Takes (Reader.statements (α := α) fuel) fun depth phrase block? =>
    phrase.length < fuel → ∃ block, block? = some block ∧ IsBlock (maxNesting - depth) phrase block := by
  induction fuel with
  | zero => exact .pure fun _ enough => absurd enough (Nat.not_lt_zero _)
  | succ fuel ih =>
    refine atMark fun closed cursor _ => atEnd (fun ended => ?_) cursor
    split
    · exact .pure fun _ _ => ⟨.nil, rfl, .nil⟩
    · refine statement.bind fun s? => ?_
      split
      · refine .pure ?_
        rintro _ _ ⟨s, ⟨⟩, -⟩
      · next i =>
        refine ih.bind fun rest? => .pure ?_
        rintro depth later others phrase ⟨_, ⟨⟩, isStatement⟩ enough
        have positive := isStatement.length_pos
        rw [List.append_nil] at enough ⊢
        rw [List.length_append] at enough
        obtain ⟨rest, rfl, isBlock⟩ := others (by omega)
        cases isStatement with
        | instr isInstr => exact ⟨_, rfl, .instr isInstr isBlock⟩
      · next cond =>
        refine (braced ih).bind fun onTrue? => ?_
        split
        · refine .pure ?_
          rintro _ phrase found _ ⟨_, ⟨⟩, ⟨⟩⟩ enough
          simp only [List.append_nil, List.cons_append, List.nil_append, List.length_cons] at enough
          obtain ⟨_, _, ⟨⟩, -⟩ := found (by omega)
        · next onTrue =>
          refine (alternative ih).bind fun onFalse? => ?_
          split
          · refine .pure ?_
            rintro _ phrase found inTrue _ _ ⟨_, ⟨⟩, ⟨⟩⟩ enough
            simp only [List.append_nil, List.cons_append, List.nil_append, List.length_append,
              List.length_cons] at enough
            obtain ⟨_, ⟨⟩, -⟩ := found (by omega)
          · next onFalse =>
            refine ih.bind fun rest? => .pure ?_
            rintro depth later others alternative onFalse_ braces onTrue_ _ ⟨_, ⟨⟩, ⟨⟩⟩ enough
            simp only [List.append_nil, List.cons_append, List.nil_append, List.length_append,
              List.length_cons] at enough
            obtain ⟨rest, rfl, isRest⟩ := others (by omega)
            obtain ⟨_, inTrue, ⟨⟩, room, rfl, isTrue⟩ := onTrue_ (by omega)
            obtain ⟨_, ⟨⟩, choice⟩ := onFalse_ (by omega)
            have levels : maxNesting - depth = maxNesting - (depth + 1) + 1 := by omega
            rw [levels] at isRest ⊢
            refine ⟨_, rfl, ?_⟩
            rcases choice with ⟨rfl, rfl⟩ | ⟨inFalse, rfl, isFalse⟩
            · have whole := IsBlock.branch cond isTrue isRest
              simpa [inBraces] using whole
            · have whole := IsBlock.choice cond isTrue isFalse isRest
              simpa [inBraces] using whole

theorem block : Takes (Reader.block (α := α)) fun depth phrase block? => ∃ block inner, block? = some block ∧
    depth < maxNesting ∧ phrase = inBraces inner ∧ IsBlock (maxNesting - (depth + 1)) inner block :=
  get fun _ => enough (braced (statements _))

theorem argCount :
    Takes (shortWord <$> Reader.expectInteger) fun _ phrase n => IsCount (.mark .args :: phrase) n := by
  refine expectInteger.map ?_
  rintro _ _ n ⟨⟩
  exact .args n

theorem kernel : Takes (Reader.kernel (α := α)) fun depth phrase k? =>
    depth = 0 → ∃ k span, k? = some ⟨k, span⟩ ∧ IsKernel phrase k := by
  refine (expect _).bind fun start => expectWord.bind fun name => (expect _).bind fun _ => ?_
  refine (bracketed axis).bind fun read => ?_
  have body : ∀ argCount, Takes (do
      let body ← Reader.block
      let stop := (← MonadState.get).last
      return body.map fun body =>
        (⟨Kernel.ofBody name.node ⟨read.1⟩ argCount body, start.merge stop⟩ : Located (Kernel α)))
      fun depth phrase k? => depth = 0 → ∀ ranges count, IsBracketed IsAxis ranges read.1 → IsCount count argCount →
        ∃ k span, k? = some ⟨k, span⟩ ∧
          IsKernel (.mark .kernel :: .word name.node :: .mark .onDomain :: (ranges ++ (count ++ phrase))) k := by
    refine fun argCount => block.bind fun block? => get fun cursor => Takes.pure ?_ cursor
    rintro _ _ ⟨body, inner, rfl, -, rfl, isBlock⟩ rfl ranges count isDomain isCount
    rw [List.append_nil]
    exact ⟨_, _, rfl, .kernel name.node isDomain isCount rfl isBlock⟩
  refine (eat _).bind fun counted => ?_
  cases counted with
  | true =>
    refine argCount.bind fun n => (body n).mono ?_
    rintro _ later k? holds count isCount _ rfl ranges isDomain _ rfl _ rfl _ rfl atTop
    have taken := holds atTop ranges _ isDomain isCount
    simpa using taken
  | false =>
    have absent : Takes (Pure.pure 0 : Read Nat) fun _ phrase n => phrase = [] ∧ n = 0 := .pure fun _ => ⟨rfl, rfl⟩
    refine absent.bind fun n => (body n).mono ?_
    rintro _ later k? holds _ ⟨rfl, rfl⟩ _ rfl ranges isDomain _ rfl _ rfl _ rfl atTop
    have taken := holds atTop ranges _ isDomain .absent
    simpa using taken

theorem element_name {text : String} {element : ElementType} (found : ElementType.ofName? text = some element) :
    element.name = text := by
  simpa using List.find?_some (p := fun element : ElementType => element.name = text) found

omit [Scalar α] in
theorem field : Takes Reader.field fun _ phrase decl => IsField phrase decl.form := by
  refine (expect _).bind fun start => expectWord.bind fun name => (expect _).bind fun _ => ?_
  refine expectWord.bind fun elementName => ?_
  have rest : ∀ element, Takes (do
      let read ← Reader.bracketed Reader.expectInteger
      let group? ← if ← Reader.eat .within then some <$> Reader.group else Pure.pure none
      return (⟨name.node, element, read.1, group?.map (·.node), start.merge read.2⟩ : FieldDecl)) fun _ phrase decl =>
        IsField (.mark .field :: .word name.node :: .mark .colon :: .word element.name :: phrase) decl.form := by
    refine fun element => (bracketed expectInteger).bind fun read => (eat _).bind fun within => ?_
    cases within with
    | true =>
      refine (group.map (Q := fun _ phrase path? => ∃ path, path? = some path ∧ IsGroup phrase path.node)
        fun _ _ path isGroup => ⟨path, rfl, isGroup⟩).bind fun path? => .pure ?_
      rintro _ phrase ⟨path, rfl, isGroup⟩ _ rfl sizes isShape
      rw [List.append_nil]
      exact .field name.node element isShape (.within isGroup)
    | false =>
      refine (Takes.pure (P := fun _ phrase path? => phrase = [] ∧ path? = none) fun _ => ⟨rfl, rfl⟩).bind
        fun path? => .pure ?_
      rintro _ _ ⟨rfl, rfl⟩ _ rfl sizes isShape
      exact .field name.node element isShape .root
  split
  · next element found =>
    refine (Takes.pure (P := fun _ phrase e => phrase = [] ∧ e = element) fun _ => ⟨rfl, rfl⟩).bind
      fun e => (rest e).mono ?_
    rintro _ later decl isField _ ⟨rfl, rfl⟩ _ rfl _ rfl _ rfl _ rfl
    rw [← element_name found]
    exact isField
  · refine (reportAt _ _).bind fun _ => (rest _).mono fun _ _ _ _ _ impossible => impossible.elim

theorem item (program : Program α) : Takes (Reader.item program) fun depth phrase program' =>
    depth = 0 → ∃ item, IsItem phrase item ∧ program'.outline = program.outline.append item := by
  refine peek fun next? cursor next => ?_
  split
  · refine (field.bind fun decl => .pure ?_) cursor
    rintro _ phrase isField _
    rw [List.append_nil]
    exact ⟨_, .field isField, by simp [Program.outline, Outline.append]⟩
  · refine (advance next).bind fun _ => group.bind fun path => .pure ?_
    rintro _ phrase isGroup _ rfl _
    rw [List.append_nil]
    exact ⟨_, .grad isGroup, by simp [Program.outline, Outline.append]⟩
  · refine (kernel.bind fun k? => .pure ?_) cursor
    rintro _ phrase holds atTop
    obtain ⟨k, span, rfl, isKernel⟩ := holds atTop
    rw [List.append_nil]
    exact ⟨_, .kernel isKernel, by simp [Program.outline, Outline.append]⟩
  · exact (refused (reportMissing _)) cursor

end Takes

theorem run_items {fuel : Nat} {program program₁ : Program α} {cursor cursor₁ : Cursor}
    (remaining : cursor.tokens ≠ []) (read : (item program).run cursor = (program₁, cursor₁)) :
    (items (fuel + 1) program).run cursor = (items fuel program₁).run
      (if cursor.issues.length < cursor₁.issues.length then
        { cursor₁ with tokens := skipToItem 0 cursor₁.tokens } else cursor₁) := by
  have goesOn : Reader.atEnd.run cursor = (false, cursor) := by
    rw [Reader.atEnd, Reads.run_get_bind, List.isEmpty_eq_false_iff.mpr remaining]
    rfl
  rw [items, Reads.run_bind goesOn, if_neg Bool.false_ne_true, Reads.run_get_bind, Reads.run_bind read,
    Reads.run_get_bind]
  split <;> rfl

-- Items are read to the end of the text. The induction is on the fuel, of which every item takes one
-- with its first lexeme; where an item was wrong something is wrong at the end.
theorem items_taken (fuel : Nat) {program last : Program α} {cursor cursor' : Cursor}
    (ran : (items fuel program).run cursor = (last, cursor')) (clean : cursor'.issues = []) :
    cursor.issues = [] ∧ (cursor.depth = 0 → cursor.tokens.length < fuel → ∃ outline,
      IsProgram (cursor.tokens.map (·.node)) outline ∧ last.outline = program.outline.append outline) := by
  induction fuel generalizing program cursor with
  | zero =>
    cases ran
    exact ⟨clean, fun _ enough => absurd enough (Nat.not_lt_zero _)⟩
  | succ fuel ih =>
    by_cases remaining : cursor.tokens = []
    · have ended : Reader.atEnd.run cursor = (true, cursor) := by
        rw [Reader.atEnd, Reads.run_get_bind, remaining]
        rfl
      rw [items, Reads.run_bind ended, if_pos rfl] at ran
      cases ran
      refine ⟨clean, fun _ _ => ⟨⟨[], [], []⟩, ?_, ?_⟩⟩
      · rw [remaining]
        exact .nil
      · simp [Outline.append]
    · cases read : (item program).run cursor with
      | mk program₁ cursor₁ =>
        rw [run_items remaining read] at ran
        obtain ⟨kept, others⟩ := ih ran
        have clean₁ : cursor₁.issues = [] := by
          split at kept <;> exact kept
        obtain ⟨clean₀, depth, phrase, chars, taken⟩ := Takes.item program cursor program₁ cursor₁ read clean₁
        refine ⟨clean₀, fun atTop enough => ?_⟩
        obtain ⟨outline, isItem, first⟩ := taken atTop
        have positive := isItem.length_pos
        rw [clean₀, clean₁, if_neg (Nat.lt_irrefl _)] at others
        have shorter := congrArg List.length chars
        simp only [List.length_map, List.length_append] at shorter
        obtain ⟨rest, isProgram, same⟩ := others (depth.trans atTop) (by omega)
        refine ⟨outline.append rest, ?_, ?_⟩
        · rw [chars]
          exact .item isItem isProgram
        · rw [same, first, Outline.append_assoc]

theorem Reader.program_taken {tokens : List (Located Lexeme)} {stop : Nat} {program : Program α}
    (accepted : Reader.program tokens stop = .ok program) :
    IsProgram (tokens.map (·.node)) program.outline := by
  rw [Reader.program] at accepted
  cases ran : (items (tokens.length + 1) (.empty : Program α)).run ⟨tokens, stop, .point 0, 0, []⟩ with
  | mk last cursor =>
    rw [ran] at accepted
    dsimp only at accepted
    split at accepted
    · next clean =>
      cases accepted
      obtain ⟨-, taken⟩ := items_taken _ ran (List.isEmpty_iff.mp clean)
      obtain ⟨outline, isProgram, same⟩ := taken rfl (Nat.lt_succ_self _)
      rw [same]
      exact isProgram
    · cases accepted

-- The reader accepts the sentences of the grammar and nothing else, and the program it gives lists the
-- items of the sentence in their order, each as its phrase denotes it.
theorem Reader.program_ok_iff (tokens : List (Located Lexeme)) (stop : Nat) (outline : Outline α) :
    (∃ program, Reader.program tokens stop = .ok program ∧ program.outline = outline) ↔
      IsProgram (tokens.map (·.node)) outline := by
  constructor
  · rintro ⟨program, accepted, rfl⟩
    exact Reader.program_taken accepted
  · exact fun isProgram => isProgram.read stop

end Scalars

end FieldKernel
