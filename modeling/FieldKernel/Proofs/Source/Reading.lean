import FieldKernel.Proofs.Source.Grammar

-- Readers in front of phrases of the grammar take these, find nothing wrong, and give what they denote.
namespace FieldKernel

variable {α β γ : Type}

-- A reader that stands before some lexemes, at some depth of braces, and has found nothing wrong.
structure Reader.Cursor.Stands (cursor : Reader.Cursor) (depth : Nat) (lexemes : List Lexeme) : Prop where
  lexemes : cursor.tokens.map (·.node) = lexemes
  depth : cursor.depth = depth
  issues : cursor.issues = []

open Reader Grammar

-- From one place a reader goes on to a later one, with a result of some kind.
def Reads (x : Read β) (result : β → Prop) (depth : Nat) (before after : List Lexeme) : Prop :=
  ∀ cursor : Cursor, cursor.Stands depth before →
    ∃ b cursor', x.run cursor = (b, cursor') ∧ result b ∧ cursor'.Stands depth after

namespace Reads

variable {x : Read β} {f : β → Read γ} {P : β → Prop} {Q : γ → Prop} {depth : Nat}
  {before middle after : List Lexeme}

theorem run_bind {cursor cursor' : Cursor} {b : β} (ran : x.run cursor = (b, cursor')) :
    (x >>= f).run cursor = (f b).run cursor' := by
  change (f (x.run cursor).1).run (x.run cursor).2 = _
  rw [ran]

theorem run_get_bind (f : Cursor → Read γ) (cursor : Cursor) :
    (MonadState.get >>= f).run cursor = (f cursor).run cursor := rfl

theorem run_modify_bind (g : Cursor → Cursor) (f : Unit → Read γ) (cursor : Cursor) :
    (modify g >>= f).run cursor = (f ()).run (g cursor) := rfl

theorem pure {b : β} (holds : P b) : Reads (pure b : Read β) P depth before before :=
  fun cursor stands => ⟨b, cursor, rfl, holds, stands⟩

theorem bind (first : Reads x P depth before middle) (second : ∀ b, P b → Reads (f b) Q depth middle after) :
    Reads (x >>= f) Q depth before after := by
  intro cursor stands
  obtain ⟨b, cursor₁, ran, holds, stands₁⟩ := first cursor stands
  obtain ⟨c, cursor₂, ran₂, holds₂, stands₂⟩ := second b holds cursor₁ stands₁
  exact ⟨c, cursor₂, (run_bind ran).trans ran₂, holds₂, stands₂⟩

theorem bindEq {b : β} (first : Reads x (· = b) depth before middle) (second : Reads (f b) Q depth middle after) :
    Reads (x >>= f) Q depth before after := first.bind fun _ same => same ▸ second

theorem map {g : β → γ} (reads : Reads x P depth before after) (more : ∀ b, P b → Q (g b)) :
    Reads (g <$> x) Q depth before after := by
  have mapped : Reads (x >>= fun b => Pure.pure (g b)) Q depth before after :=
    reads.bind fun b holds => .pure (more b holds)
  exact mapped

theorem mapEq {g : β → γ} {b : β} (reads : Reads x (· = b) depth before after) :
    Reads (g <$> x) (· = g b) depth before after := reads.map fun _ same => congrArg g same

theorem get {g : Cursor → Read γ} (reads : ∀ cursor : Cursor, cursor.Stands depth before →
    Reads (g cursor) Q depth before after) : Reads (MonadState.get >>= g) Q depth before after :=
  fun cursor stands => reads cursor stands cursor stands

theorem peek_eq {cursor : Cursor} (stands : cursor.Stands depth before) : cursor.peek = before.head? := by
  rw [← stands.lexemes, List.head?_map]
  rfl

theorem peek : Reads Reader.peek (· = before.head?) depth before before :=
  fun cursor stands => ⟨_, cursor, rfl, peek_eq stands, stands⟩

theorem here : Reads Reader.here (fun _ => True) depth before before :=
  fun cursor stands => ⟨_, cursor, rfl, trivial, stands⟩

theorem advance {l : Lexeme} : Reads Reader.advance (fun _ => True) depth (l :: after) after := by
  intro cursor stands
  obtain ⟨tokens, stop, last, depth', issues⟩ := cursor
  obtain ⟨lexemes, same, clean⟩ := stands
  cases tokens with
  | nil => cases lexemes
  | cons token tokens => exact ⟨(), _, rfl, trivial, (List.cons.inj lexemes).2, same, clean⟩

theorem atMark (m : Mark) :
    Reads (Reader.atMark m) (· = decide (before.head? = some (.mark m))) depth before before := by
  intro cursor stands
  refine ⟨_, cursor, rfl, ?_, stands⟩
  exact congrArg (fun l => decide (l = some (Lexeme.mark m))) (peek_eq stands)

theorem atEnd : Reads Reader.atEnd (· = before.isEmpty) depth before before := by
  intro cursor stands
  refine ⟨_, cursor, rfl, ?_, stands⟩
  simp [← stands.lexemes]

theorem eat (m : Mark) : Reads (Reader.eat m) (· = true) depth (.mark m :: after) after := by
  refine (atMark m).bindEq ?_
  simp only [List.head?_cons, decide_true, if_true]
  exact advance.bind fun _ _ => .pure rfl

theorem eatNot {m : Mark} (other : before.head? ≠ some (.mark m)) :
    Reads (Reader.eat m) (· = false) depth before before := by
  refine (atMark m).bindEq ?_
  simp only [other, decide_false, Bool.false_eq_true, if_false]
  exact .pure rfl

theorem expect (m : Mark) : Reads (Reader.expect m) (fun _ => True) depth (.mark m :: after) after := by
  refine here.bind fun span _ => (atMark m).bindEq ?_
  simp only [List.head?_cons, decide_true, if_true]
  exact advance.bind fun _ _ => .pure trivial

theorem expectWord (name : String) :
    Reads Reader.expectWord (fun word => word.node = name) depth (.word name :: after) after :=
  here.bind fun _ _ => peek.bindEq (advance.bind fun _ _ => .pure rfl)

theorem expectInteger (n : Nat) : Reads Reader.expectInteger (· = n) depth (.integer n :: after) after :=
  peek.bindEq (advance.bind fun _ _ => .pure rfl)

theorem expectValue (v : ValueId) : Reads Reader.expectValue (· = v) depth (.value v.index :: after) after :=
  peek.bindEq (advance.bind fun _ _ => .pure rfl)

theorem goesOn {m : Mark} {l : Lexeme} {ends more : Read γ} (next : before.head? = some l) (other : l ≠ .mark m)
    (reads : Reads more Q depth before after) :
    Reads (do if (← Reader.atMark m) || (← Reader.atEnd) then ends else more) Q depth before after := by
  refine (atMark m).bindEq (atEnd.bindEq ?_)
  cases before with
  | nil => cases next
  | cons first rest =>
    cases next
    have notClosed : ¬(l :: rest).head? = some (.mark m) := fun same => other (Option.some.inj same)
    rwa [decide_eq_false notClosed]

section Lists

variable {element : Read β} {IsElement : List Lexeme → β → Prop} {phrase : List Lexeme} {bs : List β}

-- The induction is on the list, whose elements have lexemes of their own.
theorem commaList (starts : ∀ phrase b, IsElement phrase b → ∃ l ls, phrase = l :: ls ∧ l ≠ .mark .rightBracket)
    (reads : ∀ phrase b, IsElement phrase b → ∀ rest, Reads element (· = b) depth (phrase ++ rest) rest)
    (listed : IsListed IsElement phrase bs) {fuel : Nat} (enough : phrase.length < fuel) :
    Reads (Reader.commaList element fuel) (· = bs) depth
      (phrase ++ .mark .rightBracket :: after) (.mark .rightBracket :: after) := by
  induction listed generalizing fuel with
  | none =>
    cases fuel with
    | zero => cases enough
    | succ fuel => exact (atMark _).bindEq (atEnd.bindEq (.pure rfl))
  | @last phrase b first =>
    cases fuel with
    | zero => cases enough
    | succ fuel =>
      obtain ⟨l, ls, rfl, other⟩ := starts phrase b first
      refine goesOn rfl other ((reads _ b first _).bindEq ?_)
      exact (eatNot (by simp)).bindEq (.pure rfl)
  | @more phrase later b bs first others ih =>
    cases fuel with
    | zero => cases enough
    | succ fuel =>
      obtain ⟨l, ls, rfl, other⟩ := starts phrase b first
      simp only [List.length_append, List.length_cons] at enough
      rw [List.append_assoc, List.cons_append]
      refine goesOn rfl other ((reads _ b first _).bindEq ?_)
      exact (eat _).bindEq ((ih (by omega)).bindEq (.pure rfl))

theorem bracketed (starts : ∀ phrase b, IsElement phrase b → ∃ l ls, phrase = l :: ls ∧ l ≠ .mark .rightBracket)
    (reads : ∀ phrase b, IsElement phrase b → ∀ rest, Reads element (· = b) depth (phrase ++ rest) rest)
    (list : IsBracketed IsElement phrase bs) :
    Reads (Reader.bracketed element) (fun read => read.1 = bs) depth (phrase ++ after) after := by
  obtain ⟨listed⟩ := list
  simp only [inBrackets, List.cons_append, List.append_assoc, List.nil_append]
  refine (expect _).bind fun _ _ => get fun cursor stands => ?_
  refine (commaList starts reads listed ?_).bindEq ((expect _).bind fun _ _ => .pure rfl)
  have lengths := congrArg List.length stands.lexemes
  simp only [List.length_map, List.length_append] at lengths
  omega

end Lists

-- The induction is on the parts of the name, each of which has a dot before it.
theorem groupTail {path : Located String} {parts : List String} (ends : after.head? ≠ some (.mark .dot)) {fuel : Nat}
    (enough : parts.length < fuel) : Reads (Reader.groupTail fuel path)
      (fun whole => whole.node = ".".intercalate (path.node :: parts)) depth
      ((parts.flatMap fun part => [.mark .dot, .word part]) ++ after) after := by
  induction parts generalizing path fuel with
  | nil =>
    cases fuel with
    | zero => cases enough
    | succ fuel => exact (eatNot ends).bindEq (.pure rfl)
  | cons part parts ih =>
    cases fuel with
    | zero => cases enough
    | succ fuel =>
      refine (eat _).bindEq ((expectWord part).bind ?_)
      rintro ⟨_, span⟩ rfl
      exact ih (Nat.lt_of_succ_lt_succ enough)

theorem group {phrase : List Lexeme} {path : String} (isGroup : IsGroup phrase path)
    (ends : after.head? ≠ some (.mark .dot)) :
    Reads Reader.group (fun read => read.node = path) depth (phrase ++ after) after := by
  obtain ⟨first, parts⟩ := isGroup
  refine (expectWord first).bind ?_
  rintro ⟨_, span⟩ rfl
  refine get fun cursor stands => groupTail ends ?_
  have listed : parts.length ≤ (parts.flatMap fun part => [Lexeme.mark .dot, .word part]).length := by
    simp only [List.length_flatMap, List.length_cons, List.length_nil, List.map_const', List.sum_replicate_nat]
    omega
  have chars : cursor.tokens.map (·.node) = (parts.flatMap fun part => [.mark .dot, .word part]) ++ after :=
    stands.lexemes
  have lengths := congrArg List.length chars
  rw [List.length_map, List.length_append] at lengths
  omega

theorem place {phrase : List Lexeme} {p : Place} (isPlace : IsPlace phrase p) :
    Reads Reader.place (· = p) depth (phrase ++ after) after := by
  obtain ⟨field, indices⟩ := isPlace
  refine (expectWord field).bind fun field name => ?_
  refine (bracketed ?_ ?_ indices).bind ?_
  · rintro _ v ⟨⟩
    exact ⟨_, _, rfl, by simp⟩
  · rintro _ v ⟨⟩ rest
    exact expectValue v
  · rintro ⟨index, span⟩ rfl
    exact .pure (by rw [name])

theorem valuePair (lhs rhs : ValueId) : Reads Reader.valuePair (· = (lhs, rhs)) depth
    (.value lhs.index :: .mark .comma :: .value rhs.index :: after) after :=
  (expectValue lhs).bindEq ((expect _).bind fun _ _ => (expectValue rhs).bindEq (.pure rfl))

theorem signed {phrase : List Lexeme} {i : Int} (isSigned : IsSigned phrase i) :
    Reads Reader.signed (· = i) depth (phrase ++ after) after := by
  cases isSigned with
  | plain n =>
    refine (eatNot (by simp)).bindEq ((expectInteger n).bindEq (.pure ?_))
    rw [if_neg Bool.false_ne_true]
  | negative n =>
    refine (eat _).bindEq ((expectInteger n).bindEq (.pure ?_))
    rw [if_pos rfl, Reader.signedWord_neg]

theorem axis {phrase : List Lexeme} {a : Axis} (isAxis : IsAxis phrase a) :
    Reads Reader.axis (· = a) depth (phrase ++ after) after := by
  obtain ⟨lower, upper⟩ := isAxis
  rw [List.append_assoc, List.cons_append]
  exact (signed lower).bindEq ((expect _).bind fun _ _ => (signed upper).bindEq (.pure rfl))

theorem domain {phrase : List Lexeme} {axes : List Axis} (isDomain : IsBracketed IsAxis phrase axes) :
    Reads (Reader.bracketed Reader.axis) (fun read => read.1 = axes) depth (phrase ++ after) after := by
  refine bracketed ?_ (fun _ _ isAxis _ => axis isAxis) isDomain
  rintro _ _ ⟨lower, upper⟩
  cases lower <;> exact ⟨_, _, rfl, by simp⟩

theorem shape {phrase : List Lexeme} {sizes : Shape} (isShape : IsBracketed IsInteger phrase sizes) :
    Reads (Reader.bracketed Reader.expectInteger) (fun read => read.1 = sizes) depth (phrase ++ after) after := by
  refine bracketed ?_ ?_ isShape
  · rintro _ n ⟨⟩
    exact ⟨_, _, rfl, by simp⟩
  · rintro _ n ⟨⟩ rest
    exact expectInteger n

end Reads

variable [Scalar α]

namespace Reads

variable {depth : Nat} {phrase after : List Lexeme}

theorem constant {x : α} (isConstant : IsConstant phrase x) :
    Reads Reader.constant (· = x) depth (phrase ++ after) after := by
  cases isConstant with
  | plain isMagnitude =>
    rw [List.cons_append]
    refine (eatNot (by cases isMagnitude <;> simp)).bindEq (peek.bindEq ?_)
    rw [List.head?_cons, magnitude?_eq_some.mpr isMagnitude]
    exact advance.bind fun _ _ => .pure rfl
  | negative isMagnitude =>
    rw [List.cons_append, List.cons_append]
    refine (eat _).bindEq (peek.bindEq ?_)
    rw [List.head?_cons, magnitude?_eq_some.mpr isMagnitude]
    exact advance.bind fun _ _ => .pure rfl

theorem expression {e : Expr α} (isExpr : IsExpr phrase e) :
    Reads Reader.expression (· = some e) depth (phrase ++ after) after := by
  cases isExpr with
  | const isConstant =>
    refine (expectWord _).bind fun operation named => ?_
    rw [named]
    exact (constant isConstant).bindEq (.pure rfl)
  | index n =>
    refine (expectWord _).bind fun operation named => ?_
    rw [named]
    exact (expectInteger n).bindEq (.pure rfl)
  | arg n =>
    refine (expectWord _).bind fun operation named => ?_
    rw [named]
    exact (expectInteger n).bindEq (.pure rfl)
  | load isPlace =>
    refine (expectWord _).bind fun operation named => ?_
    rw [named]
    exact (place isPlace).bindEq (.pure rfl)
  | unary op operand =>
    refine (expectWord _).bind fun operation named => ?_
    rw [named]
    cases op <;> exact (expectValue operand).bindEq (.pure rfl)
  | binary op lhs rhs =>
    refine (expectWord _).bind fun operation named => ?_
    rw [named]
    cases op <;> exact (valuePair lhs rhs).bindEq (.pure rfl)
  | compare op lhs rhs =>
    refine (expectWord _).bind fun operation named => ?_
    rw [named]
    cases op <;> exact (valuePair lhs rhs).bindEq (.pure rfl)

theorem statement {st : Statement α} (isStatement : IsStatement phrase st)
    (noFactor : after.head? ≠ some (.mark .star)) :
    Reads Reader.statement (· = some st) depth (phrase ++ after) after := by
  cases isStatement with
  | branch cond => exact peek.bindEq (advance.bind fun _ _ => (expectValue cond).bindEq (.pure rfl))
  | instr isInstr =>
    cases isInstr with
    | define dst isExpr =>
      refine peek.bindEq (advance.bind fun _ _ => (expect _).bind fun _ _ => ?_)
      exact (expression isExpr).bindEq (.pure rfl)
    | store isPlace v =>
      simp only [List.cons_append, List.append_assoc, List.nil_append]
      refine peek.bindEq (advance.bind fun _ _ => ?_)
      refine (place isPlace).bindEq ((expect _).bind fun _ _ => ?_)
      exact (expectValue v).bindEq (.pure rfl)
    | readGrad target isPlace =>
      refine peek.bindEq (advance.bind fun _ _ => bindEq (b := Instr.readGrad target _) ?_ (.pure rfl))
      refine (expectValue target).bindEq ((eatNot (by simp)).bindEq ?_)
      refine (expect _).bind fun _ _ => (eat _).bindEq ?_
      exact (place isPlace).bindEq (.pure rfl)
    | propagate target source =>
      refine peek.bindEq (advance.bind fun _ _ => bindEq (b := Instr.propagate target source .one) ?_ (.pure rfl))
      refine (expectValue target).bindEq ((eatNot (by simp)).bindEq ?_)
      refine (expect _).bind fun _ _ => (eatNot (by simp)).bindEq ?_
      refine (expect _).bind fun _ _ => (expectValue source).bindEq ?_
      exact (eatNot noFactor).bindEq (.pure rfl)
    | scaled target source factor =>
      refine peek.bindEq (advance.bind fun _ _ =>
        bindEq (b := Instr.propagate target source (.value factor)) ?_ (.pure rfl))
      refine (expectValue target).bindEq ((eatNot (by simp)).bindEq ?_)
      refine (expect _).bind fun _ _ => (eatNot (by simp)).bindEq ?_
      refine (expect _).bind fun _ _ => (expectValue source).bindEq ?_
      exact (eat _).bindEq ((expectValue factor).bindEq (.pure rfl))
    | negated target source =>
      refine peek.bindEq (advance.bind fun _ _ =>
        bindEq (b := Instr.propagate target source .minusOne) ?_ (.pure rfl))
      refine (expectValue target).bindEq ((eat _).bindEq ?_)
      exact (expect _).bind fun _ _ => (expectValue source).bindEq (.pure rfl)
    | addGrad isPlace source =>
      simp only [List.cons_append, List.append_assoc, List.nil_append]
      refine peek.bindEq (advance.bind fun _ _ => ?_)
      refine (place isPlace).bindEq ((expect _).bind fun _ _ => (expect _).bind fun _ _ => ?_)
      exact (expectValue source).bindEq (.pure rfl)

theorem braced {content : Read (Option β)} {b : β} {before : List Lexeme} (room : depth < maxNesting)
    (inner : Reads content (· = some b) (depth + 1) before (.mark .rightBrace :: after)) :
    Reads (Reader.braced content) (· = some b) depth (.mark .leftBrace :: before) after := by
  intro cursor stands
  have shallow : ¬maxNesting ≤ cursor.depth := by
    rw [stands.depth]
    exact Nat.not_le.mpr room
  have deeper : ({ cursor with depth := cursor.depth + 1 } : Cursor).Stands (depth + 1)
      (.mark .leftBrace :: before) := ⟨stands.lexemes, congrArg (· + 1) stands.depth, stands.issues⟩
  obtain ⟨_, cursor₁, opened, -, stands₁⟩ := expect .leftBrace _ deeper
  obtain ⟨_, cursor₂, ran, rfl, stands₂⟩ := inner cursor₁ stands₁
  obtain ⟨_, cursor₃, closed, -, stands₃⟩ := expect .rightBrace cursor₂ stands₂
  refine ⟨some b, { cursor₃ with depth := cursor₃.depth - 1 }, ?_, rfl, stands₃.lexemes, ?_, stands₃.issues⟩
  · rw [Reader.braced, run_get_bind, if_neg shallow, run_modify_bind, run_bind opened, run_bind ran]
    simp only [Option.isSome_some, if_true]
    rw [run_bind closed]
    rfl
  · change cursor₃.depth - 1 = depth
    rw [stands₃.depth]
    rfl

theorem head_statement {st : Statement α} (isStatement : IsStatement phrase st) : ∃ l ls, phrase = l :: ls ∧
    ∀ m, l = .mark m → m ∈ [Mark.store, .adj, .grad, .branch] := by
  cases isStatement with
  | branch => exact ⟨_, _, rfl, fun m same => by cases same; decide⟩
  | instr isInstr =>
    cases isInstr with
    | define => exact ⟨_, _, rfl, fun m same => by cases same⟩
    | store | readGrad | propagate | scaled | negated | addGrad =>
      exact ⟨_, _, rfl, fun m same => by cases same; decide⟩

theorem head_block {levels : Nat} {block : Block α} {m : Mark} (isBlock : IsBlock levels phrase block)
    (other : m ∉ [Mark.rightBrace, .store, .adj, .grad, .branch]) :
    (phrase ++ .mark .rightBrace :: after).head? ≠ some (.mark m) := by
  rw [List.mem_cons, not_or] at other
  cases isBlock with
  | nil => exact fun same => other.1 (by cases same; rfl)
  | branch | choice => exact fun same => other.2 (by cases same; decide)
  | instr isInstr =>
    obtain ⟨l, ls, rfl, starts⟩ := head_statement (.instr isInstr)
    exact fun same => other.2 (starts m (Option.some.inj same))

-- The induction is on the derivation, and the lexemes of a block bound its statements.
theorem statements {levels : Nat} {block : Block α} (isBlock : IsBlock levels phrase block)
    (room : depth + levels ≤ maxNesting) {fuel : Nat} (enough : phrase.length < fuel) :
    Reads (Reader.statements fuel) (· = some block) depth
      (phrase ++ .mark .rightBrace :: after) (.mark .rightBrace :: after) := by
  induction isBlock generalizing depth fuel after with
  | nil =>
    cases fuel with
    | zero => cases enough
    | succ fuel => exact (atMark _).bindEq (atEnd.bindEq (.pure rfl))
  | @instr levels phrase later i rest isInstr others ih =>
    cases fuel with
    | zero => cases enough
    | succ fuel =>
      have positive := (IsStatement.instr isInstr).length_pos
      rw [List.length_append] at enough
      obtain ⟨l, ls, rfl, starts⟩ := head_statement (.instr isInstr)
      rw [List.append_assoc]
      refine goesOn rfl (fun same => absurd (starts _ same) (by decide)) ?_
      exact (statement (.instr isInstr) (head_block others (by decide))).bindEq (ih room (by omega)).mapEq
  | branch cond isTrue others ihTrue ihRest =>
    cases fuel with
    | zero => cases enough
    | succ fuel =>
      simp only [inBraces, List.cons_append, List.append_assoc, List.nil_append, List.length_cons,
        List.length_append] at enough ⊢
      refine goesOn rfl (by simp) ((statement (.branch cond) (by simp)).bindEq ?_)
      refine (braced (by omega) (ihTrue (by omega) (by omega : _ < fuel))).bindEq ?_
      refine bindEq (b := some .nil) ?_ (ihRest room (by omega)).mapEq
      exact (eatNot (head_block others (by decide))).bindEq (.pure rfl)
  | choice cond isTrue isFalse others ihTrue ihFalse ihRest =>
    cases fuel with
    | zero => cases enough
    | succ fuel =>
      simp only [inBraces, List.cons_append, List.append_assoc, List.nil_append, List.length_cons,
        List.length_append] at enough ⊢
      refine goesOn rfl (by simp) ((statement (.branch cond) (by simp)).bindEq ?_)
      refine (braced (by omega) (ihTrue (by omega) (by omega : _ < fuel))).bindEq ?_
      refine bindEq (b := some _) ?_ (ihRest room (by omega)).mapEq
      refine (eat _).bindEq ?_
      exact braced (by omega) (ihFalse (by omega) (by omega : _ < fuel))

theorem block {levels : Nat} {block : Block α} (isBlock : IsBlock levels phrase block)
    (room : depth + levels < maxNesting) :
    Reads Reader.block (· = some block) depth (inBraces phrase ++ after) after := by
  simp only [inBraces, List.cons_append, List.append_assoc, List.nil_append]
  refine get fun cursor stands => ?_
  have enough : phrase.length < cursor.tokens.length + 1 := by
    have lengths := congrArg List.length stands.lexemes
    simp only [List.length_map, List.length_append, List.length_cons] at lengths
    omega
  exact braced (by omega) (statements isBlock (by omega) enough)

theorem kernel {k : Kernel α} (isKernel : IsKernel phrase k) :
    Reads Reader.kernel (fun read => ∃ span, read = some ⟨k, span⟩) 0 (phrase ++ after) after := by
  obtain @⟨levels, ranges, count, phrase, axes, argCount, body, name, isDomain, isCount, nested, isBlock⟩ := isKernel
  simp only [List.cons_append, List.append_assoc]
  refine (expect _).bind fun start _ => (expectWord _).bind fun word named => (expect _).bind fun _ _ => ?_
  refine (domain isDomain).bind ?_
  rintro ⟨axes, brackets⟩ rfl
  -- with or without a count of arguments the block follows
  have rest : Reads (do
      let body ← Reader.block
      let stop := (← MonadState.get).last
      return body.map fun body =>
        (⟨Kernel.ofBody word.node ⟨axes⟩ argCount body, start.merge stop⟩ : Located (Kernel α)))
      (fun read => ∃ span, read = some ⟨.ofBody name ⟨axes⟩ argCount body, span⟩) 0
      (inBraces phrase ++ after) after := by
    refine (block isBlock (by omega)).bindEq (get fun cursor _ => .pure ⟨start.merge cursor.last, ?_⟩)
    rw [named]
    rfl
  cases isCount with
  | absent => exact (eatNot (by simp [inBraces])).bindEq (bindEq (.pure rfl) rest)
  | args n => exact (eat _).bindEq ((expectInteger n).mapEq.bindEq rest)

theorem field {form : FieldForm} (isField : IsField phrase form) (noDot : after.head? ≠ some (.mark .dot))
    (noGroup : after.head? ≠ some (.mark .within)) :
    Reads Reader.field (fun decl => decl.form = form) depth (phrase ++ after) after := by
  obtain @⟨sizes, membership, sizes_, group?, name, element, isShape, isMembership⟩ := isField
  simp only [List.cons_append, List.append_assoc]
  refine (expect _).bind fun start _ => (expectWord _).bind fun word named => (expect _).bind fun _ _ => ?_
  refine (expectWord _).bind fun elementName elementNamed => ?_
  have found : ElementType.ofName? elementName.node = some element := by
    rw [elementNamed]
    cases element <;> rfl
  simp only [found]
  refine bindEq (.pure rfl) ((shape isShape).bind ?_)
  rintro ⟨sizes_, stop⟩ rfl
  cases isMembership with
  | root => exact (eatNot noGroup).bindEq (bindEq (.pure rfl) (.pure (by rw [FieldDecl.form, named]; rfl)))
  | @within phrase path isGroup =>
    have member : Reads (some <$> Reader.group) (fun path? => path?.map (·.node) = some path) depth
        (phrase ++ after) after := (group isGroup noDot).map fun _ same => congrArg some same
    refine (eat _).bindEq (member.bind fun path? same => .pure ?_)
    rw [FieldDecl.form, named, same]

theorem head_item {item : Outline α} (isItem : IsItem phrase item) :
    ∃ m ls, phrase = .mark m :: ls ∧ m ∈ [Mark.field, .grad, .kernel] := by
  cases isItem with
  | field isField => cases isField; exact ⟨_, _, rfl, by decide⟩
  | grad => exact ⟨_, _, rfl, by decide⟩
  | kernel isKernel => cases isKernel; exact ⟨_, _, rfl, by decide⟩

theorem head_program {outline : Outline α} {m : Mark} (isProgram : IsProgram phrase outline)
    (other : m ∉ [Mark.field, .grad, .kernel]) : phrase.head? ≠ some (.mark m) := by
  cases isProgram with
  | nil => exact nofun
  | item isItem =>
    obtain ⟨first, ls, rfl, listed⟩ := head_item isItem
    rintro ⟨⟩
    exact other listed

theorem item {item : Outline α} (isItem : IsItem phrase item) (noDot : after.head? ≠ some (.mark .dot))
    (noGroup : after.head? ≠ some (.mark .within)) (program : Program α) :
    Reads (Reader.item program) (fun read => read.outline = program.outline.append item) 0
      (phrase ++ after) after := by
  cases isItem with
  | field isField =>
    have first : (phrase ++ after).head? = some (.mark .field) := by
      cases isField
      rfl
    refine peek.bindEq ?_
    rw [first]
    refine (field isField noDot noGroup).bind fun decl same => .pure ?_
    simp [Program.outline, Outline.append, same]
  | grad isGroup =>
    refine peek.bindEq (advance.bind fun _ _ => (group isGroup noDot).bind ?_)
    rintro path rfl
    exact .pure (by simp [Program.outline, Outline.append])
  | kernel isKernel =>
    have first : (phrase ++ after).head? = some (.mark .kernel) := by
      cases isKernel
      rfl
    refine peek.bindEq ?_
    rw [first]
    refine (kernel isKernel).bind ?_
    rintro _ ⟨span, rfl⟩
    exact .pure (by simp [Program.outline, Outline.append])

-- The induction is on the derivation, and the lexemes of a program bound its items.
theorem items {outline : Outline α} (isProgram : IsProgram phrase outline) (program : Program α) {fuel : Nat}
    (enough : phrase.length < fuel) :
    Reads (Reader.items fuel program) (fun read => read.outline = program.outline.append outline) 0 phrase [] := by
  induction isProgram generalizing program fuel with
  | nil =>
    cases fuel with
    | zero => cases enough
    | succ fuel => exact atEnd.bindEq (.pure (by simp [Outline.append]))
  | @item phrase later first rest isItem others ih =>
    cases fuel with
    | zero => cases enough
    | succ fuel =>
      have positive := isItem.length_pos
      rw [List.length_append] at enough
      obtain ⟨m, ls, chars, -⟩ := head_item isItem
      have nonempty : (phrase ++ later).isEmpty = false := by
        rw [chars]
        rfl
      refine atEnd.bindEq ?_
      rw [nonempty]
      have read := item isItem (head_program others (by decide)) (head_program others (by decide)) program
      refine get fun cursor clean => read.bind fun program₁ same => get fun cursor₁ clean₁ => ?_
      have noIssue : ¬cursor.issues.length < cursor₁.issues.length := by
        rw [clean.issues, clean₁.issues]
        exact Nat.lt_irrefl _
      simp only [if_neg noIssue]
      have rest := ih program₁ (by omega : later.length < fuel)
      rw [same, Outline.append_assoc] at rest
      exact rest

end Reads

theorem Grammar.IsProgram.read {tokens : List (Located Lexeme)} {outline : Outline α}
    (isProgram : IsProgram (tokens.map (·.node)) outline) (stop : Nat) :
    ∃ program, Reader.program tokens stop = .ok program ∧ program.outline = outline := by
  have enough : (tokens.map (·.node)).length < tokens.length + 1 := by
    rw [List.length_map]
    exact Nat.lt_succ_self _
  obtain ⟨program, cursor, ran, same, stands⟩ :=
    Reads.items isProgram .empty enough ⟨tokens, stop, .point 0, 0, []⟩ ⟨rfl, rfl, rfl⟩
  refine ⟨program, ?_, same⟩
  rw [Reader.program, ran]
  simp [stands.issues]

end FieldKernel
