import FieldKernel.Proofs.Source.Acceptance
import FieldKernel.Proofs.Source.Cutting
import FieldKernel.Proofs.Source.Phrases
import FieldKernel.Scalar.Double
import Mathlib.Data.List.Forall2

-- The integers that texts write for bounds, arguments and axes, looked up without the grammar.
namespace FieldKernel

variable {α : Type}

structure Figures where
  bounds : List Axis
  argCount : Nat
  axes : List Nat
  positions : List Nat
  deriving DecidableEq, Repr

def Statement.axis? : Statement α → Option Nat
  | .instr (.define _ (.index axis)) => some axis
  | _ => none

def Statement.position? : Statement α → Option Nat
  | .instr (.define _ (.arg position)) => some position
  | _ => none

def Kernel.figures (kernel : Kernel α) : Figures where
  bounds := kernel.domain.axes
  argCount := kernel.argCount
  axes := kernel.body.statements.filterMap Statement.axis?
  positions := kernel.body.statements.filterMap Statement.position?

def leading : List Lexeme → List Nat
  | .integer n :: _ => [n]
  | _ => []

def behind (l : Lexeme) : List Lexeme → List Nat
  | [] => []
  | first :: rest => (if first = l then leading rest else []) ++ behind l rest

def leadingBound : List Lexeme → Int
  | .mark .minus :: .integer n :: _ => -n
  | .integer n :: _ => n
  | _ => 0

def ranges : List Lexeme → List Axis
  | [] => []
  | .mark .minus :: .integer n :: .mark .dotDot :: rest => ⟨-n, leadingBound rest⟩ :: ranges rest
  | .integer n :: .mark .dotDot :: rest => ⟨n, leadingBound rest⟩ :: ranges rest
  | _ :: rest => ranges rest

-- What stands behind each `kernel`, up to the next.
def kernelParts : List Lexeme → List (List Lexeme)
  | [] => []
  | l :: rest =>
    if l = .mark .kernel then rest.takeWhile (· ≠ .mark .kernel) :: kernelParts rest else kernelParts rest

namespace Figures

def written (part : List Lexeme) : Figures where
  bounds := ranges part
  argCount := (behind (.mark .args) part).headD 0
  axes := behind (.word "index") part
  positions := behind (.word "arg") part

-- Bounds as signed words of 64 bits, counts as words of 32 bits.
def cut (figures : Figures) : Figures where
  bounds := figures.bounds.map fun axis => ⟨Reader.signedWord axis.lo, Reader.signedWord axis.hi⟩
  argCount := shortWord figures.argCount
  axes := figures.axes.map shortWord
  positions := figures.positions.map shortWord

def BoundFits (i : Int) : Prop := -9223372036854775808 ≤ i ∧ i < 9223372036854775808

structure Fits (figures : Figures) : Prop where
  bounds : ∀ axis ∈ figures.bounds, BoundFits axis.lo ∧ BoundFits axis.hi
  argCount : figures.argCount ≤ maxValueNumber
  axes : ∀ n ∈ figures.axes, n ≤ maxValueNumber
  positions : ∀ n ∈ figures.positions, n ≤ maxValueNumber

theorem shortWord_fits {n : Nat} (small : n ≤ maxValueNumber) : shortWord n = n :=
  Nat.mod_eq_of_lt (Nat.lt_succ_of_le small)

theorem cut_fits {figures : Figures} (fits : figures.Fits) : figures.cut = figures := by
  have bounds : figures.bounds.map
      (fun axis => (⟨Reader.signedWord axis.lo, Reader.signedWord axis.hi⟩ : Axis)) = figures.bounds := by
    refine (List.map_congr_left fun axis member => ?_).trans (List.map_id _)
    obtain ⟨lo, hi⟩ := fits.bounds axis member
    rw [Reader.signedWord_eq lo.1 lo.2, Reader.signedWord_eq hi.1 hi.2, id]
  have axes : figures.axes.map shortWord = figures.axes :=
    (List.map_congr_left fun n member => shortWord_fits (fits.axes n member)).trans (List.map_id _)
  have positions : figures.positions.map shortWord = figures.positions :=
    (List.map_congr_left fun n member => shortWord_fits (fits.positions n member)).trans (List.map_id _)
  rw [cut, bounds, axes, positions, shortWord_fits fits.argCount]

end Figures

variable {l : Lexeme} {xs ys : List Lexeme}

theorem leading_cons (l : Lexeme) (xs : List Lexeme) : leading (l :: xs) = leading [l] := by
  cases l <;> rfl

theorem behind_append (closed : leading ys = []) : behind l (xs ++ ys) = behind l xs ++ behind l ys := by
  induction xs with
  | nil => rfl
  | cons first xs ih =>
    have same : leading (xs ++ ys) = leading xs := by
      cases xs with
      | nil => exact closed
      | cons next xs => rw [List.cons_append, leading_cons, leading_cons next xs]
    rw [List.cons_append, behind, behind, ih, same, List.append_assoc]

theorem behind_nil (absent : l ∉ xs) : behind l xs = [] := by
  induction xs with
  | nil => rfl
  | cons first xs ih =>
    rw [behind, if_neg (fun same : first = l => absent (same ▸ List.mem_cons_self)), List.nil_append]
    exact ih fun member => absent (List.mem_cons_of_mem _ member)

theorem ranges_nil (absent : .mark .dotDot ∉ xs) : ranges xs = [] := by
  fun_induction ranges xs with
  | case1 => rfl
  | case2 => simp at absent
  | case3 => simp at absent
  | case4 _ _ _ _ ih => exact ih fun member => absent (List.mem_cons_of_mem _ member)

theorem kernelParts_skip (absent : .mark .kernel ∉ xs) : kernelParts (xs ++ ys) = kernelParts ys := by
  induction xs with
  | nil => rfl
  | cons first xs ih =>
    rw [List.cons_append, kernelParts, if_neg (fun same : first = _ => absent (same ▸ List.mem_cons_self))]
    exact ih fun member => absent (List.mem_cons_of_mem _ member)

-- A phrase between the bounds of one kernel and the next `kernel`, with the axes and positions it names.
structure Names (phrase : List Lexeme) (axes positions : List Nat) : Prop where
  noKernel : .mark .kernel ∉ phrase
  noRange : .mark .dotDot ∉ phrase
  noCount : .mark .args ∉ phrase
  closed : leading phrase = []
  axes : behind (.word "index") phrase = axes
  positions : behind (.word "arg") phrase = positions

namespace Names

variable {phrase later : List Lexeme} {a a' p p' : List Nat}

theorem nil : Names [] [] [] := ⟨nofun, nofun, nofun, rfl, rfl, rfl⟩

theorem append (first : Names phrase a p) (others : Names later a' p') : Names (phrase ++ later) (a ++ a') (p ++ p') where
  noKernel := fun member => (List.mem_append.mp member).elim first.noKernel others.noKernel
  noRange := fun member => (List.mem_append.mp member).elim first.noRange others.noRange
  noCount := fun member => (List.mem_append.mp member).elim first.noCount others.noCount
  closed := by
    cases phrase with
    | nil => exact others.closed
    | cons next phrase => rw [List.cons_append, leading_cons, ← leading_cons next phrase, first.closed]
  axes := by rw [behind_append others.closed, first.axes, others.axes]
  positions := by rw [behind_append others.closed, first.positions, others.positions]

theorem cons (later : Names phrase a p) (plain : ∀ m ∈ [Mark.kernel, .dotDot, .args], l ≠ .mark m)
    (noInteger : leading [l] = []) : Names (l :: phrase) a p where
  noKernel := by
    rw [List.mem_cons]
    exact not_or_intro (fun same => plain .kernel (by decide) same.symm) later.noKernel
  noRange := by
    rw [List.mem_cons]
    exact not_or_intro (fun same => plain .dotDot (by decide) same.symm) later.noRange
  noCount := by
    rw [List.mem_cons]
    exact not_or_intro (fun same => plain .args (by decide) same.symm) later.noCount
  closed := by
    cases l <;> first | rfl | exact absurd noInteger (List.cons_ne_nil _ _)
  axes := by rw [behind, later.closed, ite_self, List.nil_append, later.axes]
  positions := by rw [behind, later.closed, ite_self, List.nil_append, later.positions]

theorem word (name : String) (later : Names phrase a p) : Names (.word name :: phrase) a p :=
  later.cons (fun _ _ => nofun) rfl

theorem value (n : Nat) (later : Names phrase a p) : Names (.value n :: phrase) a p :=
  later.cons (fun _ _ => nofun) rfl

theorem mark (m : Mark) (later : Names phrase a p) (plain : m ∉ [Mark.kernel, .dotDot, .args]) :
    Names (.mark m :: phrase) a p :=
  later.cons (fun _ listed same => plain (Lexeme.mark.inj same ▸ listed)) rfl

theorem of_forall (closed : leading phrase = [])
    (plain : ∀ l ∈ phrase, l ∉ [.mark .kernel, .mark .dotDot, .mark .args, .word "index", .word "arg"]) :
    Names phrase [] [] where
  noKernel := fun member => plain _ member (by simp)
  noRange := fun member => plain _ member (by simp)
  noCount := fun member => plain _ member (by simp)
  closed := closed
  axes := behind_nil fun member => plain _ member (by simp)
  positions := behind_nil fun member => plain _ member (by simp)

end Names

namespace Grammar

variable {phrase : List Lexeme}

theorem IsListed.names {vs : List ValueId} (listed : IsListed IsValue phrase vs) : Names phrase [] [] := by
  induction listed with
  | none => exact .nil
  | last first =>
    cases first
    exact .value _ .nil
  | more first _ ih =>
    cases first
    exact .value _ (.mark .comma ih (by decide))

theorem inBrackets_names (names : Names phrase [] []) : Names (inBrackets phrase) [] [] :=
  .mark .leftBracket (names.append (.mark .rightBracket .nil (by decide))) (by decide)

theorem IsPlace.names {place : Place} (access : IsPlace phrase place) : Names phrase [] [] := by
  obtain ⟨field, ⟨listed⟩⟩ := access
  exact .word field (inBrackets_names listed.names)

section Scalars

variable [Scalar α]

def NamesOf (phrase : List Lexeme) (statements : List (Statement α)) : Prop :=
  ∃ axes positions, Names phrase axes positions ∧
    statements.filterMap Statement.axis? = axes.map shortWord ∧
      statements.filterMap Statement.position? = positions.map shortWord

omit [Scalar α] in
theorem NamesOf.append {later : List Lexeme} {ss ss' : List (Statement α)} (first : NamesOf phrase ss)
    (others : NamesOf later ss') : NamesOf (phrase ++ later) (ss ++ ss') := by
  obtain ⟨axes, positions, names, sameAxes, samePositions⟩ := first
  obtain ⟨axes', positions', names', sameAxes', samePositions'⟩ := others
  refine ⟨axes ++ axes', positions ++ positions', names.append names', ?_, ?_⟩
  · rw [List.filterMap_append, sameAxes, sameAxes', List.map_append]
  · rw [List.filterMap_append, samePositions, samePositions', List.map_append]

omit [Scalar α] in
theorem NamesOf.plain {s : Statement α} (names : Names phrase [] []) (axis : s.axis? = none)
    (position : s.position? = none) : NamesOf phrase [s] :=
  ⟨[], [], names, by simp [axis], by simp [position]⟩

theorem IsExpr.names (dst : ValueId) {e : Expr α} (expr : IsExpr phrase e) :
    NamesOf phrase [.instr (.define dst e)] := by
  cases expr with
  | const constant =>
    refine .plain ?_ rfl rfl
    cases constant with
    | plain magnitude | negative magnitude =>
      cases magnitude <;> exact .of_forall rfl (by simp)
  | index n =>
    have names : Names [.word "index", .integer n] [n] [] :=
      ⟨by simp, by simp, by simp, rfl, by simp [behind, leading], by simp [behind]⟩
    exact ⟨[n], [], names, rfl, rfl⟩
  | arg n =>
    have names : Names [.word "arg", .integer n] [] [n] :=
      ⟨by simp, by simp, by simp, rfl, by simp [behind], by simp [behind, leading]⟩
    exact ⟨[], [n], names, rfl, rfl⟩
  | load access => exact .plain (.word _ access.names) rfl rfl
  | unary op operand => exact .plain (.word _ (.value _ .nil)) rfl rfl
  | binary op lhs rhs | compare op lhs rhs =>
    exact .plain (.word _ (.value _ (.mark .comma (.value _ .nil) (by decide)))) rfl rfl

theorem IsInstr.names {i : Instr α} (instr : IsInstr phrase i) : NamesOf phrase [.instr i] := by
  have value : ∀ v, Names [.value v] [] [] := fun v => .value v .nil
  cases instr with
  | define dst expr =>
    obtain ⟨axes, positions, names, sameAxes, samePositions⟩ := expr.names dst
    exact ⟨axes, positions, .value _ (.mark .equals names (by decide)), sameAxes, samePositions⟩
  | store access v =>
    exact .plain (.mark .store (access.names.append (.mark .comma (value _) (by decide))) (by decide)) rfl rfl
  | readGrad target access =>
    exact .plain (.mark .adj (.value _ (.mark .plusEquals (.mark .grad access.names (by decide)) (by decide)))
      (by decide)) rfl rfl
  | propagate | scaled | negated => exact .plain (.of_forall rfl (by simp)) rfl rfl
  | addGrad access source =>
    exact .plain (.mark .grad (access.names.append
      (.mark .plusEquals (.mark .adj (value _) (by decide)) (by decide))) (by decide)) rfl rfl

omit [Scalar α] in
theorem NamesOf.inBraces {ss : List (Statement α)} (names : NamesOf phrase ss) : NamesOf (inBraces phrase) ss := by
  obtain ⟨axes, positions, names, same⟩ := names
  have closed := names.append (.mark .rightBrace .nil (by decide))
  rw [List.append_nil, List.append_nil] at closed
  exact ⟨axes, positions, .mark .leftBrace closed (by decide), same⟩

omit [Scalar α] in
theorem NamesOf.branch (cond : ValueId) :
    NamesOf [.mark .branch, .value cond.index] [(.branch cond : Statement α)] :=
  .plain (.of_forall rfl (by simp)) rfl rfl

-- The induction is on the grammar of blocks, whose statements stand in the order of their phrases.
theorem IsBlock.names {levels : Nat} {block : Block α} (isBlock : IsBlock levels phrase block) :
    NamesOf phrase block.statements := by
  induction isBlock with
  | nil => exact ⟨[], [], .nil, rfl, rfl⟩
  | instr first _ ih => exact first.names.append ih
  | @branch _ inTrue later onTrue rest cond _ _ ihTrue ihRest =>
    have whole := (NamesOf.branch cond).append (ihTrue.inBraces.append ihRest)
    simpa [Block.statements] using whole
  | @choice _ inTrue inFalse later onTrue onFalse rest cond _ _ _ ihTrue ihFalse ihRest =>
    have between : NamesOf [.mark .otherwise] ([] : List (Statement α)) :=
      ⟨[], [], .of_forall rfl (by simp), rfl, rfl⟩
    have whole := (NamesOf.branch cond).append (ihTrue.inBraces.append (between.append (ihFalse.inBraces.append ihRest)))
    simpa [Block.statements] using whole

end Scalars

theorem IsSigned.bound {i : Int} (signed : IsSigned phrase i) (m : Mark) (rest : List Lexeme) :
    i = Reader.signedWord (leadingBound (phrase ++ .mark m :: rest)) := by
  cases signed <;> rfl

theorem IsSigned.ranges {i : Int} (signed : IsSigned phrase i) {m : Mark} (ends : m ∈ [Mark.comma, .rightBracket])
    (rest : List Lexeme) : ranges (phrase ++ .mark m :: rest) = ranges rest := by
  simp only [List.mem_cons, List.not_mem_nil, or_false] at ends
  cases signed <;> rcases ends with rfl | rfl <;> simp [FieldKernel.ranges]

theorem IsAxis.ranges {axis : Axis} (isAxis : IsAxis phrase axis) {m : Mark} (ends : m ∈ [Mark.comma, .rightBracket])
    (rest : List Lexeme) : ∃ written : Axis, ranges (phrase ++ .mark m :: rest) = written :: ranges rest ∧
      axis = ⟨Reader.signedWord written.lo, Reader.signedWord written.hi⟩ := by
  obtain ⟨lower, upper⟩ := isAxis
  rw [upper.bound m rest, List.append_assoc, List.cons_append]
  cases lower with
  | plain n =>
    refine ⟨⟨n, leadingBound _⟩, ?_, rfl⟩
    rw [← upper.ranges ends rest]
    rfl
  | negative n =>
    refine ⟨⟨-n, leadingBound _⟩, ?_, rfl⟩
    rw [← upper.ranges ends rest]
    rfl

theorem ranges_domain {axes : List Axis} (listed : IsListed IsAxis phrase axes) {rest : List Lexeme}
    (noRange : .mark .dotDot ∉ rest) :
    axes = (ranges (phrase ++ .mark .rightBracket :: rest)).map fun axis =>
      ⟨Reader.signedWord axis.lo, Reader.signedWord axis.hi⟩ := by
  induction listed with
  | none =>
    rw [List.nil_append, ranges_nil (by simpa using noRange)]
    rfl
  | last first =>
    obtain ⟨written, same, rfl⟩ := first.ranges (m := .rightBracket) (by decide) rest
    rw [same, ranges_nil noRange]
    rfl
  | @more phrase later axis axes first _ ih =>
    obtain ⟨written, same, rfl⟩ := first.ranges (m := .comma) (by decide) (later ++ .mark .rightBracket :: rest)
    rw [List.append_assoc, List.cons_append, same, List.map_cons, ← ih]

theorem IsBracketed.forall {β : Type} {element : List Lexeme → β → Prop} {P : Lexeme → Prop} {bs : List β}
    (bracketed : IsBracketed element phrase bs) (each : ∀ phrase b, element phrase b → ∀ l ∈ phrase, P l)
    (marks : ∀ m ∈ [Mark.leftBracket, .comma, .rightBracket], P (.mark m)) : ∀ l ∈ phrase, P l := by
  obtain ⟨listed⟩ := bracketed
  refine List.forall_mem_cons.mpr ⟨marks _ (by decide), List.forall_mem_append.mpr ⟨?_,
    List.forall_mem_singleton.mpr (marks _ (by decide))⟩⟩
  induction listed with
  | none => nofun
  | last first => exact each _ _ first
  | more first _ ih =>
    exact List.forall_mem_append.mpr ⟨each _ _ first, List.forall_mem_cons.mpr ⟨marks _ (by decide), ih⟩⟩

theorem domain_plain {axes : List Axis} (domain : IsBracketed IsAxis phrase axes) :
    ∀ l ∈ phrase, l ∉ [.mark .kernel, .mark .args, .word "index", .word "arg"] := by
  have bound : ∀ {phrase : List Lexeme} {i : Int}, IsSigned phrase i →
      ∀ l ∈ phrase, l ∉ [.mark .kernel, .mark .args, .word "index", .word "arg"] := by
    intro phrase i signed l member
    cases signed with
    | plain n =>
      cases List.mem_singleton.mp member
      simp
    | negative n =>
      simp only [List.mem_cons, List.not_mem_nil, or_false] at member
      rcases member with rfl | rfl <;> simp
  refine domain.forall ?_ (by decide)
  intro phrase axis isAxis
  obtain ⟨lower, upper⟩ := isAxis
  exact List.forall_mem_append.mpr ⟨bound lower, List.forall_mem_cons.mpr ⟨by simp, bound upper⟩⟩

theorem sizes_names {shape : Shape} (sizes : IsBracketed IsInteger phrase shape) : Names phrase [] [] := by
  refine .of_forall ?_ (sizes.forall ?_ (by decide))
  · cases sizes
    rfl
  · intro phrase n integer l member
    cases integer
    cases List.mem_singleton.mp member
    simp

theorem IsGroup.names {path : String} (group : IsGroup phrase path) : Names phrase [] [] := by
  obtain ⟨first, parts⟩ := group
  apply Names.word
  induction parts with
  | nil => exact .nil
  | cons part parts ih => exact .mark .dot (.word part ih) (by decide)

theorem IsField.names {form : FieldForm} (isField : IsField phrase form) : Names phrase [] [] := by
  cases isField with
  | @field sizes membership shape group? name element extents member =>
    have memberNames : Names membership [] [] := by
      cases member with
      | root => exact .nil
      | within group => exact .mark .within group.names (by decide)
    exact .mark .field (.word name (.mark .colon (.word _ ((sizes_names extents).append memberNames)) (by decide))) (by decide)

section Scalars

variable [Scalar α]

theorem IsProgram.names {outline : Outline α} (isProgram : IsProgram phrase outline) :
    Names (phrase.takeWhile (· ≠ .mark .kernel)) [] [] := by
  induction isProgram with
  | nil => exact .nil
  | @item phrase later item rest first _ ih =>
    have behind : Names phrase [] [] → Names ((phrase ++ later).takeWhile (· ≠ .mark .kernel)) [] [] := by
      intro names
      rw [List.takeWhile_append_of_pos]
      · exact names.append ih
      · intro l member
        exact decide_eq_true fun same => names.noKernel (same ▸ member)
    cases first with
    | field isField => exact behind isField.names
    | grad group => exact behind (.mark .grad group.names (by decide))
    | kernel isKernel =>
      cases isKernel
      exact .nil

omit [Scalar α] in
theorem IsCount.names {n : Nat} (isCount : IsCount phrase n) {later : List Lexeme} {axes positions : List Nat}
    (names : Names later axes positions) : leading (phrase ++ later) = [] ∧ .mark .dotDot ∉ phrase ++ later ∧
      n = shortWord ((behind (.mark .args) (phrase ++ later)).headD 0) ∧
      behind (.word "index") (phrase ++ later) = axes ∧ behind (.word "arg") (phrase ++ later) = positions := by
  cases isCount with
  | absent =>
    rw [List.nil_append, behind_nil names.noCount]
    exact ⟨names.closed, names.noRange, rfl, names.axes, names.positions⟩
  | args n =>
    have noRange := names.noRange
    refine ⟨rfl, by simpa using noRange, ?_, ?_, ?_⟩
    · simp [behind, leading]
    · simpa [behind, leading] using names.axes
    · simpa [behind, leading] using names.positions

omit [Scalar α] in
theorem behind_domain {axes : List Axis} (domain : IsBracketed IsAxis phrase axes) (name : String)
    {later : List Lexeme} (closed : leading later = []) {l : Lexeme}
    (listed : l ∈ [.mark .args, .word "index", .word "arg"]) :
    behind l (.word name :: .mark .onDomain :: (phrase ++ later)) = behind l later := by
  have absent : l ∉ phrase := fun member => domain_plain domain l member (List.mem_cons_of_mem _ listed)
  have other : Lexeme.mark .onDomain ≠ l := fun same => by simp [← same] at listed
  rw [behind, behind, if_neg other, behind_append closed, behind_nil absent]
  simp [leading]

-- A kernel denotes what is written in its part of a text, cut to words. Nothing that stands behind it
-- counts.
theorem IsKernel.figures {later : List Lexeme} {kernel : Kernel α} (isKernel : IsKernel phrase kernel)
    (others : Names later [] []) : ∃ part, phrase = .mark .kernel :: part ∧ .mark .kernel ∉ part ∧
      kernel.figures = (Figures.written (part ++ later)).cut := by
  cases isKernel with
  | @kernel _ domain count body axes argCount block name isDomain isCount _ isBlock =>
    obtain ⟨named, positions, names, sameAxes, samePositions⟩ := isBlock.names.inBraces
    have tail := names.append others
    rw [List.append_nil, List.append_nil] at tail
    obtain ⟨closed, noRange, args, index, arg⟩ := isCount.names tail
    have head : ∀ {l : Lexeme}, l ∈ [.mark .args, .word "index", .word "arg"] → _ :=
      behind_domain isDomain name closed
    refine ⟨_, rfl, ?_, ?_⟩
    · have inDomain : .mark .kernel ∉ domain := fun member => domain_plain isDomain _ member (by simp)
      have inCount : .mark .kernel ∉ count := by
        cases isCount <;> simp
      simp [inDomain, inCount, names.noKernel]
    · have bounds : axes = (ranges (.word name :: .mark .onDomain :: (domain ++ (count ++ (inBraces body ++ later))))).map
          fun axis => ⟨Reader.signedWord axis.lo, Reader.signedWord axis.hi⟩ := by
        obtain ⟨listed⟩ := isDomain
        rw [ranges_domain listed noRange, inBrackets, List.cons_append, List.append_assoc]
        rfl
      simp only [List.cons_append, List.append_assoc, Figures.written, Figures.cut, Kernel.figures, Kernel.ofBody]
      rw [head (by simp), head (by simp), head (by simp), index, arg, ← args, ← sameAxes, ← samePositions, ← bounds]

-- Kernels denote what is written in their parts of a text. The induction is on the items.
theorem IsProgram.figures {outline : Outline α} (isProgram : IsProgram phrase outline) :
    List.Forall₂ (fun part kernel => kernel.figures = (Figures.written part).cut) (kernelParts phrase)
      outline.kernels := by
  induction isProgram with
  | nil => exact .nil
  | @item phrase later item rest first others ih =>
    cases first with
    | field isField =>
      rw [kernelParts_skip isField.names.noKernel]
      exact ih
    | grad group =>
      rw [kernelParts_skip (Names.mark .grad group.names (by decide)).noKernel]
      exact ih
    | kernel isKernel =>
      obtain ⟨part, rfl, noKernel, figures⟩ := isKernel.figures others.names
      rw [List.cons_append, kernelParts, if_pos rfl, kernelParts_skip noKernel]
      rw [List.takeWhile_append_of_pos]
      · exact .cons figures ih
      · intro l member
        exact decide_eq_true fun same => noKernel (same ▸ member)

end Scalars

end Grammar

-- Digits, up to the end of their run, denote an integer of a text if it is not too large.
def SpellsInteger (digits after : List Char) (n : Nat) : Prop :=
  Digits digits ∧ (∀ c ∈ after.head?, Piece.isDigit c = false) ∧ Decimal.natOfDigits digits = n ∧ n ≤ maxInteger

namespace Piece

theorem assemble_integer {whole : List Char} {fraction : Option (List Char)} {exponent : Option Exponent} {n : Nat}
    (integer : (assemble whole fraction exponent).lexeme? = some (.integer n))
    (silent : (assemble whole fraction exponent).issue? = none) :
    (assemble whole fraction exponent).width = whole.length ∧ Decimal.natOfDigits whole = n ∧ n ≤ maxInteger := by
  unfold assemble Piece.integer at integer silent ⊢
  dsimp only at integer silent ⊢
  split at integer
  · split at integer
    · next small =>
      cases integer
      rw [if_pos small]
      exact ⟨rfl, rfl, small⟩
    · next large =>
      rw [if_neg large] at silent
      cases silent
  · cases integer
  · cases integer

theorem spells_takeWhile {c : Char} {rest : List Char} (digit : isDigit c = true) {n : Nat}
    (denotes : Decimal.natOfDigits ((c :: rest).takeWhile isDigit) = n) (small : n ≤ maxInteger) :
    SpellsInteger ((c :: rest).takeWhile isDigit) ((c :: rest).drop ((c :: rest).takeWhile isDigit).length) n := by
  refine ⟨⟨?_, fun d member => List.all_eq_true.mp List.all_takeWhile d member⟩, ?_, denotes, small⟩
  · rw [List.takeWhile_cons, if_pos digit]
    exact List.cons_ne_nil _ _
  · have split : (c :: rest).drop ((c :: rest).takeWhile isDigit).length = (c :: rest).dropWhile isDigit := calc
      _ = ((c :: rest).takeWhile isDigit ++ (c :: rest).dropWhile isDigit).drop ((c :: rest).takeWhile isDigit).length := by
        rw [List.takeWhile_append_dropWhile]
      _ = _ := List.drop_left
    rw [split]
    intro d first
    have stopped := List.head?_dropWhile_not isDigit (c :: rest)
    rw [first] at stopped
    exact stopped

theorem ofHead_integer {c : Char} {rest : List Char} {n : Nat}
    (integer : (ofHead c rest).lexeme? = some (.integer n)) (silent : (ofHead c rest).issue? = none) :
    SpellsInteger ((c :: rest).take (ofHead c rest).width) ((c :: rest).drop (ofHead c rest).width) n := by
  unfold ofHead at integer silent ⊢
  split at integer
  · simp only [word, ofLexeme, Lexeme.ofWord, Option.some.injEq] at integer
    split at integer <;> cases integer
  · next noLetter =>
    split at integer
    · next digit =>
      rw [if_neg noLetter, if_pos digit] at silent ⊢
      rw [number_eq] at integer silent
      obtain ⟨width, denotes, small⟩ := assemble_integer integer silent
      rw [number_eq, width, take_takeWhile]
      exact spells_takeWhile digit denotes small
    · split at integer
      · unfold value at integer
        dsimp only at integer
        split at integer
        · cases integer
        · split at integer <;> cases integer
      · unfold symbol at integer
        split at integer <;> cases integer

end Piece

theorem Cut.integer {start : Nat} {cs : List Char} {scan : Scan} (cut : Cut start cs scan) (silent : scan.issues = [])
    {t : Located Lexeme} (member : t ∈ scan.tokens) {n : Nat} (integer : t.node = .integer n) :
    ∃ before digits after, cs = before ++ (digits ++ after) ∧ t.span.start = start + before.length ∧
      t.span.stop = t.span.start + digits.length ∧ SpellsInteger digits after n := by
  induction cut with
  | done => cases member
  | @blank start c rest _ _ _ ih =>
    obtain ⟨before, digits, after, rfl, first, last, spells⟩ := ih silent member
    exact ⟨c :: before, digits, after, rfl, by rw [first, List.length_cons]; omega, last, spells⟩
  | @comment start rest _ _ ih =>
    obtain ⟨before, digits, after, split, first, last, spells⟩ := ih silent member
    refine ⟨'#' :: (rest.takeWhile (· ≠ '\n') ++ before), digits, after, ?_, ?_, last, spells⟩
    · have whole := List.take_append_drop (rest.takeWhile (· ≠ '\n')).length rest
      rw [Piece.take_takeWhile] at whole
      rw [List.cons_append, List.append_assoc, ← split, whole]
    · rw [first, List.length_cons, List.length_append]
      omega
  | @piece start c rest scan _ later ih =>
    obtain ⟨silentHere, silentLater⟩ := List.append_eq_nil_iff.mp silent
    rcases Scan.mem_tokens_addPiece.mp member with ⟨here, span⟩ | inLater
    · rw [integer] at here
      have few := (Piece.ofHead_width c rest).2
      have quiet : (Piece.ofHead c rest).issue? = none := by
        cases issue : (Piece.ofHead c rest).issue? with
        | none => rfl
        | some =>
          rw [issue] at silentHere
          cases silentHere
      refine ⟨[], _, _, (List.take_append_drop (Piece.ofHead c rest).width (c :: rest)).symm, ?_, ?_,
        Piece.ofHead_integer here quiet⟩
      · rw [span]
        rfl
      · rw [span, List.length_take_of_le few]
    · obtain ⟨before, digits, after, split, first, last, spells⟩ := ih silentLater inLater
      refine ⟨(c :: rest).take (Piece.ofHead c rest).width ++ before, digits, after, ?_, ?_, last, spells⟩
      · rw [List.append_assoc, ← split, List.take_append_drop]
      · rw [first, List.length_append, List.length_take_of_le (Piece.ofHead_width c rest).2, Nat.add_assoc]

-- The integers of an accepted text are what its digits say. A kernel has the bounds, the number of
-- arguments, the axes and the positions that are written in its part of the text, where these fit into the
-- words that hold them; what does not fit is cut to words, and nothing is said of it.
theorem Program.read_figures [Scalar α] {text : String} {program : Program α} (accepted : read text = .ok program) :
    List.Forall₂ (fun part kernel => kernel.node.figures = (Figures.written part).cut ∧
        ((Figures.written part).Fits → kernel.node.figures = Figures.written part))
      (kernelParts ((Scan.ofText text).tokens.map (·.node))) program.kernels ∧
    ∀ t ∈ (Scan.ofText text).tokens, ∀ n, t.node = .integer n → ∃ before digits after,
      Scan.octets text = before ++ (digits ++ after) ∧ t.span = ⟨before.length, before.length + digits.length⟩ ∧
        SpellsInteger digits after n := by
  unfold read at accepted
  dsimp only at accepted
  split at accepted
  · next silent =>
    split at accepted
    · cases accepted
    · next read_ taken =>
      split at accepted
      · cases accepted
        have isProgram := Reader.program_taken taken
        refine ⟨?_, ?_⟩
        · have figures := List.forall₂_map_right_iff.mp isProgram.figures
          exact figures.imp fun part kernel cut => ⟨cut, fun fits => cut.trans (Figures.cut_fits fits)⟩
        · intro t member n integer
          obtain ⟨before, digits, after, split, first, last, spells⟩ :=
            (Scan.cut_ofText text).integer (List.isEmpty_iff.mp silent) member integer
          rw [Nat.zero_add] at first
          refine ⟨before, digits, after, split, ?_, spells⟩
          rw [← first, ← last]
      · cases accepted
  · cases accepted

theorem Program.read_cuts_index : ∃ program : Program Float,
    read "kernel k over [0..4] \x7b\n  %0 = index 4294967296\n\x7d\n" = .ok program ∧
      program.kernels.map (·.node.figures) = [⟨[⟨0, 4⟩], 0, [0], []⟩] ∧
      (kernelParts ((Scan.ofText "kernel k over [0..4] \x7b\n  %0 = index 4294967296\n\x7d\n").tokens.map
        (·.node))).map Figures.written = [⟨[⟨0, 4⟩], 0, [4294967296], []⟩] := by
  have figures : (read "kernel k over [0..4] \x7b\n  %0 = index 4294967296\n\x7d\n" : Except _ (Program Float)).map
      (·.kernels.map (·.node.figures)) = .ok [⟨[⟨0, 4⟩], 0, [0], []⟩] := by decide +kernel
  obtain ⟨program, accepted, cut⟩ := Except.map_ok.mp figures
  exact ⟨program, accepted, cut, by decide +kernel⟩

theorem Program.read_figures_shift : ∃ program : Program Float,
    read "kernel shift over [-1..4] args 2 \x7b\n  %0 = index 0\n  %1 = arg 1\n\x7d\n" = .ok program ∧
      program.kernels.map (·.node.figures) = [⟨[⟨-1, 4⟩], 2, [0], [1]⟩] := by
  have reads : (read "kernel shift over [-1..4] args 2 \x7b\n  %0 = index 0\n  %1 = arg 1\n\x7d\n" :
      Except _ (Program Float)).map (fun _ => ()) = .ok () := by decide +kernel
  have parts : (kernelParts ((Scan.ofText
      "kernel shift over [-1..4] args 2 \x7b\n  %0 = index 0\n  %1 = arg 1\n\x7d\n").tokens.map (·.node))).map
        Figures.written = [⟨[⟨-1, 4⟩], 2, [0], [1]⟩] := by decide +kernel
  have fits : (⟨[⟨-1, 4⟩], 2, [0], [1]⟩ : Figures).Fits :=
    ⟨by simp [Figures.BoundFits], by decide, by decide, by decide⟩
  obtain ⟨program, accepted, -⟩ := Except.map_ok.mp reads
  have kept : List.Forall₂ (fun (figures : Figures) (kernel : Located (Kernel Float)) =>
      figures.Fits → kernel.node.figures = figures) [⟨[⟨-1, 4⟩], 2, [0], [1]⟩] program.kernels := by
    rw [← parts]
    exact List.forall₂_map_left_iff.mpr ((read_figures accepted).1.imp fun _ _ => And.right)
  refine ⟨program, accepted, ?_⟩
  generalize program.kernels = kernels at kept
  cases kept with
  | cons same others =>
    cases others
    exact congrArg ([·]) (same fits)

end FieldKernel
