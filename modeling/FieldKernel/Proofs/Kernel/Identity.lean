import FieldKernel.Proofs.Kernel.Fusion
import FieldKernel.Proofs.Kernel.Text

-- The bytes that identify a kernel give its lines back, and the lines all of it but the counter.
namespace FieldKernel

theorem unbroken_append {a b : String} : Unbroken (a ++ b) ↔ Unbroken a ∧ Unbroken b := by
  simp [Unbroken]

theorem IsWord.unbroken {name : String} (word : IsWord name) : Unbroken name := fun member => by
  have := word _ member
  revert this
  decide

theorem unbroken_value (v : ValueId) : Unbroken v.text := by
  have := (isWord_repr v.index).unbroken
  simp only [Unbroken, ValueId.toList_text] at this ⊢
  simpa using this

theorem unbroken_intercalate {texts : List String} (each : ∀ t ∈ texts, Unbroken t) :
    Unbroken (String.intercalate ", " texts) := by
  induction texts with
  | nil => exact (by decide : Unbroken "")
  | cons t rest ih =>
    cases rest with
    | nil => simpa using each t
    | cons u rest =>
      have comma : Unbroken ", " := by decide
      rw [String.intercalate_cons_cons, unbroken_append, unbroken_append]
      exact ⟨⟨each t List.mem_cons_self, comma⟩, ih fun w member => each w (List.mem_cons_of_mem _ member)⟩

theorem toList_joinLines (lines : List String) :
    (joinLines lines).toList = lines.flatMap fun line => line.toList ++ ['\n'] := by
  simp [joinLines, List.flatMap_map]

theorem joinLines_inj {a b : List String} (unbrokenA : ∀ line ∈ a, Unbroken line)
    (unbrokenB : ∀ line ∈ b, Unbroken line) (same : joinLines a = joinLines b) : a = b := by
  replace same := congrArg String.toList same
  rw [toList_joinLines, toList_joinLines] at same
  induction a generalizing b with
  | nil =>
    cases b with
    | nil => rfl
    | cons line rest => simp at same
  | cons line rest ih =>
    cases b with
    | nil => simp at same
    | cons line' rest' =>
      simp only [List.flatMap_cons, List.append_assoc, List.singleton_append] at same
      have within : ∀ line : String, Unbroken line → ∀ c ∈ line.toList, (decide (c ≠ '\n')) = true :=
        fun line unbroken c member => decide_eq_true fun feed => unbroken (feed ▸ member)
      obtain ⟨lines, others⟩ := span_inj (within line (unbrokenA line List.mem_cons_self))
        (within line' (unbrokenB line' List.mem_cons_self)) (by simp) (by simp) same
      rw [String.toList_inj.mp lines, ih (fun l member => unbrokenA l (List.mem_cons_of_mem _ member))
        (fun l member => unbrokenB l (List.mem_cons_of_mem _ member)) (List.cons.inj others).2]

theorem utf8_inj {a b : String} (same : utf8 a = utf8 b) : a = b := by
  simp only [utf8, Array.toList_inj] at same
  exact String.toByteArray_inj.mp (ByteArray.ext same)

def inBound (c : Char) : Bool := c = '-' || c.isDigit

theorem inBound_toString (i : Int) : ∀ c ∈ (toString i).toList, inBound c = true := by
  intro c member
  rw [Int.toString_eq_repr, Int.repr_eq_if] at member
  have digits : ∀ n : Nat, c ∈ n.repr.toList → inBound c = true := fun n inN => by
    have digit := Nat.isDigit_of_mem_toDigits (by decide) (by decide) (Nat.toList_repr ▸ inN)
    simp [inBound, digit]
  split at member
  · exact digits _ member
  · rw [String.toList_append, List.mem_append] at member
    rcases member with sign | inN
    · have : c = '-' := by simpa using sign
      simp [inBound, this]
    · exact digits _ inN

theorem int_inj {a b : Int} {r s : List Char} (outR : ∀ c ∈ r.head?, inBound c = false)
    (outS : ∀ c ∈ s.head?, inBound c = false)
    (same : (toString a).toList ++ r = (toString b).toList ++ s) : a = b ∧ r = s := by
  obtain ⟨bounds, rest⟩ := span_inj (inBound_toString a) (inBound_toString b) outR outS same
  have bounds := String.toList_inj.mp bounds
  rw [Int.toString_eq_repr, Int.toString_eq_repr] at bounds
  exact ⟨Int.repr_injective bounds, rest⟩

theorem Axis.text_inj {a b : Axis} {r s : List Char} (breakR : Breaks r) (breakS : Breaks s)
    (same : a.text.toList ++ r = b.text.toList ++ s) : a = b ∧ r = s := by
  have point : ∀ cs, ∀ c ∈ ('.' :: cs).head?, inBound c = false := by
    intro cs c head
    cases head
    decide
  have outside : ∀ cs, Breaks cs → ∀ c ∈ cs.head?, inBound c = false := by
    rintro cs ⟨rest, rfl | rfl⟩ c head <;> cases head <;> decide
  simp only [text, String.toList_append, List.append_assoc] at same
  obtain ⟨los, others⟩ := int_inj (point _) (point _) same
  obtain ⟨his, rest⟩ := int_inj (outside _ breakR) (outside _ breakS)
    (List.cons.inj (List.cons.inj others).2).2
  cases a
  cases b
  simp_all

theorem Domain.text_inj {a b : Domain} {r s : List Char}
    (same : a.text.toList ++ r = b.text.toList ++ s) : a = b ∧ r = s := by
  have first : ∀ axis : Axis, ∃ c cs, axis.text.toList = c :: cs ∧ c ≠ ']' := by
    intro axis
    rw [Axis.text, String.toList_append, String.toList_append, List.append_assoc]
    cases chars : (toString axis.lo).toList with
    | nil => exact ⟨'.', _, rfl, by decide⟩
    | cons c cs =>
      refine ⟨c, _, rfl, fun close => ?_⟩
      have inside := inBound_toString axis.lo c (chars ▸ List.mem_cons_self)
      rw [close] at inside
      cases inside
  simp only [text, String.toList_append, List.append_assoc] at same
  obtain ⟨axes, rest⟩ := listed_inj first (fun _ _ _ _ => Axis.text_inj) (List.cons.inj same).2
  cases a
  cases b
  simp_all

theorem unbroken_domain (domain : Domain) : Unbroken domain.text := by
  have bound : ∀ i : Int, Unbroken (toString i) := fun i member => by
    have := inBound_toString i _ member
    cases this
  have opens : Unbroken "[" := by decide
  have closes : Unbroken "]" := by decide
  have points : Unbroken ".." := by decide
  simp only [Domain.text, unbroken_append]
  refine ⟨⟨opens, unbroken_intercalate fun t member => ?_⟩, closes⟩
  obtain ⟨axis, -, rfl⟩ := List.mem_map.mp member
  simp only [Axis.text, unbroken_append]
  exact ⟨⟨bound _, points⟩, bound _⟩

theorem unbroken_place {place : Place} (word : IsWord place.field) : Unbroken place.text := by
  have opens : Unbroken "[" := by decide
  have closes : Unbroken "]" := by decide
  simp only [Place.text, unbroken_append]
  refine ⟨⟨⟨word.unbroken, opens⟩, unbroken_intercalate fun t member => ?_⟩, closes⟩
  obtain ⟨v, -, rfl⟩ := List.mem_map.mp member
  exact unbroken_value v

variable {α : Type} [Scalar α]

section Unbroken

variable (unbroken : ∀ x : α, Unbroken (Scalar.literal x))
include unbroken

theorem unbroken_expr {e : Expr α} (worded : e.Worded) : Unbroken e.text := by
  have mnemonic := e.isWord_mnemonic.unbroken
  have number := fun n => (isWord_repr n).unbroken
  have value := unbroken_value
  simp only [Unbroken, Expr.toList_text, List.mem_append, List.mem_cons, Char.reduceEq, false_or,
    not_or] at mnemonic number value ⊢
  refine ⟨mnemonic, ?_⟩
  cases e with
  | const x => exact unbroken x
  | index n | arg n => exact number n
  | load place => exact unbroken_place worded
  | binary op lhs rhs | compare op lhs rhs => simp [Expr.operandText, value]
  | unary op operand => exact value operand

theorem unbroken_instr {i : Instr α} (worded : i.Worded) : Unbroken i.text := by
  have keyword := i.isWord_keyword.unbroken
  have value := unbroken_value
  simp only [Unbroken, Instr.toList_text, List.mem_append, not_or] at keyword value ⊢
  refine ⟨keyword, ?_⟩
  cases i with
  | define dst e =>
    have expr := unbroken_expr unbroken worded
    simp only [Unbroken] at expr
    simp [Instr.restText, value, expr]
  | store place v | addGrad place v =>
    have place := unbroken_place worded
    simp only [Unbroken] at place
    simp [Instr.restText, value, place]
  | readGrad target place =>
    have place := unbroken_place worded
    simp only [Unbroken] at place
    simp [Instr.restText, Instr.adjointText, value, place]
  | propagate target source scale =>
    cases scale <;> simp [Instr.restText, Instr.adjointText, value]

end Unbroken

def Block.Worded (block : Block α) : Prop := ∀ i, .instr i ∈ block.statements → i.Worded

omit [Scalar α] in
theorem Block.Worded.part {a b : Block α} (worded : a.Worded) (part : b.statements ⊆ a.statements) :
    b.Worded := fun i member => worded i (part member)

theorem unbroken_indent (depth : Nat) : Unbroken (indent depth) := by
  simp [Unbroken, indent]

theorem unbroken_lines (unbroken : ∀ x : α, Unbroken (Scalar.literal x)) {block : Block α}
    (worded : block.Worded) (depth : Nat) : ∀ line ∈ block.lines depth, Unbroken line := by
  have space := unbroken_indent
  have opens : Unbroken " \x7b" := by decide
  have closes : Unbroken "\x7d" := by decide
  have turns : Unbroken "\x7d else \x7b" := by decide
  have asks : Unbroken "if " := by decide
  induction block generalizing depth with
  | nil => exact fun line none_ => nomatch none_
  | instr i rest ih =>
    rw [Block.lines, List.forall_mem_cons]
    refine ⟨?_, ih (worded.part (List.subset_cons_self _ _)) depth⟩
    exact unbroken_append.mpr ⟨space depth, unbroken_instr unbroken (worded i List.mem_cons_self)⟩
  | branch cond onTrue onFalse rest ihTrue ihFalse ihRest =>
    have inTrue := ihTrue (worded.part Block.onTrue_subset) (depth + 1)
    have inFalse := ihFalse (worded.part Block.onFalse_subset) (depth + 1)
    have inRest := ihRest (worded.part Block.rest_subset) depth
    intro line member
    simp only [Block.lines, List.cons_append, List.append_assoc, List.mem_cons, List.mem_append] at member
    rcases member with rfl | inside | turn | rfl | later
    · simp only [unbroken_append]
      exact ⟨⟨⟨space depth, asks⟩, unbroken_value cond⟩, opens⟩
    · exact inTrue line inside
    · split at turn
      · cases turn
      · rcases List.mem_cons.mp turn with rfl | inside
        · exact unbroken_append.mpr ⟨space depth, turns⟩
        · exact inFalse line inside
    · exact unbroken_append.mpr ⟨space depth, closes⟩
    · exact inRest line later

def Shuts (depth : Nat) (lines : List String) : Prop :=
  ∀ line ∈ lines.head?, ∃ cs, line.toList = (indent depth).toList ++ '}' :: cs

theorem indent_succ (depth : Nat) : (indent (depth + 1)).toList = (indent depth).toList ++ [' ', ' '] := by
  simp only [indent, Nat.mul_add, Nat.mul_one, String.toList_ofList, List.replicate_add]
  rfl

theorem Shuts.deeper {depth : Nat} {line : String} {lines : List String} (shuts : Shuts depth (line :: lines))
    {cs : List Char} : line.toList ≠ (indent (depth + 1)).toList ++ cs := by
  intro inside
  obtain ⟨ds, ends⟩ := shuts line rfl
  rw [ends, indent_succ, List.append_assoc, List.append_cancel_left_eq] at inside
  simp at inside

theorem shuts_cons {depth : Nat} {text : String} {lines : List String} {cs : List Char}
    (ends : text.toList = '}' :: cs) : Shuts depth ((indent depth ++ text) :: lines) := by
  intro line same
  cases same
  exact ⟨cs, by rw [String.toList_append, ends]⟩

omit [Scalar α] in
theorem lines_branch (cond : ValueId) (onTrue onFalse rest : Block α) [Scalar α] (depth : Nat) :
    (Block.branch cond onTrue onFalse rest).lines depth =
      (indent depth ++ ("if " ++ cond.text ++ " \x7b")) :: (onTrue.lines (depth + 1) ++
        ((if onFalse.isEmpty then [] else (indent depth ++ "\x7d else \x7b") :: onFalse.lines (depth + 1))
          ++ (indent depth ++ "\x7d") :: rest.lines depth)) := by
  simp [Block.lines, String.append_assoc]

theorem shuts_else (depth : Nat) (onFalse : Block α) (later : List String) :
    Shuts depth ((if onFalse.isEmpty then []
      else (indent depth ++ "\x7d else \x7b") :: onFalse.lines (depth + 1)) ++
        (indent depth ++ "\x7d") :: later) := by
  split
  · exact shuts_cons rfl
  · exact shuts_cons rfl

theorem if_ne_instr {i : Instr α} {cond : ValueId} : i.text ≠ "if " ++ cond.text ++ " \x7b" := by
  intro same
  have lists := congrArg String.toList same
  have word : IsWord "if" := by decide
  rw [Instr.toList_text] at lists
  have split : i.keyword.toList ++ i.restText =
      "if".toList ++ ' ' :: (cond.text.toList ++ " \x7b".toList) := by
    rw [lists]
    simp
  obtain ⟨keywords, -⟩ := word_inj i.isWord_keyword word i.ends_restText (ends_cons rfl) split
  cases i <;> simp [Instr.keyword] at keywords

-- A block can be read off lines that go on with the end of the block, with its constants as they are
-- spelled. The induction is on the one block; the other one must have the same first line.
theorem lines_inj {a b : Block α} (wordedA : a.Worded) (wordedB : b.Worded) {depth : Nat}
    {r s : List String} (shutsR : Shuts depth r) (shutsS : Shuts depth s)
    (same : a.lines (depth + 1) ++ r = b.lines (depth + 1) ++ s) :
    a.map Scalar.literal = b.map Scalar.literal ∧ r = s := by
  induction a generalizing b depth r s with
  | nil =>
    cases b with
    | nil => exact ⟨rfl, same⟩
    | instr j rest =>
      change r = (indent (depth + 1) ++ j.text) :: (rest.lines (depth + 1) ++ s) at same
      subst same
      exact absurd String.toList_append shutsR.deeper
    | branch cond onTrue onFalse rest =>
      rw [lines_branch] at same
      change r = _ :: _ at same
      subst same
      exact absurd String.toList_append shutsR.deeper
  | instr i rest ih =>
    cases b with
    | nil =>
      change (indent (depth + 1) ++ i.text) :: (rest.lines (depth + 1) ++ r) = s at same
      subst same
      exact absurd String.toList_append shutsS.deeper
    | instr j rest' =>
      obtain ⟨line, others⟩ := List.cons.inj same
      have texts : i.text = j.text := (String.append_right_inj _).mp line
      have here := Instr.text_inj (wordedA i List.mem_cons_self) (wordedB j List.mem_cons_self) texts
      obtain ⟨later, after⟩ := ih (wordedA.part (List.subset_cons_self _ _))
        (wordedB.part (List.subset_cons_self _ _)) shutsR shutsS others
      exact ⟨congrArg₂ Block.instr here later, after⟩
    | branch cond onTrue onFalse rest' =>
      rw [lines_branch] at same
      obtain ⟨line, -⟩ := List.cons.inj same
      exact absurd ((String.append_right_inj _).mp line) if_ne_instr
  | branch cond onTrue onFalse rest ihTrue ihFalse ihRest =>
    cases b with
    | nil =>
      rw [lines_branch] at same
      change _ :: _ = s at same
      subst same
      exact absurd String.toList_append shutsS.deeper
    | instr j rest' =>
      rw [lines_branch] at same
      obtain ⟨line, -⟩ := List.cons.inj same
      exact absurd ((String.append_right_inj _).mp line).symm if_ne_instr
    | branch cond' onTrue' onFalse' rest' =>
      rw [lines_branch, lines_branch] at same
      simp only [List.cons_append, List.append_assoc] at same
      obtain ⟨line, others⟩ := List.cons.inj same
      have conds : cond = cond' := by
        have texts := congrArg String.toList ((String.append_right_inj _).mp line)
        simp only [String.toList_append, List.append_assoc, List.append_cancel_left_eq] at texts
        exact (ValueId.text_inj (ends_cons rfl) (ends_cons rfl) texts).1
      subst conds
      have inTrue := wordedA.part (b := onTrue) Block.onTrue_subset
      have inTrue' := wordedB.part (b := onTrue') Block.onTrue_subset
      have inFalse := wordedA.part (b := onFalse) Block.onFalse_subset
      have inFalse' := wordedB.part (b := onFalse') Block.onFalse_subset
      have inRest := wordedA.part (b := rest) Block.rest_subset
      have inRest' := wordedB.part (b := rest') Block.rest_subset
      obtain ⟨trues, behind⟩ := ihTrue inTrue inTrue' (shuts_else _ _ _) (shuts_else _ _ _) others
      cases empty : onFalse.isEmpty with
      | true =>
        cases empty' : onFalse'.isEmpty with
        | true =>
          simp only [empty, empty', if_true, List.nil_append] at behind
          obtain ⟨later, after⟩ := ihRest inRest inRest' shutsR shutsS (List.cons.inj behind).2
          rw [Block.eq_nil empty, Block.eq_nil empty', Block.map, Block.map, trues, later]
          exact ⟨rfl, after⟩
        | false =>
          simp only [empty, empty', if_true, Bool.false_eq_true, if_false, List.nil_append,
            List.cons_append] at behind
          have ends := (String.append_right_inj _).mp (List.cons.inj behind).1
          simp at ends
      | false =>
        cases empty' : onFalse'.isEmpty with
        | true =>
          simp only [empty, empty', if_true, Bool.false_eq_true, if_false, List.nil_append,
            List.cons_append] at behind
          have ends := (String.append_right_inj _).mp (List.cons.inj behind).1
          simp at ends
        | false =>
          simp only [empty, empty', Bool.false_eq_true, if_false, List.cons_append] at behind
          obtain ⟨falses, last⟩ := ihFalse inFalse inFalse' (shuts_cons rfl) (shuts_cons rfl)
            (List.cons.inj behind).2
          obtain ⟨later, after⟩ := ihRest inRest inRest' shutsR shutsS (List.cons.inj last).2
          rw [Block.map, Block.map, trues, falses, later]
          exact ⟨rfl, after⟩

-- The words a kernel needs for its text to be read back: its own name and those of its fields.
structure Kernel.Worded (kernel : Kernel α) : Prop where
  name : IsWord kernel.name
  body : kernel.body.Worded

namespace Kernel

variable {δ : Type} [Digest δ] {kernel a b : Kernel α}

def argsText (argCount : Nat) : List Char :=
  if 0 < argCount then ' ' :: 'a' :: 'r' :: 'g' :: 's' :: ' ' :: argCount.repr.toList else []

omit [Scalar α] in
theorem toList_header (kernel : Kernel α) : kernel.header.toList =
    "kernel ".toList ++ (kernel.name.toList ++ ' ' :: ("over ".toList ++
      (kernel.domain.text.toList ++ (argsText kernel.argCount ++ [' ', '\x7b'])))) := by
  unfold header argsText
  split <;> simp [toString_string]

theorem argsText_inj {m n : Nat} (same : argsText m ++ [' ', '\x7b'] = argsText n ++ [' ', '\x7b']) :
    m = n := by
  unfold argsText at same
  split at same
  · split at same
    · simp only [List.cons_append, List.cons.injEq, true_and] at same
      exact (number_inj (ends_cons rfl) (ends_cons rfl) same).1
    · simp at same
  · split at same
    · simp at same
    · omega

omit [Scalar α] in
theorem header_inj (wordA : IsWord a.name) (wordB : IsWord b.name) (same : a.header = b.header) :
    a.name = b.name ∧ a.domain = b.domain ∧ a.argCount = b.argCount := by
  have lists := congrArg String.toList same
  rw [toList_header, toList_header, List.append_cancel_left_eq] at lists
  obtain ⟨names, rest⟩ := word_inj wordA wordB (ends_cons rfl) (ends_cons rfl) lists
  have rest := List.append_cancel_left (List.cons.inj rest).2
  obtain ⟨domains, args⟩ := Domain.text_inj rest
  exact ⟨names, domains, argsText_inj args⟩

omit [Scalar α] in
theorem unbroken_header (word : IsWord kernel.name) : Unbroken kernel.header := by
  have name := word.unbroken
  have domain := unbroken_domain kernel.domain
  have number := (isWord_repr kernel.argCount).unbroken
  simp only [Unbroken, Nat.toList_repr] at name domain number
  simp only [Unbroken, toList_header, argsText]
  split <;> simp [name, domain, number]

theorem unbroken_signatureLine {name : String} (word : IsWord name) (signature : Signature) :
    Unbroken (signatureLine name signature) := by
  have shape : Unbroken signature.shape.text := by
    have opens : Unbroken "[" := by decide
    have closes : Unbroken "]" := by decide
    simp only [Shape.text, unbroken_append]
    refine ⟨⟨opens, unbroken_intercalate fun t member => ?_⟩, closes⟩
    obtain ⟨n, -, rfl⟩ := List.mem_map.mp member
    exact (isWord_repr n).unbroken
  have element : Unbroken signature.element.name := by cases signature.element <;> decide
  have field : Unbroken "field " := by decide
  have colon : Unbroken ": " := by decide
  simp only [signatureLine, Signature.text, unbroken_append]
  exact ⟨⟨⟨field, word.unbroken⟩, colon⟩, element, shape⟩

theorem signature_inj {a b : Signature} (same : a.text = b.text) : a = b := by
  have words : ∀ element : ElementType, IsWord element.name := fun element => by cases element <;> decide
  have names : ∀ element : ElementType, ElementType.ofName? element.name = some element :=
    fun element => by cases element <;> decide
  have lists := congrArg String.toList same
  simp only [Signature.text, Shape.text, String.toList_append, List.append_assoc] at lists
  obtain ⟨elements, rest⟩ := word_inj (words a.element) (words b.element) (ends_cons rfl) (ends_cons rfl) lists
  have first : ∀ n : Nat, ∃ c cs, n.repr.toList = c :: cs ∧ c ≠ ']' := by
    intro n
    cases chars : n.repr.toList with
    | nil => exact absurd chars (by simp [Nat.toList_repr])
    | cons c cs =>
      refine ⟨c, cs, rfl, fun close => ?_⟩
      have inside := isWord_repr n c (chars ▸ List.mem_cons_self)
      rw [close] at inside
      cases inside
  have ends : ∀ cs, Breaks cs → Ends cs := by
    intro cs breaks
    obtain ⟨rest, comma | bracket⟩ := breaks
    · exact comma ▸ ends_cons rfl
    · exact bracket ▸ ends_cons rfl
  have items : ∀ m n : Nat, ∀ r s, Breaks r → Breaks s → m.repr.toList ++ r = n.repr.toList ++ s →
      m = n ∧ r = s := fun m n r s breakR breakS => number_inj (ends r breakR) (ends s breakS)
  obtain ⟨shapes, -⟩ := listed_inj first items (List.cons.inj rest).2
  have kept := names a.element
  rw [elements, names] at kept
  cases a
  cases b
  cases kept
  cases shapes
  rfl

theorem signatureLine_inj {nameA nameB : String} (wordA : IsWord nameA) (wordB : IsWord nameB)
    {a b : Signature} (same : signatureLine nameA a = signatureLine nameB b) : nameA = nameB ∧ a = b := by
  have lists := congrArg String.toList same
  simp only [signatureLine, String.toList_append, List.append_assoc, List.append_cancel_left_eq] at lists
  have split : ∀ text : List Char, Ends (": ".toList ++ text) := fun text => ends_cons rfl
  obtain ⟨names, rest⟩ := word_inj wordA wordB (split a.text.toList) (split b.text.toList) lists
  exact ⟨names, signature_inj (String.toList_inj.mp (List.append_cancel_left rest))⟩

theorem signatureLines_inj {a b : List (String × Signature)} (wordsA : ∀ entry ∈ a, IsWord entry.1)
    (wordsB : ∀ entry ∈ b, IsWord entry.1)
    (same : a.map (fun entry => signatureLine entry.1 entry.2) =
      b.map fun entry => signatureLine entry.1 entry.2) : a = b := by
  induction a generalizing b with
  | nil => exact (List.map_eq_nil_iff.mp same.symm).symm
  | cons first rest ih =>
    cases b with
    | nil => cases same
    | cons first' rest' =>
      obtain ⟨wordA, wordsA⟩ := List.forall_mem_cons.mp wordsA
      obtain ⟨wordB, wordsB⟩ := List.forall_mem_cons.mp wordsB
      obtain ⟨lines, others⟩ := List.cons.inj same
      obtain ⟨names, signatures⟩ := signatureLine_inj wordA wordB lines
      rw [ih wordsA wordsB others, Prod.ext names signatures]

theorem identity_spelled (unbroken : ∀ x : α, Unbroken (Scalar.literal x)) (wordedA : a.Worded)
    (wordedB : b.Worded) {signaturesA signaturesB : Signatures}
    (wordsA : ∀ name ∈ signaturesA.names, IsWord name) (wordsB : ∀ name ∈ signaturesB.names, IsWord name)
    (same : a.identity signaturesA = b.identity signaturesB) :
    (a.name = b.name ∧ a.domain = b.domain ∧ a.argCount = b.argCount ∧
      a.body.map Scalar.literal = b.body.map Scalar.literal) ∧ signaturesA = signaturesB := by
  have joined : ∀ (k : Kernel α) (signatures : Signatures), k.text ++ signatures.text =
      joinLines (k.header :: k.body.lines 1 ++ "\x7d" ::
        signatures.entries.map fun entry => signatureLine entry.1 entry.2) := by
    intro k signatures
    simp [text, Signatures.text, joinLines, String.append_assoc]
  have whole : ∀ (k : Kernel α) (signatures : Signatures), k.Worded →
      (∀ name ∈ signatures.names, IsWord name) → ∀ line ∈ k.header :: k.body.lines 1 ++ "\x7d" ::
        signatures.entries.map (fun entry => signatureLine entry.1 entry.2), Unbroken line := by
    intro k signatures worded words
    have close : Unbroken "\x7d" := by decide
    simp only [List.cons_append, List.forall_mem_cons, List.forall_mem_append, List.forall_mem_map]
    refine ⟨unbroken_header worded.name, unbroken_lines unbroken worded.body 1, close, fun entry member => ?_⟩
    exact unbroken_signatureLine (words entry.1 (List.mem_map_of_mem member)) entry.2
  have texts := utf8_inj (List.cons.inj same).2
  rw [joined, joined] at texts
  have lines := joinLines_inj (whole a signaturesA wordedA wordsA) (whole b signaturesB wordedB wordsB)
    texts
  obtain ⟨headers, rest⟩ := List.cons.inj lines
  obtain ⟨names, domains, counts⟩ := header_inj wordedA.name wordedB.name headers
  have shut : ∀ lines : List String, Shuts 0 ("\x7d" :: lines) := fun lines line same => by
    cases same
    exact ⟨[], rfl⟩
  obtain ⟨bodies, after⟩ := lines_inj wordedA.body wordedB.body (shut _) (shut _) rest
  refine ⟨⟨names, domains, counts, bodies⟩, NameMap.ext_entries ?_⟩
  refine signatureLines_inj (fun entry member => ?_) (fun entry member => ?_) (List.cons.inj after).2
  · exact wordsA entry.1 (List.mem_map_of_mem member)
  · exact wordsB entry.1 (List.mem_map_of_mem member)

theorem identity_inj (legible : Legible α) (wordedA : a.Worded) (wordedB : b.Worded)
    {signaturesA signaturesB : Signatures} (wordsA : ∀ name ∈ signaturesA.names, IsWord name)
    (wordsB : ∀ name ∈ signaturesB.names, IsWord name)
    (same : a.identity signaturesA = b.identity signaturesB) : a.Alike b ∧ signaturesA = signaturesB := by
  obtain ⟨⟨names, domains, counts, spelled⟩, signatures⟩ :=
    identity_spelled legible.unbroken wordedA wordedB wordsA wordsB same
  have bodies := Block.map_coarser (g := id) (fun _ _ literals => legible.injective literals) spelled
  rw [Block.map_id, Block.map_id] at bodies
  exact ⟨⟨names.symm, domains.symm, counts.symm, bodies.symm⟩, signatures⟩

end Kernel

end FieldKernel
