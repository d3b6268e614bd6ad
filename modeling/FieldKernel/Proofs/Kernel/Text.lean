import Std.Data.String.ToInt
import FieldKernel.Kernel.Identity
import FieldKernel.Source.Piece
import FieldKernel.Proofs.Kernel.Access

-- Kernels can be told from their texts, which are taken apart from the front: a word ends where something
-- else begins, a line at its line feed, and a block where the indentation steps back.
namespace FieldKernel

theorem toString_string (s : String) : toString s = s := rfl

def IsWord (name : String) : Prop := ∀ c ∈ name.toList, Piece.continuesWord c = true

-- Tried on the characters of the name, and not on all that there are.
instance : DecidablePred IsWord := fun name =>
  List.decidableBAll (fun c => Piece.continuesWord c = true) name.toList

def Ends (cs : List Char) : Prop := ∀ c ∈ cs.head?, Piece.continuesWord c = false

theorem ends_nil : Ends [] := fun _ none_ => nomatch none_

theorem ends_cons {c : Char} {cs : List Char} (other : Piece.continuesWord c = false) : Ends (c :: cs) :=
  fun _ same => Option.some.inj same ▸ other

theorem span_inj {p : Char → Bool} {a b r s : List Char} (inA : ∀ c ∈ a, p c = true)
    (inB : ∀ c ∈ b, p c = true) (outR : ∀ c ∈ r.head?, p c = false) (outS : ∀ c ∈ s.head?, p c = false)
    (same : a ++ r = b ++ s) : a = b ∧ r = s := by
  induction a generalizing b with
  | nil =>
    cases b with
    | nil => exact ⟨rfl, same⟩
    | cons d b =>
      have out := outR d (by rw [show r = d :: (b ++ s) from same]; rfl)
      rw [inB d List.mem_cons_self] at out
      cases out
  | cons c a ih =>
    cases b with
    | nil =>
      have out := outS c (by rw [show s = c :: (a ++ r) from same.symm]; rfl)
      rw [inA c List.mem_cons_self] at out
      cases out
    | cons d b =>
      obtain ⟨head, tail⟩ := List.cons.inj same
      obtain ⟨rest, after⟩ := ih (fun e member => inA e (List.mem_cons_of_mem _ member))
        (fun e member => inB e (List.mem_cons_of_mem _ member)) tail
      exact ⟨head ▸ rest ▸ rfl, after⟩

theorem word_inj {a b : String} {r s : List Char} (wordA : IsWord a) (wordB : IsWord b) (endR : Ends r)
    (endS : Ends s) (same : a.toList ++ r = b.toList ++ s) : a = b ∧ r = s := by
  obtain ⟨names, rest⟩ := span_inj wordA wordB endR endS same
  exact ⟨String.toList_inj.mp names, rest⟩

theorem isWord_repr (n : Nat) : IsWord n.repr := by
  intro c member
  rw [Nat.toList_repr] at member
  have digit := Nat.isDigit_of_mem_toDigits (by decide) (by decide) member
  simp only [Char.isDigit, Bool.and_eq_true, decide_eq_true_eq] at digit
  simp only [Piece.continuesWord, Piece.isDigit, Bool.or_eq_true, Bool.and_eq_true, decide_eq_true_eq]
  exact .inr digit

theorem number_inj {m n : Nat} {r s : List Char} (endR : Ends r) (endS : Ends s)
    (same : m.repr.toList ++ r = n.repr.toList ++ s) : m = n ∧ r = s := by
  obtain ⟨numbers, rest⟩ := word_inj (isWord_repr m) (isWord_repr n) endR endS same
  exact ⟨Nat.repr_injective numbers, rest⟩

def Breaks (cs : List Char) : Prop := ∃ rest, cs = ',' :: rest ∨ cs = ']' :: rest

theorem toList_listed {β : Type} (enc : β → String) (b : β) (bs : List β) :
    (String.intercalate ", " ((b :: bs).map enc)).toList = (enc b).toList ++
      (if bs.isEmpty then [] else ',' :: ' ' :: (String.intercalate ", " (bs.map enc)).toList) := by
  cases bs <;> simp [String.intercalate_cons_cons]

theorem listed_inj {β : Type} {enc : β → String}
    (first : ∀ b, ∃ c cs, (enc b).toList = c :: cs ∧ c ≠ ']')
    (items : ∀ a b r s, Breaks r → Breaks s → (enc a).toList ++ r = (enc b).toList ++ s → a = b ∧ r = s)
    {as bs : List β} {r s : List Char} (same : (String.intercalate ", " (as.map enc)).toList ++ ']' :: r =
      (String.intercalate ", " (bs.map enc)).toList ++ ']' :: s) : as = bs ∧ r = s := by
  have breaks : ∀ (bs : List β) (r : List Char), Breaks ((if bs.isEmpty then []
      else ',' :: ' ' :: (String.intercalate ", " (bs.map enc)).toList) ++ ']' :: r) := by
    intro bs r
    split
    · exact ⟨r, .inr rfl⟩
    · exact ⟨_, .inl rfl⟩
  induction as generalizing bs with
  | nil =>
    cases bs with
    | nil => exact ⟨rfl, (List.cons.inj same).2⟩
    | cons b bs =>
      obtain ⟨c, cs, starts, other⟩ := first b
      rw [toList_listed, starts] at same
      exact absurd (List.cons.inj same).1.symm other
  | cons a as ih =>
    cases bs with
    | nil =>
      obtain ⟨c, cs, starts, other⟩ := first a
      rw [toList_listed, starts] at same
      exact absurd (List.cons.inj same).1 other
    | cons b bs =>
      rw [toList_listed, toList_listed, List.append_assoc, List.append_assoc] at same
      obtain ⟨rfl, rest⟩ := items a b _ _ (breaks as r) (breaks bs s) same
      cases as with
      | nil =>
        cases bs with
        | nil => exact ⟨rfl, (List.cons.inj rest).2⟩
        | cons => simp at rest
      | cons x xs =>
        cases bs with
        | nil => simp at rest
        | cons y ys =>
          simp only [List.isEmpty_cons, Bool.false_eq_true, if_false, List.cons_append,
            List.cons.injEq, true_and] at rest
          obtain ⟨others, after⟩ := ih rest
          exact ⟨congrArg _ others, after⟩

namespace ValueId

theorem toList_text (v : ValueId) : v.text.toList = '%' :: v.index.repr.toList := by
  simp [text]

theorem text_inj {v w : ValueId} {r s : List Char} (endR : Ends r) (endS : Ends s)
    (same : v.text.toList ++ r = w.text.toList ++ s) : v = w ∧ r = s := by
  rw [toList_text, toList_text] at same
  obtain ⟨numbers, rest⟩ := number_inj endR endS (List.cons.inj same).2
  cases v
  cases w
  exact ⟨congrArg mk numbers, rest⟩

theorem text_last {v w : ValueId} (same : v.text.toList = w.text.toList) : v = w :=
  (text_inj ends_nil ends_nil (congrArg (· ++ []) same)).1

theorem listText_inj {vs ws : List ValueId} {r s : List Char}
    (same : (listText vs).toList ++ ']' :: r = (listText ws).toList ++ ']' :: s) : vs = ws ∧ r = s := by
  refine listed_inj (fun v => ⟨'%', v.index.repr.toList, toList_text v, by decide⟩) ?_ same
  intro v w r s breakR breakS split
  refine text_inj ?_ ?_ split
  · obtain ⟨cs, rfl | rfl⟩ := breakR <;> exact ends_cons rfl
  · obtain ⟨cs, rfl | rfl⟩ := breakS <;> exact ends_cons rfl

end ValueId

theorem Place.toList_text (place : Place) :
    place.text.toList = place.field.toList ++ '[' :: ((ValueId.listText place.index).toList ++ [']']) := by
  simp [text]

theorem Place.text_inj {p q : Place} {r s : List Char} (wordP : IsWord p.field) (wordQ : IsWord q.field)
    (same : p.text.toList ++ r = q.text.toList ++ s) : p = q ∧ r = s := by
  have bracket : Piece.continuesWord '[' = false := rfl
  rw [toList_text, toList_text] at same
  simp only [List.append_assoc, List.cons_append, List.nil_append] at same
  obtain ⟨fields, rest⟩ := word_inj wordP wordQ (ends_cons bracket) (ends_cons bracket) same
  obtain ⟨indices, after⟩ := ValueId.listText_inj (List.cons.inj rest).2
  cases p
  cases q
  simp_all

theorem Place.text_last {p q : Place} (wordP : IsWord p.field) (wordQ : IsWord q.field)
    (same : p.text.toList = q.text.toList) : p = q :=
  (text_inj wordP wordQ (congrArg (· ++ []) same)).1

variable {α β γ : Type}

def Expr.map (f : α → β) : Expr α → Expr β
  | .const x => .const (f x)
  | .index axis => .index axis
  | .arg position => .arg position
  | .load place => .load place
  | .binary op lhs rhs => .binary op lhs rhs
  | .unary op operand => .unary op operand
  | .compare op lhs rhs => .compare op lhs rhs

def Instr.map (f : α → β) : Instr α → Instr β
  | .define dst e => .define dst (e.map f)
  | .store place v => .store place v
  | .readGrad target place => .readGrad target place
  | .propagate target source scale => .propagate target source scale
  | .addGrad place source => .addGrad place source

def Block.map (f : α → β) : Block α → Block β
  | .nil => .nil
  | .instr i rest => .instr (i.map f) (rest.map f)
  | .branch cond onTrue onFalse rest => .branch cond (onTrue.map f) (onFalse.map f) (rest.map f)

-- Statements that are the same after one change of constants are so after any that tells no more apart.
section Coarser

variable {f : α → β} {g : α → γ} (coarser : ∀ x y, f x = f y → g x = g y)
include coarser

theorem Expr.map_coarser {e e' : Expr α} (same : e.map f = e'.map f) : e.map g = e'.map g := by
  cases e <;> cases e' <;> simp only [map, reduceCtorEq, Expr.const.injEq] at same ⊢
  case const.const x y => exact coarser x y same
  all_goals simp_all

theorem Instr.map_coarser {i j : Instr α} (same : i.map f = j.map f) : i.map g = j.map g := by
  cases i <;> cases j <;> simp only [map, reduceCtorEq, Instr.define.injEq] at same ⊢
  case define.define => exact ⟨same.1, Expr.map_coarser coarser same.2⟩
  all_goals simp_all

theorem Block.map_coarser {a b : Block α} (same : a.map f = b.map f) : a.map g = b.map g := by
  induction a generalizing b with
  | nil =>
    cases b with
    | nil => rfl
    | instr | branch => cases same
  | instr i rest ih =>
    cases b with
    | instr j rest' =>
      obtain ⟨here, others⟩ := Block.instr.inj same
      rw [map, map, Instr.map_coarser coarser here, ih others]
    | nil | branch => cases same
  | branch cond onTrue onFalse rest ihTrue ihFalse ihRest =>
    cases b with
    | branch cond' onTrue' onFalse' rest' =>
      obtain ⟨conds, inTrue, inFalse, others⟩ := Block.branch.inj same
      rw [map, map, conds, ihTrue inTrue, ihFalse inFalse, ihRest others]
    | nil | instr => cases same

end Coarser

theorem Block.map_id (block : Block α) : block.map id = block := by
  induction block with
  | nil => rfl
  | instr i rest ih =>
    have here : i.map id = i := by
      cases i with
      | define dst e => cases e <;> rfl
      | store | readGrad | propagate | addGrad => rfl
    rw [map, here, ih]
  | branch cond onTrue onFalse rest ihTrue ihFalse ihRest => rw [map, ihTrue, ihFalse, ihRest]

variable [Scalar α]

def Unbroken (text : String) : Prop := '\n' ∉ text.toList

instance : DecidablePred Unbroken := fun text => inferInstanceAs (Decidable ('\n' ∉ text.toList))

-- Numbers are spelled on one line, and alike only if they are one number or neither is a number.
structure Distinct (α : Type) [Scalar α] : Prop where
  told : ∀ x y : α, Scalar.literal x = Scalar.literal y →
    x = y ∨ Scalar.eq x x = false ∧ Scalar.eq y y = false
  unbroken : ∀ x : α, Unbroken (Scalar.literal x)

-- A text names one kernel if besides there is nothing to tell apart behind the spelling of what is no number.
structure Legible (α : Type) [Scalar α] : Prop extends Distinct α where
  single : ∀ x y : α, Scalar.literal x = Scalar.literal y →
    Scalar.eq x x = false → Scalar.eq y y = false → x = y

theorem Legible.injective (legible : Legible α) : Function.Injective (Scalar.literal : α → String) := by
  intro x y same
  rcases legible.told x y same with one | ⟨left, right⟩
  · exact one
  · exact legible.single x y same left right

inductive Expr.Kind where
  | const | index | arg | load
  | binary (op : BinaryOp)
  | unary (op : UnaryOp)
  | compare (op : CompareOp)

namespace Expr

def kind : Expr α → Kind
  | .const _ => .const
  | .index _ => .index
  | .arg _ => .arg
  | .load _ => .load
  | .binary op _ _ => .binary op
  | .unary op _ => .unary op
  | .compare op _ _ => .compare op

def Kind.ofName? (name : String) : Option Kind :=
  if name = "const" then some .const
  else if name = "index" then some .index
  else if name = "arg" then some .arg
  else if name = "load" then some .load
  else ((BinaryOp.ofName? name).map .binary).or
    (((UnaryOp.ofName? name).map .unary).or ((CompareOp.ofName? name).map .compare))

omit [Scalar α] in
theorem ofName?_mnemonic (e : Expr α) : Kind.ofName? e.mnemonic = some e.kind := by
  cases e with
  | const | index | arg | load => rfl
  | binary op => cases op <;> rfl
  | unary op => cases op <;> rfl
  | compare op => cases op <;> rfl

omit [Scalar α] in
theorem isWord_mnemonic (e : Expr α) : IsWord e.mnemonic := by
  have binary : ∀ op : BinaryOp, IsWord op.name := fun op => by cases op <;> decide
  have unary : ∀ op : UnaryOp, IsWord op.name := fun op => by cases op <;> decide
  have compare : ∀ op : CompareOp, IsWord op.name := fun op => by cases op <;> decide
  cases e with
  | const => exact (by decide : IsWord "const")
  | index => exact (by decide : IsWord "index")
  | arg => exact (by decide : IsWord "arg")
  | load => exact (by decide : IsWord "load")
  | binary op => exact binary op
  | unary op => exact unary op
  | compare op => exact compare op

def operandText : Expr α → List Char
  | .const x => (Scalar.literal x).toList
  | .index n | .arg n => n.repr.toList
  | .load place => place.text.toList
  | .binary _ lhs rhs | .compare _ lhs rhs => lhs.text.toList ++ ',' :: ' ' :: rhs.text.toList
  | .unary _ operand => operand.text.toList

theorem toList_text (e : Expr α) : e.text.toList = e.mnemonic.toList ++ ' ' :: e.operandText := by
  cases e <;> simp [text, mnemonic, operandText, toString_string]

def Worded : Expr α → Prop
  | .load place => IsWord place.field
  | _ => True

theorem text_inj {e e' : Expr α} (worded : e.Worded) (worded' : e'.Worded)
    (same : e.text.toList = e'.text.toList) : e.map Scalar.literal = e'.map Scalar.literal := by
  have blank : ∀ cs, Ends (' ' :: cs) := fun cs => ends_cons rfl
  have comma : ∀ cs, Ends (',' :: cs) := fun cs => ends_cons rfl
  rw [toList_text, toList_text] at same
  obtain ⟨mnemonics, rest⟩ := word_inj e.isWord_mnemonic e'.isWord_mnemonic (blank _) (blank _) same
  obtain ⟨-, operands⟩ := List.cons.inj rest
  have kinds : e.kind = e'.kind := by
    have := ofName?_mnemonic e
    rw [mnemonics, ofName?_mnemonic e'] at this
    exact (Option.some.inj this).symm
  cases e with
  | const x =>
    cases e' <;> cases kinds
    exact congrArg const (String.toList_inj.mp operands)
  | index n =>
    cases e' <;> cases kinds
    rw [Nat.repr_injective (String.toList_inj.mp operands)]
  | arg n =>
    cases e' <;> cases kinds
    rw [Nat.repr_injective (String.toList_inj.mp operands)]
  | load p =>
    cases e' <;> cases kinds
    rw [Place.text_last worded worded' operands]
  | binary op lhs rhs | compare op lhs rhs =>
    cases e' <;> cases kinds
    simp only [operandText] at operands
    obtain ⟨rfl, others⟩ := ValueId.text_inj (comma _) (comma _) operands
    simp only [List.cons.injEq, true_and] at others
    rw [ValueId.text_last others]
  | unary op operand =>
    cases e' <;> cases kinds
    rw [ValueId.text_last operands]

end Expr

namespace Instr

def keyword : Instr α → String
  | .define _ _ => ""
  | .store _ _ => "store"
  | .readGrad _ _ | .propagate _ _ _ => "adj"
  | .addGrad _ _ => "grad"

def adjointText : Instr α → List Char
  | .readGrad _ place => '+' :: '=' :: ' ' :: 'g' :: 'r' :: 'a' :: 'd' :: ' ' :: place.text.toList
  | .propagate _ source .one => '+' :: '=' :: ' ' :: 'a' :: 'd' :: 'j' :: ' ' :: source.text.toList
  | .propagate _ source .minusOne => '-' :: '=' :: ' ' :: 'a' :: 'd' :: 'j' :: ' ' :: source.text.toList
  | .propagate _ source (.value factor) =>
    '+' :: '=' :: ' ' :: 'a' :: 'd' :: 'j' :: ' ' ::
      (source.text.toList ++ ' ' :: '*' :: ' ' :: factor.text.toList)
  | _ => []

def restText : Instr α → List Char
  | .define dst e => dst.text.toList ++ ' ' :: '=' :: ' ' :: e.text.toList
  | .store place value => ' ' :: (place.text.toList ++ ',' :: ' ' :: value.text.toList)
  | .readGrad target place => ' ' :: (target.text.toList ++ ' ' :: (readGrad target place : Instr α).adjointText)
  | .propagate target source scale =>
    ' ' :: (target.text.toList ++ ' ' :: (propagate target source scale : Instr α).adjointText)
  | .addGrad place source =>
    ' ' :: (place.text.toList ++ ' ' :: '+' :: '=' :: ' ' :: 'a' :: 'd' :: 'j' :: ' ' :: source.text.toList)

theorem toList_text (i : Instr α) : i.text.toList = i.keyword.toList ++ i.restText := by
  cases i with
  | propagate target source scale => cases scale <;> simp [text, keyword, restText, adjointText, toString_string]
  | _ => simp [text, keyword, restText, adjointText, toString_string]

omit [Scalar α] in
theorem isWord_keyword (i : Instr α) : IsWord i.keyword := by
  cases i with
  | define => exact (by decide : IsWord "")
  | store => exact (by decide : IsWord "store")
  | readGrad | propagate => exact (by decide : IsWord "adj")
  | addGrad => exact (by decide : IsWord "grad")

theorem ends_restText (i : Instr α) : Ends i.restText := by
  cases i with
  | define dst e =>
    rw [restText, ValueId.toList_text]
    exact ends_cons rfl
  | store | readGrad | propagate | addGrad => exact ends_cons rfl

def Worded : Instr α → Prop
  | .define _ e => e.Worded
  | .store place _ | .readGrad _ place | .addGrad place _ => IsWord place.field
  | .propagate _ _ _ => True

theorem propagate_inj {target target' source source' : ValueId} {scale scale' : Scale}
    (same : (propagate target source scale : Instr α).restText =
      (propagate target' source' scale' : Instr α).restText) :
    target = target' ∧ source = source' ∧ scale = scale' := by
  have blank : ∀ cs, Ends (' ' :: cs) := fun cs => ends_cons rfl
  simp only [restText, List.cons.injEq, true_and] at same
  obtain ⟨rfl, rest⟩ := ValueId.text_inj (blank _) (blank _) same
  refine ⟨rfl, ?_⟩
  cases scale <;> cases scale' <;>
    simp only [adjointText, List.cons.injEq, true_and, Char.reduceEq, false_and] at rest
  · exact ⟨ValueId.text_last rest, rfl⟩
  · have := (ValueId.text_inj (r := []) ends_nil (blank _) (by simpa using rest)).2
    cases this
  · exact ⟨ValueId.text_last rest, rfl⟩
  · have := (ValueId.text_inj (s := []) (blank _) ends_nil (by simpa using rest)).2
    cases this
  · obtain ⟨rfl, factors⟩ := ValueId.text_inj (blank _) (blank _) rest
    simp only [List.cons.injEq, true_and] at factors
    exact ⟨rfl, congrArg _ (ValueId.text_last factors)⟩

theorem text_inj {i j : Instr α} (worded : i.Worded) (worded' : j.Worded) (same : i.text = j.text) :
    i.map Scalar.literal = j.map Scalar.literal := by
  have blank : ∀ cs, Ends (' ' :: cs) := fun cs => ends_cons rfl
  have lists := congrArg String.toList same
  rw [toList_text, toList_text] at lists
  obtain ⟨keywords, rest⟩ :=
    word_inj i.isWord_keyword j.isWord_keyword i.ends_restText j.ends_restText lists
  cases i with
  | define dst e =>
    cases j with
    | define dst' e' =>
      obtain ⟨rfl, exprs⟩ := ValueId.text_inj (blank _) (blank _) rest
      simp only [List.cons.injEq, true_and] at exprs
      exact congrArg (define dst) (Expr.text_inj worded worded' exprs)
    | store | readGrad | propagate | addGrad => simp [keyword] at keywords
  | store place v =>
    cases j with
    | store place' v' =>
      obtain ⟨rfl, values⟩ := Place.text_inj worded worded' (List.cons.inj rest).2
      simp only [List.cons.injEq, true_and] at values
      rw [ValueId.text_last values]
    | define | readGrad | propagate | addGrad => simp [keyword] at keywords
  | readGrad target place =>
    cases j with
    | readGrad target' place' =>
      obtain ⟨rfl, places⟩ := ValueId.text_inj (blank _) (blank _) (List.cons.inj rest).2
      simp only [adjointText, List.cons.injEq, true_and] at places
      rw [Place.text_last worded worded' places]
    | propagate target' source' scale' =>
      obtain ⟨-, others⟩ := ValueId.text_inj (blank _) (blank _) (List.cons.inj rest).2
      cases scale' <;> simp [adjointText] at others
    | define | store | addGrad => simp [keyword] at keywords
  | propagate target source scale =>
    cases j with
    | propagate target' source' scale' =>
      obtain ⟨rfl, rfl, rfl⟩ := propagate_inj rest
      rfl
    | readGrad target' place' =>
      obtain ⟨-, others⟩ := ValueId.text_inj (blank _) (blank _) (List.cons.inj rest).2
      cases scale <;> simp [adjointText] at others
    | define | store | addGrad => simp [keyword] at keywords
  | addGrad place source =>
    cases j with
    | addGrad place' source' =>
      obtain ⟨rfl, sources⟩ := Place.text_inj worded worded' (List.cons.inj rest).2
      simp only [List.cons.injEq, true_and] at sources
      rw [ValueId.text_last sources]
    | define | store | readGrad | propagate => simp [keyword] at keywords

end Instr

end FieldKernel
