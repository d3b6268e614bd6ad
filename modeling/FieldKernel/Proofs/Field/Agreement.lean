import FieldKernel.Proofs.Field.Altered

-- Tables of the same fields that agree in some buffers give the same to every access there.
namespace FieldKernel

variable {α : Type}

structure Field.AgreeIn (data grad : Prop) (field field' : Field α) : Prop where
  element : field'.element = field.element
  shape : field'.shape = field.shape
  data : data → field'.data = field.data
  grad : grad → field'.grad? = field.grad?

def FieldTable.AgreeIn (data grad : String → Prop) (t u : FieldTable α) : Prop :=
  ∀ name, Option.Rel (Field.AgreeIn (data name) (grad name)) (t.find? name) (u.find? name)

-- Tables that agree in all gradients, and in all data but that of hidden fields.
abbrev FieldTable.AgreeBut (hidden : String → Prop) (t u : FieldTable α) : Prop :=
  t.AgreeIn (fun name => ¬hidden name) (fun _ => True) u

namespace Field

variable {data grad data' grad' : Prop} {a b c : Field α}

theorem AgreeIn.refl (field : Field α) : AgreeIn data grad field field :=
  ⟨rfl, rfl, fun _ => rfl, fun _ => rfl⟩

theorem AgreeIn.trans (first : AgreeIn data grad a b) (second : AgreeIn data grad b c) :
    AgreeIn data grad a c where
  element := second.element.trans first.element
  shape := second.shape.trans first.shape
  data counts := (second.data counts).trans (first.data counts)
  grad counts := (second.grad counts).trans (first.grad counts)

theorem AgreeIn.symm (agree : AgreeIn data grad a b) : AgreeIn data grad b a where
  element := agree.element.symm
  shape := agree.shape.symm
  data counts := (agree.data counts).symm
  grad counts := (agree.grad counts).symm

theorem AgreeIn.weaken (agree : AgreeIn data grad a b) (less : data' → data) (lessGrad : grad' → grad) :
    AgreeIn data' grad' a b :=
  { agree with
    data := fun counts => agree.data (less counts)
    grad := fun counts => agree.grad (lessGrad counts) }

theorem Altered.agreeIn (altered : Altered data grad a b) : AgreeIn (¬data) (¬grad) a b :=
  ⟨altered.element, altered.shape, altered.keepsData, altered.keepsGrad⟩

theorem Altered.confined (altered : Altered data grad a b) (agree : AgreeIn data' grad' a b) :
    Altered (data ∧ ¬data') (grad ∧ ¬grad') a b :=
  { altered with
    keepsData := fun kept => (Classical.em data').elim agree.data fun other =>
      altered.keepsData fun changed => kept ⟨changed, other⟩
    keepsGrad := fun kept => (Classical.em grad').elim agree.grad fun other =>
      altered.keepsGrad fun changed => kept ⟨changed, other⟩ }

namespace AgreeIn

variable (agree : AgreeIn data grad a b)
include agree

theorem locate (index : List Int) : b.locate index = a.locate index := Field.locate_shape agree.shape index

theorem gradLocate (counts : grad) (index : List Int) : b.gradLocate index = a.gradLocate index := by
  unfold Field.gradLocate Field.grad
  rw [agree.grad counts, agree.locate]

variable [Scalar α]

theorem read (counts : data) (index : List Int) : b.read index = a.read index := by
  unfold Field.read
  rw [agree.locate, agree.data counts]

theorem readGrad (counts : grad) (index : List Int) : b.readGrad index = a.readGrad index := by
  unfold Field.readGrad Field.grad
  rw [agree.grad counts, agree.locate]

theorem setAt (position : Nat) (x : α) : AgreeIn data grad (a.setAt position x) (b.setAt position x) where
  element := agree.element
  shape := agree.shape
  data counts := by simp only [Field.setAt, agree.element, agree.data counts]
  grad := agree.grad

theorem addGradAt (position : Nat) (x : α) :
    AgreeIn data grad (a.addGradAt position x) (b.addGradAt position x) where
  element := agree.element
  shape := agree.shape
  data := agree.data
  grad counts := by simp only [Field.addGradAt, agree.grad counts]

end AgreeIn

end Field

namespace FieldTable.AgreeIn

variable {data grad data' grad' : String → Prop} {t u v : FieldTable α}

theorem symm (agree : AgreeIn data grad t u) : AgreeIn data grad u t :=
  fun name => answers_symm (agree name) fun _ _ => .symm

theorem trans (first : AgreeIn data grad t u) (second : AgreeIn data grad u v) : AgreeIn data grad t v :=
  fun name => answers_trans (first name) (second name) fun _ _ _ => .trans

theorem weaken (agree : AgreeIn data grad t u) (less : ∀ name, data' name → data name)
    (lessGrad : ∀ name, grad' name → grad name) : AgreeIn data' grad' t u :=
  fun name => answers_mono (agree name) fun _ _ _ here => here.weaken (less name) (lessGrad name)

theorem accessed {β : Type} {access : Field α → Except FieldFault β} (agree : AgreeIn data grad t u)
    (name : String)
    (same : ∀ a b : Field α, a.AgreeIn (data name) (grad name) b → access b = access a) :
    (u.field name >>= fun field => FieldKernel.onField name (access field)) =
      (t.field name >>= fun field => FieldKernel.onField name (access field)) := by
  unfold FieldTable.field
  cases found : t.find? name with
  | none => rw [answers_missing (agree name) found]
  | some field =>
    obtain ⟨field', found', agrees⟩ := answers_find (agree name) found
    rw [found']
    exact congrArg (FieldKernel.onField name) (same field field' agrees)

theorem locate (agree : AgreeIn data grad t u) (name : String) (index : List Int) :
    u.locate name index = t.locate name index := agree.accessed name fun _ _ here => here.locate index

theorem gradLocate (agree : AgreeIn data grad t u) {name : String} (counts : grad name)
    (index : List Int) : u.gradLocate name index = t.gradLocate name index :=
  agree.accessed name fun _ _ here => here.gradLocate counts index

variable [Scalar α]

theorem read (agree : AgreeIn data grad t u) {name : String} (counts : data name) (index : List Int) :
    u.read name index = t.read name index := agree.accessed name fun _ _ here => here.read counts index

theorem readGrad (agree : AgreeIn data grad t u) {name : String} (counts : grad name)
    (index : List Int) : u.readGrad name index = t.readGrad name index :=
  agree.accessed name fun _ _ here => here.readGrad counts index

theorem setAt (agree : AgreeIn data grad t u) (name : String) (position : Nat) (x : α) :
    AgreeIn data grad (t.setAt name position x) (u.setAt name position x) := fun key => by
  rw [find?_setAt, find?_setAt]
  split
  · refine answers_map (agree key) fun _ _ here => ?_
    exact here.setAt position x
  · exact agree key

theorem addGradAt (agree : AgreeIn data grad t u) (name : String) (position : Nat) (x : α) :
    AgreeIn data grad (t.addGradAt name position x) (u.addGradAt name position x) := fun key => by
  rw [find?_addGradAt, find?_addGradAt]
  split
  · refine answers_map (agree key) fun _ _ here => ?_
    exact here.addGradAt position x
  · exact agree key

end FieldTable.AgreeIn

theorem FieldTable.Altered.agreeIn {writes gradWrites : String → Prop} {t u : FieldTable α}
    (altered : t.Altered writes gradWrites u) :
    t.AgreeIn (fun name => ¬writes name) (fun name => ¬gradWrites name) u :=
  fun name => answers_mono (altered name) fun _ _ _ changed => changed.agreeIn

theorem FieldTable.Altered.confined {writes gradWrites data grad : String → Prop} {t u : FieldTable α}
    (altered : t.Altered writes gradWrites u) (agree : t.AgreeIn data grad u) :
    t.Altered (fun name => writes name ∧ ¬data name) (fun name => gradWrites name ∧ ¬grad name) u :=
  fun name => answers_both (altered name) (agree name) fun _ _ changed agrees => changed.confined agrees

end FieldKernel
