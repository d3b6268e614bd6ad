import FieldKernel.Proofs.Field.Agreement

-- Slots: single elements of the data and of the gradients of fields.
namespace FieldKernel

variable {α : Type}

inductive Slot where
  | data (field : String) (position : Nat)
  | grad (field : String) (position : Nat)
  deriving DecidableEq, Repr

namespace Field

def datum? (field : Field α) (position : Nat) : Option α := field.data[position]?

def gradient? (field : Field α) (position : Nat) : Option α := (field.grad?.getD #[])[position]?

structure AgreeAt (data grad : Nat → Prop) (field field' : Field α) : Prop where
  group : field'.group = field.group
  element : field'.element = field.element
  shape : field'.shape = field.shape
  graded : field'.hasGrad = field.hasGrad
  data : ∀ p, data p → field'.datum? p = field.datum? p
  grad : ∀ p, grad p → field'.gradient? p = field.gradient? p

variable {data grad data' grad' : Nat → Prop} {a b c field : Field α}

theorem datum?_setAt [Scalar α] (position : Nat) (x : α) (p : Nat) : (field.setAt position x).datum? p =
    if p = position then (field.datum? p).map fun _ => field.element.cast x else field.datum? p := by
  simp only [datum?, setAt, Array.getElem?_setIfInBounds]
  grind

theorem gradient?_addGradAt [Scalar α] (position : Nat) (delta : α) (p : Nat) :
    (field.addGradAt position delta).gradient? p =
      if p = position then (field.gradient? p).map (· + delta) else field.gradient? p := by
  cases stored : field.grad? with
  | none => simp [gradient?, addGradAt, stored]
  | some grad =>
    simp only [gradient?, addGradAt, stored, Option.map_some, Option.getD_some, Array.getElem?_modify]
    grind

namespace AgreeAt

theorem refl (field : Field α) : AgreeAt data grad field field :=
  ⟨rfl, rfl, rfl, rfl, fun _ _ => rfl, fun _ _ => rfl⟩

theorem symm (agree : AgreeAt data grad a b) : AgreeAt data grad b a where
  group := agree.group.symm
  element := agree.element.symm
  shape := agree.shape.symm
  graded := agree.graded.symm
  data p counts := (agree.data p counts).symm
  grad p counts := (agree.grad p counts).symm

theorem trans (first : AgreeAt data grad a b) (second : AgreeAt data grad b c) : AgreeAt data grad a c where
  group := second.group.trans first.group
  element := second.element.trans first.element
  shape := second.shape.trans first.shape
  graded := second.graded.trans first.graded
  data p counts := (second.data p counts).trans (first.data p counts)
  grad p counts := (second.grad p counts).trans (first.grad p counts)

theorem weaken (agree : AgreeAt data grad a b) (less : ∀ p, data' p → data p)
    (lessGrad : ∀ p, grad' p → grad p) : AgreeAt data' grad' a b :=
  { agree with
    data := fun p counts => agree.data p (less p counts)
    grad := fun p counts => agree.grad p (lessGrad p counts) }

theorem agreeIn (agree : AgreeAt data grad a b) : AgreeIn False False a b :=
  ⟨agree.element, agree.shape, False.elim, False.elim⟩

theorem gradients (agree : AgreeAt data grad a b) :
    Option.Rel (fun g h : Array α => ∀ p, grad p → h[p]? = g[p]?) a.grad? b.grad? := by
  have graded := agree.graded
  have same := agree.grad
  simp only [hasGrad, gradient?] at graded same
  revert graded same
  generalize a.grad? = g, b.grad? = h
  intro graded same
  cases g <;> cases h
  · exact .none
  · cases graded
  · cases graded
  · exact .some same

theorem eq (agree : AgreeAt (fun _ => True) (fun _ => True) a b) : b = a := by
  have data : b.data = a.data := Array.ext_getElem? fun p => agree.data p trivial
  have grad : b.grad? = a.grad? := by
    have stored := agree.gradients
    revert stored
    generalize a.grad? = g, b.grad? = h
    rintro (same | -)
    · exact congrArg some (Array.ext_getElem? fun p => same p trivial)
    · rfl
  obtain ⟨group, element, shape, -, -, -⟩ := agree
  cases a
  cases b
  simp_all

theorem locate (agree : AgreeAt data grad a b) (index : List Int) : b.locate index = a.locate index :=
  agree.agreeIn.locate index

theorem gradLocate (agree : AgreeAt data grad a b) (index : List Int) :
    b.gradLocate index = a.gradLocate index := by
  have stored := agree.gradients
  unfold Field.gradLocate Field.grad
  rw [agree.locate]
  revert stored
  generalize a.grad? = g, b.grad? = h
  rintro (- | -) <;> rfl

variable [Scalar α]

theorem read (agree : AgreeAt data grad a b) {index : List Int}
    (counts : ∀ p, a.locate index = .ok p → data p) : b.read index = a.read index := by
  unfold Field.read
  rw [agree.locate]
  cases at_ : a.locate index with
  | error => rfl
  | ok p =>
    have same : b.data[p]? = a.data[p]? := agree.data p (counts p at_)
    simp only [bind, Except.bind, Array.getD_eq_getD_getElem?, same]

theorem readGrad (agree : AgreeAt data grad a b) {index : List Int}
    (counts : ∀ p, a.locate index = .ok p → grad p) : b.readGrad index = a.readGrad index := by
  have stored := agree.gradients
  unfold Field.readGrad Field.grad
  rw [agree.locate]
  revert stored
  generalize a.grad? = g, b.grad? = h
  rintro (same | -)
  · cases at_ : a.locate index with
    | error => rfl
    | ok p => simp only [bind, Except.bind, Array.getD_eq_getD_getElem?, same p (counts p at_)]
  · rfl

theorem setAt (agree : AgreeAt data grad a b) (position : Nat) (x : α) :
    AgreeAt data grad (a.setAt position x) (b.setAt position x) :=
  { agree with
    data := fun p counts => by
      rw [datum?_setAt, datum?_setAt, agree.data p counts, agree.element] }

theorem addGradAt (agree : AgreeAt data grad a b) (position : Nat) (delta : α) :
    AgreeAt data grad (a.addGradAt position delta) (b.addGradAt position delta) :=
  { agree with
    graded := by simpa [hasGrad, Field.addGradAt] using agree.graded
    grad := fun p counts => by
      rw [gradient?_addGradAt, gradient?_addGradAt, agree.grad p counts] }

end AgreeAt

variable [Scalar α]

theorem agreeAt_setAt (field : Field α) (position : Nat) (x : α) :
    AgreeAt (· ≠ position) (fun _ => True) field (field.setAt position x) :=
  ⟨rfl, rfl, rfl, rfl, fun p other => by rw [datum?_setAt, if_neg other], fun _ _ => rfl⟩

theorem agreeAt_addGradAt (field : Field α) (position : Nat) (delta : α) :
    AgreeAt (fun _ => True) (· ≠ position) field (field.addGradAt position delta) :=
  ⟨rfl, rfl, rfl, by simp [hasGrad, addGradAt], fun _ _ => rfl,
    fun p other => by rw [gradient?_addGradAt, if_neg other]⟩

end Field

namespace FieldTable

def AgreeAt (slots : Slot → Prop) (t u : FieldTable α) : Prop :=
  ∀ name, Option.Rel (Field.AgreeAt (fun p => slots (.data name p)) fun p => slots (.grad name p))
    (t.find? name) (u.find? name)

variable {slots slots' : Slot → Prop} {t u v : FieldTable α} {name : String}

namespace AgreeAt

theorem refl (table : FieldTable α) : AgreeAt slots table table := fun _ => answers_refl .refl _

theorem symm (agree : AgreeAt slots t u) : AgreeAt slots u t :=
  fun name => answers_symm (agree name) fun _ _ => .symm

theorem trans (first : AgreeAt slots t u) (second : AgreeAt slots u v) : AgreeAt slots t v :=
  fun name => answers_trans (first name) (second name) fun _ _ _ => .trans

theorem weaken (agree : AgreeAt slots t u) (less : ∀ slot, slots' slot → slots slot) : AgreeAt slots' t u :=
  fun name => answers_mono (agree name) fun _ _ _ here => here.weaken (fun _ => less _) fun _ => less _

theorem agreeIn (agree : AgreeAt slots t u) : AgreeIn (fun _ => False) (fun _ => False) t u :=
  fun name => answers_mono (agree name) fun _ _ _ => Field.AgreeAt.agreeIn

theorem of_each (same : AgreeAt (fun _ => False) t u) (each : ∀ slot, slots slot → AgreeAt (· = slot) t u) :
    AgreeAt slots t u := by
  intro name
  cases found : t.find? name with
  | none =>
    rw [answers_missing (same name) found]
    exact .none
  | some field =>
    obtain ⟨field', found', here⟩ := answers_find (same name) found
    have at_ : ∀ slot, slots slot →
        field.AgreeAt (fun p => .data name p = slot) (fun p => .grad name p = slot) field' := by
      intro slot counts
      obtain ⟨other, stored, agrees⟩ := answers_find (each slot counts name) found
      cases found'.symm.trans stored
      exact agrees
    rw [found']
    exact .some { here with
      data := fun p counts => (at_ _ counts).data p rfl
      grad := fun p counts => (at_ _ counts).grad p rfl }

theorem eq (agree : AgreeAt (fun _ => True) t u) : u = t := by
  refine NameMap.ext_find? fun name => ?_
  have here := agree name
  revert here
  generalize t.find? name = x, u.find? name = y
  intro here
  cases here with
  | none => rfl
  | some fields => rw [fields.eq]

theorem accessed {β : Type} {access : Field α → Except FieldFault β} (agree : AgreeAt slots t u)
    (name : String) (same : ∀ a b : Field α, t.find? name = some a →
      a.AgreeAt (fun p => slots (.data name p)) (fun p => slots (.grad name p)) b → access b = access a) :
    (u.field name >>= fun field => FieldKernel.onField name (access field)) =
      (t.field name >>= fun field => FieldKernel.onField name (access field)) := by
  unfold FieldTable.field
  cases found : t.find? name with
  | none => rw [answers_missing (agree name) found]
  | some field =>
    obtain ⟨field', found', agrees⟩ := answers_find (agree name) found
    rw [found']
    exact congrArg (FieldKernel.onField name) (same field field' found agrees)

theorem gradLocate (agree : AgreeAt slots t u) (name : String) (index : List Int) :
    u.gradLocate name index = t.gradLocate name index :=
  agree.accessed name fun _ _ _ here => here.gradLocate index

variable [Scalar α]

theorem read (agree : AgreeAt slots t u) {name : String} {index : List Int}
    (counts : ∀ p, t.locate name index = .ok p → slots (.data name p)) :
    u.read name index = t.read name index :=
  agree.accessed name fun _ _ found here => here.read fun p inside =>
    counts p (locate_ok.mpr ⟨_, found, inside⟩)

theorem readGrad (agree : AgreeAt slots t u) {name : String} {index : List Int}
    (counts : ∀ p, t.locate name index = .ok p → slots (.grad name p)) :
    u.readGrad name index = t.readGrad name index :=
  agree.accessed name fun _ _ found here => here.readGrad fun p inside =>
    counts p (locate_ok.mpr ⟨_, found, inside⟩)

theorem setAt (agree : AgreeAt slots t u) (name : String) (position : Nat) (x : α) :
    AgreeAt slots (t.setAt name position x) (u.setAt name position x) := fun key => by
  rw [find?_setAt, find?_setAt]
  split
  · exact answers_map (agree key) fun _ _ here => here.setAt position x
  · exact agree key

theorem addGradAt (agree : AgreeAt slots t u) (name : String) (position : Nat) (delta : α) :
    AgreeAt slots (t.addGradAt name position delta) (u.addGradAt name position delta) := fun key => by
  rw [find?_addGradAt, find?_addGradAt]
  split
  · exact answers_map (agree key) fun _ _ here => here.addGradAt position delta
  · exact agree key

end AgreeAt

variable [Scalar α]

theorem agreeAt_setAt (table : FieldTable α) (name : String) (position : Nat) (x : α) :
    table.AgreeAt (· ≠ .data name position) (table.setAt name position x) := by
  intro key
  rw [find?_setAt]
  split
  · next same =>
    subst same
    cases table.find? key with
    | none => exact .none
    | some field =>
      refine .some ((field.agreeAt_setAt position x).weaken (fun p other here => ?_) fun _ _ => trivial)
      exact other (congrArg _ here)
  · exact answers_refl .refl _

theorem agreeAt_addGradAt (table : FieldTable α) (name : String) (position : Nat) (delta : α) :
    table.AgreeAt (· ≠ .grad name position) (table.addGradAt name position delta) := by
  intro key
  rw [find?_addGradAt]
  split
  · next same =>
    subst same
    cases table.find? key with
    | none => exact .none
    | some field =>
      refine .some ((field.agreeAt_addGradAt position delta).weaken (fun _ _ => trivial) fun p other here => ?_)
      exact other (congrArg _ here)
  · exact answers_refl .refl _

end FieldTable

end FieldKernel
