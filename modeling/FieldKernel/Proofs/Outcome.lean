-- Computations that may fail and change a state, and relations between the states before and after.
namespace FieldKernel

variable {ε σ β γ : Type}

instance decidableEqResult [DecidableEq ε] [DecidableEq σ] [DecidableEq β] :
    DecidableEq (EStateM.Result ε σ β)
  | .ok a s, .ok b s' => decidable_of_iff (a = b ∧ s = s') (by simp)
  | .error e s, .error e' s' => decidable_of_iff (e = e' ∧ s = s') (by simp)
  | .ok _ _, .error _ _ | .error _ _, .ok _ _ => isFalse nofun

theorem Except.bind_ok {x : Except ε β} {f : β → Except ε γ} {c : γ} :
    (x >>= f) = .ok c ↔ ∃ b, x = .ok b ∧ f b = .ok c := by
  cases x with
  | error e => simp [bind, Except.bind]
  | ok b => simp [bind, Except.bind]

theorem Except.bind_error {x : Except ε β} {f : β → Except ε γ} {e : ε} :
    (x >>= f) = .error e ↔ x = .error e ∨ ∃ b, x = .ok b ∧ f b = .error e := by
  cases x with
  | error e' => simp [bind, Except.bind]
  | ok b => simp [bind, Except.bind]

theorem Except.then_ok {x : Except ε Unit} {f : Unit → Except ε γ} {c : γ} :
    (x >>= f) = .ok c ↔ x = .ok () ∧ f () = .ok c := by
  cases x with
  | error e => simp [bind, Except.bind]
  | ok b => simp [bind, Except.bind]

theorem Except.map_ok {x : Except ε β} {f : β → γ} {c : γ} :
    x.map f = .ok c ↔ ∃ b, x = .ok b ∧ f b = c := by
  cases x with
  | error e => simp [Except.map]
  | ok b => simp [Except.map]

-- Outcomes that are the same error or related results.
inductive Coincide (Q : β → γ → Prop) : Except ε β → Except ε γ → Prop
  | error (e : ε) : Coincide Q (.error e) (.error e)
  | ok {b : β} {c : γ} (related : Q b c) : Coincide Q (.ok b) (.ok c)

theorem Coincide.refl (x : Except ε β) : Coincide Eq x x :=
  match x with
  | .error e => .error e
  | .ok _ => .ok rfl

theorem Coincide.related {Q : β → γ → Prop} {b : β} {c : γ}
    (coincide : Coincide Q (.ok b : Except ε β) (.ok c)) : Q b c := by
  cases coincide with
  | ok related => exact related

theorem Coincide.bind {β' γ' : Type} {Q : β → γ → Prop} {P : β' → γ' → Prop} {x : Except ε β} {y : Except ε γ}
    {f : β → Except ε β'} {g : γ → Except ε γ'} (first : Coincide Q x y)
    (second : ∀ b c, Q b c → Coincide P (f b) (g c)) : Coincide P (x >>= f) (y >>= g) := by
  cases first with
  | error e => exact .error e
  | ok related => exact second _ _ related

theorem Coincide.mono {Q P : β → γ → Prop} {x : Except ε β} {y : Except ε γ} (coincide : Coincide Q x y)
    (more : ∀ b c, x = .ok b → y = .ok c → Q b c → P b c) : Coincide P x y := by
  cases coincide with
  | error e => exact .error e
  | ok related => exact .ok (more _ _ rfl rfl related)

theorem run_bind (x : EStateM ε σ β) (f : β → EStateM ε σ γ) (s : σ) :
    (x >>= f) s = match x s with
      | .ok b s' => f b s'
      | .error e s' => .error e s' := rfl

theorem run_get_bind (f : σ → EStateM ε σ γ) (s : σ) : (get >>= f) s = f s s := rfl

theorem bind_ok {x : EStateM ε σ β} {f : β → EStateM ε σ γ} {s s'' : σ} {c : γ} :
    (x >>= f) s = .ok c s'' ↔ ∃ b s', x s = .ok b s' ∧ f b s' = .ok c s'' := by
  rw [run_bind]
  cases x s <;> simp [and_assoc]

theorem bind_error {x : EStateM ε σ β} {f : β → EStateM ε σ γ} {s s'' : σ} {e : ε} :
    (x >>= f) s = .error e s'' ↔
      x s = .error e s'' ∨ ∃ b s', x s = .ok b s' ∧ f b s' = .error e s'' := by
  rw [run_bind]
  cases x s <;> simp [and_assoc]

theorem bind_after {x : EStateM ε σ β} {s s' : σ} {b : β} (first : x s = .ok b s')
    (f : β → EStateM ε σ γ) : (x >>= f) s = f b s' := by
  rw [run_bind, first]

@[simp] theorem pure_ok {b c : β} {s s' : σ} :
    (pure b : EStateM ε σ β) s = .ok c s' ↔ b = c ∧ s' = s := by
  change EStateM.Result.ok b s = .ok c s' ↔ _
  simp [eq_comm]

@[simp] theorem pure_error {b : β} {s s' : σ} {e : ε} :
    (pure b : EStateM ε σ β) s ≠ .error e s' := by
  intro same
  cases same

@[simp] theorem throw_ok {e : ε} {b : β} {s s' : σ} :
    (throw e : EStateM ε σ β) s ≠ .ok b s' := by
  intro same
  cases same

@[simp] theorem throw_error {e e' : ε} {s s' : σ} :
    (throw e : EStateM ε σ β) s = .error e' s' ↔ e' = e ∧ s' = s := by
  change EStateM.Result.error e s = .error e' s' ↔ _
  simp [eq_comm]

@[simp] theorem modify_ok {f : σ → σ} {u : PUnit} {s s' : σ} :
    (modify f : EStateM ε σ PUnit) s = .ok u s' ↔ s' = f s := by
  change EStateM.Result.ok _ (f s) = .ok u s' ↔ _
  simp [eq_comm]

theorem forM_append_ok {f : β → EStateM ε σ PUnit} {a b : List β} {s s' : σ} :
    (a ++ b).forM f s = .ok () s' ↔ ∃ s₁, a.forM f s = .ok () s₁ ∧ b.forM f s₁ = .ok () s' := by
  induction a generalizing s with
  | nil =>
    constructor
    · exact fun ran => ⟨s, rfl, ran⟩
    · rintro ⟨_, none_, ran⟩
      cases none_
      exact ran
  | cons x rest ih =>
    constructor
    · intro ran
      obtain ⟨_, s₁, first, others⟩ := bind_ok.mp ran
      obtain ⟨s₂, before, after⟩ := ih.mp others
      exact ⟨s₂, bind_ok.mpr ⟨(), s₁, first, before⟩, after⟩
    · rintro ⟨s₂, ran, after⟩
      obtain ⟨_, s₁, first, before⟩ := bind_ok.mp ran
      exact bind_ok.mpr ⟨(), s₁, first, ih.mpr ⟨s₂, before, after⟩⟩

theorem forM_single_ok {f : β → EStateM ε σ PUnit} {b : β} {s s' : σ} :
    [b].forM f s = .ok () s' ↔ f b s = .ok () s' := by
  constructor
  · intro ran
    obtain ⟨_, s₁, first, done⟩ := bind_ok.mp ran
    cases done
    exact first
  · exact fun ran => bind_ok.mpr ⟨(), s', ran, rfl⟩

theorem forM_error {f : β → EStateM ε σ PUnit} {items : List β} {s s' : σ} {e : ε} :
    items.forM f s = .error e s' ↔ ∃ before b after s₁, items = before ++ b :: after ∧
      before.forM f s = .ok () s₁ ∧ f b s₁ = .error e s' := by
  induction items generalizing s with
  | nil =>
    constructor
    · intro failed
      cases failed
    · intro shown
      obtain ⟨before, b, after, s₁, items, -⟩ := shown
      cases before <;> cases items
  | cons c rest ih =>
    constructor
    · intro failed
      rcases bind_error.mp failed with here | ⟨_, s₁, first, later⟩
      · exact ⟨[], c, rest, s, rfl, rfl, here⟩
      · obtain ⟨before, b, after, s₂, items, ran, there⟩ := ih.mp later
        exact ⟨c :: before, b, after, s₂, congrArg (c :: ·) items, bind_ok.mpr ⟨(), s₁, first, ran⟩, there⟩
    · intro shown
      obtain ⟨before, b, after, s₁, items, ran, there⟩ := shown
      cases before with
      | nil =>
        cases items
        cases ran
        exact bind_error.mpr (.inl there)
      | cons d before =>
        cases items
        obtain ⟨_, s₂, first, others⟩ := bind_ok.mp ran
        exact bind_error.mpr (.inr ⟨(), s₂, first, ih.mpr ⟨before, b, after, s₁, rfl, others, there⟩⟩)

-- The state a computation ends in, also when it fails.
def ended : EStateM.Result ε σ β → σ
  | .ok _ s => s
  | .error _ s => s

@[simp] theorem ended_ok (b : β) (s : σ) : ended (.ok b s : EStateM.Result ε σ β) = s := rfl

@[simp] theorem ended_error (e : ε) (s : σ) : ended (.error e s : EStateM.Result ε σ β) = s := rfl

theorem ended_reply (x : EStateM ε σ β) (f : β → γ) (s : σ) :
    ended ((x >>= fun b => pure (f b)) s) = ended (x s) := by
  rw [run_bind]
  cases x s <;> rfl

-- However the computation ends, its end is related to its start.
def Moves (P : σ → σ → Prop) (x : EStateM ε σ β) : Prop := ∀ s, P s (ended (x s))

namespace Moves

variable {P : σ → σ → Prop}

theorem pure (refl : ∀ s, P s s) (b : β) : Moves P (pure b : EStateM ε σ β) := refl

theorem modify {f : σ → σ} (step : ∀ s, P s (f s)) : Moves P (modify f : EStateM ε σ PUnit) := step

theorem bind (trans : ∀ a b c, P a b → P b c → P a c) {x : EStateM ε σ β}
    {f : β → EStateM ε σ γ} (first : Moves P x) (then_ : ∀ b, Moves P (f b)) :
    Moves P (x >>= f) := by
  intro s
  have head := first s
  rw [run_bind]
  cases ran : x s with
  | error e s' => simpa [ran] using head
  | ok b s' =>
    rw [ran] at head
    exact trans _ _ _ head (then_ b s')

theorem forM (refl : ∀ s, P s s) (trans : ∀ a b c, P a b → P b c → P a c)
    {f : β → EStateM ε σ PUnit} {items : List β} (each : ∀ b ∈ items, Moves P (f b)) :
    Moves P (items.forM f) := by
  induction items with
  | nil => exact pure refl _
  | cons b rest ih =>
    exact bind trans (each b List.mem_cons_self)
      fun _ => ih fun c member => each c (List.mem_cons_of_mem _ member)

theorem mapM (refl : ∀ s, P s s) (trans : ∀ a b c, P a b → P b c → P a c)
    {f : β → EStateM ε σ γ} {items : List β} (each : ∀ b ∈ items, Moves P (f b)) :
    Moves P (items.mapM f) := by
  induction items with
  | nil => exact pure refl _
  | cons b rest ih =>
    rw [List.mapM_cons]
    exact bind trans (each b List.mem_cons_self) fun _ =>
      bind trans (ih fun c member => each c (List.mem_cons_of_mem _ member)) fun _ => pure refl _

theorem foldlM (refl : ∀ s, P s s) (trans : ∀ a b c, P a b → P b c → P a c)
    {f : γ → β → EStateM ε σ γ} {items : List β} (each : ∀ c b, Moves P (f c b)) (c : γ) :
    Moves P (items.foldlM f c) := by
  induction items generalizing c with
  | nil => exact pure refl c
  | cons b rest ih =>
    rw [List.foldlM_cons]
    exact bind trans (each c b) ih

theorem ok {x : EStateM ε σ β} (moves : Moves P x) {s s' : σ} {b : β} (ran : x s = .ok b s') : P s s' := by
  have := moves s
  rwa [ran] at this

theorem error {x : EStateM ε σ β} (moves : Moves P x) {s s' : σ} {e : ε}
    (ran : x s = .error e s') : P s s' := by
  have := moves s
  rwa [ran] at this

end Moves

-- Outcomes of two computations that are the same error or related results, and that leave related states.
inductive Abreast {τ : Type} (R : σ → τ → Prop) (Q : β → γ → Prop) :
    EStateM.Result ε σ β → EStateM.Result ε τ γ → Prop
  | ok {b : β} {c : γ} {s : σ} {t : τ} (states : R s t) (related : Q b c) : Abreast R Q (.ok b s) (.ok c t)
  | error (e : ε) {s : σ} {t : τ} (states : R s t) : Abreast R Q (.error e s) (.error e t)

namespace Abreast

variable {τ β' γ' : Type} {R : σ → τ → Prop} {Q : β → γ → Prop} {s : σ} {t : τ}

theorem ended {x : EStateM.Result ε σ β} {y : EStateM.Result ε τ γ} (abreast : Abreast R Q x y) :
    R (ended x) (ended y) := by
  cases abreast with
  | ok states _ => exact states
  | error _ states => exact states

theorem either {x : EStateM.Result ε σ β} {y : EStateM.Result ε τ γ} (abreast : Abreast R Q x y) :
    (∃ b c s t, x = .ok b s ∧ y = .ok c t ∧ R s t ∧ Q b c) ∨
      ∃ e s t, x = .error e s ∧ y = .error e t ∧ R s t := by
  cases abreast with
  | ok states related => exact .inl ⟨_, _, _, _, rfl, rfl, states, related⟩
  | error e states => exact .inr ⟨e, _, _, rfl, rfl, states⟩

theorem mono {R' : σ → τ → Prop} {Q' : β → γ → Prop} {x : EStateM.Result ε σ β} {y : EStateM.Result ε τ γ}
    (abreast : Abreast R Q x y) (states : ∀ s t, R s t → R' s t) (results : ∀ b c, Q b c → Q' b c) :
    Abreast R' Q' x y := by
  cases abreast with
  | ok here related => exact .ok (states _ _ here) (results _ _ related)
  | error e here => exact .error e (states _ _ here)

theorem bind {Q' : β' → γ' → Prop} {x : EStateM ε σ β} {y : EStateM ε τ γ} {f : β → EStateM ε σ β'}
    {g : γ → EStateM ε τ γ'} (first : Abreast R Q (x s) (y t))
    (then_ : ∀ b c s' t', x s = .ok b s' → R s' t' → Q b c → Abreast R Q' (f b s') (g c t')) :
    Abreast R Q' ((x >>= f) s) ((y >>= g) t) := by
  rw [run_bind, run_bind]
  cases ran : x s with
  | error e s' =>
    rw [ran] at first
    cases ranToo : y t with
    | error e' t' =>
      rw [ranToo] at first
      cases first with
      | error _ states => exact .error e states
    | ok c t' =>
      rw [ranToo] at first
      cases first
  | ok b s' =>
    rw [ran] at first
    cases ranToo : y t with
    | error e' t' =>
      rw [ranToo] at first
      cases first
    | ok c t' =>
      rw [ranToo] at first
      cases first with
      | ok states related => exact then_ b c s' t' ran states related

theorem mapM {item : Type} {f : item → EStateM ε σ β} {g : item → EStateM ε τ β} {items : List item}
    (each : ∀ i ∈ items, ∀ s t, R s t → Abreast R Eq (f i s) (g i t)) (states : R s t) :
    Abreast R Eq (items.mapM f s) (items.mapM g t) := by
  induction items generalizing s t with
  | nil => exact .ok states rfl
  | cons i rest ih =>
    rw [List.mapM_cons, List.mapM_cons]
    refine (each i List.mem_cons_self s t states).bind fun b _ s' t' _ states' same => ?_
    have others := ih (fun j member => each j (List.mem_cons_of_mem _ member)) states'
    refine others.bind fun bs _ _ _ _ last same' => ?_
    subst same same'
    exact .ok last rfl

theorem forM {item : Type} {f : item → EStateM ε σ PUnit} {g : item → EStateM ε τ PUnit} {items : List item}
    (each : ∀ i ∈ items, ∀ s t, R s t → Abreast R Eq (f i s) (g i t)) (states : R s t) :
    Abreast R Eq (items.forM f s) (items.forM g t) := by
  induction items generalizing s t with
  | nil => exact .ok states rfl
  | cons i rest ih =>
    refine (each i List.mem_cons_self s t states).bind fun _ _ s' t' _ states' _ => ?_
    exact ih (fun j member => each j (List.mem_cons_of_mem _ member)) states'

end Abreast

-- From related states a computation comes to the same, and to related states.
def Respects (R : σ → σ → Prop) (x : EStateM ε σ β) : Prop := ∀ s t, R s t → Abreast R Eq (x s) (x t)

namespace Respects

variable {R : σ → σ → Prop}

theorem pure (b : β) : Respects R (pure b : EStateM ε σ β) := fun _ _ related => .ok related rfl

theorem throw (e : ε) : Respects R (throw e : EStateM ε σ β) := fun _ _ related => .error e related

theorem modify {f : σ → σ} (step : ∀ s t, R s t → R (f s) (f t)) :
    Respects R (modify f : EStateM ε σ PUnit) := fun s t related => .ok (step s t related) rfl

theorem bind {x : EStateM ε σ β} {f : β → EStateM ε σ γ} (first : Respects R x)
    (second : ∀ b, Respects R (f b)) : Respects R (x >>= f) := by
  intro s t related
  refine (first s t related).bind fun b c s' t' _ related' same => ?_
  subst same
  exact second b s' t' related'

theorem get_bind {f : σ → EStateM ε σ γ} (same : ∀ s t, R s t → f t = f s) (second : ∀ s, Respects R (f s)) :
    Respects R (get >>= f) := by
  intro s t related
  rw [run_get_bind, run_get_bind, same s t related]
  exact second s s t related

theorem mapM {f : β → EStateM ε σ γ} {items : List β} (each : ∀ b ∈ items, Respects R (f b)) :
    Respects R (items.mapM f) := fun _ _ related => Abreast.mapM each related

theorem forM {f : β → EStateM ε σ PUnit} {items : List β} (each : ∀ b ∈ items, Respects R (f b)) :
    Respects R (items.forM f) := fun _ _ related => Abreast.forM each related

end Respects

-- Where the first computation and then the second succeed, they do so the other way round.
def Swaps (x y : EStateM ε σ PUnit) : Prop :=
  ∀ s s₁ s₂, x s = .ok () s₁ → y s₁ = .ok () s₂ → ∃ s', y s = .ok () s' ∧ x s' = .ok () s₂

theorem Swaps.forM_right {x : EStateM ε σ PUnit} {f : β → EStateM ε σ PUnit} {items : List β}
    (each : ∀ b ∈ items, Swaps x (f b)) : Swaps x (items.forM f) := by
  induction items with
  | nil =>
    intro s s₁ s₂ first second
    cases second
    exact ⟨s, rfl, first⟩
  | cons b rest ih =>
    intro s s₁ s₂ first second
    obtain ⟨_, t, here, others⟩ := bind_ok.mp second
    obtain ⟨s', here', first'⟩ := each b List.mem_cons_self s s₁ t first here
    obtain ⟨t', others', first''⟩ :=
      ih (fun c member => each c (List.mem_cons_of_mem _ member)) s' t s₂ first' others
    exact ⟨t', bind_ok.mpr ⟨(), s', here', others'⟩, first''⟩

theorem Swaps.forM_left {f : β → EStateM ε σ PUnit} {y : EStateM ε σ PUnit} {items : List β}
    (each : ∀ b ∈ items, Swaps (f b) y) : Swaps (items.forM f) y := by
  induction items with
  | nil =>
    intro s s₁ s₂ first second
    cases first
    exact ⟨s₂, second, rfl⟩
  | cons b rest ih =>
    intro s s₁ s₂ first second
    obtain ⟨_, t, here, others⟩ := bind_ok.mp first
    obtain ⟨t', second', others'⟩ :=
      ih (fun c member => each c (List.mem_cons_of_mem _ member)) t s₁ s₂ others second
    obtain ⟨s', second'', here'⟩ := each b List.mem_cons_self s t t' here second'
    exact ⟨s', second'', bind_ok.mpr ⟨(), t', here', others'⟩⟩

-- Doing both at every item is doing the one at all items and then the other, if what is done at one
-- item can be put before what is done at another. The induction is on the items: the first item of the
-- second round moves past the rest of the first round.
theorem forM_both_ok {f g both : β → EStateM ε σ PUnit} {items : List β}
    (each : ∀ b s s', both b s = .ok () s' ↔ ∃ s₁, f b s = .ok () s₁ ∧ g b s₁ = .ok () s')
    (swaps : ∀ b c, Swaps (f b) (g c)) (swapsBack : ∀ b c, Swaps (g b) (f c)) {s s' : σ} :
    items.forM both s = .ok () s' ↔
      ∃ s₁, items.forM f s = .ok () s₁ ∧ items.forM g s₁ = .ok () s' := by
  induction items generalizing s with
  | nil =>
    constructor
    · intro ran
      exact ⟨s, rfl, ran⟩
    · rintro ⟨s₁, first, second⟩
      cases first
      exact second
  | cons b rest ih =>
    constructor
    · intro ran
      obtain ⟨_, s₂, here, others⟩ := bind_ok.mp ran
      obtain ⟨s₁, one, other⟩ := (each b s s₂).mp here
      obtain ⟨s₃, ones, theOthers⟩ := ih.mp others
      obtain ⟨s₄, ones', other'⟩ :=
        Swaps.forM_right (fun c _ => swapsBack b c) s₁ s₂ s₃ other ones
      exact ⟨s₄, bind_ok.mpr ⟨(), s₁, one, ones'⟩, bind_ok.mpr ⟨(), s₃, other', theOthers⟩⟩
    · rintro ⟨s₄, first, second⟩
      obtain ⟨_, s₁, one, ones'⟩ := bind_ok.mp first
      obtain ⟨_, s₃, other', theOthers⟩ := bind_ok.mp second
      obtain ⟨s₂, other, ones⟩ :=
        Swaps.forM_left (fun c _ => swaps c b) s₁ s₄ s₃ ones' other'
      exact bind_ok.mpr ⟨(), s₂, (each b s s₂).mpr ⟨s₁, one, other⟩, ih.mpr ⟨s₃, ones, theOthers⟩⟩

end FieldKernel
