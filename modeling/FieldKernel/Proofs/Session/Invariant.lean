import FieldKernel.Session.Request
import FieldKernel.Proofs.Execution.Launch
import FieldKernel.Proofs.Field.Sized
import FieldKernel.Proofs.Session.Sweeps

-- What holds of a session at all times. Derivations are shared, so what is known of them speaks of no table.
namespace FieldKernel

variable {α δ : Type} [Scalar α] [Digest δ]

structure Host.Sound (host : Host α δ) : Prop where
  kernels : ∀ name kernel, host.session.kernels.find? name = some kernel → kernel.Worded
  compiled : ∀ name bound, host.session.compiled.find? name = some bound → ∃ kernel,
    host.session.kernels.find? name = some kernel ∧ kernel.Alike bound.kernel ∧
      bound.Genuine host.session.table
  compiler : host.session.compiler.Sound host.session.table
  derivations : host.derivations.Sound
  queue : ∀ task ∈ host.session.queue, task.Ready host.session.table

theorem Host.sound_start (settings : Settings) : (Host.start settings : Host α δ).Sound where
  kernels := fun _ _ none_ => nomatch none_
  compiled := fun _ _ none_ => nomatch none_
  compiler := Compiler.sound_empty _ _
  derivations := Derivations.sound_empty
  queue := fun _ none_ => nomatch none_

def Host.withTable (host : Host α δ) (table : FieldTable α) : Host α δ :=
  { host with session := { host.session with table := table } }

theorem Host.Sound.withTable {host : Host α δ} (sound : host.Sound) {table : FieldTable α}
    (keeps : host.session.table.Keeps table) : (host.withTable table).Sound where
  kernels := sound.kernels
  compiled := fun name bound found => by
    obtain ⟨kernel, defined, alike, genuine⟩ := sound.compiled name bound found
    exact ⟨kernel, defined, alike, genuine.keeps keeps⟩
  compiler := sound.compiler.keeps keeps
  derivations := sound.derivations
  queue := fun task member => (sound.queue task member).keeps keeps

theorem Host.Sound.withDerivations {host : Host α δ} (sound : host.Sound) {derivations : Derivations α δ}
    (derived : derivations.Sound) : Host.Sound ⟨host.session, derivations⟩ :=
  ⟨sound.kernels, sound.compiled, sound.compiler, derived, sound.queue⟩

-- Where an act leads from a host: to a sound one that has the fields of the first, also when the act
-- fails; what the act returns is as stated.
structure Host.Leads {β : Type} (host : Host α δ) (outcome : EStateM.Result KernelFault (Host α δ) β)
    (P : Host α δ → β → Prop) : Prop where
  sound : (ended outcome).Sound
  keeps : host.session.table.Keeps (ended outcome).session.table
  holds : ∀ after b, outcome = .ok b after → P after b

namespace Host

variable {β γ : Type} {host : Host α δ} {P : Host α δ → β → Prop} {Q : Host α δ → γ → Prop}

theorem leads_pure (sound : host.Sound) {b : β} (holds : P host b) : host.Leads (.ok b host) P :=
  ⟨sound, .refl _, fun _ _ same => by cases same; exact holds⟩

theorem leads_throw (sound : host.Sound) (e : KernelFault) : host.Leads (.error e host) P :=
  ⟨sound, .refl _, fun _ _ same => nomatch same⟩

theorem Leads.bind {x : Act α δ β} {f : β → Act α δ γ} (first : host.Leads (x host) P)
    (then_ : ∀ after b, after.Sound → host.session.table.Keeps after.session.table → P after b →
      after.Leads (f b after) Q) :
    host.Leads ((x >>= f) host) Q := by
  obtain ⟨sound, keeps, holds⟩ := first
  rw [run_bind]
  cases ran : x host with
  | error e after =>
    rw [ran] at sound keeps
    exact ⟨sound, keeps, fun _ _ same => nomatch same⟩
  | ok b after =>
    rw [ran] at sound keeps
    obtain ⟨sound', keeps', holds'⟩ := then_ after b sound keeps (holds after b ran)
    exact ⟨sound', keeps.trans keeps', holds'⟩

theorem Leads.mono {outcome : EStateM.Result KernelFault (Host α δ) β} {P' : Host α δ → β → Prop}
    (leads : host.Leads outcome P) (weaker : ∀ after b, P after b → P' after b) :
    host.Leads outcome P' :=
  ⟨leads.sound, leads.keeps, fun after b ran => weaker after b (leads.holds after b ran)⟩

theorem leads_forM {item : Type} {f : item → Act α δ PUnit} {items : List item} (sound : host.Sound)
    (each : ∀ i ∈ items, ∀ host', Host.Sound host' → host.session.table.Keeps host'.session.table →
      host'.Leads (f i host') fun _ _ => True) :
    host.Leads (items.forM f host) fun _ _ => True := by
  induction items generalizing host with
  | nil => exact leads_pure sound trivial
  | cons i rest ih =>
    refine (each i List.mem_cons_self host sound (.refl _)).bind fun after _ sound' keeps _ => ?_
    exact ih sound' fun j member host' sound₁ keeps' =>
      each j (List.mem_cons_of_mem _ member) host' sound₁ (keeps.trans keeps')

end Host

structure Host.Stays (before after : Host α δ) : Prop where
  settings : after.session.settings = before.session.settings
  table : after.session.table = before.session.table
  kernels : after.session.kernels = before.session.kernels
  queue : after.session.queue = before.session.queue

omit [Scalar α] [Digest δ] in
theorem Host.Stays.trans {a b c : Host α δ} (first : a.Stays b) (second : b.Stays c) : a.Stays c where
  settings := second.settings.trans first.settings
  table := second.table.trans first.table
  kernels := second.kernels.trans first.kernels
  queue := second.queue.trans first.queue

theorem Host.leads_mapM {β item : Type} {host host' : Host α δ} {f : item → Act α δ β} {items : List item}
    {P : β → Prop} (sound : host'.Sound) (stays : host.Stays host')
    (each : ∀ i ∈ items, ∀ host', Host.Sound host' → host.Stays host' →
      host'.Leads (f i host') fun after b => host'.Stays after ∧ P b) :
    host'.Leads (items.mapM f host') fun after bs => host.Stays after ∧ ∀ b ∈ bs, P b := by
  induction items generalizing host' with
  | nil => exact leads_pure sound ⟨stays, fun _ none_ => nomatch none_⟩
  | cons i rest ih =>
    rw [List.mapM_cons]
    refine (each i List.mem_cons_self host' sound stays).bind fun after b sound₁ _ ⟨stays₁, holds⟩ => ?_
    have others := ih sound₁ (stays.trans stays₁) fun j member => each j (List.mem_cons_of_mem _ member)
    refine others.bind fun after' bs sound₂ _ ⟨stays₂, holds₂⟩ => leads_pure sound₂ ⟨stays₂, ?_⟩
    exact List.forall_mem_cons.mpr ⟨holds, holds₂⟩

namespace Session

variable [DecidableEq δ] {host : Host α δ}

omit [Scalar α] [Digest δ] [DecidableEq δ] in
theorem session_bind {β : Type} (f : Session α δ → Act α δ β) (host : Host α δ) :
    (session >>= f) host = f host.session host := rfl

omit [Scalar α] [Digest δ] [DecidableEq δ] in
theorem lift_bind {β γ : Type} (x : Except KernelFault β) (f : β → Act α δ γ) (host : Host α δ) :
    (lift x >>= f) host = match x with
      | .ok b => f b host
      | .error e => .error e host := by
  cases x <;> rfl

omit [Digest δ] [DecidableEq δ] in
theorem declare_eq (name : String) (element : ElementType) (shape : Shape) (group : String)
    (host : Host α δ) : declare name element shape group host =
      match host.session.table.declare name element shape group with
      | .ok table => .ok () (host.withTable table)
      | .error e => .error e host := by
  unfold declare
  rw [session_bind, lift_bind]
  cases host.session.table.declare name element shape group <;> rfl

omit [DecidableEq δ] in
theorem leads_declare (sound : host.Sound) (name : String) (element : ElementType) (shape : Shape)
    (group : String) : host.Leads (declare name element shape group host) fun _ _ => True := by
  rw [declare_eq]
  split
  · next declared =>
    have keeps := FieldTable.keeps_declare declared
    exact ⟨sound.withTable keeps, keeps, fun _ _ _ => trivial⟩
  · exact Host.leads_throw sound _

omit [DecidableEq δ] in
theorem leads_enableGrads (sound : host.Sound) (group : String) :
    host.Leads (enableGrads group host) fun _ _ => True := by
  have keeps := host.session.table.keeps_enableGrads group
  exact ⟨sound.withTable keeps, keeps, fun _ _ _ => trivial⟩

omit [Scalar α] [Digest δ] [DecidableEq δ] in
theorem define_eq (kernel : Kernel α) (host : Host α δ) : define kernel host =
    if host.session.kernels.contains kernel.name then .error (.alreadyDeclared kernel.name) host
    else .ok () { host with session := { host.session with
      kernels := host.session.kernels.insert kernel.name kernel } } := by
  unfold define
  rw [session_bind]
  split <;> rfl

omit [DecidableEq δ] in
theorem leads_define (sound : host.Sound) {kernel : Kernel α} (worded : kernel.Worded) :
    host.Leads (define kernel host) fun _ _ => True := by
  rw [define_eq]
  split
  · exact Host.leads_throw sound _
  · next absent =>
    refine ⟨⟨fun name other found => ?_, fun name bound found => ?_, sound.compiler, sound.derivations,
      sound.queue⟩, .refl _, fun _ _ _ => trivial⟩
    · simp only [ended_ok, NameMap.find?_insert] at found
      split at found
      · cases found
        exact worded
      · exact sound.kernels name other found
    · obtain ⟨other, defined, alike, genuine⟩ := sound.compiled name bound found
      refine ⟨other, ?_, alike, genuine⟩
      simp only [ended_ok, NameMap.find?_insert]
      rw [if_neg]
      · exact defined
      · rintro rfl
        exact absent (NameMap.contains_iff.mpr ⟨other, defined⟩)

omit [Scalar α] [Digest δ] [DecidableEq δ] in
theorem kernel_eq (name : String) (host : Host α δ) : kernel name host =
    match host.session.kernels.find? name with
    | some kernel => .ok kernel host
    | none => .error (.unknownKernel name) host := by
  unfold kernel
  rw [session_bind]
  cases host.session.kernels.find? name <;> rfl

theorem compile_eq (name : String) (host : Host α δ) : compile name host =
    match host.session.compiled.find? name with
    | some bound => .ok bound host
    | none =>
      match host.session.kernels.find? name with
      | none => .error (.unknownKernel name) host
      | some kernel =>
        match Compiler.compile kernel host.session.table host.session.compiler with
        | .error e compiler =>
          .error e { host with session := { host.session with compiler := compiler } }
        | .ok bound compiler => .ok bound
          { session := { host.session with
              compiler := compiler, compiled := host.session.compiled.insert name bound }
            derivations := if host.session.settings.eagerGradients
              then (Derivations.derive bound host.derivations).2 else host.derivations } := by
  unfold compile
  rw [session_bind]
  cases host.session.compiled.find? name with
  | some bound => rfl
  | none =>
    simp only []
    rw [run_bind, kernel_eq]
    cases host.session.kernels.find? name with
    | none => rfl
    | some kernel =>
      simp only []
      rw [session_bind, run_bind, onCompiler]
      cases Compiler.compile kernel host.session.table host.session.compiler with
      | error e compiler => rfl
      | ok bound compiler =>
        simp only [session_bind]
        split <;> rfl

theorem leads_compile (legible : Legible α) (free : Function.Injective (Digest.ofBytes : _ → δ))
    (sound : host.Sound) (name : String) :
    host.Leads (compile name host) fun after bound => host.Stays after ∧
      bound.Genuine host.session.table ∧ ∃ kernel, host.session.kernels.find? name = some kernel ∧
        kernel.Alike bound.kernel := by
  rw [compile_eq]
  split
  · next bound found =>
    obtain ⟨kernel, defined, alike, genuine⟩ := sound.compiled name bound found
    exact Host.leads_pure sound ⟨⟨rfl, rfl, rfl, rfl⟩, genuine, kernel, defined, alike⟩
  · split
    · exact Host.leads_throw sound _
    · next kernel defined =>
      split
      · next e compiler failed =>
        obtain ⟨-, same⟩ := Compiler.compile_error failed
        rw [same]
        exact Host.leads_throw sound _
      · next bound compiler compiled =>
        obtain ⟨genuine, alike, sound'⟩ :=
          Compiler.compile_ok legible free sound.compiler (sound.kernels name kernel defined) compiled
        refine ⟨⟨sound.kernels, fun other bound' found => ?_, sound', ?_, sound.queue⟩, .refl _, ?_⟩
        · simp only [ended_ok, NameMap.find?_insert] at found
          split at found
          · next same =>
            cases found
            exact ⟨kernel, same ▸ defined, alike, genuine⟩
          · exact sound.compiled other bound' found
        · simp only [ended_ok]
          split
          · exact (Derivations.derive_from legible free sound.derivations genuine).1
          · exact sound.derivations
        · intro after bound' same
          cases same
          exact ⟨⟨rfl, rfl, rfl, rfl⟩, genuine, kernel, defined, alike⟩

omit [Digest δ] in
theorem derive_eq (bound : Bound α δ) (host : Host α δ) : derive bound host =
    match (Derivations.derive bound host.derivations).1 with
    | .ok grad => .ok grad { host with derivations := (Derivations.derive bound host.derivations).2 }
    | .error e => .error e { host with derivations := (Derivations.derive bound host.derivations).2 } := by
  unfold derive
  rw [run_bind]
  change lift (Derivations.derive bound host.derivations).1 _ = _
  cases (Derivations.derive bound host.derivations).1 <;> rfl

theorem leads_derivations (legible : Legible α) (free : Function.Injective (Digest.ofBytes : _ → δ))
    (sound : host.Sound) {bound : Bound α δ} (genuine : bound.Genuine host.session.table) :
    Host.Sound { host with derivations := (Derivations.derive bound host.derivations).2 } :=
  sound.withDerivations (Derivations.derive_from legible free sound.derivations genuine).1

theorem leads_derive (legible : Legible α) (free : Function.Injective (Digest.ofBytes : _ → δ))
    (sound : host.Sound) {bound : Bound α δ} (genuine : bound.Genuine host.session.table) :
    host.Leads (derive bound host) fun after grad => host.Stays after ∧ bound.HasGradient grad := by
  rw [derive_eq]
  have sound' := leads_derivations legible free sound genuine
  split
  · next grad derived =>
    refine ⟨sound', .refl _, fun after other same => ?_⟩
    cases same
    exact ⟨⟨rfl, rfl, rfl, rfl⟩, Derivations.derive_ok legible free sound.derivations genuine derived⟩
  · exact ⟨sound', .refl _, fun _ _ same => nomatch same⟩

theorem leads_bound (legible : Legible α) (free : Function.Injective (Digest.ofBytes : _ → δ))
    (sound : host.Sound) {kernel : Kernel α} (worded : kernel.Worded) :
    host.Leads (onCompiler (Compiler.compile kernel host.session.table) host) fun after bound =>
      host.Stays after ∧ bound.Genuine host.session.table ∧ kernel.Alike bound.kernel := by
  unfold onCompiler
  cases compiled : Compiler.compile kernel host.session.table host.session.compiler with
  | ok bound compiler =>
    obtain ⟨genuine, alike, sound'⟩ :=
      Compiler.compile_ok legible free sound.compiler worded compiled
    refine ⟨⟨sound.kernels, sound.compiled, sound', sound.derivations, sound.queue⟩, .refl _, ?_⟩
    intro after other same
    cases same
    exact ⟨⟨rfl, rfl, rfl, rfl⟩, genuine, alike⟩
  | error e compiler =>
    obtain ⟨-, same⟩ := Compiler.compile_error compiled
    rw [same]
    exact Host.leads_throw sound _

theorem leads_reverse (legible : Legible α) (free : Function.Injective (Digest.ofBytes : _ → δ))
    (sound : host.Sound) (name : String) :
    host.Leads (reverse name host) fun after grad => host.Stays after ∧ grad.Worded := by
  refine (leads_compile legible free sound name).bind fun after bound sound' _ ⟨stays, genuine, _⟩ => ?_
  refine (leads_derive legible free sound' (stays.table ▸ genuine)).mono ?_
  exact fun _ _ ⟨stays', hasGradient⟩ => ⟨stays.trans stays', hasGradient.worded genuine.worded⟩

theorem leads_launched (legible : Legible α) (free : Function.Injective (Digest.ofBytes : _ → δ))
    (sound : host.Sound) (gradient : Bool) (name : String) :
    host.Leads (launched gradient name host) fun after bound => host.Stays after ∧
      bound.Genuine host.session.table := by
  cases gradient with
  | false => exact (leads_compile legible free sound name).mono fun _ _ ⟨stays, genuine, _⟩ => ⟨stays, genuine⟩
  | true =>
    refine (leads_reverse legible free sound name).bind fun after grad sound' _ ⟨stays, worded⟩ => ?_
    rw [session_bind, ← stays.table]
    refine (leads_bound legible free sound' worded).mono ?_
    exact fun _ _ ⟨stays', genuine, _⟩ => ⟨stays.trans stays', genuine⟩

omit [DecidableEq δ] in
theorem leads_lift {β : Type} (sound : host.Sound) (x : Except KernelFault β) :
    host.Leads (lift x host) fun after _ => host.Stays after ∧ True := by
  cases x with
  | ok b => exact Host.leads_pure sound ⟨⟨rfl, rfl, rfl, rfl⟩, trivial⟩
  | error e => exact Host.leads_throw sound e

theorem leads_reverseAll (legible : Legible α) (free : Function.Injective (Digest.ofBytes : _ → δ))
    (sound : host.Sound) (names : List String) :
    host.Leads (reverseAll names host) fun _ _ => True := by
  have stays : host.Stays host := ⟨rfl, rfl, rfl, rfl⟩
  have bounds : host.Leads (names.mapM compile host) fun after bounds => host.Stays after ∧
      ∀ bound ∈ bounds, Bound.Genuine host.session.table bound :=
    Host.leads_mapM sound stays fun name _ host' sound' stays' =>
      (leads_compile legible free sound' name).mono fun _ _ ⟨stays₁, genuine, _⟩ =>
        ⟨stays₁, stays'.table ▸ genuine⟩
  refine bounds.bind fun after bounds sound' _ ⟨stays', genuine⟩ => ?_
  have derived : after.Leads (bounds.mapM (fun bound => onDerivations (Derivations.derive bound)) after)
      fun after derived => host.Stays after ∧ ∀ d ∈ derived, True :=
    Host.leads_mapM sound' stays' fun bound member host' sound₁ stays₁ =>
      ⟨leads_derivations legible free sound₁ (stays₁.table ▸ genuine bound member), .refl _,
        fun _ _ same => by cases same; exact ⟨⟨rfl, rfl, rfl, rfl⟩, trivial⟩⟩
  refine derived.bind fun after' derived sound₁ _ _ => ?_
  have told : after'.Leads (derived.mapM lift after')
      fun after grads => after'.Stays after ∧ ∀ grad ∈ grads, True :=
    Host.leads_mapM sound₁ ⟨rfl, rfl, rfl, rfl⟩ fun d _ _ sound₂ _ => leads_lift sound₂ d
  exact told.mono fun _ _ _ => trivial

end Session

end FieldKernel
