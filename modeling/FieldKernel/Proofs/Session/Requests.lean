import FieldKernel.Proofs.Session.Drain
import FieldKernel.Proofs.Session.Moves

-- Sessions stay sound whatever they are asked, also where a request fails half way.
namespace FieldKernel

variable {α δ : Type} [Scalar α] [Digest δ] [DecidableEq δ]

-- Kernels that are put in are named by words, and so are their fields.
def Request.Worded : Request α → Prop
  | .define k => k.Worded
  | .load program => ∀ kernel ∈ program.kernels, kernel.node.Worded
  | _ => True

namespace Session

variable {host : Host α δ}

omit [DecidableEq δ] in
theorem leads_onTable {β : Type} {pass : Pass α β} (sound : host.Sound)
    (moves : Moves FieldTable.Keeps pass) : host.Leads (onTable pass host) fun _ _ => True := by
  have keeps := moves host.session.table
  unfold onTable
  cases ran : pass host.session.table with
  | ok b table =>
    rw [ran] at keeps
    exact ⟨sound.withTable keeps, keeps, fun _ _ _ => trivial⟩
  | error e table =>
    rw [ran] at keeps
    exact ⟨sound.withTable keeps, keeps, fun _ _ _ => trivial⟩

theorem leads_invoke (legible : Legible α) (free : Function.Injective (Digest.ofBytes : _ → δ))
    (sound : host.Sound) (gradient : Bool) (name : String) (args : List α) :
    host.Leads (invoke gradient name args host) fun _ _ => True := by
  unfold invoke
  refine (leads_drain legible free sound).bind fun after _ sound₁ _ _ => ?_
  refine (leads_launched legible free sound₁ gradient name).bind fun after' bound sound₂ _ ⟨stays, genuine⟩ => ?_
  rw [session_bind]
  exact leads_runTask sound₂ (stays.table ▸ genuine)

theorem launch_eq (gradient : Bool) (name : String) (args : List α) (host : Host α δ) :
    launch gradient name args host =
      match launched gradient name host with
      | .error e after => .error e after
      | .ok bound after =>
        if args.length = bound.kernel.argCount then .ok () { after with session := { after.session with
          queue := after.session.queue ++ [⟨bound, args, order after.session.settings gradient, gradient⟩] } }
        else .error (.argumentCount bound.kernel.name bound.kernel.argCount args.length) after := by
  unfold launch
  rw [run_bind]
  cases launched gradient name host with
  | error e after => rfl
  | ok bound after => by_cases count : args.length = bound.kernel.argCount <;> simp only [count, ne_eq,
      not_true_eq_false, not_false_eq_true, if_true, if_false] <;> rfl

theorem leads_launch (legible : Legible α) (free : Function.Injective (Digest.ofBytes : _ → δ))
    (sound : host.Sound) (gradient : Bool) (name : String) (args : List α) :
    host.Leads (launch gradient name args host) fun _ _ => True := by
  obtain ⟨sound₁, keeps, holds⟩ := leads_launched legible free sound gradient name
  rw [launch_eq]
  cases bounds : launched gradient name host with
  | error e after =>
    rw [bounds] at sound₁ keeps
    exact ⟨sound₁, keeps, fun _ _ _ => trivial⟩
  | ok bound after =>
    rw [bounds] at sound₁ keeps
    obtain ⟨stays, genuine⟩ := holds after bound bounds
    dsimp only
    split
    · next count =>
      refine ⟨⟨sound₁.kernels, sound₁.compiled, sound₁.compiler, sound₁.derivations, ?_⟩, keeps, fun _ _ _ => trivial⟩
      intro task member
      rcases List.mem_append.mp member with old | new
      · exact sound₁.queue task old
      · rw [List.mem_singleton.mp new]
        exact ⟨genuine.keeps keeps, count⟩
    · exact ⟨sound₁, keeps, fun _ _ _ => trivial⟩

theorem leads_zeroGrads (legible : Legible α) (free : Function.Injective (Digest.ofBytes : _ → δ))
    (sound : host.Sound) : host.Leads (zeroGrads host) fun _ _ => True := by
  refine (leads_drain legible free sound).bind fun after _ sound₁ _ _ => ?_
  have keeps := after.session.table.keeps_zeroGrads
  exact ⟨sound₁.withTable keeps, keeps, fun _ _ _ => trivial⟩

theorem leads_edit (legible : Legible α) (free : Function.Injective (Digest.ofBytes : _ → δ))
    (sound : host.Sound) (name : String) (e : FieldEdit α) :
    host.Leads (edit name e host) fun _ _ => True :=
  (leads_drain legible free sound).bind fun _ _ sound₁ _ _ => leads_onTable sound₁ (FieldTable.keeps_edit name e)

omit [DecidableEq δ] in
theorem leads_load (sound : host.Sound) {program : Program α}
    (worded : ∀ kernel ∈ program.kernels, kernel.node.Worded) :
    host.Leads (load program host) fun _ _ => True := by
  have fields := Host.leads_forM sound fun (field : FieldDecl) (_ : field ∈ program.fields) after sound' _ =>
    leads_declare sound' field.name field.element field.shape (field.group?.getD rootGroup)
  refine fields.bind fun after _ sound₁ _ _ => ?_
  have enabled : ∀ (group : Located String) (host' : Host α δ), host'.Sound →
      host'.Leads ((do let _ ← enableGrads group.node : Act α δ Unit) host') fun _ _ => True :=
    fun group _ sound' => (leads_enableGrads sound' group.node).bind fun _ _ sound₂ _ _ =>
      Host.leads_pure sound₂ trivial
  have grads := Host.leads_forM sound₁ fun group (_ : group ∈ program.grads) host' sound' _ =>
    enabled group host' sound'
  refine grads.bind fun after _ sound₂ _ _ => ?_
  exact Host.leads_forM sound₂ fun kernel member after sound' _ =>
    leads_define sound' (worded kernel member)

theorem leads_perform (legible : Legible α) (free : Function.Injective (Digest.ofBytes : _ → δ))
    (sound : host.Sound) {request : Request α} (worded : request.Worded) :
    host.Leads (perform request host) fun _ _ => True := by
  have stays : ∀ r : Reply α δ, host.Leads (.ok r host) fun _ _ => True := fun _ => Host.leads_pure sound trivial
  have replies : ∀ {β : Type} {x : Act α δ β} {P : Host α δ → β → Prop} (reply : β → Reply α δ),
      host.Leads (x host) P → host.Leads ((x >>= fun b => pure (reply b)) host) fun _ _ => True :=
    fun _ leads => leads.bind fun _ _ sound' _ _ => Host.leads_pure sound' trivial
  cases request with
  | load program => exact replies _ (leads_load sound worded)
  | define kernel => exact replies _ (leads_define sound worded)
  | declare name element shape group => exact replies _ (leads_declare sound name element shape group)
  | enableGrads group => exact replies _ (leads_enableGrads sound group)
  | compile name => exact replies _ (leads_compile legible free sound name)
  | kernel name =>
    refine replies (P := fun _ _ => True) _ ?_
    rw [kernel_eq]
    split
    · exact Host.leads_pure sound trivial
    · exact Host.leads_throw sound _
  | kernelNames => exact stays _
  | reverse name => exact replies _ (leads_reverse legible free sound name)
  | reverseAll names => exact replies _ (leads_reverseAll legible free sound names)
  | cached name =>
    exact (leads_compile legible free sound name).bind fun _ _ sound' _ _ => Host.leads_pure sound' trivial
  | invoke gradient name args => exact replies _ (leads_invoke legible free sound gradient name args)
  | launch gradient name args => exact replies _ (leads_launch legible free sound gradient name args)
  | drain => exact replies _ (leads_drain legible free sound)
  | zeroGrads => exact replies _ (leads_zeroGrads legible free sound)
  | pending => exact stays _
  | settings => exact stays _
  | stats => exact stays _
  | derivations => exact stays _
  | fields => exact stays _
  | ask field query => exact replies _ (leads_lift sound (host.session.table.answer field query))
  | edit field e => exact replies _ (leads_edit legible free sound field e)

end Session

-- The hosts a session passes through, from its start and whatever it is asked; a request that fails
-- leaves one too. Between requests it may find the derivations that another session has come by.
inductive Host.Reached : Settings → Host α δ → Prop
  | start (settings : Settings) : Reached settings (.start settings)
  | next {settings : Settings} {host : Host α δ} {request : Request α} (reached : Reached settings host)
      (worded : request.Worded) : Reached settings (ended (Session.perform request host))
  | shared {settings settings' : Settings} {host other : Host α δ} (reached : Reached settings host)
      (elsewhere : Reached settings' other) : Reached settings ⟨host.session, other.derivations⟩

theorem Host.Reached.sound {settings : Settings} {host : Host α δ} (legible : Legible α)
    (free : Function.Injective (Digest.ofBytes : _ → δ)) (reached : Host.Reached settings host) :
    host.Sound := by
  induction reached with
  | start settings => exact Host.sound_start settings
  | next _ worded ih => exact (Session.leads_perform legible free ih worded).sound
  | shared _ _ ih found => exact ih.withDerivations found.derivations

end FieldKernel
