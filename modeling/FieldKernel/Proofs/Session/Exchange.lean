import FieldKernel.Proofs.Reverse.Independence
import FieldKernel.Proofs.Reverse.Progress
import FieldKernel.Proofs.Session.Failure

-- A launch of a kernel and a launch of its gradient kernel can change places.
namespace FieldKernel

variable {α δ : Type} [Scalar α] [Digest δ]

omit [Digest δ] in
theorem Bound.launch_keeps {bound : Bound α δ} {args : List α} {order : VisitOrder} {t t' : FieldTable α}
    (ran : bound.launch args order t = .ok () t') : t.Keeps t' :=
  ((bound.kernel.moves_execute args order).ok (Bound.launch_ok.mp ran).2).keeps

namespace Kernel

def prepare (kernel : Kernel α) (gradient : Bool) (table : FieldTable α) : Except KernelFault (Bound α δ) := do
  let bound ← kernel.bind table
  if gradient then
    let grad ← kernel.reverse bound.signatures
    grad.bind table
  else return bound

-- There are kernels that print like the kernel and can be prepared, and whichever of them is, launching it is
-- launching the bound kernel.
structure Stands (kernel : Kernel α) (gradient : Bool) (table : FieldTable α) (bound : Bound α δ) : Prop where
  formed : ∃ (other : Kernel α) (prepared : Bound α δ), kernel.Alike other ∧
    other.prepare gradient table = .ok prepared
  prepared : ∀ (other : Kernel α) (prepared : Bound α δ), kernel.Alike other →
    other.prepare gradient table = .ok prepared →
      ∀ args order, bound.launch args order table = prepared.launch args order table

variable {kernel : Kernel α} {table table' : FieldTable α} {prepared : Bound α δ}

theorem prepare_false : (kernel.prepare false table : Except KernelFault (Bound α δ)) = kernel.bind table :=
  bind_pure _

theorem prepare_true_ok : kernel.prepare true table = .ok prepared ↔
    ∃ (bound : Bound α δ) (grad : Kernel α), kernel.bind table = .ok bound ∧
      kernel.reverse bound.signatures = .ok grad ∧ grad.bind table = .ok prepared := by
  simp only [prepare, if_true, Except.bind_ok]
  constructor
  · intro prepares
    obtain ⟨bound, binds, grad, reversed, again⟩ := prepares
    exact ⟨bound, grad, binds, reversed, again⟩
  · intro prepares
    obtain ⟨bound, grad, binds, reversed, again⟩ := prepares
    exact ⟨bound, binds, grad, reversed, again⟩

theorem prepare_keeps {gradient : Bool} (prepares : kernel.prepare gradient table = .ok prepared)
    (keeps : table.Keeps table') : kernel.prepare gradient table' = .ok prepared := by
  cases gradient with
  | false =>
    rw [prepare_false] at prepares ⊢
    exact bind_keeps prepares keeps
  | true =>
    obtain ⟨bound, grad, binds, reversed, again⟩ := prepare_true_ok.mp prepares
    exact prepare_true_ok.mpr ⟨bound, grad, bind_keeps binds keeps, reversed, bind_keeps again keeps⟩

theorem prepared_exchange {bound : Bound α δ} {args : List α} {order gradOrder : VisitOrder}
    {s s₁ s₂ t₁ t₂ : FieldTable α} (prepares : kernel.prepare false table = .ok bound)
    (prepares' : kernel.prepare true table = .ok prepared) (first : bound.launch args order s = .ok () s₁)
    (second : prepared.launch args gradOrder s₁ = .ok () s₂)
    (first' : prepared.launch args gradOrder s = .ok () t₁)
    (second' : bound.launch args order t₁ = .ok () t₂) : s₂ = t₂ := by
  obtain ⟨bound', grad, binds, reversed, again⟩ := prepare_true_ok.mp prepares'
  obtain ⟨checked, -⟩ := binds_iff.mp binds
  obtain ⟨gradChecked, -⟩ := binds_iff.mp again
  rw [prepare_false] at prepares
  cases prepares.symm.trans binds
  exact launches_exchange checked reversed gradChecked (binds_kernel binds) (binds_kernel again) first second first'
    second'

end Kernel

namespace Bound

variable {bound : Bound α δ} {kernel : Kernel α} {table : FieldTable α}

theorem Genuine.stands (genuine : bound.Genuine table) (alike : kernel.Alike bound.kernel) :
    kernel.Stands false table bound where
  formed := ⟨bound.kernel, bound, alike, Kernel.prepare_false.trans genuine.binds⟩
  prepared := fun other prepared alike' prepares => by
    rw [Kernel.prepare_false] at prepares
    have between := alike.symm.trans alike'
    have genuine' : prepared.Genuine table := .of_binds prepares (genuine.worded.alike between)
    obtain ⟨checked, -⟩ := Kernel.binds_iff.mp prepares
    refine genuine.launch_same genuine' ?_
    rw [Kernel.binds_kernel prepares]
    exact between.same_outcome genuine.checked checked

theorem HasGradient.stands {grad : Kernel α} {gradBound : Bound α δ} (hasGradient : bound.HasGradient grad)
    (genuine : bound.Genuine table) (alike : kernel.Alike bound.kernel) (gradGenuine : gradBound.Genuine table)
    (gradAlike : grad.Alike gradBound.kernel) : kernel.Stands true table gradBound where
  formed := by
    have gradChecked := hasGradient.check_alike gradAlike gradGenuine.checked
    obtain ⟨prepared, gradBinds⟩ := hasGradient.binds genuine gradChecked
    obtain ⟨other, between, checked, reversed⟩ := hasGradient
    have binds := genuine.bind_alike between checked
    exact ⟨other, prepared, alike.trans between, Kernel.prepare_true_ok.mpr ⟨_, grad, binds, reversed, gradBinds⟩⟩
  prepared := fun other prepared alike' prepares => by
    obtain ⟨own, grad', binds, reversed, gradBinds⟩ := Kernel.prepare_true_ok.mp prepares
    have between := alike.symm.trans alike'
    obtain ⟨checked, -⟩ := Kernel.binds_iff.mp binds
    cases binds.symm.trans (genuine.bind_alike between checked)
    have hasGradient' : bound.HasGradient grad' := ⟨other, between, checked, reversed⟩
    have genuine' : prepared.Genuine table := .of_binds gradBinds (hasGradient'.worded genuine.worded)
    have gradChecked := hasGradient.check_alike gradAlike gradGenuine.checked
    have stored : Kernel.SameOutcome δ gradBound.kernel grad :=
      gradAlike.symm.same_outcome gradGenuine.checked gradChecked
    have same : Kernel.SameOutcome δ grad grad' :=
      hasGradient.same_outcome hasGradient' gradChecked (Kernel.binds_iff.mp gradBinds).1
    refine gradGenuine.launch_same genuine' ?_
    rw [Kernel.binds_kernel gradBinds]
    exact stored.trans same

end Bound

namespace Session

variable [DecidableEq δ] {host after : Host α δ} {gradient : Bool} {name : String} {bound : Bound α δ}

theorem launched_stands (legible : Legible α) (free : Function.Injective (Digest.ofBytes : _ → δ))
    (sound : host.Sound) (ran : launched gradient name host = .ok bound after) :
    ∃ kernel, host.session.kernels.find? name = some kernel ∧
      kernel.Stands gradient host.session.table bound := by
  cases gradient with
  | false =>
    obtain ⟨-, genuine, kernel, defined, alike⟩ :=
      (leads_compile legible free sound name).holds after bound ran
    exact ⟨kernel, defined, genuine.stands alike⟩
  | true =>
    obtain ⟨k, h₂, ranReverse, ranBound⟩ := bind_ok.mp ran
    obtain ⟨b, h₁, ranCompile, ranDerive⟩ := bind_ok.mp ranReverse
    have compiled := leads_compile legible free sound name
    obtain ⟨stays, genuine, kernel, defined, alike⟩ := compiled.holds h₁ b ranCompile
    have sound₁ : h₁.Sound := by simpa [ranCompile] using compiled.sound
    have derived := leads_derive legible free sound₁ (stays.table ▸ genuine)
    obtain ⟨stays', hasGradient⟩ := derived.holds h₂ k ranDerive
    have sound₂ : h₂.Sound := by simpa [ranDerive] using derived.sound
    rw [session_bind] at ranBound
    obtain ⟨-, gradGenuine, gradAlike⟩ :=
      (leads_bound legible free sound₂ (hasGradient.worded genuine.worded)).holds after bound ranBound
    rw [(stays.trans stays').table] at gradGenuine
    exact ⟨kernel, defined, hasGradient.stands genuine alike gradGenuine gradAlike⟩

end Session

-- What an invocation comes to from a host with nothing in its queue: a bound kernel runs that stands for the
-- kernel of the name.
structure Host.Invoked (gradient : Bool) (name : String) (args : List α) (host after : Host α δ) : Prop where
  settings : after.session.settings = host.session.settings
  kernels : after.session.kernels = host.session.kernels
  idle : after.session.queue = []
  sound : after.Sound
  ran : ∃ (kernel : Kernel α) (bound : Bound α δ), host.session.kernels.find? name = some kernel ∧
    kernel.Stands gradient host.session.table bound ∧
    bound.launch args (Session.order host.session.settings gradient) host.session.table =
      .ok () after.session.table

namespace Session

variable [DecidableEq δ] {host drained after : Host α δ} {gradient : Bool} {name : String} {args : List α}

theorem invoke_drained (legible : Legible α) (free : Function.Injective (Digest.ofBytes : _ → δ))
    (sound : host.Sound) (ranDrain : drain host = .ok () drained)
    (ran : invoke gradient name args host = .ok () after) : drained.Invoked gradient name args after := by
  obtain ⟨_, drained', ranDrain', rest⟩ := bind_ok.mp ran
  cases ranDrain.symm.trans ranDrain'
  obtain ⟨bound, h, ranLaunched, ranTask⟩ := bind_ok.mp rest
  have sound₁ : drained.Sound := by simpa [ranDrain] using (leads_drain legible free sound).sound
  have sound₂ : after.Sound := by simpa [ran] using (leads_invoke legible free sound gradient name args).sound
  obtain ⟨-, -, idle⟩ := drain_empties legible free sound
  rw [ranDrain, ended_ok] at idle
  obtain ⟨stays, -⟩ := (leads_launched legible free sound₁ gradient name).holds h bound ranLaunched
  obtain ⟨kernel, defined, stands⟩ := launched_stands legible free sound₁ ranLaunched
  rw [session_bind] at ranTask
  obtain ⟨launched, going⟩ := runTask_ok ranTask
  rw [stays.table, stays.settings] at launched
  exact ⟨going.settings.trans stays.settings, going.kernels.trans stays.kernels,
    going.queue.trans (stays.queue.trans idle), sound₂, kernel, bound, defined, stands, launched⟩

theorem invoke_idle (legible : Legible α) (free : Function.Injective (Digest.ofBytes : _ → δ))
    (sound : host.Sound) (idle : host.session.queue = [])
    (ran : invoke gradient name args host = .ok () after) : host.Invoked gradient name args after := by
  obtain ⟨_, drained, ranDrain, -⟩ := bind_ok.mp ran
  obtain ⟨settings, kernels, -⟩ := drain_empties legible free sound
  rw [ranDrain, ended_ok] at settings kernels
  obtain ⟨settings', kernels', idle', sound', ran⟩ := invoke_drained legible free sound ranDrain ran
  rw [drain_idle legible free sound idle ranDrain, settings, kernels] at ran
  exact ⟨settings'.trans settings, kernels'.trans kernels, idle', sound', ran⟩

theorem invokes_exchange (legible : Legible α) (free : Function.Injective (Digest.ofBytes : _ → δ))
    (sound : host.Sound) {h₁ h₂ k₁ k₂ : Host α δ} (first : invoke false name args host = .ok () h₁)
    (second : invoke true name args h₁ = .ok () h₂) (first' : invoke true name args host = .ok () k₁)
    (second' : invoke false name args k₁ = .ok () k₂) : h₂.session.table = k₂.session.table := by
  obtain ⟨_, drained, ranDrain, -⟩ := bind_ok.mp first
  have one := invoke_drained legible free sound ranDrain first
  have two := invoke_idle legible free one.sound one.idle second
  have one' := invoke_drained legible free sound ranDrain first'
  have two' := invoke_idle legible free one'.sound one'.idle second'
  obtain ⟨kernel, _, defined, stands, forward⟩ := one.ran
  obtain ⟨_, _, defined₁, gradStands, backward⟩ := two.ran
  obtain ⟨_, _, defined₂, gradStands', backward'⟩ := one'.ran
  obtain ⟨_, _, defined₃, stands', forward'⟩ := two'.ran
  rw [one.kernels] at defined₁
  rw [one'.kernels] at defined₃
  cases defined.symm.trans defined₁
  cases defined.symm.trans defined₂
  cases defined.symm.trans defined₃
  obtain ⟨other, g, alike, prepares⟩ := gradStands'.formed
  obtain ⟨b, _, binds, _⟩ := Kernel.prepare_true_ok.mp prepares
  have prepares₀ : other.prepare false drained.session.table = .ok b := Kernel.prepare_false.trans binds
  -- the tables in between have the fields of the first one, so the same is prepared for them
  have prepares₁ := Kernel.prepare_keeps prepares (Bound.launch_keeps forward)
  have prepares₂ := Kernel.prepare_keeps prepares₀ (Bound.launch_keeps backward')
  rw [stands.prepared other b alike prepares₀] at forward
  rw [gradStands.prepared other g alike prepares₁, one.settings] at backward
  rw [gradStands'.prepared other g alike prepares] at backward'
  rw [stands'.prepared other b alike prepares₂, one'.settings] at forward'
  exact Kernel.prepared_exchange prepares₀ prepares forward backward backward' forward'

end Session

-- Gradients do not depend on what the kernel overwrites. On tables that agree in gradients and in all data but
-- what the kernel stores to, its gradient kernel leaves tables that agree so. So launches of the two kernels
-- can change places, and invocations in a session can.
theorem Kernel.gradients_ignore_overwritten {kernel grad : Kernel α} {table gradTable : FieldTable α}
    {bound gradBound : Bound α δ} (binds : kernel.bind table = .ok bound)
    (reversed : kernel.reverse bound.signatures = .ok grad)
    (gradBinds : grad.bind gradTable = .ok gradBound) :
    (∀ args order s t s' t', s.AgreeBut (kernel.body.Uses .write) t →
      gradBound.launch args order s = .ok () s' → gradBound.launch args order t = .ok () t' →
        s'.AgreeBut (kernel.body.Uses .write) t') ∧
    (∀ args order gradOrder s s' t',
      (do bound.launch args order; gradBound.launch args gradOrder) s = .ok () s' →
      (do gradBound.launch args gradOrder; bound.launch args order) s = .ok () t' → s' = t') ∧
    ∀ [DecidableEq δ], Legible α → Function.Injective (Digest.ofBytes : List UInt8 → δ) →
      ∀ settings (host : Host α δ), Host.Reached settings host → ∀ name args h k,
        host.session.kernels.find? name = some kernel →
        (do Session.invoke false name args; Session.invoke true name args) host = .ok () h →
        (do Session.invoke true name args; Session.invoke false name args) host = .ok () k →
          h.session.table = k.session.table := by
  obtain ⟨checked, -⟩ := binds_iff.mp binds
  obtain ⟨gradChecked, -⟩ := binds_iff.mp gradBinds
  refine ⟨?_, ?_, ?_⟩
  · intro args order s t s' t' agree left right
    exact gradient_launch_indistinct checked reversed gradChecked (binds_kernel gradBinds) agree left right
  · intro args order gradOrder s s' t' left right
    obtain ⟨_, s₁, first, second⟩ := bind_ok.mp left
    obtain ⟨_, t₁, first', second'⟩ := bind_ok.mp right
    exact launches_exchange checked reversed gradChecked (binds_kernel binds) (binds_kernel gradBinds) first
      second first' second'
  · intro _ legible free settings host reached name args h k _ left right
    obtain ⟨_, h₁, first, second⟩ := bind_ok.mp left
    obtain ⟨_, k₁, first', second'⟩ := bind_ok.mp right
    exact Session.invokes_exchange legible free (reached.sound legible free) first second first' second'

namespace Accumulate

def passed (y : Array ℚ) : FieldTable ℚ := .ofList [
  ("x", ⟨rootGroup, .f64, [2], #[3, -1], some #[1, 1]⟩), ("y", ⟨rootGroup, .f64, [2], y, some #[2, 2]⟩)]

def hashed (kernel : Kernel ℚ) : Bound ℚ (List UInt8) :=
  ⟨kernel, bound.signatures, .ofBlock kernel.body, kernel.digest bound.signatures⟩

theorem fields_agree (y y' : Array ℚ) : (fields y).AgreeBut (kernel.body.Uses .write) (fields y') := by
  intro name
  have stored : kernel.body.Uses .write "y" := Access.contains_ofBlock.mp (by decide +kernel)
  rw [fields, fields, NameMap.find?_ofList, NameMap.find?_ofList]
  by_cases overwritten : name = "y"
  · subst overwritten
    exact .some (Field.AgreeIn.mk rfl rfl (fun kept => absurd stored kept) fun _ => rfl)
  · simp only [List.reverse_cons, List.reverse_nil, List.nil_append, List.cons_append,
      lookup_cons_ne overwritten]
    exact answers_refl .refl _

def requests : List (Request ℚ) := [
  .declare "x" .f64 [2] rootGroup, .declare "y" .f64 [2] rootGroup, .enableGrads rootGroup,
  .edit "x" (.writeAll [3, -1]), .edit "y" (.fill 5), .edit "y" (.fillGrad 1), .define kernel]

theorem worded_requests : ∀ r ∈ requests, r.Worded := by
  have worded : kernel.Worded := by
    refine ⟨(by decide : IsWord "accumulate"), ?_⟩
    have x : IsWord "x" := by decide
    have y : IsWord "y" := by decide
    simp [Block.Worded, kernel, Kernel.ofBody, Block.statements, Instr.Worded, Expr.Worded, x, y]
  simp [requests, Request.Worded, worded]

def endings (host : Host ℚ (List UInt8)) : Option (FieldTable ℚ × FieldTable ℚ) :=
  match (do Session.invoke false "accumulate" []; Session.invoke true "accumulate" []) host,
    (do Session.invoke true "accumulate" []; Session.invoke false "accumulate" []) host with
  | .ok _ h, .ok _ k => some (h.session.table, k.session.table)
  | _, _ => none

theorem gradients_ignore_overwritten_accumulate :
    kernel.bind (fields #[5, 5]) = .ok (hashed kernel) ∧
      kernel.reverse (hashed kernel).signatures = .ok gradient ∧
      gradient.bind (fields #[5, 5]) = .ok (hashed gradient) ∧
      ((hashed gradient).launch [] .reverse (fields #[5, 5]) = .ok () (passed #[5, 5]) ∧
        (hashed gradient).launch [] .reverse (fields #[0, 9]) = .ok () (passed #[0, 9]) ∧
        (passed #[5, 5]).AgreeBut (kernel.body.Uses .write) (passed #[0, 9])) ∧
      ((do (hashed kernel).launch [] .forward; (hashed gradient).launch [] .reverse) (fields #[5, 5]) =
          .ok () (passed #[8, 4]) ∧
        ∀ after, (do (hashed gradient).launch [] .reverse; (hashed kernel).launch [] .forward)
          (fields #[5, 5]) = .ok () after → passed #[8, 4] = after) ∧
      ∃ host h k : Host ℚ (List UInt8), Host.Reached .default host ∧
        (do Session.invoke false "accumulate" []; Session.invoke true "accumulate" []) host = .ok () h ∧
        (do Session.invoke true "accumulate" []; Session.invoke false "accumulate" []) host = .ok () k ∧
        h.session.table = passed #[8, 4] ∧ h.session.table = k.session.table := by
  have binds : kernel.bind (fields #[5, 5]) = .ok (hashed kernel) := by decide +kernel
  have reversed : kernel.reverse (hashed kernel).signatures = .ok gradient := by decide +kernel
  have gradBinds : gradient.bind (fields #[5, 5]) = .ok (hashed gradient) := by decide +kernel
  have left : (hashed gradient).launch [] .reverse (fields #[5, 5]) = .ok () (passed #[5, 5]) := by
    decide +kernel
  have right : (hashed gradient).launch [] .reverse (fields #[0, 9]) = .ok () (passed #[0, 9]) := by
    decide +kernel
  have forward : (do (hashed kernel).launch [] .forward; (hashed gradient).launch [] .reverse)
      (fields #[5, 5]) = .ok () (passed #[8, 4]) := by decide +kernel
  obtain ⟨ignores, exchange, sessions⟩ := Kernel.gradients_ignore_overwritten binds reversed gradBinds
  refine ⟨binds, reversed, gradBinds, ⟨left, right, ?_⟩, ⟨forward, ?_⟩, ?_⟩
  · exact ignores [] .reverse _ _ _ _ (fields_agree _ _) left right
  · exact fun after => exchange [] .forward .reverse _ _ _ forward
  · have computed : (Copies.after requests).bind endings = some (passed #[8, 4], passed #[8, 4]) := by
      decide +kernel
    have kept : (Copies.after requests).map (·.session.kernels.find? "accumulate") = some (some kernel) := by
      decide +kernel
    obtain ⟨host, asked, both⟩ := Option.bind_eq_some_iff.mp computed
    have reached := (Host.after?_eq_some.mp asked).reached worded_requests
    rw [asked] at kept
    unfold endings at both
    split at both
    · next _ h _ k ranH ranK =>
      refine ⟨host, h, k, reached, ranH, ranK, (Prod.mk.inj (Option.some.inj both)).1, ?_⟩
      exact sessions Rational.legible byteString_free .default host reached "accumulate" [] h k
        (Option.some.inj kept) ranH ranK
    · cases both

end Accumulate

end FieldKernel
