import FieldKernel.Proofs.Scalar.Rational
import FieldKernel.Proofs.Session.History
import FieldKernel.Proofs.Session.Requests

-- What the cache of bound kernels can hide: it knows kernels by their texts, and these leave the counter out.
namespace FieldKernel

variable {α δ : Type} [Scalar α] [Digest δ]

theorem Bound.Genuine.verdict {table : FieldTable α} {bound : Bound α δ} {kernel : Kernel α}
    (genuine : bound.Genuine table) (alike : kernel.Alike bound.kernel) :
    kernel.bind table = .ok { bound with kernel := kernel } ∨
      ∃ v ∈ kernel.body.assigned, kernel.counter.toNat ≤ v.index ∧
        kernel.bind table = (.error (kernel.beyond v) : Except KernelFault (Bound α δ)) :=
  alike.symm.bind_beyond genuine.binds

variable [DecidableEq δ]

theorem Session.compile_binds {host : Host α δ} (legible : Legible α)
    (free : Function.Injective (Digest.ofBytes : _ → δ)) (sound : host.Sound) {name : String} {kernel : Kernel α}
    (defined : host.session.kernels.find? name = some kernel) :
    (∃ e after, compile name host = .error e after ∧
        kernel.bind host.session.table = (.error e : Except KernelFault (Bound α δ))) ∨
      ∃ bound after, compile name host = .ok bound after ∧ kernel.Alike bound.kernel ∧
        (kernel.bind host.session.table = .ok { bound with kernel := kernel } ∨
          ∃ v ∈ kernel.body.assigned, kernel.counter.toNat ≤ v.index ∧
            kernel.bind host.session.table = (.error (kernel.beyond v) : Except KernelFault (Bound α δ))) := by
  have leads := leads_compile legible free sound name
  cases ran : compile name host with
  | ok bound after =>
    obtain ⟨-, genuine, other, defined', alike⟩ := leads.holds after bound ran
    cases defined.symm.trans defined'
    exact .inr ⟨bound, after, rfl, alike, genuine.verdict alike⟩
  | error e after =>
    rw [compile_eq] at ran
    split at ran
    · cases ran
    · rw [defined] at ran
      dsimp only at ran
      split at ran
      · next failed =>
        cases ran
        exact .inl ⟨e, _, rfl, (Compiler.compile_error failed).1⟩
      · cases ran

namespace Workspace

def asked (workspace : Workspace α δ) (turns : List (Nat × Request α)) : Workspace α δ :=
  turns.foldl (fun workspace turn => (workspace.perform turn.1 turn.2).2) workspace

def Sound (workspace : Workspace α δ) : Prop :=
  ∀ session ∈ workspace.sessions, Host.Sound ⟨session, workspace.derivations⟩

omit [DecidableEq δ] in
theorem sound_ofSettings (settings : List Settings) : (ofSettings settings : Workspace α δ).Sound := by
  intro session member
  obtain ⟨own, -, rfl⟩ := List.mem_map.mp member
  exact Host.sound_start own

theorem sound_perform {workspace : Workspace α δ} (legible : Legible α)
    (free : Function.Injective (Digest.ofBytes : _ → δ)) (sound : workspace.Sound) (i : Nat) {request : Request α}
    (worded : request.Worded) : (workspace.perform i request).2.Sound := by
  unfold perform
  cases there : workspace.sessions[i]? with
  | none => exact sound
  | some session =>
    have host := sound session (List.mem_of_getElem? there)
    have kept := (Session.leads_perform legible free host worded).sound
    -- the other sessions find new derivations, which are as sound as the old ones
    have after : ∀ host : Host α δ, host.Sound →
        Workspace.Sound ⟨workspace.sessions.set i host.session, host.derivations⟩ := by
      intro host sound' other member
      rcases List.mem_or_eq_of_mem_set member with old | rfl
      · exact (sound other old).withDerivations sound'.derivations
      · exact sound'
    dsimp only
    split
    · next ran =>
      rw [ran] at kept
      exact after _ kept
    · next failed =>
      rw [failed] at kept
      exact after _ kept

theorem sound_asked {workspace : Workspace α δ} (legible : Legible α)
    (free : Function.Injective (Digest.ofBytes : _ → δ)) (sound : workspace.Sound) {turns : List (Nat × Request α)}
    (worded : ∀ turn ∈ turns, turn.2.Worded) : (workspace.asked turns).Sound := by
  induction turns generalizing workspace with
  | nil => exact sound
  | cons turn turns ih =>
    obtain ⟨first, others⟩ := List.forall_mem_cons.mp worded
    exact ih (sound_perform legible free sound turn.1 first) others

-- Whatever has been asked of the sessions before, compiling a kernel fails by nothing but what binding the kernel
-- fails by. It does fail where binding does, unless the kernel defines values beyond its counter and one that
-- prints alike was bound before. A kernel without such values compiles exactly if it binds.
theorem compile_verdict (legible : Legible α) (free : Function.Injective (Digest.ofBytes : _ → δ))
    (settings : List Settings) {turns : List (Nat × Request α)} (worded : ∀ turn ∈ turns, turn.2.Worded)
    {session : Session α δ} (there : session ∈ ((ofSettings settings).asked turns).sessions) {name : String}
    {kernel : Kernel α} (defined : session.kernels.find? name = some kernel) :
    let host : Host α δ := ⟨session, ((ofSettings settings).asked turns).derivations⟩
    let binding : Except KernelFault (Bound α δ) := kernel.bind session.table
    (∀ e after, Session.compile name host = .error e after → binding = .error e) ∧
      (∀ bound, binding = .ok bound →
        ∃ bound' after, Session.compile name host = .ok bound' after ∧ bound'.Alike bound) ∧
      (∀ e, binding = .error e → (∃ after, Session.compile name host = .error e after) ∨
        ∃ v ∈ kernel.body.assigned, kernel.counter.toNat ≤ v.index ∧ e = kernel.beyond v) ∧
      ((∀ v ∈ kernel.body.assigned, v.index < kernel.counter) →
        ∀ e, (∃ after, Session.compile name host = .error e after) ↔ binding = .error e) := by
  intro host binding
  have sound : host.Sound := sound_asked legible free (sound_ofSettings settings) worded session there
  have failures : ∀ e, binding = .error e → (∃ after, Session.compile name host = .error e after) ∨
      ∃ v ∈ kernel.body.assigned, kernel.counter.toNat ≤ v.index ∧ e = kernel.beyond v := by
    intro e fails
    rcases Session.compile_binds legible free sound defined with
      ⟨e', after, failed, fails'⟩ | ⟨bound, after, -, -, binds | ⟨v, inside, beyond, fails'⟩⟩
    · cases fails.symm.trans fails'
      exact .inl ⟨after, failed⟩
    · cases fails.symm.trans binds
    · cases fails.symm.trans fails'
      exact .inr ⟨v, inside, beyond, rfl⟩
  have faults : ∀ e after, Session.compile name host = .error e after → binding = .error e := by
    intro e after failed
    rcases Session.compile_binds legible free sound defined with
      ⟨e', after', failed', fails⟩ | ⟨bound, after', compiled, -⟩
    · cases failed.symm.trans failed'
      exact fails
    · cases failed.symm.trans compiled
  refine ⟨faults, fun bound binds => ?_, failures, fun counted e => ⟨?_, fun fails => ?_⟩⟩
  · rcases Session.compile_binds legible free sound defined with
      ⟨e, after, -, fails⟩ | ⟨bound', after, compiled, alike, binds' | ⟨v, -, -, fails⟩⟩
    · cases binds.symm.trans fails
    · cases binds.symm.trans binds'
      exact ⟨bound', after, compiled, alike.symm, rfl, rfl, rfl⟩
    · cases binds.symm.trans fails
  · rintro ⟨after, failed⟩
    exact faults e after failed
  · refine (failures e fails).resolve_right ?_
    rintro ⟨v, inside, beyond, -⟩
    exact Nat.not_lt_of_le beyond (counted v inside)

end Workspace

-- A kernel that is given the text of the gradient kernel of another one, and a counter by hand.
namespace Forged

def body : Block ℚ := .instr (.define ⟨0⟩ (.load ⟨"x", []⟩)) <| .instr (.store ⟨"y", []⟩ ⟨0⟩) .nil

def copy : Kernel ℚ := .ofBody "copy" (.ofExtents []) 0 body

def gradient (counter : Nat) : Kernel ℚ := ⟨"copy_grad", .ofExtents [], 0, body.definitions ++ (
  .instr (.readGrad ⟨0⟩ ⟨"y", []⟩) <| .instr (.addGrad ⟨"x", []⟩ ⟨0⟩) .nil), counter⟩

def turns (counter : Nat) : List (Nat × Request ℚ) :=
  [(0, .declare "x" .f64 [] rootGroup), (0, .declare "y" .f64 [] rootGroup), (0, .define copy),
    (0, .launch true "copy" []), (0, .define (gradient counter))]

def workspace (counter : Nat) : Workspace ℚ (List UInt8) := (Workspace.ofSettings [.default]).asked (turns counter)

def session (counter : Nat) : Session ℚ (List UInt8) := (workspace counter).sessions.headD (.start .default)

def host (counter : Nat) : Host ℚ (List UInt8) := ⟨session counter, (workspace counter).derivations⟩

theorem worded (counter : Nat) : ∀ turn ∈ turns counter, turn.2.Worded := by
  have names : IsWord "copy" ∧ IsWord "copy_grad" ∧ IsWord "x" ∧ IsWord "y" := by decide
  obtain ⟨copy_, grad, x, y⟩ := names
  have first : copy.Worded := by
    refine ⟨copy_, ?_⟩
    simp [Block.Worded, copy, Kernel.ofBody, body, Block.statements, Instr.Worded, Expr.Worded, x, y]
  have second : (gradient counter).Worded := by
    refine ⟨grad, ?_⟩
    change Block.Worded (.instr (.define ⟨0⟩ (.load ⟨"x", []⟩)) <| .instr (.readGrad ⟨0⟩ ⟨"y", []⟩) <|
      .instr (.addGrad ⟨"x", []⟩ ⟨0⟩) .nil : Block ℚ)
    simp [Block.Worded, Block.statements, Instr.Worded, Expr.Worded, x, y]
  simp [turns, Request.Worded, first, second]

theorem there (counter : Nat) (some_ : (workspace counter).sessions ≠ []) :
    session counter ∈ (workspace counter).sessions := by
  unfold session
  rw [List.headD_eq_head?_getD, List.head?_eq_some_head some_]
  exact List.head_mem some_

end Forged

theorem Workspace.compile_verdict_forged :
    Forged.session 1 ∈ (Forged.workspace 1).sessions ∧
      (Forged.session 1).kernels.find? "copy_grad" = some (Forged.gradient 1) ∧
      (∀ v ∈ (Forged.gradient 1).body.assigned, v.index < (Forged.gradient 1).counter) ∧
      ∀ e, (∃ after, Session.compile "copy_grad" (Forged.host 1) = .error e after) ↔
        (Forged.gradient 1).bind (Forged.session 1).table = (.error e : Except _ (Bound ℚ (List UInt8))) := by
  have there := Forged.there 1 (by decide +kernel)
  have defined : (Forged.session 1).kernels.find? "copy_grad" = some (Forged.gradient 1) := by decide +kernel
  have counted : ∀ v ∈ (Forged.gradient 1).body.assigned, v.index < (Forged.gradient 1).counter := by decide +kernel
  have verdict := Workspace.compile_verdict Rational.legible byteString_free [.default] (Forged.worded 1) there defined
  exact ⟨there, defined, counted, verdict.2.2.2 counted⟩

-- With a counter that is too small the kernel does not bind, and is compiled all the same.
theorem Workspace.compile_hides_fault :
    (∀ turn ∈ Forged.turns 0, turn.2.Worded) ∧ Forged.session 0 ∈ (Forged.workspace 0).sessions ∧
      (Forged.session 0).kernels.find? "copy_grad" = some (Forged.gradient 0) ∧
      (Forged.gradient 0).bind (Forged.session 0).table =
        (.error (.malformed "copy_grad" (.beyondCounter ⟨0⟩ 0)) : Except _ (Bound ℚ (List UInt8))) ∧
      ∃ bound after, Session.compile "copy_grad" (Forged.host 0) = .ok bound after := by
  have compiled : (⟨Forged.host 0, .compile "copy_grad"⟩ : Deed ℚ (List UInt8)).done = true := by decide +kernel
  obtain ⟨reply, after, done⟩ := Deed.done_iff.mp compiled
  obtain ⟨bound, after', ran, -⟩ := bind_ok.mp done
  exact ⟨Forged.worded 0, Forged.there 0 (by decide +kernel), by decide +kernel, by decide +kernel, bound, after', ran⟩

end FieldKernel
