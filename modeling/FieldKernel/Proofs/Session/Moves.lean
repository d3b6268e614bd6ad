import FieldKernel.Proofs.Session.Invariant

-- Relations that every request goes along with, as all the acts do to which requests come down.
namespace FieldKernel

variable {α δ : Type} [Scalar α] [Digest δ] [DecidableEq δ] {P : Host α δ → Host α δ → Prop}

-- A relation of hosts that the work on caches goes along with.
structure Host.Admits (P : Host α δ → Host α δ → Prop) : Prop where
  refl : ∀ host, P host host
  trans : ∀ a b c, P a b → P b c → P a c
  compiled : ∀ name, Moves P (Session.compile name)
  bound : ∀ kernel table, Moves P (Session.onCompiler (Compiler.compile kernel table))
  derived : ∀ bound, Moves P (Session.onDerivations (Derivations.derive bound))

structure Host.AdmitsHand (P : Host α δ → Host α δ → Prop) : Prop extends Host.Admits P where
  defined : ∀ kernel, Moves P (Session.define kernel)
  declared : ∀ name element shape group, Moves P (Session.declare name element shape group)
  enabled : ∀ group, Moves P (Session.enableGrads group)

structure Host.AdmitsAll (P : Host α δ → Host α δ → Prop) : Prop extends Host.AdmitsHand P where
  queued : ∀ gradient name args, Moves P (Session.launch gradient name args)
  emptied : Moves P (Session.update fun s => { s with queue := [] })
  planned : ∀ fusion table queue, Moves P (Session.onCompiler (Compiler.plan fusion table queue))
  ran : ∀ task, Moves P (Session.runTask task)
  zeroed : Moves P (Session.update fun s => { s with table := s.table.zeroGrads })
  edited : ∀ name edit, Moves P (Session.onTable (FieldTable.edit name edit))

namespace Host.Admits

open Session

variable {β γ : Type} (admits : Host.Admits P)
include admits

theorem still {x : Act α δ β} (still : ∀ host, ended (x host) = host) : Moves P x := fun host => by
  rw [still host]
  exact admits.refl host

theorem pure (b : β) : Moves P (pure b : Act α δ β) := .pure (P := P) admits.refl b

theorem bind {x : Act α δ β} {f : β → Act α δ γ} (first : Moves P x) (then_ : ∀ b, Moves P (f b)) :
    Moves P (x >>= f) := .bind (P := P) admits.trans first then_

theorem reply {x : Act α δ β} (f : β → γ) (moves : Moves P x) : Moves P (x >>= fun b => Pure.pure (f b)) :=
  admits.bind moves fun b => admits.pure (f b)

theorem forM {item : Type} {f : item → Act α δ PUnit} (items : List item) (each : ∀ i, Moves P (f i)) :
    Moves P (items.forM f) := .forM (P := P) admits.refl admits.trans fun i _ => each i

theorem mapM {item : Type} {f : item → Act α δ β} (items : List item) (each : ∀ i, Moves P (f i)) :
    Moves P (items.mapM f) := .mapM (P := P) admits.refl admits.trans fun i _ => each i

theorem session : Moves P (Session.session : Act α δ (Session α δ)) := admits.still fun _ => rfl

theorem lift (x : Except KernelFault β) : Moves P (lift x : Act α δ β) :=
  admits.still fun _ => by cases x <;> rfl

theorem derive (bound : Bound α δ) : Moves P (derive bound) :=
  admits.bind (admits.derived bound) admits.lift

theorem reverse (name : String) : Moves P (reverse name : Act α δ (Kernel α)) :=
  admits.bind (admits.compiled name) admits.derive

theorem launched (gradient : Bool) (name : String) : Moves P (launched gradient name : Act α δ (Bound α δ)) := by
  cases gradient with
  | false => exact admits.compiled name
  | true =>
    exact admits.bind (admits.reverse name) fun kernel => admits.bind admits.session fun s =>
      admits.bound kernel s.table

theorem reverseAll (names : List String) : Moves P (reverseAll names : Act α δ (List (Kernel α))) := by
  refine admits.bind (admits.mapM names admits.compiled) fun bounds => ?_
  exact admits.bind (admits.mapM bounds admits.derived) fun derived => admits.mapM derived admits.lift

theorem kernel (name : String) : Moves P (kernel name : Act α δ (Kernel α)) := admits.still fun host => by
  rw [kernel_eq]
  split <;> rfl

theorem ask (field : String) (query : FieldQuery) : Moves P (ask field query : Act α δ (FieldAnswer α)) :=
  admits.bind admits.session fun s => admits.lift (s.table.answer field query)

end Host.Admits

def Request.launches : Request α → Bool
  | .invoke _ _ _ | .launch _ _ _ => true
  | _ => false

def Request.drains : Request α → Bool
  | .invoke _ _ _ | .drain | .zeroGrads | .edit _ _ => true
  | _ => false

namespace Host.AdmitsHand

open Session

theorem load (admits : Host.AdmitsHand P) (program : Program α) : Moves P (load program : Act α δ Unit) := by
  refine admits.bind (admits.forM _ fun field => admits.declared _ _ _ _) fun _ => ?_
  refine admits.bind (admits.forM _ fun group => admits.reply _ (admits.enabled _)) fun _ => ?_
  exact admits.forM _ fun kernel => admits.defined _

theorem perform (admits : Host.AdmitsHand P) {request : Request α} (quiet : request.drains = false)
    (idle : request.launches = false) : Moves P (perform request : Act α δ (Reply α δ)) := by
  cases request with
  | load program => exact admits.reply _ (admits.load program)
  | define kernel => exact admits.reply _ (admits.defined kernel)
  | declare name element shape group => exact admits.reply _ (admits.declared name element shape group)
  | enableGrads group => exact admits.reply _ (admits.enabled group)
  | compile name => exact admits.reply _ (admits.compiled name)
  | kernel name => exact admits.reply _ (admits.kernel name)
  | reverse name => exact admits.reply _ (admits.reverse name)
  | reverseAll names => exact admits.reply _ (admits.reverseAll names)
  | cached name => exact admits.bind (admits.compiled name) fun _ => admits.still fun _ => rfl
  | ask field query => exact admits.reply _ (admits.ask field query)
  | kernelNames | pending | settings | stats | derivations | fields => exact admits.still fun _ => rfl
  | invoke | drain | zeroGrads | edit => cases quiet
  | launch => cases idle

end Host.AdmitsHand

namespace Host.AdmitsAll

open Session

variable (admits : Host.AdmitsAll P)
include admits

theorem drain : Moves P (drain : Act α δ Unit) := by
  refine admits.bind admits.session fun s => admits.bind admits.emptied fun _ => ?_
  refine admits.bind admits.session fun t => admits.bind admits.session fun u => ?_
  exact admits.bind (admits.planned _ _ _) fun tasks => admits.forM tasks admits.ran

theorem invoke (gradient : Bool) (name : String) (args : List α) :
    Moves P (invoke gradient name args : Act α δ Unit) := by
  refine admits.bind admits.drain fun _ => admits.bind (admits.launched gradient name) fun bound => ?_
  exact admits.bind admits.session fun s => admits.ran _

theorem perform (request : Request α) : Moves P (perform request : Act α δ (Reply α δ)) := by
  cases request with
  | invoke gradient name args => exact admits.reply _ (admits.invoke gradient name args)
  | launch gradient name args => exact admits.reply _ (admits.queued gradient name args)
  | drain => exact admits.reply _ admits.drain
  | zeroGrads => exact admits.reply _ (admits.bind admits.drain fun _ => admits.zeroed)
  | edit field e => exact admits.reply _ (admits.bind admits.drain fun _ => admits.edited field e)
  | load | define | declare | enableGrads | compile | kernel | kernelNames | reverse | reverseAll | cached
    | pending | settings | stats | derivations | fields | ask => exact admits.toAdmitsHand.perform rfl rfl

end Host.AdmitsAll

end FieldKernel
