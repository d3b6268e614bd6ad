import FieldKernel.Proofs.Field.Advance
import FieldKernel.Proofs.Session.History

-- What a session does to its fields comes down to a few changes of the table.
namespace FieldKernel

variable {α δ : Type} [Scalar α] [Digest δ] [DecidableEq δ] {P : FieldTable α → FieldTable α → Prop}

-- A relation of tables that the changes of a table go along with.
structure FieldTable.Admits (P : FieldTable α → FieldTable α → Prop) : Prop where
  refl : ∀ table, P table table
  trans : ∀ a b c, P a b → P b c → P a c
  declared : ∀ {table table' name element shape group},
    FieldTable.declare table name element shape group = .ok table' → P table table'
  enabled : ∀ table group, P table (table.enableGrads group)
  zeroed : ∀ table, P table table.zeroGrads
  edited : ∀ name edit, Moves P (FieldTable.edit name edit)
  launched : ∀ {δ : Type} (bound : Bound α δ) args order, Moves P (bound.launch args order)

def Host.Tables (P : FieldTable α → FieldTable α → Prop) (a b : Host α δ) : Prop :=
  P a.session.table b.session.table

def Request.looks : Request α → Bool
  | .define _ | .compile _ | .kernel _ | .kernelNames | .reverse _ | .reverseAll _ | .cached _ | .launch _ _ _
  | .pending | .settings | .stats | .derivations | .fields | .ask _ _ => true
  | .load _ | .declare _ _ _ _ | .enableGrads _ | .invoke _ _ _ | .drain | .zeroGrads | .edit _ _ => false

namespace Session

variable {β : Type}

omit [Scalar α] [Digest δ] [DecidableEq δ] in
theorem onTable_tables (pass : Pass α β) (host : Host α δ) :
    (ended (onTable pass host)).session.table = ended (pass host.session.table) := by
  unfold onTable
  cases pass host.session.table <;> rfl

omit [Scalar α] [Digest δ] [DecidableEq δ] in
theorem tables_onTable {pass : Pass α β} (moves : Moves P pass) :
    Moves (Host.Tables P) (onTable pass : Act α δ β) := fun host => by
  rw [Host.Tables, onTable_tables]
  exact moves host.session.table

omit [Scalar α] [Digest δ] [DecidableEq δ] in
theorem tables_still (refl : ∀ table, P table table) {x : Act α δ β}
    (still : ∀ host, (ended (x host)).session.table = host.session.table) : Moves (Host.Tables P) x := fun host => by
  rw [Host.Tables, still host]
  exact refl _

omit [Scalar α] [Digest δ] [DecidableEq δ] in
theorem tables_onCompiler (refl : ∀ table, P table table) (compile : Compile α δ β) :
    Moves (Host.Tables P) (onCompiler compile) := tables_still refl fun host => by
  unfold onCompiler
  cases compile host.session.compiler <;> rfl

theorem admits_caches (refl : ∀ table, P table table) (trans : ∀ a b c, P a b → P b c → P a c) :
    Host.Admits (Host.Tables P : Host α δ → Host α δ → Prop) where
  refl := fun _ => refl _
  trans := fun _ _ _ => trans _ _ _
  compiled := fun name => tables_still refl fun host => by
    rw [compile_eq]
    repeat' split
    all_goals rfl
  bound := fun kernel table => tables_onCompiler refl _
  derived := fun bound => tables_still refl fun host => rfl

theorem admits_same : Host.Admits (Host.Tables Eq : Host α δ → Host α δ → Prop) :=
  admits_caches (fun _ => rfl) fun _ _ _ => Eq.trans

theorem tables_launch (refl : ∀ table, P table table) (trans : ∀ a b c, P a b → P b c → P a c) (gradient : Bool)
    (name : String) (args : List α) : Moves (Host.Tables P) (launch gradient name args : Act α δ Unit) := by
  have caches : Host.Admits (Host.Tables P : Host α δ → Host α δ → Prop) := admits_caches refl trans
  refine caches.bind (caches.launched gradient name) fun bound => ?_
  split <;> exact tables_still refl fun _ => rfl

theorem admits_tables (admits : FieldTable.Admits P) :
    Host.AdmitsAll (Host.Tables P : Host α δ → Host α δ → Prop) where
  toAdmits := admits_caches admits.refl admits.trans
  defined := fun kernel => tables_still admits.refl fun host => by
    rw [define_eq]
    split <;> rfl
  declared := fun name element shape group host => by
    rw [declare_eq]
    split
    · next declared => exact admits.declared declared
    · exact admits.refl _
  enabled := fun group host => admits.enabled _ group
  queued := tables_launch admits.refl admits.trans
  emptied := tables_still admits.refl fun _ => rfl
  planned := fun fusion table queue => tables_onCompiler admits.refl _
  ran := fun task => (admits_caches admits.refl admits.trans).bind
    (tables_onTable (admits.launched task.bound task.args task.order)) fun _ => tables_onCompiler admits.refl _
  zeroed := fun host => admits.zeroed _
  edited := fun name edit => tables_onTable (admits.edited name edit)

theorem looks_same {request : Request α} (looks : request.looks = true) :
    Moves (Host.Tables Eq) (perform request : Act α δ (Reply α δ)) := by
  have same : Host.Admits (Host.Tables Eq : Host α δ → Host α δ → Prop) := admits_same
  cases request with
  | define kernel =>
    refine same.reply _ (tables_still (fun _ => rfl) fun host => ?_)
    rw [define_eq]
    split <;> rfl
  | compile name => exact same.reply _ (same.compiled name)
  | kernel name => exact same.reply _ (same.kernel name)
  | reverse name => exact same.reply _ (same.reverse name)
  | reverseAll names => exact same.reply _ (same.reverseAll names)
  | cached name => exact same.bind (same.compiled name) fun _ => same.still fun _ => rfl
  | launch gradient name args =>
    exact same.reply _ (tables_launch (fun _ => rfl) (fun _ _ _ => Eq.trans) gradient name args)
  | ask field query => exact same.reply _ (same.ask field query)
  | kernelNames | pending | settings | stats | derivations | fields => exact same.still fun _ => rfl
  | load | declare | enableGrads | invoke | drain | zeroGrads | edit => cases looks

theorem tables_after (admits : FieldTable.Admits P) (session : Session α δ) (turns : List (Turn α δ)) :
    P session.table (session.after turns).table := by
  induction turns generalizing session with
  | nil => exact admits.refl _
  | cons turn rest ih =>
    exact admits.trans _ _ _ ((admits_tables admits).perform turn.request ⟨session, turn.derivations⟩) (ih _)

end Session

theorem FieldTable.admits_sized : FieldTable.Admits fun a b : FieldTable α => a.Sized → b.Sized where
  refl := fun _ => id
  trans := fun _ _ _ first second sized => second (first sized)
  declared := fun declared sized => sized.declare declared
  enabled := fun _ group sized => sized.enableGrads group
  zeroed := fun _ sized => sized.zeroGrads
  edited := fun name edit => FieldTable.Sized.edit name edit
  launched := fun bound args order table sized => sized.altered (bound.launch_altered args order table)

theorem FieldTable.admits_stays : FieldTable.Admits (FieldTable.Stays : FieldTable α → FieldTable α → Prop) where
  refl := .refl
  trans := fun _ _ _ => .trans
  declared := FieldTable.stays_declare
  enabled := fun table group => (FieldTable.advances_enableGrads (fun _ _ => False) table group).stays
  zeroed := fun table => (FieldTable.advances_zeroGrads (fun _ _ => False) table).stays
  edited := fun name edit table => (table.advances_edit name edit).stays
  launched := fun bound args order table => (bound.launch_altered args order table).stays

theorem Session.after_stays (session : Session α δ) (turns : List (Turn α δ)) :
    session.table.Stays (session.after turns).table := tables_after FieldTable.admits_stays session turns

end FieldKernel
