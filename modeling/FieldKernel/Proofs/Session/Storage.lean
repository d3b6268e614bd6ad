import FieldKernel.Proofs.Execution.Stores
import FieldKernel.Proofs.Session.Kept
import FieldKernel.Proofs.Session.Tables

-- What the fields of a session hold after all that it was asked.
namespace FieldKernel

variable {α δ : Type} [Scalar α]

def Task.Stores (task : Task α δ) (table : FieldTable α) (name : String) (v : α) : Prop :=
  (∃ table', task.run table = .ok () table') ∧ task.bound.Stores task.args task.order table name v

-- Of launches one after the other, from a table on, the task comes to run on the other table.
def Task.RunsOn (tasks : List (Task α δ)) (start : FieldTable α) (task : Task α δ) (table : FieldTable α) : Prop :=
  ∃ before after, tasks = before ++ task :: after ∧ before.forM run start = .ok () table

-- The launches run up to the first one that fails. The induction is on those still to come.
theorem Task.runs_advance {tasks before rest : List (Task α δ)} {start t : FieldTable α}
    (access : ∀ task ∈ tasks, task.bound.access = .ofBlock task.bound.kernel.body)
    (split : tasks = before ++ rest) (ran : before.forM run start = .ok () t) :
    t.Advances (fun name v => ∃ task table, RunsOn tasks start task table ∧ task.Stores table name v)
      FieldTable.Never (ended (rest.forM run t)) := by
  induction rest generalizing before t with
  | nil => exact .refl t
  | cons task rest ih =>
    have member : task ∈ tasks := split ▸ List.mem_append_cons_self
    have here : t.Advances (fun name v => ∃ task table, RunsOn tasks start task table ∧ task.Stores table name v)
        FieldTable.Never (ended (task.run t)) :=
      (Bound.launch_advances (access task member) task.args task.order t).still
        fun name v stores => ⟨task, t, ⟨before, rest, split, ran⟩, stores⟩
    change t.Advances _ _ (ended ((task.run >>= fun _ => rest.forM run) t))
    rw [run_bind]
    cases first : task.run t with
    | error e t₁ => rwa [first] at here
    | ok _ t₁ =>
      have further : (before ++ [task]).forM run start = .ok () t₁ :=
        forM_append_ok.mpr ⟨t, ran, forM_single_ok.mpr first⟩
      rw [first] at here
      exact here.trans (ih (by simpa using split) further)

variable [Digest δ] [DecidableEq δ]

namespace Session

variable {host : Host α δ}

def Drains (host : Host α δ) (task : Task α δ) (table : FieldTable α) : Prop :=
  ∃ planned compiler, Compiler.plan host.session.settings.fusion host.session.table host.session.queue
      host.session.compiler = .ok planned compiler ∧ Task.RunsOn planned host.session.table task table

theorem drain_advances (kept : host.session.Kept) :
    host.session.table.Advances (fun name v => ∃ task table, Drains host task table ∧ task.Stores table name v)
      FieldTable.Never (ended (drain host)).session.table := by
  rw [drain_planned]
  cases planned : Compiler.plan host.session.settings.fusion host.session.table host.session.queue
      host.session.compiler with
  | error e compiler => exact .refl _
  | ok tasks compiler =>
    have kept' := ((Compiler.extends_plan _ _ _).ok planned kept.compiler).1
    have held := Compiler.plan_holds kept.compiler kept.queue planned
    have whole : ([] : List (Task α δ)).forM Task.run host.session.table = .ok () host.session.table := rfl
    have advances := Task.runs_advance (fun task member => kept'.access_of_holds (held task member))
      (List.nil_append tasks).symm whole
    dsimp only
    rw [(runTasks_track tasks _).tables]
    refine advances.still fun name v written => ?_
    obtain ⟨task, table, runs, stores⟩ := written
    exact ⟨task, table, ⟨tasks, compiler, planned, runs⟩, stores⟩

end Session

namespace Deed

open Session

-- The launches that a request comes to make, each with the table that it finds.
inductive Runs (deed : Deed α δ) : Task α δ → FieldTable α → Prop
  | drained {task : Task α δ} {table : FieldTable α} (drains : deed.request.drains = true)
      (drained : Drains deed.host task table) : Runs deed task table
  | invoked {gradient : Bool} {name : String} {args : List α} {host host' : Host α δ} {bound : Bound α δ}
      (request : deed.request = .invoke gradient name args) (drained : drain deed.host = .ok () host)
      (bounds : Session.launched gradient name host = .ok bound host') :
      Runs deed ⟨bound, args, order host'.session.settings gradient, gradient⟩ host'.session.table

-- The numbers that a request writes to the data of a field: those that a launch stores, and those of an edit.
inductive Writes (deed : Deed α δ) (name : String) : α → Prop
  | launched {task : Task α δ} {table : FieldTable α} {v : α} (runs : deed.Runs task table)
      (stores : task.Stores table name v) : Writes deed name v
  | edited {field : String} {e : FieldEdit α} {host : Host α δ} {v : α} (request : deed.request = .edit field e)
      (drained : drain deed.host = .ok () host) (writes : host.session.table.Writes field e name v) :
      Writes deed name v

def Enables (deed : Deed α δ) (name group : String) : Prop :=
  (∃ above, deed.request = .enableGrads above ∧ segments above <+: segments group) ∨
    (deed.request = .edit name .enableGradient ∧ deed.done = true)

def Declares (deed : Deed α δ) (name : String) (element : ElementType) (shape : Shape) (group : String) : Prop :=
  deed.request = .declare name element shape group ∧ deed.done = true

variable {deed : Deed α δ}

theorem drained_advances (kept : deed.host.session.Kept) (drains : deed.request.drains = true) :
    deed.host.session.table.Advances deed.Writes FieldTable.Never (ended (drain deed.host)).session.table := by
  refine (drain_advances kept).still fun name v written => ?_
  obtain ⟨task, table, drained, stores⟩ := written
  exact .launched (.drained drains drained) stores

theorem advances_drain {β : Type} {f : Act α δ β} (kept : deed.host.session.Kept)
    (drains : deed.request.drains = true)
    (lost : ∀ e host, drain deed.host = .error e host → ∀ name group, ¬deed.Enables name group)
    (then_ : ∀ host, drain deed.host = .ok () host →
      host.session.table.Advances deed.Writes deed.Enables (ended (f host)).session.table) :
    deed.host.session.table.Advances deed.Writes deed.Enables
      (ended ((drain >>= fun _ => f) deed.host)).session.table := by
  have first := drained_advances kept drains
  rw [run_bind]
  cases ran : drain deed.host with
  | error e host =>
    rw [ran] at first
    exact first.mono (fun _ _ => id) fun name field _ => ⟨False.elim, lost e host ran name field.group⟩
  | ok _ host =>
    rw [ran] at first
    exact first.trans (then_ host ran)

theorem never_enables (group : ∀ above, deed.request ≠ .enableGrads above)
    (field : ∀ field, deed.request ≠ .edit field .enableGradient) (name path : String) : ¬deed.Enables name path := by
  rintro (⟨above, request, -⟩ | ⟨request, -⟩)
  · exact group above request
  · exact field name request

theorem invoke_advances {gradient : Bool} {name : String} {args : List α} (kept : deed.host.session.Kept)
    (request : deed.request = .invoke gradient name args) :
    deed.host.session.table.Advances deed.Writes deed.Enables
      (ended (invoke gradient name args deed.host)).session.table := by
  have never : ∀ key group, ¬deed.Enables key group := never_enables (by simp [request]) (by simp [request])
  refine advances_drain kept (by simp [request, Request.drains]) (fun _ _ _ => never) fun host drained => ?_
  have kept₁ := ((admits_extends.drain).ok drained kept).1
  have same : host.session.table = _ := admits_same.launched gradient name host
  rw [run_bind]
  cases bounds : Session.launched gradient name host with
  | error e host' =>
    rw [bounds, ended_error] at same
    rw [ended_error, ← same]
    exact (FieldTable.Advances.refl _).mono (fun _ _ => id) fun key field _ => ⟨False.elim, never key field.group⟩
  | ok bound host' =>
    rw [bounds, ended_ok] at same
    dsimp only
    rw [session_bind, (runTask_tracks _ host').tables, same]
    have kept₂ := ((admits_extends.launched gradient name).ok bounds kept₁).1
    have access := kept₂.compiler.access_of_holds (launched_holds kept₁ bounds)
    refine (Bound.launch_advances access args _ _).mono (fun key v stores => ?_)
      fun key field _ => ⟨False.elim, never key field.group⟩
    exact .launched (.invoked request drained bounds) stores

theorem edit_advances {field : String} {e : FieldEdit α} (kept : deed.host.session.Kept)
    (request : deed.request = .edit field e) :
    deed.host.session.table.Advances deed.Writes deed.Enables (ended (edit field e deed.host)).session.table := by
  refine advances_drain kept (by simp [request, Request.drains]) ?_ fun host drained => ?_
  · rintro fault host failed name group (⟨above, other, -⟩ | ⟨-, done⟩)
    · cases request.symm.trans other
    · simp [Deed.done, request, perform, edit, run_bind, failed] at done
  · rw [onTable_tables]
    refine (FieldTable.advances_edit _ field e).mono (fun name v writes => .edited request drained writes)
      fun name old found => ⟨?_, ?_⟩
    · rintro ⟨rfl, rfl⟩
      obtain ⟨answer, after, edited⟩ : ∃ answer after,
          onTable (FieldTable.edit name .enableGradient) host = .ok answer after := by
        rw [onTable, FieldTable.edit_enableGradient found]
        exact ⟨_, _, rfl⟩
      refine .inr ⟨request, done_iff.mpr ?_⟩
      rw [request]
      exact ⟨_, _, bind_ok.mpr ⟨answer, after, bind_ok.mpr ⟨(), host, drained, edited⟩, pure_ok.mpr ⟨rfl, rfl⟩⟩⟩
    · rintro (⟨above, other, -⟩ | ⟨same, -⟩)
      · cases request.symm.trans other
      · cases request.symm.trans same
        exact ⟨rfl, rfl⟩

-- Whatever is asked but the declaration of a field, the fields there are advance.
theorem advances (kept : deed.host.session.Kept) (single : deed.request.Single)
    (other : ∀ name element shape group, deed.request ≠ .declare name element shape group) :
    deed.host.session.table.Advances deed.Writes deed.Enables
      (ended (perform deed.request deed.host)).session.table := by
  have still : (∀ above, deed.request ≠ .enableGrads above) →
      (∀ field, deed.request ≠ .edit field .enableGradient) → ∀ {table : FieldTable α},
      deed.host.session.table.Advances deed.Writes FieldTable.Never table →
      deed.host.session.table.Advances deed.Writes deed.Enables table := fun group field _ advances =>
    advances.mono (fun _ _ => id) fun key old _ => ⟨False.elim, never_enables group field key old.group⟩
  have looks : deed.request.looks = true → deed.host.session.table.Advances deed.Writes FieldTable.Never
      (ended (perform deed.request deed.host)).session.table := by
    intro looks
    have same : deed.host.session.table = _ := looks_same looks deed.host
    rw [← same]
    exact .refl _
  cases request : deed.request with
  | load program =>
    have member : .load program ∈ (Request.load program).parts := by
      rw [← request, single, request]
      exact List.mem_singleton_self _
    simp [Request.parts] at member
  | declare name element shape group => exact absurd request (other name element shape group)
  | enableGrads group =>
    refine (FieldTable.advances_enableGrads deed.Writes deed.host.session.table group).mono (fun _ _ => id)
      fun name field _ => ⟨fun below => .inl ⟨group, request, below⟩, ?_⟩
    rintro (⟨above, same, below⟩ | ⟨other, -⟩)
    · cases request.symm.trans same
      exact below
    · cases request.symm.trans other
  | invoke gradient name args =>
    rw [perform, ended_reply]
    exact invoke_advances kept request
  | edit field e =>
    rw [perform, ended_reply]
    exact edit_advances kept request
  | drain =>
    rw [perform, ended_reply]
    exact still (by simp [request]) (by simp [request])
      (drained_advances kept (by simp [request, Request.drains]))
  | zeroGrads =>
    have never : ∀ key group, ¬deed.Enables key group := never_enables (by simp [request]) (by simp [request])
    rw [perform, ended_reply]
    refine advances_drain kept (by simp [request, Request.drains]) (fun _ _ _ => never) fun host _ => ?_
    exact (FieldTable.advances_zeroGrads deed.Writes host.session.table).mono (fun _ _ => id)
      fun key field _ => ⟨False.elim, never key field.group⟩
  | define | compile | kernel | reverse | reverseAll | cached | ask | launch | kernelNames | pending | settings
    | stats | derivations | fields =>
    rw [request] at looks
    exact still (by simp [request]) (by simp [request]) (looks rfl)

theorem field_comes (kept : deed.host.session.Kept) (single : deed.request.Single) {name : String}
    {field' : Field α} (found : (ended (perform deed.request deed.host)).session.table.find? name = some field') :
    (∃ field, deed.host.session.table.find? name = some field ∧
        field.Advances (deed.Writes name) (deed.Enables name field.group) field') ∨
      ∃ element shape group, deed.Declares name element shape group ∧ field' = .allocate element shape group := by
  by_cases other : ∀ name element shape group, deed.request ≠ .declare name element shape group
  · exact .inl ((advances kept single other).find_back found)
  · obtain ⟨new, element, shape, group, request⟩ : ∃ new element shape group,
        deed.request = .declare new element shape group := by simpa using other
    have never : ∀ key group, ¬deed.Enables key group := never_enables (by simp [request]) (by simp [request])
    rw [request, perform, ended_reply, declare_eq] at found
    split at found
    · next table declared =>
      have ran : declare new element shape group deed.host = .ok () (deed.host.withTable table) := by
        rw [declare_eq, declared]
      obtain ⟨-, rfl⟩ := FieldTable.declare_ok.mp declared
      rw [ended_ok, Host.withTable, NameMap.find?_insert] at found
      split at found
      · next same =>
        subst same
        cases found
        refine .inr ⟨element, shape, group, ⟨request, done_iff.mpr ?_⟩, rfl⟩
        rw [request]
        exact ⟨_, _, bind_ok.mpr ⟨(), _, ran, pure_ok.mpr ⟨rfl, rfl⟩⟩⟩
      · exact .inl ⟨field', found, .refl (never name _) field'⟩
    · exact .inl ⟨field', found, .refl (never name _) field'⟩

end Deed

structure Field.Stored (since : List (Deed α δ)) (name : String) (field : Field α) : Prop where
  -- the product of the shape, as it is counted in a word of 64 bits
  data : field.data.size = field.shape.stored
  whole : field.shape.size < 18446744073709551616 → field.data.size = field.shape.size
  grad : ∀ grad ∈ field.grad?, grad.size = field.data.size
  numbers : ∀ x ∈ field.data, x = Scalar.zero ∨ ∃ deed ∈ since, ∃ v, deed.Writes name v ∧ x = field.element.cast v
  graded : field.hasGrad = true ↔ field.element.isReal = true ∧ ∃ deed ∈ since, deed.Enables name field.group

namespace Session

-- Every field was declared as it is, and holds what was written to it since.
def Stored (log : List (Deed α δ)) (session : Session α δ) : Prop :=
  ∀ name field, session.table.find? name = some field → ∃ before deed since, log = before ++ deed :: since ∧
    deed.Declares name field.element field.shape field.group ∧ field.Stored since name

theorem Stored.next {log : List (Deed α δ)} {deed : Deed α δ} (stored : Stored log deed.host.session)
    (kept : deed.host.session.Kept) (single : deed.request.Single)
    (sized : (ended (perform deed.request deed.host)).session.table.Sized) :
    Stored (log ++ [deed]) (ended (perform deed.request deed.host)).session := by
  intro name field' found
  obtain ⟨data, grad⟩ := sized name field' found
  have whole := fun small => data.trans (Shape.stored_eq small)
  have grad : ∀ grad ∈ field'.grad?, grad.size = field'.data.size := fun g stored => (grad g stored).trans data.symm
  rcases deed.field_comes kept single found with ⟨field, there, advances⟩ | ⟨element, shape, group, declares, rfl⟩
  · obtain ⟨before, declared, since, split, declares, stored⟩ := stored name field there
    rw [← advances.element, ← advances.shape, ← advances.group] at declares
    refine ⟨before, declared, since ++ [deed], by simp [split], declares, data, whole, grad, fun x member => ?_, ?_⟩
    · rcases advances.data x member with old | ⟨v, writes, cast⟩
      · refine (stored.numbers x old).imp_right fun ⟨later, among, v, writes, cast⟩ => ?_
        exact ⟨later, List.mem_append_left _ among, v, writes, cast.trans (by rw [advances.element])⟩
      · exact .inr ⟨deed, List.mem_concat_self, v, writes, cast⟩
    · rw [advances.hasGrad, stored.graded, advances.element, advances.group, ← and_or_left]
      simp [or_and_right, exists_or]
  · refine ⟨log, deed, [], rfl, declares, data, whole, grad, fun x member => ?_, ?_⟩
    · exact .inl (Array.mem_replicate.mp member).2
    · simp [Field.allocate, Field.hasGrad]

-- Whatever a session is asked, and whether it can do it: every field is stored as it was declared, and all
-- of them stay so for as long as the session goes on.
theorem stored_after (settings : Settings) (turns more : List (Turn α δ)) :
    Stored ((Session.start settings).log turns) ((Session.start settings : Session α δ).after turns) ∧
      ((Session.start settings : Session α δ).after turns).table.Stays
        ((Session.start settings : Session α δ).after (turns ++ more)).table := by
  constructor
  · have whole := log_induction (P := fun log (session : Session α δ) =>
        session.Kept ∧ session.table.Sized ∧ Stored log session) (fun log host request holds single => ?_) turns
      ⟨kept_start settings, FieldTable.sized_empty, fun _ _ none_ => nomatch none_⟩
    · exact whole.2.2
    · obtain ⟨kept, sized, stored⟩ := holds
      have sized' := (admits_tables FieldTable.admits_sized).perform request host sized
      have stored' : Stored (log ++ [⟨host, request⟩]) _ := Stored.next stored kept single sized'
      exact ⟨(admits_extends.perform request host kept).1, sized', stored'⟩
  · rw [after, after, List.foldl_append]
    exact after_stays _ more

end Session

end FieldKernel
