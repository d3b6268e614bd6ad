import FieldKernel.Proofs.Session.Invariant

-- What a drain comes to: the sweeps of the queue, up to the first one that cannot be run as a whole.
namespace FieldKernel

variable {α δ : Type} [Scalar α] [Digest δ] {table t t' : FieldTable α}

structure Host.Ran (before after : Host α δ) : Prop where
  settings : after.session.settings = before.session.settings
  kernels : after.session.kernels = before.session.kernels
  queue : after.session.queue = before.session.queue

-- An act on a host does to its table what a pass does, and nothing else.
def Host.Tracks {β : Type} (host : Host α δ) (outcome : EStateM.Result KernelFault (Host α δ) β)
    (pass : EStateM.Result KernelFault (FieldTable α) β) : Prop :=
  match outcome with
  | .ok b after => pass = .ok b after.session.table ∧ host.Ran after
  | .error e after => pass = .error e after.session.table ∧ host.Ran after

omit [Scalar α] [Digest δ] in
theorem Host.Ran.trans {a b c : Host α δ} (first : a.Ran b) (second : b.Ran c) : a.Ran c where
  settings := second.settings.trans first.settings
  kernels := second.kernels.trans first.kernels
  queue := second.queue.trans first.queue

omit [Scalar α] [Digest δ] in
theorem Host.Tracks.tables {β : Type} {host : Host α δ} {outcome : EStateM.Result KernelFault (Host α δ) β}
    {pass : EStateM.Result KernelFault (FieldTable α) β} (tracks : host.Tracks outcome pass) :
    (ended outcome).session.table = ended pass := by
  cases outcome with
  | ok b after => rw [tracks.1, ended_ok, ended_ok]
  | error e after => rw [tracks.1, ended_error, ended_error]

omit [Scalar α] [Digest δ] in
theorem Host.Tracks.ok {β : Type} {host : Host α δ} {outcome : EStateM.Result KernelFault (Host α δ) β}
    {pass : EStateM.Result KernelFault (FieldTable α) β} (tracks : host.Tracks outcome pass) {b : β}
    (ran : pass = .ok b t) : ∃ after, outcome = .ok b after ∧ after.session.table = t := by
  cases outcome with
  | ok c after =>
    cases tracks.1.symm.trans ran
    exact ⟨after, rfl, rfl⟩
  | error e after => cases tracks.1.symm.trans ran

omit [Scalar α] [Digest δ] in
theorem Host.Tracks.error {β : Type} {host : Host α δ} {outcome : EStateM.Result KernelFault (Host α δ) β}
    {pass : EStateM.Result KernelFault (FieldTable α) β} (tracks : host.Tracks outcome pass) {e : KernelFault}
    (failed : pass = .error e t) : ∃ after, outcome = .error e after ∧ after.session.table = t := by
  cases outcome with
  | ok b after => cases tracks.1.symm.trans failed
  | error e after =>
    cases tracks.1.symm.trans failed
    exact ⟨after, rfl, rfl⟩

omit [Scalar α] [Digest δ] in
theorem Host.Tracks.bind {β γ : Type} {host : Host α δ} {x : Act α δ β} {f : β → Act α δ γ} {p : Pass α β}
    {g : β → Pass α γ} (first : host.Tracks (x host) (p host.session.table))
    (then_ : ∀ b after, Host.Tracks after (f b after) (g b after.session.table)) :
    host.Tracks ((x >>= f) host) ((p >>= g) host.session.table) := by
  rw [run_bind, run_bind]
  cases ran : x host with
  | error e after =>
    rw [ran] at first
    obtain ⟨same, ran'⟩ := first
    rw [same]
    exact ⟨rfl, ran'⟩
  | ok b after =>
    rw [ran] at first
    obtain ⟨same, ran'⟩ := first
    rw [same]
    have second := then_ b after
    dsimp only
    cases later : f b after with
    | ok c last =>
      rw [later] at second
      exact ⟨second.1, ran'.trans second.2⟩
    | error e last =>
      rw [later] at second
      exact ⟨second.1, ran'.trans second.2⟩

namespace Task

variable {task : Task α δ} {group : List (Task α δ)} {groups : List (List (Task α δ))}
  {tasks : List (Task α δ)}

theorem ready_of_does (does : List.Forall₂ (Does table) groups tasks) : ∀ task ∈ tasks, task.Ready table := by
  induction does with
  | nil => exact fun _ none_ => nomatch none_
  | cons first _ ih => exact List.forall_mem_cons.mpr ⟨first.ready, ih⟩

theorem forM_does (does : List.Forall₂ (Does table) groups tasks) :
    tasks.forM run t = .ok () t' ↔ groups.flatten.forM run t = .ok () t' := by
  induction does generalizing t with
  | nil => exact Iff.rfl
  | @cons group task groups tasks doesFirst _ ih =>
    rw [List.flatten_cons, forM_append_ok]
    constructor
    · intro ran
      obtain ⟨_, t₁, first, others⟩ := bind_ok.mp ran
      exact ⟨t₁, (doesFirst.runs t t₁).mp first, ih.mp others⟩
    · rintro ⟨t₁, first, others⟩
      exact bind_ok.mpr ⟨(), t₁, (doesFirst.runs t t₁).mpr first, ih.mpr others⟩

end Task

namespace Session

variable [DecidableEq δ] {host : Host α δ} {tasks : List (Task α δ)}

omit [Digest δ] [DecidableEq δ] in
theorem runTask_eq (task : Task α δ) (host : Host α δ) : runTask task host =
    match task.run host.session.table with
    | .ok _ table => .ok () { host with session := { host.session with table := table, compiler :=
        { host.session.compiler with stats := host.session.compiler.stats.launched task.gradient } } }
    | .error e table => .error e (host.withTable table) := by
  unfold runTask Task.run
  rw [run_bind, onTable]
  cases task.bound.launch task.args task.order host.session.table <;> rfl

omit [Digest δ] [DecidableEq δ] in
theorem runTask_tracks (task : Task α δ) (host : Host α δ) :
    host.Tracks (runTask task host) (task.run host.session.table) := by
  rw [runTask_eq]
  cases task.run host.session.table with
  | ok _ table => exact ⟨rfl, rfl, rfl, rfl⟩
  | error e table => exact ⟨rfl, rfl, rfl, rfl⟩

omit [Digest δ] [DecidableEq δ] in
theorem runTask_ok {task : Task α δ} {after : Host α δ} (ran : runTask task host = .ok () after) :
    task.run host.session.table = .ok () after.session.table ∧ host.Ran after := by
  have tracks := runTask_tracks task host
  rwa [ran] at tracks

omit [Digest δ] [DecidableEq δ] in
theorem runTasks_track (tasks : List (Task α δ)) (host : Host α δ) :
    host.Tracks (tasks.forM runTask host) (tasks.forM Task.run host.session.table) := by
  induction tasks generalizing host with
  | nil => exact ⟨rfl, rfl, rfl, rfl⟩
  | cons task rest ih => exact (runTask_tracks task host).bind fun _ after => ih after

omit [DecidableEq δ] in
theorem leads_runTask (sound : host.Sound) {task : Task α δ} (genuine : task.bound.Genuine host.session.table) :
    host.Leads (runTask task host) fun _ _ => True := by
  have keeps := Bound.moves_launch genuine.access task.args task.order host.session.table
  unfold runTask
  rw [run_bind, onTable]
  cases ran : task.bound.launch task.args task.order host.session.table with
  | ok _ table =>
    rw [ran] at keeps
    obtain ⟨kernels, compiled, compiler, derivations, queue⟩ := sound.withTable keeps
    exact ⟨⟨kernels, compiled, compiler, derivations, queue⟩, keeps, fun _ _ _ => trivial⟩
  | error e table =>
    rw [ran] at keeps
    exact ⟨sound.withTable keeps, keeps, fun _ _ _ => trivial⟩

theorem drain_planned (host : Host α δ) : drain host =
    match Compiler.plan host.session.settings.fusion host.session.table host.session.queue
      host.session.compiler with
    | .ok planned compiler => planned.forM runTask
        { host with session := { host.session with queue := [], compiler := compiler } }
    | .error e compiler => .error e
        { host with session := { host.session with queue := [], compiler := compiler } } := by
  unfold drain
  rw [session_bind]
  change (onCompiler (Compiler.plan host.session.settings.fusion host.session.table
    host.session.queue) >>= fun tasks => tasks.forM runTask)
      { host with session := { host.session with queue := [] } } = _
  rw [run_bind, onCompiler]
  cases Compiler.plan host.session.settings.fusion host.session.table host.session.queue
    host.session.compiler <;> rfl

-- There are no words for the values of a sweep.
def Refused (host : Host α δ) : Prop :=
  ∃ e compiler, Compiler.plan host.session.settings.fusion host.session.table host.session.queue
    host.session.compiler = .error e compiler ∧ e.Overflow α

theorem drain_eq (legible : Legible α) (free : Function.Injective (Digest.ofBytes : _ → δ))
    (sound : host.Sound) : ∃ compiler : Compiler α δ, compiler.Sound host.session.table ∧
      ((∃ planned, List.Forall₂ (Task.Does host.session.table)
          (sweeps host.session.settings.fusion host.session.queue) planned ∧
        drain host = planned.forM runTask
          { host with session := { host.session with queue := [], compiler := compiler } }) ∨
      Refused host ∧ ∃ e, drain host = .error e
        { host with session := { host.session with queue := [], compiler := compiler } }) := by
  rw [drain_planned]
  have yields := Compiler.plan_yields host.session.settings.fusion legible free sound.compiler sound.queue
  cases plan : Compiler.plan host.session.settings.fusion host.session.table host.session.queue
    host.session.compiler with
  | ok planned compiler =>
    rw [plan] at yields
    cases yields with
    | ok sound' does => exact ⟨compiler, sound', .inl ⟨planned, does, rfl⟩⟩
  | error e compiler =>
    rw [plan] at yields
    cases yields with
    | overflow sound' overflow => exact ⟨compiler, sound', .inr ⟨⟨e, compiler, plan, overflow⟩, e, rfl⟩⟩

theorem leads_drain (legible : Legible α) (free : Function.Injective (Digest.ofBytes : _ → δ))
    (sound : host.Sound) : host.Leads (drain host) fun _ _ => True := by
  obtain ⟨compiler, sound', outcome⟩ := drain_eq legible free sound
  have sound₁ : Host.Sound { host with session := { host.session with queue := [], compiler := compiler } } :=
    ⟨sound.kernels, sound.compiled, sound', sound.derivations, fun _ none_ => nomatch none_⟩
  rcases outcome with ⟨planned, does, same⟩ | ⟨-, e, same⟩
  · rw [same]
    have ran := Host.leads_forM sound₁ fun task member after sound₂ keeps =>
      leads_runTask sound₂ ((Task.ready_of_does does task member).bound.keeps keeps)
    exact ⟨ran.sound, ran.keeps, fun _ _ _ => trivial⟩
  · rw [same]
    exact ⟨sound₁, .refl _, fun _ _ failed => nomatch failed⟩

theorem drain_empties (legible : Legible α) (free : Function.Injective (Digest.ofBytes : _ → δ))
    (sound : host.Sound) : (ended (drain host)).session.settings = host.session.settings ∧
      (ended (drain host)).session.kernels = host.session.kernels ∧
      (ended (drain host)).session.queue = [] := by
  obtain ⟨compiler, -, ⟨planned, -, same⟩ | ⟨-, e, same⟩⟩ := drain_eq legible free sound
  · rw [same]
    have tracks := runTasks_track planned
      { host with session := { host.session with queue := [], compiler := compiler } }
    unfold Host.Tracks at tracks
    split at tracks
    · next ran =>
      rw [ran]
      exact ⟨tracks.2.settings, tracks.2.kernels, tracks.2.queue⟩
    · next failed =>
      rw [failed]
      exact ⟨tracks.2.settings, tracks.2.kernels, tracks.2.queue⟩
  · rw [same]
    exact ⟨rfl, rfl, rfl⟩

theorem drain_ok (legible : Legible α) (free : Function.Injective (Digest.ofBytes : _ → δ))
    (sound : host.Sound) {after : Host α δ} (ran : drain host = .ok () after) :
    (sweeps host.session.settings.fusion host.session.queue).flatten.forM Task.run host.session.table =
      .ok () after.session.table := by
  obtain ⟨compiler, -, ⟨planned, does, same⟩ | ⟨-, e, same⟩⟩ := drain_eq legible free sound
  · have tracks := runTasks_track planned
      { host with session := { host.session with queue := [], compiler := compiler } }
    rw [← same, ran] at tracks
    exact (Task.forM_does does).mp tracks.1
  · cases ran.symm.trans same

theorem drain_idle (legible : Legible α) (free : Function.Injective (Digest.ofBytes : _ → δ))
    (sound : host.Sound) (idle : host.session.queue = []) {after : Host α δ}
    (ran : drain host = .ok () after) : after.session.table = host.session.table := by
  have nothing := drain_ok legible free sound ran
  rw [idle] at nothing
  exact (pure_ok.mp nothing).2

end Session

end FieldKernel
