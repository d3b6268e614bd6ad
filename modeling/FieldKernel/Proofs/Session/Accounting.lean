import FieldKernel.Proofs.Session.Kept

-- What becomes of launches: each runs, is taken into another, is dropped, or waits, unless a drain fails.
namespace FieldKernel

variable {α δ : Type}

-- The launches that a session has done with, and these together with those that wait.
def Stats.spent (stats : Stats) : Nat := stats.launches + stats.fused + stats.dropped

def Session.tally (session : Session α δ) : Nat := session.compiler.stats.spent + session.queue.length

variable [Scalar α] [Digest δ] [DecidableEq δ]

def Deed.launched (deed : Deed α δ) : Bool := deed.request.launches && deed.done

-- The deed was to drain the queue first, and that failed.
def Deed.loses (deed : Deed α δ) : Bool :=
  match Session.drain deed.host with
  | .ok _ _ => false
  | .error _ _ => deed.request.drains

structure Session.Balanced (log : List (Deed α δ)) (session : Session α δ) : Prop where
  bounded : session.tally ≤ log.countP Deed.launched
  balanced : (∀ deed ∈ log, deed.loses = false) → session.tally = log.countP Deed.launched
  gradients : session.compiler.stats.gradientLaunches ≤ session.compiler.stats.launches
  compilations : session.compiler.stats.compilations = session.compiler.cache.length
  -- the cache has one binding for each digest
  distinct : (session.compiler.cache.map Prod.fst).Nodup

namespace Compiler

variable {compiler compiler' : Compiler α δ} {fusion : Bool} {table : FieldTable α}
  {planned planned' queue : List (Task α δ)}

-- The launches that a plan leaves to be run, with those it is done with, are those it was made for. If it
-- fails some are missing.
def Accounts (compiler : Compiler α δ) (n : Nat) :
    EStateM.Result KernelFault (Compiler α δ) (List (Task α δ)) → Prop
  | .ok planned next => next.stats.spent + planned.length = compiler.stats.spent + n
  | .error _ next => next.stats.spent ≤ compiler.stats.spent + n

theorem compile_spent (kernel : Kernel α) (table : FieldTable α) (compiler : Compiler α δ) :
    (ended (compile kernel table compiler)).stats.spent = compiler.stats.spent := by
  rw [compile_eq]
  split
  · rfl
  · split <;> rfl

theorem planTask_accounts (fusion : Bool) (table : FieldTable α) (planned : List (Task α δ)) (task : Task α δ)
    (compiler : Compiler α δ) :
    compiler.Accounts (planned.length + 1) (planTask fusion table planned task compiler) := by
  have shown := planTask_step fusion table planned task compiler
  generalize planTask fusion table planned task compiler = outcome at shown ⊢
  cases shown with
  | dropped =>
    simp only [Accounts, Stats.spent]
    omega
  | added => rfl
  | @fused last before bound next fits compiled =>
    have spent := compile_spent (last.bound.kernel.fused task.bound.kernel) table compiler
    rw [compiled] at spent
    subst fits
    simp only [Accounts, Stats.spent, List.length_cons, ended_ok] at spent ⊢
    omega
  | failed => exact Nat.le_add_right _ _

theorem foldPlan_accounts (fusion : Bool) (table : FieldTable α) (queue planned : List (Task α δ))
    (compiler : Compiler α δ) : compiler.Accounts (planned.length + queue.length)
      (queue.foldlM (planTask fusion table) planned compiler) := by
  induction queue generalizing planned compiler with
  | nil => rfl
  | cons task rest ih =>
    have first := planTask_accounts fusion table planned task compiler
    rw [List.foldlM_cons, run_bind]
    cases ran : planTask fusion table planned task compiler with
    | error e next =>
      rw [ran] at first
      simp only [Accounts, List.length_cons] at first ⊢
      omega
    | ok planned₁ next =>
      rw [ran] at first
      have others := ih planned₁ next
      dsimp only
      generalize rest.foldlM (planTask fusion table) planned₁ next = outcome at others ⊢
      cases outcome with
      | error e last =>
        simp only [Accounts, List.length_cons] at first others ⊢
        omega
      | ok planned₂ last =>
        simp only [Accounts, List.length_cons] at first others ⊢
        omega

theorem plan_accounts (fusion : Bool) (table : FieldTable α) (queue : List (Task α δ)) (compiler : Compiler α δ) :
    compiler.Accounts queue.length (plan fusion table queue compiler) := by
  have folded := foldPlan_accounts fusion table queue [] compiler
  rw [plan, map_eq_pure_bind, run_bind]
  cases ran : queue.foldlM (planTask fusion table) [] compiler with
  | error e next =>
    rw [ran] at folded
    simpa [Accounts] using folded
  | ok reversed next =>
    rw [ran] at folded
    change next.stats.spent + reversed.reverse.length = _
    simpa [Accounts] using folded

end Compiler

namespace Session

variable {β γ : Type} {host : Host α δ} {n : Nat}

structure Adds (n : Nat) (x : Act α δ β) (host : Host α δ) : Prop where
  done : ∀ b after, x host = .ok b after → after.session.tally = host.session.tally + n
  failed : ∀ e after, x host = .error e after → after.session.tally = host.session.tally

omit [Scalar α] [Digest δ] [DecidableEq δ] in
theorem Adds.bind {x : Act α δ β} {f : β → Act α δ γ} (first : Adds 0 x host)
    (then_ : ∀ b after, Adds n (f b) after) : Adds n (x >>= f) host where
  done := fun c last ran => by
    obtain ⟨b, after, ran₁, ran₂⟩ := bind_ok.mp ran
    rw [(then_ b after).done c last ran₂, first.done b after ran₁, Nat.add_zero]
  failed := fun e last ran => by
    rcases bind_error.mp ran with ran₁ | ⟨b, after, ran₁, ran₂⟩
    · exact first.failed e last ran₁
    · rw [(then_ b after).failed e last ran₂, first.done b after ran₁, Nat.add_zero]

omit [Scalar α] [Digest δ] [DecidableEq δ] in
theorem Adds.reply {x : Act α δ β} (adds : Adds n x host) (f : β → γ) :
    Adds n (x >>= fun b => pure (f b)) host where
  done := fun c last ran => by
    obtain ⟨b, after, ran₁, ran₂⟩ := bind_ok.mp ran
    cases ran₂
    exact adds.done b _ ran₁
  failed := fun e last ran => by
    rcases bind_error.mp ran with ran₁ | ⟨b, after, ran₁, ran₂⟩
    · exact adds.failed e last ran₁
    · cases ran₂

def Host.SameTally (a b : Host α δ) : Prop := b.session.tally = a.session.tally

omit [Scalar α] [Digest δ] [DecidableEq δ] in
theorem adds_of_moves {x : Act α δ β} (moves : Moves Host.SameTally x) (host : Host α δ) : Adds 0 x host where
  done := fun _ _ ran => moves.ok ran
  failed := fun _ _ ran => moves.error ran

theorem admits_sameTally : Host.AdmitsHand (Host.SameTally : Host α δ → Host α δ → Prop) where
  refl := fun _ => rfl
  trans := fun _ _ _ first second => second.trans first
  compiled := fun name host => by
    have spent := fun kernel => Compiler.compile_spent kernel host.session.table host.session.compiler
    rw [compile_eq]
    split
    · rfl
    · split
      · rfl
      · next kernel _ =>
        have spent := spent kernel
        split
        · next failed =>
          rw [failed] at spent
          exact congrArg (· + host.session.queue.length) spent
        · next made =>
          rw [made] at spent
          exact congrArg (· + host.session.queue.length) spent
  bound := fun kernel table host => by
    have spent := Compiler.compile_spent kernel table host.session.compiler
    unfold onCompiler
    generalize Compiler.compile kernel table host.session.compiler = outcome at spent ⊢
    cases outcome with
    | ok bound compiler => exact congrArg (· + host.session.queue.length) spent
    | error e compiler => exact congrArg (· + host.session.queue.length) spent
  derived := fun _ _ => rfl
  defined := fun kernel host => by
    rw [define_eq]
    split <;> rfl
  declared := fun name element shape group host => by
    rw [declare_eq]
    split <;> rfl
  enabled := fun _ _ => rfl

omit [Digest δ] [DecidableEq δ] in
theorem adds_runTask (task : Task α δ) (host : Host α δ) : Adds 1 (runTask task) host where
  done := fun _ last ran => by
    rw [runTask_eq] at ran
    split at ran
    · cases ran
      simp only [tally, Stats.spent, Stats.launched]
      omega
    · cases ran
  failed := fun _ last ran => by
    rw [runTask_eq] at ran
    split at ran
    · cases ran
    · cases ran
      rfl

omit [Digest δ] [DecidableEq δ] in
theorem runTasks_tally (tasks : List (Task α δ)) (host : Host α δ) :
    (∀ last, tasks.forM runTask host = .ok () last → last.session.tally = host.session.tally + tasks.length) ∧
      ∀ e last, tasks.forM runTask host = .error e last →
        last.session.tally ≤ host.session.tally + tasks.length := by
  induction tasks generalizing host with
  | nil =>
    refine ⟨fun last ran => ?_, fun e last ran => nomatch ran⟩
    cases ran
    rfl
  | cons task rest ih =>
    obtain ⟨done, failed⟩ := adds_runTask task host
    constructor
    · intro last ran
      obtain ⟨_, next, first, others⟩ := bind_ok.mp ran
      rw [(ih next).1 last others, done () next first, List.length_cons]
      omega
    · intro e last ran
      rw [List.length_cons]
      rcases bind_error.mp ran with first | ⟨_, next, first, others⟩
      · have := failed e last first
        omega
      · have := done () next first
        have := (ih next).2 e last others
        omega

-- A drain that succeeds accounts for every launch in the queue; one that fails loses some.
theorem drain_tally (host : Host α δ) :
    (∀ last, drain host = .ok () last → last.session.tally = host.session.tally) ∧
      ∀ e last, drain host = .error e last → last.session.tally ≤ host.session.tally := by
  have planned := Compiler.plan_accounts host.session.settings.fusion host.session.table host.session.queue
    host.session.compiler
  rw [drain_planned]
  generalize Compiler.plan host.session.settings.fusion host.session.table host.session.queue
    host.session.compiler = outcome at planned ⊢
  cases outcome with
  | error e compiler =>
    refine ⟨fun last ran => (nomatch ran), fun e' last ran => ?_⟩
    cases ran
    exact planned
  | ok tasks compiler =>
    obtain ⟨done, failed⟩ := runTasks_tally tasks
      { host with session := { host.session with queue := [], compiler := compiler } }
    constructor
    · intro last ran
      exact (done last ran).trans planned
    · intro e last ran
      exact (failed e last ran).trans (Nat.le_of_eq planned)

theorem adds_launch (gradient : Bool) (name : String) (args : List α) (host : Host α δ) :
    Adds 1 (launch gradient name args) host := by
  have bound := admits_sameTally.launched gradient name host
  constructor
  · intro _ last ran
    rw [launch_eq] at ran
    split at ran
    · cases ran
    · next found =>
      rw [found] at bound
      split at ran
      · cases ran
        simp only [Host.SameTally, ended_ok, tally, List.length_append, List.length_singleton] at bound ⊢
        omega
      · cases ran
  · intro e last ran
    rw [launch_eq] at ran
    split at ran
    · next failed =>
      cases ran
      rw [failed] at bound
      exact bound
    · next found =>
      rw [found] at bound
      split at ran
      · cases ran
      · cases ran
        exact bound

-- An act that begins with a drain. If it succeeds it accounts for `n` launches; if it fails, for none, and
-- where the drain is what fails launches are lost.
structure Credits (n : Nat) (x : Act α δ β) (host : Host α δ) : Prop where
  done : ∀ b last, x host = .ok b last → last.session.tally = host.session.tally + n
  failed : ∀ e last, x host = .error e last → last.session.tally ≤ host.session.tally ∧
    ∀ drained, drain host = .ok () drained → last.session.tally = host.session.tally

theorem credits_drain {f : Unit → Act α δ β} (rest : ∀ drained, Adds n (f ()) drained) (host : Host α δ) :
    Credits n (drain >>= f) host := by
  obtain ⟨done, failed⟩ := drain_tally host
  constructor
  · intro b last ran
    obtain ⟨_, drained, first, others⟩ := bind_ok.mp ran
    rw [(rest drained).done b last others, done drained first]
  · intro e last ran
    rcases bind_error.mp ran with first | ⟨_, drained, first, others⟩
    · refine ⟨failed e last first, fun drained ran => ?_⟩
      rw [first] at ran
      cases ran
    · have same := ((rest drained).failed e last others).trans (done drained first)
      exact ⟨Nat.le_of_eq same, fun _ _ => same⟩

theorem perform_adds {request : Request α} (quiet : request.drains = false) (host : Host α δ) :
    Adds (if request.launches then 1 else 0) (perform request) host := by
  cases request with
  | launch gradient name args => exact (adds_launch gradient name args host).reply _
  | invoke | drain | zeroGrads | edit => cases quiet
  | load | define | declare | enableGrads | compile | kernel | kernelNames | reverse | reverseAll | cached
    | pending | settings | stats | derivations | fields | ask =>
    exact adds_of_moves (admits_sameTally.perform rfl rfl) host

theorem perform_credits {request : Request α} (drains : request.drains = true) (host : Host α δ) :
    Credits (if request.launches then 1 else 0) (perform request) host := by
  cases request with
  | invoke gradient name args =>
    change Credits 1 _ host
    rw [perform, invoke, bind_assoc]
    refine credits_drain (fun drained => Adds.reply ?_ _) host
    refine (adds_of_moves (admits_sameTally.launched gradient name) drained).bind fun bound after => ?_
    exact (adds_of_moves admits_sameTally.session after).bind fun s next => adds_runTask _ next
  | drain =>
    change Credits 0 (drain >>= fun _ => pure Reply.done) host
    exact credits_drain (f := fun _ => pure Reply.done)
      (fun drained => adds_of_moves (admits_sameTally.pure _) drained) host
  | zeroGrads =>
    change Credits 0 _ host
    rw [perform, zeroGrads, bind_assoc]
    have zeroed : Moves Host.SameTally (update fun s => { s with table := s.table.zeroGrads } : Act α δ Unit) :=
      fun _ => rfl
    exact credits_drain (fun drained => adds_of_moves (admits_sameTally.reply _ zeroed) drained) host
  | edit field e =>
    change Credits 0 _ host
    rw [perform, Session.edit, bind_assoc]
    refine credits_drain (fun drained => adds_of_moves (admits_sameTally.reply _ fun host => ?_) drained) host
    unfold onTable
    cases FieldTable.edit field e host.session.table <;> rfl
  | load | define | declare | enableGrads | compile | kernel | kernelNames | reverse | reverseAll | cached
    | pending | settings | stats | derivations | fields | ask | launch => cases drains

theorem deed_tally (deed : Deed α δ) :
    (ended (perform deed.request deed.host)).session.tally ≤ deed.host.session.tally + deed.launched.toNat ∧
      (deed.loses = false →
        (ended (perform deed.request deed.host)).session.tally = deed.host.session.tally + deed.launched.toNat) := by
  obtain ⟨host, request⟩ := deed
  have counted : (if request.launches then 1 else 0) = request.launches.toNat := by
    cases request.launches <;> rfl
  cases drains : request.drains with
  | false =>
    obtain ⟨done, failed⟩ := perform_adds drains host
    rw [counted] at done
    cases ran : perform request host with
    | ok reply last =>
      have same := done reply last ran
      simp [Deed.launched, Deed.done, ran, same]
    | error e last =>
      have same := failed e last ran
      simp [Deed.launched, Deed.done, ran, same]
  | true =>
    obtain ⟨done, failed⟩ := perform_credits drains host
    rw [counted] at done
    cases ran : perform request host with
    | ok reply last =>
      have same := done reply last ran
      simp [Deed.launched, Deed.done, ran, same]
    | error e last =>
      obtain ⟨fewer, same⟩ := failed e last ran
      simp only [Deed.launched, Deed.done, ran, Bool.and_false, Bool.toNat_false, Nat.add_zero, ended_error]
      refine ⟨fewer, fun kept => ?_⟩
      unfold Deed.loses at kept
      split at kept
      · next drained => exact same _ drained
      · cases drains.symm.trans kept

-- Launch accounting balances over every run. What a session has run, fused, dropped and queued is at most
-- what it was asked for and could do, and exactly that as long as no drain has failed. Gradient launches are
-- among the launches, and the cache has as many bindings as were compiled.
theorem balanced_after (settings : Settings) (turns : List (Turn α δ)) :
    Balanced ((Session.start settings).log turns) ((Session.start settings : Session α δ).after turns) := by
  have start : (Session.start settings : Session α δ).tally = 0 := rfl
  have tallied := log_induction (P := fun log (session : Session α δ) =>
      session.tally ≤ log.countP Deed.launched ∧
        ((∀ deed ∈ log, deed.loses = false) → session.tally = log.countP Deed.launched))
    (fun log host request holds _ => ?_) turns ⟨start.le, fun _ => start⟩
  · have kept := kept_after settings turns
    exact ⟨tallied.1, tallied.2, kept.compiler.gradients, kept.compiler.counted, kept.compiler.distinct⟩
  · obtain ⟨bounded, balanced⟩ := holds
    obtain ⟨adds, exactly⟩ := deed_tally (⟨host, request⟩ : Deed α δ)
    have counted : (log ++ [(⟨host, request⟩ : Deed α δ)]).countP Deed.launched =
        log.countP Deed.launched + (⟨host, request⟩ : Deed α δ).launched.toNat := by
      rw [List.countP_append, List.countP_singleton]
      cases (⟨host, request⟩ : Deed α δ).launched <;> rfl
    rw [counted]
    refine ⟨adds.trans (Nat.add_le_add_right bounded _), fun none_ => ?_⟩
    have before : ∀ deed ∈ log, deed.loses = false := fun deed member => none_ deed (List.mem_append_left _ member)
    rw [exactly (none_ _ List.mem_concat_self), balanced before]

end Session

end FieldKernel
