import FieldKernel.Proofs.Execution.Sharing
import FieldKernel.Proofs.Session.Caches

-- What a drain runs: one task for each sweep, a group of neighbouring launches that can share it.
namespace FieldKernel

variable {α δ : Type} [Scalar α] [Digest δ] {table t t' : FieldTable α}

namespace Task

variable {task a b next : Task α δ} {group : List (Task α δ)}

def run (task : Task α δ) : Pass α Unit := task.bound.launch task.args task.order

structure Ready (table : FieldTable α) (task : Task α δ) : Prop where
  bound : task.bound.Genuine table
  args : task.args.length = task.bound.kernel.argCount

theorem Ready.keeps {table' : FieldTable α} (ready : task.Ready table) (keeps : table.Keeps table') :
    task.Ready table' := ⟨ready.bound.keeps keeps, ready.args⟩

omit [Scalar α] [Digest δ] in
theorem sharesSweep_iff : a.sharesSweep b = true ↔
    a.order = b.order ∧ a.bound.kernel.domain = b.bound.kernel.domain ∧ a.args = [] ∧ b.args = [] ∧
      a.bound.access.allWrites.disjoint b.bound.access.fields = true ∧
      b.bound.access.allWrites.disjoint a.bound.access.fields = true := by
  simp [sharesSweep, and_assoc]

theorem spares (left : a.Ready table) (right : b.Ready table)
    (disjoint : a.bound.access.allWrites.disjoint b.bound.access.fields = true) :
    a.bound.kernel.Spares b.bound.kernel := by
  intro name writes use used
  rw [left.bound.access, right.bound.access] at disjoint
  have apart := NameSet.disjoint_iff.mp disjoint name
  rw [Access.contains_allWrites, Access.contains_ofBlock, Access.contains_ofBlock] at apart
  have there := Access.contains_fields.mpr ⟨use, Access.contains_ofBlock.mpr used⟩
  rw [apart writes] at there
  cases there

-- A task that is run in the place of a group of launches.
structure Does (table : FieldTable α) (group : List (Task α δ)) (task : Task α δ) : Prop where
  ready : task.Ready table
  runs : ∀ t t', task.run t = .ok () t' ↔ group.forM run t = .ok () t'
  shares : ∀ next : Task α δ, task.sharesSweep next = group.all (·.sharesSweep next)

theorem does_self (ready : task.Ready table) : Does table [task] task where
  ready := ready
  runs _ _ := forM_single_ok.symm
  shares next := by simp

theorem fused_overflow (left : a.Ready table) (right : b.Ready table) (shares : a.sharesSweep b = true)
    {e : KernelFault}
    (failed : (a.bound.kernel.fused b.bound.kernel).bind table = (.error e : Except _ (Bound α δ))) :
    e.Overflow α := by
  obtain ⟨-, domain, leftArgs, rightArgs, -, -⟩ := sharesSweep_iff.mp shares
  have leftCount : a.bound.kernel.argCount = 0 := by rw [← left.args, leftArgs]; rfl
  have rightCount : b.bound.kernel.argCount = 0 := by rw [← right.args, rightArgs]; rfl
  have refused := Kernel.check_of_bind_error failed (Kernel.fused_binds left.bound.binds right.bound.binds)
  have beyond := Kernel.fused_short left.bound.checked right.bound.checked domain leftCount rightCount refused
  exact ⟨_, .fused left.bound.checked right.bound.checked beyond, refused⟩

theorem run_fused {c : Bound α δ} {gradient : Bool} (left : a.Ready table) (right : b.Ready table)
    (shares : a.sharesSweep b = true) (genuine : c.Genuine table)
    (alike : (a.bound.kernel.fused b.bound.kernel).Alike c.kernel) :
    (Task.mk c [] a.order gradient).run t = .ok () t' ↔
      ∃ t₁, a.run t = .ok () t₁ ∧ b.run t₁ = .ok () t' := by
  obtain ⟨order, domain, leftArgs, rightArgs, writes, writes'⟩ := sharesSweep_iff.mp shares
  have both : c.launch [] a.order t = .ok () t' ↔ ∃ t₁,
      a.bound.launch [] a.order t = .ok () t₁ ∧ b.bound.launch [] a.order t₁ = .ok () t' :=
    Bound.fused_launch_ok alike genuine.access left.bound.access right.bound.access left.bound.checked
      right.bound.checked genuine.checked (by rw [← left.args, leftArgs]; rfl)
      (by rw [← right.args, rightArgs]; rfl) domain (spares left right writes) (spares right left writes')
  simp only [run, leftArgs, rightArgs, ← order, both]

end Task

namespace Compiler

variable [DecidableEq δ] {compiler compiler' : Compiler α δ} {a b task : Task α δ}
  {group : List (Task α δ)} {sweeps : List (List (Task α δ))} {planned : List (Task α δ)}

-- A computation leaves the cache sound and gives what is stated, or is refused for want of words.
inductive Yields {β : Type} (table : FieldTable α) (P : β → Prop) :
    EStateM.Result KernelFault (Compiler α δ) β → Prop
  | ok {b : β} {compiler : Compiler α δ} (sound : compiler.Sound table) (holds : P b) : Yields table P (.ok b compiler)
  | overflow {e : KernelFault} {compiler : Compiler α δ} (sound : compiler.Sound table) (overflow : e.Overflow α) :
      Yields table P (.error e compiler)

omit [DecidableEq δ] in
theorem Yields.bind {β γ : Type} {P : β → Prop} {Q : γ → Prop} {x : Compile α δ β} {f : β → Compile α δ γ}
    (first : Yields table P (x compiler))
    (then_ : ∀ b compiler', Sound table compiler' → P b → Yields table Q (f b compiler')) :
    Yields table Q ((x >>= f) compiler) := by
  rw [run_bind]
  cases ran : x compiler with
  | ok b compiler' =>
    rw [ran] at first
    cases first with
    | ok sound holds => exact then_ b compiler' sound holds
  | error e compiler' =>
    rw [ran] at first
    cases first with
    | overflow sound overflow => exact .overflow sound overflow

theorem fuse_yields (legible : Legible α) (free : Function.Injective (Digest.ofBytes : _ → δ))
    (sound : compiler.Sound table) (left : a.Ready table) (right : b.Ready table)
    (shares : a.sharesSweep b = true) :
    Yields table (fun task => ∃ c, task = ⟨c, [], a.order, a.gradient || b.gradient⟩ ∧ c.Genuine table ∧
      (a.bound.kernel.fused b.bound.kernel).Alike c.kernel) (fuse a b table compiler) := by
  have worded : (a.bound.kernel.fused b.bound.kernel).Worded := left.bound.worded.fused right.bound.worded
  have compiled : Yields table (fun c : Bound α δ => c.Genuine table ∧
      (a.bound.kernel.fused b.bound.kernel).Alike c.kernel)
      (compile (a.bound.kernel.fused b.bound.kernel) table compiler) := by
    cases compiled : compile (a.bound.kernel.fused b.bound.kernel) table compiler with
    | ok c compiler' =>
      obtain ⟨genuine, alike, sound'⟩ := compile_ok legible free sound worded compiled
      exact .ok sound' ⟨genuine, alike⟩
    | error e compiler' =>
      obtain ⟨failed, same⟩ := compile_error compiled
      exact .overflow (same ▸ sound) (Task.fused_overflow left right shares failed)
  exact compiled.bind fun c compiler' sound' ⟨genuine, alike⟩ => .ok sound' ⟨c, rfl, genuine, alike⟩

end Compiler

namespace Task

variable {a b : Task α δ} {group : List (Task α δ)} {c : Bound α δ}

theorem shares_fused {next : Task α δ} {gradient : Bool} (left : a.Ready table) (right : b.Ready table)
    (genuine : c.Genuine table) (alike : (a.bound.kernel.fused b.bound.kernel).Alike c.kernel)
    (shares : a.sharesSweep b = true) :
    (Task.mk c [] a.order gradient).sharesSweep next = true ↔
      a.sharesSweep next = true ∧ b.sharesSweep next = true := by
  obtain ⟨order, domain, leftArgs, rightArgs, -, -⟩ := sharesSweep_iff.mp shares
  have domains : c.kernel.domain = a.bound.kernel.domain := alike.domain
  have writes : c.access.allWrites.disjoint next.bound.access.fields = true ↔
      a.bound.access.allWrites.disjoint next.bound.access.fields = true ∧
        b.bound.access.allWrites.disjoint next.bound.access.fields = true := by
    simp only [NameSet.disjoint_iff, genuine.access, left.bound.access, right.bound.access, alike.body,
      Access.contains_allWrites, Kernel.contains_access_fused, ← forall_and, ← or_imp]
    exact forall_congr' fun name => imp_congr_left or_or_or_comm
  have touches : next.bound.access.allWrites.disjoint c.access.fields = true ↔
      next.bound.access.allWrites.disjoint a.bound.access.fields = true ∧
        next.bound.access.allWrites.disjoint b.bound.access.fields = true := by
    simp only [NameSet.disjoint_iff, genuine.access, left.bound.access, right.bound.access, alike.body,
      ← Bool.not_eq_true, Kernel.contains_fields_fused, not_or, imp_and, forall_and]
  simp only [sharesSweep_iff, writes, touches, domains, ← order, ← domain, leftArgs, rightArgs, true_and]
  constructor
  · rintro ⟨sameOrder, sameDomain, noArgs, ⟨w, w'⟩, f, f'⟩
    exact ⟨⟨sameOrder, sameDomain, noArgs, w, f⟩, sameOrder, sameDomain, noArgs, w', f'⟩
  · rintro ⟨⟨sameOrder, sameDomain, noArgs, w, f⟩, -, -, -, w', f'⟩
    exact ⟨sameOrder, sameDomain, noArgs, ⟨w, w'⟩, f, f'⟩

theorem Does.fuse (does : Does table group a) (ready : b.Ready table) (shares : a.sharesSweep b = true)
    (genuine : c.Genuine table) (alike : (a.bound.kernel.fused b.bound.kernel).Alike c.kernel)
    (gradient : Bool) : Does table (group ++ [b]) ⟨c, [], a.order, gradient⟩ where
  ready := ⟨genuine, alike.argCount.symm⟩
  runs t t' := by
    rw [run_fused does.ready ready shares genuine alike, forM_append_ok]
    simp only [does.runs, forM_single_ok]
  shares next := by
    rw [List.all_append, ← does.shares, List.all_cons, List.all_nil, Bool.and_true]
    exact Bool.eq_iff_iff.mpr ((shares_fused does.ready ready genuine alike shares).trans
      (Bool.and_eq_true _ _).symm.to_iff)

end Task

def addToSweeps (fusion : Bool) (sweeps : List (List (Task α δ))) (task : Task α δ) :
    List (List (Task α δ)) :=
  if task.isEmpty then sweeps
  else
    match sweeps with
    | [] => [[task]]
    | last :: before =>
      if fusion && last.all (·.sharesSweep task) then (last ++ [task]) :: before
      else [task] :: last :: before

-- The sweeps of a queue in order. Launches that have nothing to do are in none.
def sweeps (fusion : Bool) (queue : List (Task α δ)) : List (List (Task α δ)) :=
  (queue.foldl (addToSweeps fusion) []).reverse

namespace Compiler

variable [DecidableEq δ] {compiler : Compiler α δ} {task : Task α δ} {fusion : Bool}
  {sweeps : List (List (Task α δ))} {planned queue : List (Task α δ)}

theorem planTask_yields (legible : Legible α) (free : Function.Injective (Digest.ofBytes : _ → δ))
    (sound : compiler.Sound table) (ready : task.Ready table)
    (does : List.Forall₂ (Task.Does table) sweeps planned) :
    Yields table (List.Forall₂ (Task.Does table) (addToSweeps fusion sweeps task))
      (planTask fusion table planned task compiler) := by
  unfold planTask addToSweeps
  cases task.isEmpty with
  | true => exact .ok sound does
  | false =>
    have alone := Task.does_self ready
    cases does with
    | nil => exact .ok sound (.cons alone .nil)
    | @cons group last _ before doesLast doesBefore =>
      simp only [Bool.false_eq_true, if_false, ← doesLast.shares]
      cases joins : fusion && last.sharesSweep task with
      | true =>
        have shares : last.sharesSweep task = true := ((Bool.and_eq_true _ _).mp joins).2
        refine (fuse_yields legible free sound doesLast.ready ready shares).bind ?_
        rintro _ compiler' sound' ⟨c, rfl, genuine, alike⟩
        exact .ok sound' (.cons (doesLast.fuse ready shares genuine alike _) doesBefore)
      | false => exact .ok sound (.cons alone (.cons doesLast doesBefore))

theorem foldPlan_yields (legible : Legible α) (free : Function.Injective (Digest.ofBytes : _ → δ))
    (sound : compiler.Sound table) (ready : ∀ task ∈ queue, task.Ready table)
    (does : List.Forall₂ (Task.Does table) sweeps planned) :
    Yields table (List.Forall₂ (Task.Does table) (queue.foldl (addToSweeps fusion) sweeps))
      (queue.foldlM (planTask fusion table) planned compiler) := by
  induction queue generalizing planned sweeps compiler with
  | nil => exact .ok sound does
  | cons task rest ih =>
    rw [List.foldlM_cons]
    refine (planTask_yields legible free sound (ready task List.mem_cons_self) does).bind ?_
    exact fun planned' compiler' sound' does' =>
      ih sound' (fun next member => ready next (List.mem_cons_of_mem _ member)) does'

theorem plan_yields (fusion : Bool) (legible : Legible α) (free : Function.Injective (Digest.ofBytes : _ → δ))
    (sound : compiler.Sound table) (ready : ∀ task ∈ queue, task.Ready table) :
    Yields table (List.Forall₂ (Task.Does table) (FieldKernel.sweeps fusion queue))
      (plan fusion table queue compiler) := by
  rw [plan, map_eq_pure_bind]
  exact (foldPlan_yields legible free sound ready .nil).bind fun planned compiler' sound' does =>
    .ok sound' (List.forall₂_reverse_iff.mpr does)

end Compiler

end FieldKernel
