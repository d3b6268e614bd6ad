import Mathlib.Data.List.Nodup
import FieldKernel.Proofs.Session.History
import FieldKernel.Proofs.Session.Requests

-- What is in order in every session, whatever its kernels are called and whatever their digests are.
namespace FieldKernel

variable {α δ : Type}

namespace Compiler

def Holds (compiler : Compiler α δ) (bound : Bound α δ) : Prop := (bound.digest, bound) ∈ compiler.cache

structure Kept (compiler : Compiler α δ) : Prop where
  keyed : ∀ digest bound, (digest, bound) ∈ compiler.cache → bound.digest = digest
  access : ∀ digest bound, (digest, bound) ∈ compiler.cache → bound.access = .ofBlock bound.kernel.body
  distinct : (compiler.cache.map Prod.fst).Nodup
  counted : compiler.stats.compilations = compiler.cache.length
  gradients : compiler.stats.gradientLaunches ≤ compiler.stats.launches

theorem kept_empty : Kept (⟨[], .zero⟩ : Compiler α δ) where
  keyed := fun _ _ none_ => nomatch none_
  access := fun _ _ none_ => nomatch none_
  distinct := List.nodup_nil
  counted := rfl
  gradients := Nat.le_refl 0

def Extends (a b : Compiler α δ) : Prop := a.Kept → b.Kept ∧ a.cache <:+ b.cache

theorem Extends.refl (compiler : Compiler α δ) : compiler.Extends compiler :=
  fun kept => ⟨kept, List.suffix_refl _⟩

theorem Extends.trans {a b c : Compiler α δ} (first : a.Extends b) (second : b.Extends c) : a.Extends c := by
  intro kept
  obtain ⟨kept₁, more₁⟩ := first kept
  obtain ⟨kept₂, more₂⟩ := second kept₁
  exact ⟨kept₂, more₁.trans more₂⟩

theorem Holds.extends {a b : Compiler α δ} {bound : Bound α δ} (holds : a.Holds bound) (more : a.cache <:+ b.cache) :
    b.Holds bound := more.subset holds

theorem Kept.access_of_holds {compiler : Compiler α δ} {bound : Bound α δ} (kept : compiler.Kept)
    (holds : compiler.Holds bound) : bound.access = .ofBlock bound.kernel.body := kept.access _ _ holds

theorem Kept.unique {compiler : Compiler α δ} (kept : compiler.Kept) {digest : δ} {bound other : Bound α δ}
    (there : (digest, bound) ∈ compiler.cache) (there' : (digest, other) ∈ compiler.cache) : bound = other :=
  congrArg Prod.snd (List.inj_on_of_nodup_map kept.distinct there there' rfl)

theorem Kept.count {compiler : Compiler α δ} (kept : compiler.Kept) {stats : Stats}
    (compilations : stats.compilations = compiler.stats.compilations)
    (gradients : stats.gradientLaunches ≤ stats.launches) : Kept { compiler with stats := stats } :=
  ⟨kept.keyed, kept.access, kept.distinct, compilations.trans kept.counted, gradients⟩

end Compiler

variable [Scalar α] [Digest δ]

theorem Kernel.bind_digest {kernel : Kernel α} {table : FieldTable α} {bound : Bound α δ}
    (binds : kernel.bind table = .ok bound) :
    bound.digest = kernel.digest (table.signatures (Access.ofBlock kernel.body).fields) := by
  obtain ⟨-, -, resolved, same⟩ := binds_iff.mp binds
  have listed : table.signatures (Access.ofBlock kernel.body).fields = bound.signatures := by
    refine NameMap.ext_find? fun name => ?_
    have found := NameMap.find?_ofList_filterMap (Access.ofBlock kernel.body).fields.names
      (fun key => (table.find? key).map Field.signature) name
    simp only [Option.map_map, Function.comp_def] at found
    rw [FieldTable.signatures, found, (resolve_finds resolved).2 name]
  rw [listed, same]

namespace Compiler

variable [DecidableEq δ]

theorem extends_compile (kernel : Kernel α) (table : FieldTable α) :
    Moves Extends (compile kernel table : Compile α δ (Bound α δ)) := by
  intro compiler kept
  rw [compile_eq]
  split
  · exact ⟨⟨kept.keyed, kept.access, kept.distinct, kept.counted, kept.gradients⟩, List.suffix_refl _⟩
  · next absent =>
    split
    · exact ⟨kept, List.suffix_refl _⟩
    · next bound binds =>
      have digest := Kernel.bind_digest binds
      have access : bound.access = .ofBlock bound.kernel.body := by
        obtain ⟨-, -, -, same⟩ := Kernel.binds_iff.mp binds
        rw [same]
      refine ⟨⟨?_, ?_, ?_, ?_, kept.gradients⟩, List.suffix_cons _ _⟩
      · intro key other member
        rcases List.mem_cons.mp member with new | old
        · cases new
          rfl
        · exact kept.keyed key other old
      · intro key other member
        rcases List.mem_cons.mp member with new | old
        · cases new
          exact access
        · exact kept.access key other old
      · refine List.nodup_cons.mpr ⟨fun member => ?_, kept.distinct⟩
        obtain ⟨⟨key, other⟩, there, same⟩ := List.mem_map.mp member
        rw [← digest] at absent
        have := List.lookup_eq_none_iff.mp absent (key, other) there
        simp_all
      · simp only [ended_ok, List.length_cons, kept.counted]

theorem compile_holds {kernel : Kernel α} {table : FieldTable α} {compiler compiler' : Compiler α δ}
    {bound : Bound α δ} (kept : compiler.Kept) (compiled : compile kernel table compiler = .ok bound compiler') :
    compiler'.Holds bound := by
  rw [compile_eq] at compiled
  split at compiled
  · next found =>
    cases compiled
    obtain ⟨before, after, entries, -⟩ := List.lookup_eq_some_iff.mp found
    have member : (_, bound) ∈ compiler.cache := entries ▸ List.mem_append_cons_self
    rw [← kept.keyed _ _ member] at member
    exact member
  · split at compiled
    · cases compiled
    · cases compiled
      exact List.mem_cons_self

-- What becomes of a launch that is planned: it is dropped, it is added, or it is fused into the one before
-- it, unless that cannot be compiled.
inductive PlanStep (table : FieldTable α) (planned : List (Task α δ)) (task : Task α δ) (compiler : Compiler α δ) :
    EStateM.Result KernelFault (Compiler α δ) (List (Task α δ)) → Prop
  | dropped : PlanStep table planned task compiler (.ok planned
      { compiler with stats := { compiler.stats with dropped := compiler.stats.dropped + 1 } })
  | added : PlanStep table planned task compiler (.ok (task :: planned) compiler)
  | fused {last : Task α δ} {before : List (Task α δ)} {bound : Bound α δ} {next : Compiler α δ}
      (fits : planned = last :: before)
      (compiled : compile (last.bound.kernel.fused task.bound.kernel) table compiler = .ok bound next) :
      PlanStep table planned task compiler
        (.ok (⟨bound, [], last.order, last.gradient || task.gradient⟩ :: before)
          { next with stats := { next.stats with fused := next.stats.fused + 1 } })
  | failed (e : KernelFault) : PlanStep table planned task compiler (.error e compiler)

theorem planTask_step (fusion : Bool) (table : FieldTable α) (planned : List (Task α δ)) (task : Task α δ)
    (compiler : Compiler α δ) :
    PlanStep table planned task compiler (planTask fusion table planned task compiler) := by
  unfold planTask
  split
  · exact .dropped
  · split
    · exact .added
    · next last before =>
      split
      · rw [fuse, run_bind, run_bind]
        cases compiled : compile (last.bound.kernel.fused task.bound.kernel) table compiler with
        | ok bound next => exact .fused rfl compiled
        | error e next =>
          obtain ⟨-, rfl⟩ := compile_error compiled
          exact .failed e
      · exact .added

theorem extends_planTask (fusion : Bool) (table : FieldTable α) (planned : List (Task α δ)) (task : Task α δ) :
    Moves Extends (planTask fusion table planned task) := by
  intro compiler kept
  have shown := planTask_step fusion table planned task compiler
  generalize planTask fusion table planned task compiler = outcome at shown ⊢
  cases shown with
  | dropped => exact ⟨kept.count rfl kept.gradients, List.suffix_refl _⟩
  | added => exact ⟨kept, List.suffix_refl _⟩
  | fused _ compiled =>
    obtain ⟨kept', more⟩ := (extends_compile _ table).ok compiled kept
    exact ⟨kept'.count rfl kept'.gradients, more⟩
  | failed => exact ⟨kept, List.suffix_refl _⟩

theorem extends_plan (fusion : Bool) (table : FieldTable α) (queue : List (Task α δ)) :
    Moves Extends (plan fusion table queue) := by
  have fold : Moves Extends (queue.foldlM (planTask fusion table) []) :=
    .foldlM (P := Extends) .refl (fun _ _ _ => .trans) (extends_planTask fusion table) []
  rw [plan, map_eq_pure_bind]
  exact .bind (P := Extends) (fun _ _ _ => .trans) fold fun _ => .pure (P := Extends) .refl _

variable {compiler compiler' : Compiler α δ} {fusion : Bool} {table : FieldTable α}
  {planned planned' queue : List (Task α δ)}

theorem foldPlan_holds (kept : compiler.Kept) (queued : ∀ task ∈ queue, compiler.Holds task.bound)
    (before : ∀ task ∈ planned, compiler.Holds task.bound)
    (ran : queue.foldlM (planTask fusion table) planned compiler = .ok planned' compiler') :
    ∀ task ∈ planned', compiler'.Holds task.bound := by
  induction queue generalizing planned compiler with
  | nil =>
    cases ran
    exact before
  | cons task rest ih =>
    rw [List.foldlM_cons] at ran
    obtain ⟨planned₁, compiler₁, first, others⟩ := bind_ok.mp ran
    obtain ⟨kept₁, more⟩ := (extends_planTask fusion table planned task).ok first kept
    refine ih kept₁ (fun next member => (queued next (List.mem_cons_of_mem _ member)).extends more) ?_ others
    have shown := planTask_step fusion table planned task compiler
    rw [first] at shown
    cases shown with
    | dropped => exact before
    | added => exact List.forall_mem_cons.mpr ⟨queued task List.mem_cons_self, before⟩
    | @fused last earlier bound next fits compiled =>
      subst fits
      have held : next.Holds bound := compile_holds kept compiled
      refine List.forall_mem_cons.mpr ⟨held, fun other member => ?_⟩
      exact (before other (List.mem_cons_of_mem _ member)).extends more

theorem plan_holds (kept : compiler.Kept) (queued : ∀ task ∈ queue, compiler.Holds task.bound)
    (ran : plan fusion table queue compiler = .ok planned compiler') :
    ∀ task ∈ planned, compiler'.Holds task.bound := by
  rw [plan, map_eq_pure_bind] at ran
  obtain ⟨reversed, compiler₁, folded, done⟩ := bind_ok.mp ran
  cases done
  intro task member
  exact foldPlan_holds kept queued (List.forall_mem_nil _) folded task (List.mem_reverse.mp member)

end Compiler

structure Session.Kept (session : Session α δ) : Prop where
  compiler : session.compiler.Kept
  compiled : ∀ name bound, session.compiled.find? name = some bound → session.compiler.Holds bound
  queue : ∀ task ∈ session.queue, session.compiler.Holds task.bound

omit [Scalar α] [Digest δ] in
theorem Session.kept_start (settings : Settings) : (Session.start settings : Session α δ).Kept where
  compiler := Compiler.kept_empty
  compiled := fun _ _ none_ => nomatch none_
  queue := fun _ none_ => nomatch none_

def Host.Extends (a b : Host α δ) : Prop :=
  a.session.Kept → b.session.Kept ∧ a.session.compiler.cache <:+ b.session.compiler.cache

namespace Session

variable [DecidableEq δ] {host after : Host α δ} {β : Type}

omit [Scalar α] [Digest δ] [DecidableEq δ] in
theorem extends_still {x : Act α δ β} (still : ∀ host, (ended (x host)).session.compiler = host.session.compiler ∧
    (ended (x host)).session.compiled = host.session.compiled ∧
    (ended (x host)).session.queue = host.session.queue) : Moves Host.Extends x := by
  intro host kept
  obtain ⟨compiler, compiled, queue⟩ := still host
  rw [compiler]
  refine ⟨⟨?_, ?_, ?_⟩, List.suffix_refl _⟩
  · rw [compiler]
    exact kept.compiler
  · rw [compiler, compiled]
    exact kept.compiled
  · rw [compiler, queue]
    exact kept.queue

omit [Scalar α] [Digest δ] [DecidableEq δ] in
theorem extends_onCompiler {work : Compile α δ β} (moves : Moves Compiler.Extends work) :
    Moves Host.Extends (onCompiler work) := by
  intro host kept
  have moved := moves host.session.compiler kept.compiler
  unfold onCompiler
  cases ran : work host.session.compiler with
  | ok b compiler =>
    rw [ran] at moved
    obtain ⟨kept', more⟩ := moved
    exact ⟨⟨kept', fun name bound found => (kept.compiled name bound found).extends more,
      fun task member => (kept.queue task member).extends more⟩, more⟩
  | error e compiler =>
    rw [ran] at moved
    obtain ⟨kept', more⟩ := moved
    exact ⟨⟨kept', fun name bound found => (kept.compiled name bound found).extends more,
      fun task member => (kept.queue task member).extends more⟩, more⟩

omit [Scalar α] [Digest δ] [DecidableEq δ] in
theorem extends_onTable (pass : Pass α β) : Moves Host.Extends (onTable pass : Act α δ β) :=
  extends_still fun host => by
    unfold onTable
    cases pass host.session.table <;> exact ⟨rfl, rfl, rfl⟩

omit [Scalar α] [Digest δ] [DecidableEq δ] in
theorem extends_launched (gradient : Bool) :
    Moves Compiler.Extends (Compiler.count fun stats => stats.launched gradient : Compile α δ Unit) := by
  intro compiler kept
  refine ⟨kept.count rfl ?_, List.suffix_refl _⟩
  have before := kept.gradients
  simp only [Stats.launched]
  split <;> omega

theorem compiled_holds (kept : host.session.Kept) {name : String} {bound : Bound α δ}
    (compiled : compile name host = .ok bound after) : after.session.compiler.Holds bound := by
  rw [compile_eq] at compiled
  split at compiled
  · next found =>
    cases compiled
    exact kept.compiled name bound found
  · split at compiled
    · cases compiled
    · split at compiled
      · cases compiled
      · next made =>
        cases compiled
        exact Compiler.compile_holds kept.compiler made

theorem extends_compile (name : String) : Moves Host.Extends (compile name : Act α δ (Bound α δ)) := by
  intro host kept
  rw [compile_eq]
  split
  · exact ⟨kept, List.suffix_refl _⟩
  · split
    · exact ⟨kept, List.suffix_refl _⟩
    · next kernel _ =>
      have moves := Compiler.extends_compile (δ := δ) kernel host.session.table
      split
      · next failed =>
        obtain ⟨-, rfl⟩ := Compiler.compile_error failed
        exact ⟨kept, List.suffix_refl _⟩
      · next bound compiler made =>
        obtain ⟨kept', more⟩ := moves.ok made kept.compiler
        refine ⟨⟨kept', fun other bound' found => ?_, fun task member => (kept.queue task member).extends more⟩, more⟩
        simp only [ended_ok, NameMap.find?_insert] at found
        split at found
        · cases found
          exact Compiler.compile_holds kept.compiler made
        · exact (kept.compiled other bound' found).extends more

theorem admits_extends_caches : Host.Admits (Host.Extends : Host α δ → Host α δ → Prop) where
  refl := fun _ kept => ⟨kept, List.suffix_refl _⟩
  trans := fun a b c first second kept => by
    obtain ⟨kept₁, more₁⟩ := first kept
    obtain ⟨kept₂, more₂⟩ := second kept₁
    exact ⟨kept₂, more₁.trans more₂⟩
  compiled := extends_compile
  bound := fun kernel table => extends_onCompiler (Compiler.extends_compile kernel table)
  derived := fun bound => extends_still fun _ => ⟨rfl, rfl, rfl⟩

theorem launched_holds (kept : host.session.Kept) {gradient : Bool} {name : String} {bound : Bound α δ}
    (launched_ : launched gradient name host = .ok bound after) : after.session.compiler.Holds bound := by
  cases gradient with
  | false => exact compiled_holds kept launched_
  | true =>
    obtain ⟨kernel, host₁, reversed, made⟩ := bind_ok.mp launched_
    obtain ⟨kept₁, -⟩ := (admits_extends_caches.reverse name).ok reversed kept
    rw [session_bind, onCompiler] at made
    split at made
    · next made =>
      cases made
      exact Compiler.compile_holds kept₁.compiler made
    · cases made

theorem admits_extends : Host.AdmitsAll (Host.Extends : Host α δ → Host α δ → Prop) where
  toAdmits := admits_extends_caches
  defined := fun kernel => extends_still fun host => by
    rw [define_eq]
    split <;> exact ⟨rfl, rfl, rfl⟩
  declared := fun name element shape group => extends_still fun host => by
    rw [declare_eq]
    split <;> exact ⟨rfl, rfl, rfl⟩
  enabled := fun group => extends_still fun _ => ⟨rfl, rfl, rfl⟩
  queued := fun gradient name args host kept => by
    have moved := admits_extends_caches.launched gradient name host kept
    rw [launch_eq]
    cases ran : launched gradient name host with
    | error e after =>
      rw [ran] at moved
      exact moved
    | ok bound after =>
      rw [ran] at moved
      obtain ⟨kept', more⟩ := moved
      have held := launched_holds kept ran
      dsimp only
      split
      · refine ⟨⟨kept'.compiler, kept'.compiled, fun task member => ?_⟩, more⟩
        rcases List.mem_append.mp member with before | new
        · exact kept'.queue task before
        · cases List.mem_singleton.mp new
          exact held
      · exact ⟨kept', more⟩
  emptied := fun host kept => ⟨⟨kept.compiler, kept.compiled, fun _ none_ => nomatch none_⟩, List.suffix_refl _⟩
  planned := fun fusion table queue => extends_onCompiler (Compiler.extends_plan fusion table queue)
  ran := fun task => admits_extends_caches.bind (extends_onTable _) fun _ =>
    extends_onCompiler (extends_launched task.gradient)
  zeroed := extends_still fun _ => ⟨rfl, rfl, rfl⟩
  edited := fun name edit => extends_onTable _

theorem kept_after (settings : Settings) (turns : List (Turn α δ)) :
    ((Session.start settings : Session α δ).after turns).Kept := by
  refine log_induction (P := fun _ session => session.Kept) (fun _ host request kept _ => ?_) turns
    (kept_start settings)
  exact (admits_extends.perform request host kept).1

end Session

end FieldKernel
