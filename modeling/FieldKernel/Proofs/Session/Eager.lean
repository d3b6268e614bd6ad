import FieldKernel.Proofs.Session.Kept

-- Whether gradient kernels are derived early cannot be seen.
namespace FieldKernel

variable {α δ : Type}

def Settings.retuned (settings : Settings) (eager shown : Bool) : Settings :=
  { settings with eagerGradients := eager, printKernels := shown }

def Session.retuned (session : Session α δ) (eager shown : Bool) : Session α δ :=
  { session with settings := session.settings.retuned eager shown }

-- The one session is the other one with its settings changed.
def Host.Retuned (eager shown : Bool) (a b : Host α δ) : Prop := b.session = a.session.retuned eager shown

-- Replies that are the same, but for the settings and what is known of derivations. Where both hosts know
-- a derivation it is the same one.
inductive Reply.Agrees : Reply α δ → Reply α δ → Prop
  | same (reply : Reply α δ) : Agrees reply reply
  | settings (settings : Settings) (eager shown : Bool) :
      Agrees (.settings settings) (.settings (settings.retuned eager shown))
  | derived {known known' : Option (Derived α)} (agree : ∀ d ∈ known, ∀ d' ∈ known', d = d') :
      Agrees (.derived known) (.derived known')
  | derivations (size made size' made' : Nat) : Agrees (.derivations size made) (.derivations size' made')

section Derived

variable [Scalar α] [DecidableEq δ]

namespace Derivations

def From (compiler : Compiler α δ) (derivations : Derivations α δ) : Prop :=
  ∀ digest derived, derivations.cached digest = some derived →
    ∃ bound, (digest, bound) ∈ compiler.cache ∧ derived = bound.kernel.reverse bound.signatures

variable {compiler : Compiler α δ} {derivations : Derivations α δ} {bound : Bound α δ}

theorem from_empty : (empty : Derivations α δ).From compiler := fun _ _ none_ => nomatch none_

theorem From.extends (drawn : derivations.From compiler) {compiler' : Compiler α δ}
    (more : compiler.cache <:+ compiler'.cache) : derivations.From compiler' := by
  intro digest derived known
  obtain ⟨bound, there, same⟩ := drawn digest derived known
  exact ⟨bound, more.subset there, same⟩

theorem From.known (drawn : derivations.From compiler) (kept : compiler.Kept) (holds : compiler.Holds bound)
    {derived : Derived α} (cached : derivations.cached bound.digest = some derived) :
    derived = bound.kernel.reverse bound.signatures := by
  obtain ⟨other, there, same⟩ := drawn _ _ cached
  rwa [kept.unique there holds] at same

theorem From.answers (drawn : derivations.From compiler) (kept : compiler.Kept) (holds : compiler.Holds bound) :
    (derive bound derivations).1 = bound.kernel.reverse bound.signatures := by
  rw [derive_eq]
  split
  · next cached => exact drawn.known kept holds cached
  · rfl

theorem From.derive (drawn : derivations.From compiler) (holds : compiler.Holds bound) :
    (derive bound derivations).2.From compiler := by
  rw [derive_eq]
  split
  · exact drawn
  · intro digest derived cached
    change List.lookup digest ((bound.digest, _) :: derivations.derived) = _ at cached
    rw [List.lookup_cons] at cached
    split at cached
    · next same =>
      cases cached
      exact ⟨bound, eq_of_beq same ▸ holds, rfl⟩
    · exact drawn digest derived cached

end Derivations

structure Host.Tuned (eager shown : Bool) (a b : Host α δ) : Prop where
  session : Host.Retuned eager shown a b
  kept : a.session.Kept
  drawn : a.derivations.From a.session.compiler
  drawn' : b.derivations.From a.session.compiler

end Derived

namespace Session

variable {eager shown : Bool} {β γ : Type}

-- An act that looks neither at derivations nor at these settings.
def Blind (eager shown : Bool) (x : Act α δ β) : Prop :=
  ∀ session d d', Abreast (fun a b => Host.Retuned eager shown a b ∧ a.derivations = d ∧ b.derivations = d') Eq
    (x ⟨session, d⟩) (x ⟨session.retuned eager shown, d'⟩)

namespace Blind

theorem pure (b : β) : Blind eager shown (pure b : Act α δ β) := fun _ _ _ => .ok ⟨rfl, rfl, rfl⟩ rfl

theorem bind {x : Act α δ β} {f : β → Act α δ γ} (first : Blind eager shown x)
    (then_ : ∀ b, Blind eager shown (f b)) : Blind eager shown (x >>= f) := by
  intro session d d'
  refine (first session d d').bind ?_
  rintro b _ ⟨session', e⟩ ⟨session'', e'⟩ _ ⟨same, rfl, rfl⟩ rfl
  cases same
  exact then_ b session' e e'

theorem forM {item : Type} {f : item → Act α δ PUnit} (items : List item)
    (each : ∀ i, Blind eager shown (f i)) : Blind eager shown (items.forM f) := by
  intro session d d'
  refine Abreast.forM (fun i _ => ?_) ⟨rfl, rfl, rfl⟩
  rintro ⟨session', e⟩ ⟨session'', e'⟩ ⟨same, rfl, rfl⟩
  cases same
  exact each i session' e e'

theorem lift (x : Except KernelFault β) : Blind eager shown (lift x : Act α δ β) := by
  intro session d d'
  cases x with
  | error e => exact .error e ⟨rfl, rfl, rfl⟩
  | ok b => exact .ok ⟨rfl, rfl, rfl⟩ rfl

theorem onTable (pass : Pass α β) : Blind eager shown (onTable pass : Act α δ β) := by
  intro session d d'
  simp only [Session.onTable, retuned]
  cases pass session.table with
  | ok b table => exact .ok ⟨rfl, rfl, rfl⟩ rfl
  | error e table => exact .error e ⟨rfl, rfl, rfl⟩

theorem onCompiler (work : Compile α δ β) : Blind eager shown (onCompiler work) := by
  intro session d d'
  simp only [Session.onCompiler, retuned]
  cases work session.compiler with
  | ok b compiler => exact .ok ⟨rfl, rfl, rfl⟩ rfl
  | error e compiler => exact .error e ⟨rfl, rfl, rfl⟩

theorem define (kernel : Kernel α) : Blind eager shown (define kernel : Act α δ Unit) := by
  intro session d d'
  by_cases taken : session.kernels.contains kernel.name
  · have taken' : (session.retuned eager shown).kernels.contains kernel.name := taken
    rw [define_eq, if_pos taken, define_eq, if_pos taken']
    exact .error _ ⟨rfl, rfl, rfl⟩
  · have free : ¬(session.retuned eager shown).kernels.contains kernel.name := taken
    rw [define_eq, if_neg taken, define_eq, if_neg free]
    exact .ok ⟨rfl, rfl, rfl⟩ rfl

theorem kernel (name : String) : Blind eager shown (kernel name : Act α δ (Kernel α)) := by
  intro session d d'
  rw [kernel_eq, kernel_eq]
  simp only [retuned]
  cases session.kernels.find? name with
  | some kernel => exact .ok ⟨rfl, rfl, rfl⟩ rfl
  | none => exact .error _ ⟨rfl, rfl, rfl⟩

variable [Scalar α]

theorem zeroed : Blind eager shown (update fun s => { s with table := s.table.zeroGrads } : Act α δ Unit) :=
  fun _ _ _ => .ok ⟨rfl, rfl, rfl⟩ rfl

theorem declare (name : String) (element : ElementType) (shape : Shape) (group : String) :
    Blind eager shown (declare name element shape group : Act α δ Unit) := by
  intro session d d'
  rw [declare_eq, declare_eq]
  simp only [retuned]
  cases session.table.declare name element shape group with
  | ok table => exact .ok ⟨rfl, rfl, rfl⟩ rfl
  | error e => exact .error e ⟨rfl, rfl, rfl⟩

theorem enableGrads (group : String) : Blind eager shown (enableGrads group : Act α δ Nat) :=
  fun _ _ _ => .ok ⟨rfl, rfl, rfl⟩ rfl

theorem load (program : Program α) : Blind eager shown (load program : Act α δ Unit) := by
  refine bind (forM _ fun field => declare _ _ _ _) fun _ => ?_
  refine bind (forM _ fun group => bind (enableGrads _) fun _ => pure _) fun _ => ?_
  exact forM _ fun kernel => define _

theorem ask (field : String) (query : FieldQuery) :
    Blind eager shown (ask field query : Act α δ (FieldAnswer α)) :=
  fun session => lift (session.table.answer field query) session

theorem runTask (task : Task α δ) : Blind eager shown (runTask task) := by
  intro session d d'
  rw [runTask_eq, runTask_eq]
  simp only [retuned]
  cases task.run session.table with
  | ok _ table => exact .ok ⟨rfl, rfl, rfl⟩ rfl
  | error e table => exact .error e ⟨rfl, rfl, rfl⟩

variable [DecidableEq δ] [Digest δ]

theorem drain : Blind eager shown (drain : Act α δ Unit) := by
  intro session d d'
  rw [drain_planned, drain_planned]
  simp only [retuned, Settings.retuned]
  cases Compiler.plan session.settings.fusion session.table session.queue session.compiler with
  | error e compiler => exact .error e ⟨rfl, rfl, rfl⟩
  | ok planned compiler => exact forM planned runTask { session with queue := [], compiler := compiler } d d'

end Blind

variable [Scalar α] [DecidableEq δ] {a b : Host α δ}

theorem tuned_blind {x : Act α δ β} (blind : Blind eager shown x) (moves : Moves Host.Extends x)
    (tuned : a.Tuned eager shown b) : Abreast (Host.Tuned eager shown) Eq (x a) (x b) := by
  obtain ⟨session, d⟩ := a
  obtain ⟨_, d'⟩ := b
  obtain ⟨rfl, kept, drawn, drawn'⟩ := tuned
  have moved := moves ⟨session, d⟩ kept
  have ran := blind session d d'
  generalize x ⟨session, d⟩ = outcome at moved ran ⊢
  generalize x ⟨session.retuned eager shown, d'⟩ = outcome' at ran ⊢
  obtain ⟨kept', more⟩ := moved
  cases ran with
  | ok states same =>
    obtain ⟨session', rfl, rfl⟩ := states
    exact .ok ⟨session', kept', drawn.extends more, drawn'.extends more⟩ same
  | error e states =>
    obtain ⟨session', rfl, rfl⟩ := states
    exact .error e ⟨session', kept', drawn.extends more, drawn'.extends more⟩

theorem tuned_derivations (tuned : a.Tuned eager shown b) {bound : Bound α δ}
    (holds : a.session.compiler.Holds bound) : Abreast (Host.Tuned eager shown) Eq
      (onDerivations (Derivations.derive bound) a) (onDerivations (Derivations.derive bound) b) := by
  have answer := tuned.drawn.answers tuned.kept.compiler holds
  have answer' := tuned.drawn'.answers tuned.kept.compiler holds
  exact .ok ⟨tuned.session, tuned.kept, tuned.drawn.derive holds, tuned.drawn'.derive holds⟩
    (answer.trans answer'.symm)

theorem tuned_lift (tuned : a.Tuned eager shown b) (x : Except KernelFault β) :
    Abreast (Host.Tuned eager shown) Eq (lift x a) (lift x b) := by
  cases x with
  | error e => exact .error e tuned
  | ok b => exact .ok tuned rfl

theorem tuned_derive (tuned : a.Tuned eager shown b) {bound : Bound α δ} (holds : a.session.compiler.Holds bound) :
    Abreast (Host.Tuned eager shown) Eq (derive bound a) (derive bound b) := by
  refine (tuned_derivations tuned holds).bind ?_
  rintro derived _ _ _ _ tuned' rfl
  exact tuned_lift tuned' derived

variable [Digest δ]

theorem tuned_compile (tuned : a.Tuned eager shown b) (name : String) :
    Abreast (Host.Tuned eager shown) Eq (compile name a) (compile name b) := by
  obtain ⟨session, d⟩ := a
  obtain ⟨_, d'⟩ := b
  obtain ⟨rfl, kept, drawn, drawn'⟩ := tuned
  have whole : Host.Tuned eager shown ⟨session, d⟩ ⟨session.retuned eager shown, d'⟩ := ⟨rfl, kept, drawn, drawn'⟩
  have moved := extends_compile name ⟨session, d⟩ kept
  rw [compile_eq] at moved
  rw [compile_eq, compile_eq]
  simp only [retuned] at moved ⊢
  cases recorded : session.compiled.find? name with
  | some bound => exact .ok whole rfl
  | none =>
    simp only [recorded] at moved ⊢
    cases defined : session.kernels.find? name with
    | none => exact .error _ whole
    | some kernel =>
      simp only [defined] at moved ⊢
      cases made : Compiler.compile kernel session.table session.compiler with
      | error e compiler =>
        obtain ⟨-, rfl⟩ := Compiler.compile_error made
        exact .error e whole
      | ok bound compiler =>
        simp only [made] at moved
        obtain ⟨kept', more⟩ := moved
        have holds := Compiler.compile_holds kept.compiler made
        have either : ∀ (early : Bool) {d : Derivations α δ}, d.From session.compiler →
            (if early then (Derivations.derive bound d).2 else d).From compiler := by
          intro early d drawn
          cases early with
          | false => exact drawn.extends more
          | true => exact (drawn.extends more).derive holds
        exact .ok ⟨rfl, kept', either _ drawn, either _ drawn'⟩ rfl

theorem tuned_reverse (tuned : a.Tuned eager shown b) (name : String) :
    Abreast (Host.Tuned eager shown) Eq (reverse name a) (reverse name b) := by
  refine (tuned_compile tuned name).bind ?_
  rintro bound _ _ _ compiled tuned' rfl
  exact tuned_derive tuned' (compiled_holds tuned.kept compiled)

theorem tuned_launched (tuned : a.Tuned eager shown b) (gradient : Bool) (name : String) :
    Abreast (Host.Tuned eager shown) Eq (launched gradient name a) (launched gradient name b) := by
  cases gradient with
  | false => exact tuned_compile tuned name
  | true =>
    refine (tuned_reverse tuned name).bind ?_
    rintro kernel _ _ _ _ tuned' rfl
    refine tuned_blind (fun session => Blind.onCompiler (Compiler.compile kernel session.table) session) ?_ tuned'
    exact admits_extends_caches.bind admits_extends_caches.session fun s => admits_extends_caches.bound kernel s.table

theorem tuned_launch (tuned : a.Tuned eager shown b) (gradient : Bool) (name : String) (args : List α) :
    Abreast (Host.Tuned eager shown) Eq (launch gradient name args a) (launch gradient name args b) := by
  have moved := admits_extends.queued gradient name args a tuned.kept
  have bounds := tuned_launched tuned gradient name
  rw [launch_eq] at moved
  rw [launch_eq, launch_eq]
  generalize launched gradient name a = outcome at moved bounds ⊢
  generalize launched gradient name b = outcome' at bounds ⊢
  cases bounds with
  | error e tuned' => exact .error e tuned'
  | @ok bound _ host host' tuned' same =>
    cases same
    obtain ⟨session, d⟩ := host
    obtain ⟨_, d'⟩ := host'
    obtain ⟨rfl, kept, drawn, drawn'⟩ := tuned'
    dsimp only at moved ⊢
    split
    · next count =>
      rw [if_pos count] at moved
      refine .ok ⟨?_, moved.1, drawn, drawn'⟩ rfl
      cases gradient <;> rfl
    · exact .error _ ⟨rfl, kept, drawn, drawn'⟩

theorem tuned_drain (tuned : a.Tuned eager shown b) :
    Abreast (Host.Tuned eager shown) Eq (drain a) (drain b) := tuned_blind .drain admits_extends.drain tuned

theorem tuned_invoke (tuned : a.Tuned eager shown b) (gradient : Bool) (name : String) (args : List α) :
    Abreast (Host.Tuned eager shown) Eq (invoke gradient name args a) (invoke gradient name args b) := by
  refine (tuned_drain tuned).bind fun _ _ _ _ _ tuned₁ _ => ?_
  refine (tuned_launched tuned₁ gradient name).bind ?_
  rintro bound _ ⟨session, d⟩ ⟨_, d'⟩ _ tuned₂ rfl
  obtain ⟨rfl, kept, drawn, drawn'⟩ := tuned₂
  rw [session_bind, session_bind]
  have same : order (session.retuned eager shown).settings gradient = order session.settings gradient := by
    cases gradient <;> rfl
  dsimp only
  rw [same]
  exact tuned_blind (.runTask _) (admits_extends.ran _) ⟨rfl, kept, drawn, drawn'⟩

theorem mapM_compile_holds {names : List String} {bounds : List (Bound α δ)} (kept : a.session.Kept)
    (compiled : names.mapM compile a = .ok bounds b) : ∀ bound ∈ bounds, b.session.compiler.Holds bound := by
  induction names generalizing a bounds with
  | nil =>
    cases compiled
    exact List.forall_mem_nil _
  | cons name rest ih =>
    rw [List.mapM_cons] at compiled
    obtain ⟨bound, c, first, compiled⟩ := bind_ok.mp compiled
    obtain ⟨others, d, later, done⟩ := bind_ok.mp compiled
    cases done
    have kept' := ((extends_compile name).ok first kept).1
    have more := ((admits_extends_caches.mapM rest extends_compile).ok later kept').2
    exact List.forall_mem_cons.mpr ⟨(compiled_holds kept first).extends more, ih kept' later⟩

theorem tuned_reverseAll (tuned : a.Tuned eager shown b) (names : List String) :
    Abreast (Host.Tuned eager shown) Eq (reverseAll names a) (reverseAll names b) := by
  have each : ∀ name ∈ names, ∀ a b : Host α δ, a.Tuned eager shown b →
      Abreast (Host.Tuned eager shown) Eq (compile name a) (compile name b) :=
    fun name _ _ _ tuned => tuned_compile tuned name
  refine (Abreast.mapM each tuned).bind ?_
  rintro bounds _ c d compiled tuned₁ rfl
  have held := mapM_compile_holds tuned.kept compiled
  -- Deriving leaves the cache, where all of these kernels are, as it is.
  have derived : Abreast (fun c d => Host.Tuned eager shown c d ∧ ∀ bound ∈ bounds, c.session.compiler.Holds bound)
      Eq (bounds.mapM (fun bound => onDerivations (Derivations.derive bound)) c)
        (bounds.mapM (fun bound => onDerivations (Derivations.derive bound)) d) := by
    refine Abreast.mapM (fun bound member c d ⟨tuned, held⟩ => ?_) ⟨tuned₁, held⟩
    cases tuned_derivations tuned (held bound member) with
    | ok tuned' same => exact .ok ⟨tuned', held⟩ same
  refine (derived.mono (fun _ _ => And.left) fun _ _ => id).bind ?_
  rintro results _ _ _ _ tuned₂ rfl
  exact Abreast.mapM (fun x _ _ _ tuned => tuned_lift tuned x) tuned₂

theorem tuned_cached (tuned : a.Tuned eager shown b) (name : String) :
    Abreast (Host.Tuned eager shown) Reply.Agrees (perform (.cached name) a) (perform (.cached name) b) := by
  refine (tuned_compile tuned name).bind ?_
  rintro bound _ c d compiled tuned' rfl
  have holds := compiled_holds tuned.kept compiled
  refine .ok tuned' (.derived fun known member known' member' => ?_)
  have here := tuned'.drawn.known tuned'.kept.compiler holds member
  exact here.trans (tuned'.drawn'.known tuned'.kept.compiler holds member').symm

theorem tuned_perform (tuned : a.Tuned eager shown b) (request : Request α) :
    Abreast (Host.Tuned eager shown) Reply.Agrees (perform request a) (perform request b) := by
  have replies : ∀ {β : Type} {x : Act α δ β} (reply : β → Reply α δ),
      Abreast (Host.Tuned eager shown) Eq (x a) (x b) →
      Abreast (Host.Tuned eager shown) Reply.Agrees ((x >>= fun b => pure (reply b)) a)
        ((x >>= fun b => pure (reply b)) b) := by
    intro β x reply first
    refine first.bind ?_
    rintro result _ _ _ _ tuned' rfl
    exact .ok tuned' (.same _)
  have blind : ∀ {β : Type} {x : Act α δ β} (reply : β → Reply α δ), Blind eager shown x → Moves Host.Extends x →
      Abreast (Host.Tuned eager shown) Reply.Agrees ((x >>= fun b => pure (reply b)) a)
        ((x >>= fun b => pure (reply b)) b) :=
    fun reply blind moves => replies reply (tuned_blind blind moves tuned)
  have admits : Host.AdmitsAll (Host.Extends : Host α δ → Host α δ → Prop) := admits_extends
  cases request with
  | load program => exact blind _ (.load program) (admits.load program)
  | define kernel => exact blind _ (.define kernel) (admits.defined kernel)
  | declare name element shape group =>
    exact blind _ (.declare name element shape group) (admits.declared name element shape group)
  | enableGrads group => exact blind _ (.enableGrads group) (admits.enabled group)
  | compile name => exact replies _ (tuned_compile tuned name)
  | kernel name => exact blind _ (.kernel name) (admits.kernel name)
  | reverse name => exact replies _ (tuned_reverse tuned name)
  | reverseAll names => exact replies _ (tuned_reverseAll tuned names)
  | cached name => exact tuned_cached tuned name
  | invoke gradient name args => exact replies _ (tuned_invoke tuned gradient name args)
  | launch gradient name args => exact replies _ (tuned_launch tuned gradient name args)
  | drain => exact replies _ (tuned_drain tuned)
  | zeroGrads =>
    exact blind _ (.bind .drain fun _ => .zeroed) (admits.bind admits.drain fun _ => admits.zeroed)
  | ask field query => exact blind _ (.ask field query) (admits.ask field query)
  | edit field e =>
    exact blind _ (.bind .drain fun _ => .onTable _) (admits.bind admits.drain fun _ => admits.edited field e)
  | kernelNames | pending | stats | fields =>
    obtain ⟨session, d⟩ := a
    obtain ⟨_, d'⟩ := b
    obtain ⟨rfl, -⟩ := id tuned
    exact .ok tuned (.same _)
  | settings =>
    obtain ⟨session, d⟩ := a
    obtain ⟨_, d'⟩ := b
    obtain ⟨rfl, -⟩ := id tuned
    exact .ok tuned (.settings _ _ _)
  | derivations => exact .ok tuned (.derivations _ _ _ _)

end Session

-- What a host makes of requests one after the other: the replies, and where each leaves it.
def Host.outcomes [Scalar α] [Digest δ] [DecidableEq δ] (host : Host α δ) :
    List (Request α) → List (EStateM.Result KernelFault (Host α δ) (Reply α δ))
  | [] => []
  | request :: rest =>
    let outcome := Session.perform request host
    outcome :: (ended outcome).outcomes rest

-- Whether gradient kernels are derived when kernels are compiled or on first use cannot be seen. Two hosts
-- with derivations of their own and settings that differ in this, and in what is shown, give the same
-- results or errors, and have the same fields, queue and counts after each request.
theorem Host.outcomes_retuned [Scalar α] [Digest δ] [DecidableEq δ] (settings : Settings) (eager shown : Bool)
    (requests : List (Request α)) :
    List.Forall₂ (Abreast (Host.Retuned eager shown) Reply.Agrees)
      ((Host.start settings : Host α δ).outcomes requests)
      ((Host.start (settings.retuned eager shown) : Host α δ).outcomes requests) := by
  have whole : ∀ a b : Host α δ, a.Tuned eager shown b →
      List.Forall₂ (Abreast (Host.Retuned eager shown) Reply.Agrees) (a.outcomes requests) (b.outcomes requests) := by
    induction requests with
    | nil => exact fun _ _ _ => .nil
    | cons request rest ih =>
      intro a b tuned
      have here := Session.tuned_perform tuned request
      exact .cons (here.mono (fun _ _ tuned => tuned.session) fun _ _ => id) (ih _ _ here.ended)
  exact whole _ _ ⟨rfl, Session.kept_start settings, Derivations.from_empty, Derivations.from_empty⟩

end FieldKernel
