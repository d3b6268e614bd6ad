import Mathlib.Data.List.Induction
import FieldKernel.Proofs.Scalar.Rational
import FieldKernel.Proofs.Session.Requests

-- A session that queues launches and one that runs them at once. The late one always has in its queue what is
-- missing in its table.
namespace FieldKernel

variable {α δ : Type} [Scalar α] [Digest δ]

structure Host.Trails (late now : Host α δ) : Prop where
  sound : late.Sound
  soundNow : now.Sound
  counted : ∀ name kernel, late.session.kernels.find? name = some kernel → kernel.Counted
  settings : now.session.settings = late.session.settings
  kernels : now.session.kernels = late.session.kernels
  idle : now.session.queue = []
  caught : late.session.queue.forM Task.run late.session.table = .ok () now.session.table

omit [Digest δ] in
theorem Task.altered_of_runs {queue : List (Task α δ)} {t t' : FieldTable α}
    (ran : queue.forM Task.run t = .ok () t') : t.Altered (fun _ => True) (fun _ => True) t' := by
  induction queue generalizing t with
  | nil =>
    cases ran
    exact .refl _
  | cons task rest ih =>
    obtain ⟨_, t₁, first, others⟩ := bind_ok.mp ran
    have executed := (Bound.launch_ok.mp first).2
    rw [Kernel.execute_eq] at executed
    have altered := (task.bound.kernel.moves_points _ _).ok executed
    exact (altered.mono (fun _ _ => trivial) fun _ _ => trivial).trans (ih others)

omit [Digest δ] in
theorem FieldTable.Altered.answer {writes gradWrites : String → Prop} {t t' : FieldTable α}
    (altered : t.Altered writes gradWrites t') {name : String} {query : FieldQuery} {a : FieldAnswer α}
    (answered : t.answer name query = .ok a) : ∃ a', t'.answer name query = .ok a' := by
  obtain ⟨field, found, answered⟩ := Except.bind_ok.mp answered
  obtain ⟨field', found', changed⟩ := altered.find (FieldTable.field_ok.mp found)
  suffices ∃ a', field'.answer query = .ok a' by
    obtain ⟨a', same⟩ := this
    exact ⟨a', Except.bind_ok.mpr ⟨field', FieldTable.field_ok.mpr found', onField_ok.mpr same⟩⟩
  have answered := onField_ok.mp answered
  cases query with
  | whole => exact ⟨_, rfl⟩
  | data => exact ⟨_, rfl⟩
  | offset index =>
    obtain ⟨position, counted, -⟩ := Except.map_ok.mp answered
    exact ⟨_, Except.map_ok.mpr ⟨position, (Field.position_shape changed.shape index).trans counted, rfl⟩⟩
  | read index =>
    obtain ⟨x, read, -⟩ := Except.map_ok.mp answered
    obtain ⟨position, inside, -⟩ := Field.read_ok.mp read
    have inside' := (Field.locate_shape changed.shape index).trans inside
    exact ⟨_, Except.map_ok.mpr ⟨_, Field.read_ok.mpr ⟨position, inside', rfl⟩, rfl⟩⟩
  | readGrad index =>
    obtain ⟨x, read, -⟩ := Except.map_ok.mp answered
    obtain ⟨g, position, stored, inside, -⟩ := Field.readGrad_ok.mp read
    obtain ⟨g', stored'⟩ := Option.isSome_iff_exists.mp (changed.hasGrad.trans (Option.isSome_of_mem stored))
    have inside' := (Field.locate_shape changed.shape index).trans inside
    exact ⟨_, Except.map_ok.mpr ⟨_, Field.readGrad_ok.mpr ⟨g', position, stored', inside', rfl⟩, rfl⟩⟩
  | grads =>
    obtain ⟨g, stored, -⟩ := Except.map_ok.mp answered
    have has : field.hasGrad = true := Option.isSome_of_mem (Field.grad_ok.mp stored)
    obtain ⟨g', stored'⟩ := Option.isSome_iff_exists.mp (changed.hasGrad.trans has)
    exact ⟨_, Except.map_ok.mpr ⟨g', Field.grad_ok.mpr stored', rfl⟩⟩

namespace Host.Trails

variable {late now late' now' : Host α δ}

theorem altered (trails : late.Trails now) :
    late.session.table.Altered (fun _ => True) (fun _ => True) now.session.table :=
  Task.altered_of_runs trails.caught

theorem keeps (trails : late.Trails now) : late.session.table.Keeps now.session.table :=
  trails.altered.keeps

theorem stays {β γ : Type} {b : β} {c : γ} {x y} {P : Host α δ → β → Prop} {Q : Host α δ → γ → Prop}
    (trails : late.Trails now) (leads : late.Leads x P) (leadsNow : now.Leads y Q) (ran : x = .ok b late')
    (ranNow : y = .ok c now') (stays : late.Stays late') (stays' : now.Stays now') : late'.Trails now' where
  sound := by have sound := leads.sound; rwa [ran] at sound
  soundNow := by have sound := leadsNow.sound; rwa [ranNow] at sound
  counted := stays.kernels ▸ trails.counted
  settings := by rw [stays.settings, stays'.settings, trails.settings]
  kernels := by rw [stays.kernels, stays'.kernels, trails.kernels]
  idle := stays'.queue.trans trails.idle
  caught := by rw [stays.queue, stays.table, stays'.table, trails.caught]

end Host.Trails

-- An act that fails for want of words.
def Host.Overruns {β : Type} (host : Host α δ) (x : Act α δ β) : Prop :=
  ∃ e after, x host = .error e after ∧ e.Overflow α

namespace Host.Overruns

variable {β γ : Type} {host after : Host α δ} {x : Act α δ β} {f : β → Act α δ γ}

omit [Digest δ] in
theorem bind (first : host.Overruns x) : host.Overruns (x >>= f) := by
  obtain ⟨e, after, failed, overflow⟩ := first
  exact ⟨e, after, bind_error.mpr (.inl failed), overflow⟩

omit [Digest δ] in
theorem later {b : β} (ran : x host = .ok b after) (second : after.Overruns (f b)) : host.Overruns (x >>= f) := by
  obtain ⟨e, last, failed, overflow⟩ := second
  exact ⟨e, last, bind_error.mpr (.inr ⟨b, after, ran, failed⟩), overflow⟩

end Host.Overruns

-- What succeeds in the one session succeeds in the late one, and neither does more than fill its caches; or
-- the late one has no words.
def Host.Echoes {β γ : Type} (late now : Host α δ) (x : Act α δ β) (y : Act α δ γ) (Q : β → γ → Prop) : Prop :=
  ∀ c now', y now = .ok c now' → late.Overruns x ∨ ∃ b late', x late = .ok b late' ∧ late'.Trails now' ∧
    late.Stays late' ∧ now.Stays now' ∧ Q b c

namespace Host.Echoes

variable {β γ β' γ' : Type} {late now : Host α δ} {Q : β → γ → Prop}

theorem bind {x : Act α δ β} {y : Act α δ γ} {f : β → Act α δ β'} {g : γ → Act α δ γ'} {Q' : β' → γ' → Prop}
    (first : late.Echoes now x y Q)
    (then_ : ∀ b c late' now', Q b c → late'.Trails now' → late.Stays late' → now.Stays now' →
      late'.Echoes now' (f b) (g c) Q') : late.Echoes now (x >>= f) (y >>= g) Q' := by
  intro d now₂ ran
  obtain ⟨c, now₁, ranFirst, ranThen⟩ := bind_ok.mp ran
  rcases first c now₁ ranFirst with refused | ⟨b, late₁, ranFirst', trails₁, stays₁, staysNow₁, holds⟩
  · exact .inl refused.bind
  · refine (then_ b c late₁ now₁ holds trails₁ stays₁ staysNow₁ d now₂ ranThen).imp (.later ranFirst') ?_
    rintro ⟨e, late₂, ranThen', trails₂, stays₂, staysNow₂, holds'⟩
    exact ⟨e, late₂, bind_ok.mpr ⟨b, late₁, ranFirst', ranThen'⟩, trails₂, stays₁.trans stays₂,
      staysNow₁.trans staysNow₂, holds'⟩

theorem pure (trails : late.Trails now) {b : β} {c : γ} (holds : Q b c) :
    late.Echoes now (pure b) (pure c) Q := by
  intro d now' ran
  obtain ⟨rfl, rfl⟩ := pure_ok.mp ran
  exact .inr ⟨b, late, rfl, trails, ⟨rfl, rfl, rfl, rfl⟩, ⟨rfl, rfl, rfl, rfl⟩, holds⟩

theorem mono {Q' : β → γ → Prop} {x : Act α δ β} {y : Act α δ γ} (echoes : late.Echoes now x y Q)
    (weaker : ∀ b c, Q b c → Q' b c) : late.Echoes now x y Q' := by
  intro c now' ran
  refine (echoes c now' ran).imp_right ?_
  rintro ⟨b, late', ran', trails, stays, staysNow, holds⟩
  exact ⟨b, late', ran', trails, stays, staysNow, weaker b c holds⟩

theorem congr {x x' : Act α δ β} {y y' : Act α δ γ} (echoes : late.Echoes now x y Q) (left : x' late = x late)
    (right : y' now = y now) : late.Echoes now x' y' Q := by
  intro c now' ran
  have outcome := echoes c now' (right ▸ ran)
  rw [Overruns, ← left] at outcome
  exact outcome

theorem mapM {item item' : Type} {R : item → item' → Prop} {f : item → Act α δ β} {g : item' → Act α δ γ}
    {items : List item} {items' : List item'} (pairs : List.Forall₂ R items items')
    {late₀ now₀ : Host α δ} (trails : late.Trails now) (stays : late₀.Stays late) (staysNow : now₀.Stays now)
    (each : ∀ i j late now, R i j → late.Trails now → late₀.Stays late → now₀.Stays now →
      late.Echoes now (f i) (g j) Q) :
    late.Echoes now (items.mapM f) (items'.mapM g) (List.Forall₂ Q) := by
  induction pairs generalizing late now with
  | nil => exact pure trails .nil
  | @cons i j rest rest' first _ ih =>
    rw [List.mapM_cons, List.mapM_cons]
    refine (each i j late now first trails stays staysNow).bind
      fun b c late₁ now₁ holds trails₁ stays₁ staysNow₁ => ?_
    refine (ih trails₁ (stays.trans stays₁) (staysNow.trans staysNow₁)).bind
      fun bs cs late₂ now₂ others trails₂ _ _ => ?_
    exact pure trails₂ (.cons holds others)

end Host.Echoes

namespace Session

variable [DecidableEq δ] {late now : Host α δ} {b c : Bound α δ} {k k' : Kernel α}

structure Twins (table table' : FieldTable α) (b c : Bound α δ) : Prop where
  left : b.Genuine table
  right : c.Genuine table'
  alike : b.kernel.Alike c.kernel

structure Peers (table table' : FieldTable α) (b c : Bound α δ) : Prop where
  left : b.Genuine table
  right : c.Genuine table'
  same : Kernel.SameOutcome δ b.kernel c.kernel

omit [DecidableEq δ] in
theorem Twins.peers {table table' : FieldTable α} (twins : Twins table table' b c) : Peers table table' b c :=
  ⟨twins.left, twins.right, twins.alike.same_outcome twins.left.checked twins.right.checked⟩

omit [DecidableEq δ] in
theorem Peers.launch {table table' : FieldTable α} (peers : Peers table table' b c) (keeps : table.Keeps table')
    (args : List α) (order : VisitOrder) : b.launch args order table' = c.launch args order table' :=
  (peers.left.keeps keeps).launch_same peers.right peers.same args order

omit [DecidableEq δ] in
theorem Twins.gradient {table table' : FieldTable α} (twins : Twins table table' b c) (keeps : table'.Keeps table)
    (hasGradient : c.HasGradient k) : b.HasGradient k := by
  have signatures := twins.left.signatures_alike (twins.right.keeps keeps) twins.alike
  exact hasGradient.alike twins.alike.symm signatures.symm

end Session

-- What succeeds in the one session succeeds in the late one, which trails again afterwards, or has no words;
-- `P` holds of where it ends.
def Host.Matches {β γ : Type} (late now : Host α δ) (x : Act α δ β) (y : Act α δ γ)
    (P : Host α δ → Prop) : Prop :=
  ∀ c now', y now = .ok c now' →
    late.Overruns x ∨ ∃ b late', x late = .ok b late' ∧ late'.Trails now' ∧ P late'

namespace Host

variable {β γ β' γ' : Type} {late now : Host α δ} {P Q : Host α δ → Prop}

theorem Matches.bind {x : Act α δ β} {y : Act α δ γ} {f : β → Act α δ β'} {g : γ → Act α δ γ'}
    (first : late.Matches now x y P)
    (then_ : ∀ b c late' now', late'.Trails now' → P late' → late'.Matches now' (f b) (g c) Q) :
    late.Matches now (x >>= f) (y >>= g) Q := by
  intro d now₂ ran
  obtain ⟨c, now₁, ranFirst, ranThen⟩ := bind_ok.mp ran
  rcases first c now₁ ranFirst with refused | ⟨b, late₁, ranFirst', trails₁, holds⟩
  · exact .inl refused.bind
  · refine (then_ b c late₁ now₁ trails₁ holds d now₂ ranThen).imp (.later ranFirst') ?_
    rintro ⟨e, late₂, ranThen', trails₂, holds'⟩
    exact ⟨e, late₂, bind_ok.mpr ⟨b, late₁, ranFirst', ranThen'⟩, trails₂, holds'⟩

theorem Matches.pure (trails : late.Trails now) (holds : P late) (b : β) (c : γ) :
    late.Matches now (pure b) (pure c) P := by
  intro d now' ran
  obtain ⟨-, rfl⟩ := pure_ok.mp ran
  exact .inr ⟨b, late, rfl, trails, holds⟩

theorem Matches.forM {item : Type} {f : item → Act α δ PUnit} {items : List item} (trails : late.Trails now)
    (each : ∀ i ∈ items, ∀ late now : Host α δ, late.Trails now → late.Matches now (f i) (f i) fun _ => True) :
    late.Matches now (items.forM f) (items.forM f) fun _ => True := by
  induction items generalizing late now with
  | nil => exact pure trails trivial _ _
  | cons i rest ih =>
    refine (each i List.mem_cons_self late now trails).bind fun _ _ late₁ now₁ trails₁ _ => ?_
    exact ih trails₁ fun j member => each j (List.mem_cons_of_mem _ member)

end Host

namespace Session

variable [DecidableEq δ] {late now : Host α δ}

end Session

namespace Session

variable [DecidableEq δ] {late now : Host α δ}

end Session

-- The host a session comes to that was asked for all of these and could do them.
def Host.After (settings : Settings) (requests : List (Request α)) [DecidableEq δ] (host : Host α δ) : Prop :=
  ∃ replies, requests.mapM Session.perform (.start settings) = .ok replies host

def Host.after? [DecidableEq δ] (settings : Settings) (requests : List (Request α)) : Option (Host α δ) :=
  match requests.mapM Session.perform (Host.start settings) with
  | .ok _ host => some host
  | .error _ _ => none

theorem Host.after?_eq_some [DecidableEq δ] {settings : Settings} {requests : List (Request α)}
    {host : Host α δ} : Host.after? settings requests = some host ↔ Host.After settings requests host := by
  unfold Host.after? Host.After
  split
  · next replies host' ran =>
    constructor
    · intro same
      cases same
      exact ⟨replies, ran⟩
    · intro ⟨replies', ran'⟩
      cases ran.symm.trans ran'
      rfl
  · next failed =>
    constructor
    · intro same
      cases same
    · intro ⟨replies', ran'⟩
      cases failed.symm.trans ran'

-- Kernels that copy one number each.
namespace Copies

def load (v : Nat) (field : String) (rest : Block ℚ) : Block ℚ :=
  .instr (.define ⟨v⟩ (.load ⟨field, []⟩)) rest

def store (field : String) (v : Nat) (rest : Block ℚ) : Block ℚ := .instr (.store ⟨field, []⟩ ⟨v⟩) rest

def kernel (name source target : String) : Kernel ℚ :=
  .ofBody name ⟨[]⟩ 0 (load 0 source (store target 0 .nil))

def number (x : ℚ) : Field ℚ := ⟨rootGroup, .f64, [], #[x], none⟩

def declare (field : String) : Request ℚ := .declare field .f64 [] rootGroup

def requests : List (Request ℚ) :=
  ["x", "y", "u", "v"].map declare ++
    [.edit "x" (.fill 1), .edit "u" (.fill 2), .define (kernel "first" "x" "y"),
      .define (kernel "second" "u" "v"), .launch false "first" [], .launch false "second" [], .drain]

def fields : FieldTable ℚ :=
  .ofList [("x", number 1), ("y", number 1), ("u", number 2), ("v", number 2)]

def after (requests : List (Request ℚ)) : Option (Host ℚ (List UInt8)) := Host.after? .default requests

def wide (name source target : String) : Kernel ℚ := { kernel name source target with counter := 2147483648 }

-- The counters add up to 2^32, so there is none for the fused kernel.
example : (wide "first" "x" "y").check = .ok () ∧ (wide "second" "u" "v").check = .ok () ∧
    ((wide "first" "x" "y").fused (wide "second" "u" "v")).check =
      .error (.malformed "fused_first_second" (.beyondCounter ⟨0⟩ 0)) := by
  decide +kernel

end Copies

-- A field whose name spells a piece of a kernel text.
namespace SharedText

open Copies

def odd : String := "f over [] \x7b\n  %0 = load g"

def first : Kernel ℚ := .ofBody "a" ⟨[]⟩ 0 (load 0 odd (store "h" 0 .nil))

def second : Kernel ℚ := .ofBody "b" ⟨[]⟩ 0 (load 0 odd (load 1 "g" .nil))

def third : Kernel ℚ :=
  .ofBody "fused_a_b over [] \x7b\n  %0 = load f" ⟨[]⟩ 0
    (load 0 "g" (store "h" 0 (load 1 odd (load 2 "g" .nil))))

def requests : List (Request ℚ) :=
  [odd, "g", "h"].map declare ++
    [.edit odd (.fill 1), .edit "g" (.fill 2), .define first, .define second, .define third,
      .launch false "a" [], .launch false "b" [], .drain, .invoke false third.name []]

def fields (h : ℚ) : FieldTable ℚ := .ofList [(odd, number 1), ("g", number 2), ("h", number h)]

end SharedText

-- Kernels with a value counter of their own choice, one of them too small.
namespace Miscounted

open Copies

def first : Kernel ℚ :=
  .ofBody "a" ⟨[]⟩ 0 (load 0 "x" (.instr (.define ⟨1⟩ (.unary .sin ⟨0⟩)) (store "y" 1 .nil)))

def second : Kernel ℚ := kernel "b" "z" "w"

def wasteful : Kernel ℚ := ⟨"fused_a_b", ⟨[]⟩, 0, first.body ++ second.body.shift 2, 9⟩

def cramped : Kernel ℚ := ⟨"fused_a_b_grad", ⟨[]⟩, 0,
  load 0 "x" (.instr (.define ⟨1⟩ (.unary .sin ⟨0⟩)) (load 2 "z" (.instr (.readGrad ⟨2⟩ ⟨"w", []⟩)
    (.instr (.addGrad ⟨"z", []⟩ ⟨2⟩) (.instr (.readGrad ⟨1⟩ ⟨"y", []⟩)
      (.instr (.define ⟨9⟩ (.unary .cos ⟨0⟩)) (.instr (.propagate ⟨0⟩ ⟨1⟩ (.value ⟨9⟩))
        (.instr (.addGrad ⟨"x", []⟩ ⟨0⟩) .nil)))))))), 0⟩

def requests : List (Request ℚ) :=
  ["x", "y", "z", "w"].map declare ++
    [.enableGrads rootGroup, .define first, .define second, .define wasteful, .define cramped,
      .launch false "a" [], .launch false "b" [], .drain, .invoke false "fused_a_b" [],
      .invoke true "fused_a_b" [], .invoke false "fused_a_b_grad" []]

end Miscounted

end FieldKernel
