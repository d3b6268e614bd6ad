import FieldKernel.Proofs.Session.Moves

-- What a session goes through: requests one after the other, on derivations to which other sessions add.
namespace FieldKernel

variable {α δ : Type} [Scalar α] [Digest δ] [DecidableEq δ]

-- A request, and the derivations that a session finds with it.
structure Turn (α δ : Type) where
  request : Request α
  derivations : Derivations α δ

structure Deed (α δ : Type) where
  host : Host α δ
  request : Request α

-- The requests that a request comes down to. All but the loading of a program are single.
def Request.parts : Request α → List (Request α)
  | .load program =>
    program.fields.map (fun field => .declare field.name field.element field.shape (field.group?.getD rootGroup)) ++
      (program.grads.map (fun group => .enableGrads group.node) ++
        program.kernels.map fun kernel => .define kernel.node)
  | request => [request]

def Request.Single (request : Request α) : Prop := request.parts = [request]

omit [Scalar α] in
theorem Request.single_of_part {request part : Request α} (member : part ∈ request.parts) : part.Single := by
  cases request with
  | load program =>
    simp only [parts, List.mem_append, List.mem_map] at member
    obtain ⟨_, _, rfl⟩ | ⟨_, _, rfl⟩ | ⟨_, _, rfl⟩ := member <;> rfl
  | _ =>
    cases List.mem_singleton.mp member
    rfl

def Deed.done (deed : Deed α δ) : Bool :=
  match Session.perform deed.request deed.host with
  | .ok _ _ => true
  | .error _ _ => false

theorem Deed.done_iff {deed : Deed α δ} :
    deed.done = true ↔ ∃ reply host, Session.perform deed.request deed.host = .ok reply host := by
  unfold done
  cases Session.perform deed.request deed.host <;> simp

namespace Session

def turned (session : Session α δ) (turn : Turn α δ) : Session α δ :=
  (ended (perform turn.request ⟨session, turn.derivations⟩)).session

def after (session : Session α δ) (turns : List (Turn α δ)) : Session α δ := turns.foldl turned session

def each (requests : List (Request α)) : Act α δ Unit := requests.forM fun request => do
  let _ ← perform request

def deeds : List (Request α) → Host α δ → List (Deed α δ)
  | [], _ => []
  | request :: rest, host => ⟨host, request⟩ ::
    match perform request host with
    | .ok _ next => deeds rest next
    | .error _ _ => []

def log (session : Session α δ) : List (Turn α δ) → List (Deed α δ)
  | [] => []
  | turn :: turns => deeds turn.request.parts ⟨session, turn.derivations⟩ ++ log (session.turned turn) turns

theorem load_eq (program : Program α) : (load program : Act α δ Unit) = each (Request.load program).parts := by
  simp only [each, load, Request.parts, List.forM_eq_forM, List.forM_append, List.forM_map, perform, bind_assoc,
    pure_bind, bind_pure_unit]

theorem each_cons (request : Request α) (rest : List (Request α)) (host : Host α δ) :
    each (request :: rest) host = match perform request host with
      | .ok _ next => each rest next
      | .error e next => .error e next := by
  change ((do let _ ← perform request) >>= fun _ => each rest) host = _
  rw [run_bind, run_bind]
  cases perform request host <;> rfl

theorem ended_each_parts (request : Request α) (host : Host α δ) :
    ended (each request.parts host) = ended (perform request host) := by
  have single : request.parts = [request] → ended (each request.parts host) = ended (perform request host) := by
    intro parts
    rw [parts, each_cons]
    cases perform request host <;> rfl
  cases request with
  | load program =>
    rw [← load_eq, perform, run_bind]
    cases load program host <;> rfl
  | _ => exact single rfl

variable {P : List (Deed α δ) → Session α δ → Prop}

theorem deeds_induction (step : ∀ log host request, P log host.session → Request.Single request →
      P (log ++ [⟨host, request⟩]) (ended (perform request host)).session)
    {requests : List (Request α)} (single : ∀ request ∈ requests, request.Single) {log : List (Deed α δ)}
    {host : Host α δ} (holds : P log host.session) :
    P (log ++ deeds requests host) (ended (each requests host)).session := by
  induction requests generalizing log host with
  | nil =>
    rw [deeds, List.append_nil]
    exact holds
  | cons request rest ih =>
    have here := step log host request holds (single request List.mem_cons_self)
    have others : ∀ part ∈ rest, part.Single := fun part member => single part (List.mem_cons_of_mem _ member)
    rw [deeds, each_cons]
    cases ran : perform request host with
    | ok reply next =>
      rw [ran] at here
      have rest := ih others here
      rwa [List.append_assoc] at rest
    | error e next =>
      rw [ran] at here
      exact here

theorem log_induction (step : ∀ log host request, P log host.session → Request.Single request →
      P (log ++ [⟨host, request⟩]) (ended (perform request host)).session)
    {session : Session α δ} (turns : List (Turn α δ)) (start : P [] session) :
    P (session.log turns) (session.after turns) := by
  have whole : ∀ log session, P log session → P (log ++ Session.log session turns) (session.after turns) := by
    induction turns with
    | nil =>
      intro log session holds
      rw [Session.log, List.append_nil]
      exact holds
    | cons turn turns ih =>
      intro log session holds
      have single : ∀ part ∈ turn.request.parts, part.Single := fun _ member => Request.single_of_part member
      have first : P (log ++ deeds turn.request.parts ⟨session, turn.derivations⟩)
          (ended (each turn.request.parts ⟨session, turn.derivations⟩)).session :=
        deeds_induction step single holds
      rw [ended_each_parts] at first
      have rest := ih _ (session.turned turn) first
      rwa [List.append_assoc] at rest
  exact whole [] session start

end Session

end FieldKernel
