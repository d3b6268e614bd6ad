import FieldKernel.Proofs.Execution.Simulation

-- The values a block names, and what is left of well-formedness when they are renamed.
namespace FieldKernel

variable {α : Type}

theorem shortWord_eq {n : Nat} (short : n < 4294967296) : shortWord n = n := Nat.mod_eq_of_lt short

theorem ShortWord.ofNat_eq {n : Nat} (short : n < 4294967296) : (ofNat n).toNat = n := shortWord_eq short

namespace ValueId

theorem word_eq {v : ValueId} (short : v.index < 4294967296) : v.word = v :=
  congrArg mk (shortWord_eq short)

theorem shift_eq {offset : Nat} {v : ValueId} (room : v.index + offset < 4294967296) :
    v.shift offset = ⟨v.index + offset⟩ := congrArg mk (shortWord_eq room)

theorem shift_inj {offset : Nat} {v w : ValueId} (left : v.index < 4294967296) (right : w.index < 4294967296)
    (same : v.shift offset = w.shift offset) : v = w := by
  cases v
  cases w
  simp only [shift, shortWord, mk.injEq] at same left right ⊢
  omega

end ValueId

variable {f : ValueId → ValueId}

@[simp] theorem Expr.operands_rename (f : ValueId → ValueId) (e : Expr α) :
    (e.rename f).operands = e.operands.map f := by
  cases e <;> simp [Expr.rename, Expr.operands, Place.rename]

@[simp] theorem Instr.operands_rename (f : ValueId → ValueId) (i : Instr α) :
    (i.rename f).operands = i.operands.map f := by
  cases i with
  | propagate target source scale =>
    cases scale <;> simp [Instr.rename, Instr.operands, Scale.rename, Scale.operands]
  | _ => simp [Instr.rename, Instr.operands, Place.rename]

@[simp] theorem Instr.dst?_rename (f : ValueId → ValueId) (i : Instr α) :
    (i.rename f).dst? = i.dst?.map f := by
  cases i <;> simp [Instr.rename, Instr.dst?]

@[simp] theorem Instr.use?_rename (f : ValueId → ValueId) (i : Instr α) : (i.rename f).use? = i.use? := by
  cases i with
  | define dst e => cases e <;> rfl
  | _ => rfl

def Statement.rename (f : ValueId → ValueId) : Statement α → Statement α
  | .instr i => .instr (i.rename f)
  | .branch cond => .branch (f cond)

theorem Statement.place?_rename {s : Statement α} {place : Place}
    (addressed : (s.rename f).place? = some place) :
    ∃ place', s.place? = some place' ∧ place = place'.rename f := by
  cases s with
  | branch cond => cases addressed
  | instr i =>
    cases i with
    | define dst e =>
      cases e with
      | load p =>
        cases addressed
        exact ⟨p, rfl, rfl⟩
      | const | index | arg | binary | unary | compare => cases addressed
    | store p _ | readGrad _ p | addGrad p _ =>
      cases addressed
      exact ⟨p, rfl, rfl⟩
    | propagate => cases addressed

def Statement.named (s : Statement α) : List ValueId := s.dst?.toList ++ s.operands

@[simp] theorem Statement.named_rename (f : ValueId → ValueId) (s : Statement α) :
    (s.rename f).named = s.named.map f := by
  cases s with
  | instr i =>
    cases dst : i.dst? <;>
      simp [Statement.rename, Statement.named, Statement.dst?, Statement.operands, dst]
  | branch cond => simp [Statement.rename, Statement.named, Statement.dst?, Statement.operands]

namespace Block

@[simp] theorem statements_append (a b : Block α) : (a ++ b).statements = a.statements ++ b.statements := by
  change (a.append b).statements = _
  induction a with
  | nil => rfl
  | instr i rest ih => simp [append, statements, ih]
  | branch cond onTrue onFalse rest _ _ ih => simp [append, statements, ih]

@[simp] theorem statements_rename (f : ValueId → ValueId) (b : Block α) :
    (b.rename f).statements = b.statements.map (·.rename f) := by
  induction b with
  | nil => rfl
  | instr i rest ih => simp [rename, statements, ih, Statement.rename]
  | branch cond onTrue onFalse rest ihTrue ihFalse ihRest =>
    simp [rename, statements, ihTrue, ihFalse, ihRest, Statement.rename]

@[simp] theorem assigned_append (a b : Block α) : (a ++ b).assigned = a.assigned ++ b.assigned := by
  simp [assigned]

@[simp] theorem assigned_rename (f : ValueId → ValueId) (b : Block α) :
    (b.rename f).assigned = b.assigned.map f := by
  simp only [assigned, statements_rename, List.filterMap_map, List.map_filterMap]
  congr 1
  funext s
  cases s <;> simp [Statement.rename, Statement.dst?]

theorem definitions_append (a b : Block α) : (a ++ b).definitions = a.definitions ++ b.definitions := by
  change (a.append b).definitions = _
  induction a with
  | nil => rfl
  | instr i rest ih =>
    rw [append, definitions, definitions, ih]
    split <;> rfl
  | branch cond onTrue onFalse rest _ _ ih => exact ih

theorem definitions_definitions (block : Block α) : block.definitions.definitions = block.definitions := by
  induction block with
  | nil => rfl
  | instr i rest ih =>
    cases i with
    | define dst e => exact congrArg (instr (.define dst e)) ih
    | store | readGrad | propagate | addGrad => exact ih
  | branch cond onTrue onFalse rest _ _ ih => exact ih

theorem uses_append {a b : Block α} {use : Use} {name : String} :
    (a ++ b).Uses use name ↔ a.Uses use name ∨ b.Uses use name := by
  simp only [Uses, statements_append, List.mem_append, or_and_right, exists_or]

theorem uses_rename {b : Block α} {use : Use} {name : String} :
    (b.rename f).Uses use name ↔ b.Uses use name := by
  simp only [Uses, statements_rename, List.mem_map]
  constructor
  · rintro ⟨_, ⟨s, member, same⟩, uses⟩
    cases s with
    | instr i =>
      cases same
      exact ⟨i, member, Instr.use?_rename f i ▸ uses⟩
    | branch cond => cases same
  · rintro ⟨i, member, uses⟩
    exact ⟨i.rename f, ⟨.instr i, member, rfl⟩, (Instr.use?_rename f i).trans uses⟩

def named (block : Block α) : List ValueId := block.statements.flatMap Statement.named

@[simp] theorem named_append (a b : Block α) : (a ++ b).named = a.named ++ b.named := by
  simp [named]

@[simp] theorem named_rename (f : ValueId → ValueId) (b : Block α) : (b.rename f).named = b.named.map f := by
  simp [named, List.flatMap_map, List.map_flatMap]

theorem assigned_subset_named (block : Block α) : block.assigned ⊆ block.named := by
  intro v member
  obtain ⟨s, inside, dst⟩ := List.mem_filterMap.mp member
  exact List.mem_flatMap.mpr ⟨s, inside, by simp [Statement.named, dst]⟩

theorem foldl_max_le {vs : List ValueId} {start k : Nat} :
    vs.foldl (fun bound v => Nat.max bound (shortWord (v.index + 1))) start ≤ k ↔
      start ≤ k ∧ ∀ v ∈ vs, shortWord (v.index + 1) ≤ k := by
  induction vs generalizing start with
  | nil => simp
  | cons v vs ih =>
    rw [List.foldl_cons, ih, List.forall_mem_cons, ← and_assoc]
    exact and_congr_left' Nat.max_le

theorem valueBound_le {block : Block α} {k : Nat} :
    block.valueBound ≤ k ↔ ∀ v ∈ block.named, shortWord (v.index + 1) ≤ k := by
  refine foldl_max_le.trans ?_
  simp [named, Statement.named]

theorem valueBound_lt (block : Block α) : block.valueBound < 4294967296 :=
  Nat.lt_of_le_of_lt (valueBound_le.mpr fun _ _ => Nat.le_of_lt_succ (ShortWord.ofNat _).short) (by decide)

theorem index_lt_valueBound {block : Block α} {v : ValueId} (member : v ∈ block.named)
    (short : v.index + 1 < 4294967296) : v.index < block.valueBound := by
  have := valueBound_le.mp (Nat.le_refl _) v member
  rwa [shortWord_eq short] at this

theorem renamed_rename {R : ValueId → ValueId → Prop} {b : Block α}
    (named : ∀ v ∈ b.named, R v (f v)) : b.Renamed R (b.rename f) := by
  have places : ∀ p : Place, (∀ v ∈ p.index, R v (f v)) → p.Renamed R (p.rename f) :=
    fun p each => ⟨rfl, List.forall₂_map_right_iff.mpr (List.forall₂_same.mpr each)⟩
  induction b with
  | nil => exact .nil
  | instr i rest ih =>
    have here : ∀ v ∈ i.dst?.toList ++ i.operands, R v (f v) := fun v member =>
      named v (List.mem_flatMap.mpr ⟨.instr i, List.mem_cons_self, member⟩)
    refine .instr ?_ (ih fun v member => named v ?_)
    · cases i with
      | define dst e =>
        refine .define (here dst (by simp [Instr.dst?])) ?_
        cases e with
        | const => exact .const _
        | index => exact .index _
        | arg => exact .arg _
        | load place => exact .load (places place fun v member => here v (by
            simp [Instr.operands, Expr.operands, member]))
        | binary op lhs rhs =>
          exact .binary (here lhs (by simp [Instr.operands, Expr.operands]))
            (here rhs (by simp [Instr.operands, Expr.operands]))
        | unary op operand => exact .unary (here operand (by simp [Instr.operands, Expr.operands]))
        | compare op lhs rhs =>
          exact .compare (here lhs (by simp [Instr.operands, Expr.operands]))
            (here rhs (by simp [Instr.operands, Expr.operands]))
      | store place value =>
        exact .store (places place fun v member => here v (by simp [Instr.operands, member]))
          (here value (by simp [Instr.operands]))
      | readGrad target place =>
        exact .readGrad (here target (by simp [Instr.operands]))
          (places place fun v member => here v (by simp [Instr.operands, member]))
      | propagate target source scale =>
        refine .propagate (here target (by simp [Instr.operands]))
          (here source (by simp [Instr.operands])) ?_
        cases scale with
        | one => exact .one
        | minusOne => exact .minusOne
        | value factor => exact .value (here factor (by simp [Instr.operands, Scale.operands]))
      | addGrad place source =>
        exact .addGrad (places place fun v member => here v (by simp [Instr.operands, member]))
          (here source (by simp [Instr.operands]))
    · obtain ⟨s, inside, used⟩ := List.mem_flatMap.mp member
      exact List.mem_flatMap.mpr ⟨s, List.mem_cons_of_mem _ inside, used⟩
  | branch cond onTrue onFalse rest ihTrue ihFalse ihRest =>
    have parts : ∀ part : Block α, part.statements ⊆ (branch cond onTrue onFalse rest).statements →
        ∀ v ∈ part.named, R v (f v) := fun part inside v member => by
      obtain ⟨s, here, used⟩ := List.mem_flatMap.mp member
      exact named v (List.mem_flatMap.mpr ⟨s, inside here, used⟩)
    refine .branch (named cond ?_) (ihTrue (parts _ ?_)) (ihFalse (parts _ ?_)) (ihRest (parts _ ?_))
    · exact List.mem_flatMap.mpr ⟨.branch cond, List.mem_cons_self, List.mem_singleton_self cond⟩
    · exact fun s member => by simp [statements, member]
    · exact fun s member => by simp [statements, member]
    · exact fun s member => by simp [statements, member]

theorem rename_eq {b : Block α} (same : ∀ v ∈ b.named, f v = v) : b.rename f = b := by
  have list : ∀ vs : List ValueId, (∀ v ∈ vs, f v = v) → vs.map f = vs := fun vs each =>
    (List.map_congr_left each).trans (List.map_id vs)
  induction b with
  | nil => rfl
  | instr i rest ih =>
    have here : ∀ v ∈ i.dst?.toList ++ i.operands, f v = v := fun v member =>
      same v (List.mem_flatMap.mpr ⟨.instr i, List.mem_cons_self, member⟩)
    have first : i.rename f = i := by
      cases i with
      | define dst e =>
        cases e <;> simp_all [Instr.rename, Expr.rename, Place.rename, Instr.dst?, Instr.operands, Expr.operands]
      | propagate target source scale =>
        cases scale <;> simp_all [Instr.rename, Scale.rename, Instr.operands, Scale.operands]
      | store | readGrad | addGrad => simp_all [Instr.rename, Place.rename, Instr.operands]
    rw [rename, first, ih fun v member => same v ?_]
    obtain ⟨s, inside, used⟩ := List.mem_flatMap.mp member
    exact List.mem_flatMap.mpr ⟨s, List.mem_cons_of_mem _ inside, used⟩
  | branch cond onTrue onFalse rest ihTrue ihFalse ihRest =>
    have parts : ∀ part : Block α, part.statements ⊆ (branch cond onTrue onFalse rest).statements →
        ∀ v ∈ part.named, f v = v := fun part inside v member => by
      obtain ⟨s, here, used⟩ := List.mem_flatMap.mp member
      exact same v (List.mem_flatMap.mpr ⟨s, inside here, used⟩)
    have condition : f cond = cond :=
      same cond (List.mem_flatMap.mpr ⟨.branch cond, List.mem_cons_self, List.mem_singleton_self cond⟩)
    rw [rename, condition, ihTrue (parts _ onTrue_subset), ihFalse (parts _ onFalse_subset),
      ihRest (parts _ rest_subset)]

theorem renamed_refl {R : ValueId → ValueId → Prop} {b : Block α} (named : ∀ v ∈ b.named, R v v) :
    b.Renamed R b := by
  have moved : b.Renamed R (b.rename id) := renamed_rename named
  rwa [rename_eq (f := id) fun _ _ => rfl] at moved

theorem words_eq {b : Block α} (short : ∀ v ∈ b.named, v.index < 4294967296) : b.words = b :=
  rename_eq fun v member => ValueId.word_eq (short v member)

theorem WellFormed.rename {limits : Limits} {block : Block α} {visible defined : List ValueId} {counter : Nat}
    (formed : block.WellFormed limits visible defined)
    (below : ∀ v : ValueId, v.index < limits.counter → (f v).index < counter)
    (apart : ∀ v w : ValueId, v.index < limits.counter → w.index < limits.counter → f v = f w → v = w)
    (old : ∀ v ∈ defined, v.index < limits.counter) :
    (block.rename f).WellFormed { limits with counter := counter } (visible.map f) (defined.map f) := by
  induction block generalizing visible defined with
  | nil => trivial
  | instr i rest ih =>
    obtain ⟨operands, within, fresh, others⟩ := formed
    have dst : (i.rename f).dst?.toList = i.dst?.toList.map f := by
      rw [Instr.dst?_rename]
      cases i.dst? <;> rfl
    have own : ∀ v ∈ i.dst?, v.index < limits.counter := fun _ => within.dst_lt
    refine ⟨?_, ?_, ?_, ?_⟩
    · rw [Instr.operands_rename]
      intro v member
      obtain ⟨w, used, rfl⟩ := List.mem_map.mp member
      exact List.mem_map_of_mem (operands w used)
    · cases i with
      | define v e =>
        obtain ⟨bounds, inside⟩ := within
        refine ⟨?_, below v inside⟩
        cases e <;> exact bounds
      | store | readGrad | propagate | addGrad => trivial
    · rw [Instr.dst?_rename]
      intro v member earlier
      obtain ⟨w, here, rfl⟩ := Option.map_eq_some_iff.mp member
      obtain ⟨u, known, same⟩ := List.mem_map.mp earlier
      exact fresh w here (apart u w (old u known) (own w here) same ▸ known)
    · rw [dst, ← List.map_append, ← List.map_append]
      exact ih others (List.forall_mem_append.mpr ⟨fun v member => own v (Option.mem_toList.mp member), old⟩)
  | branch cond onTrue onFalse rest ihTrue ihFalse ihRest =>
    obtain ⟨condition, inTrue, inFalse, others⟩ := formed
    have first : ∀ v ∈ onTrue.assigned, v.index < limits.counter := fun _ => inTrue.assigned_lt
    have second : ∀ v ∈ onFalse.assigned, v.index < limits.counter := fun _ => inFalse.assigned_lt
    refine ⟨List.mem_map_of_mem condition, ihTrue inTrue old, ?_, ?_⟩
    · rw [assigned_rename, ← List.map_append]
      exact ihFalse inFalse (List.forall_mem_append.mpr ⟨first, old⟩)
    · rw [assigned_rename, assigned_rename, ← List.map_append, ← List.map_append]
      exact ihRest others (List.forall_mem_append.mpr ⟨second, List.forall_mem_append.mpr ⟨first, old⟩⟩)

theorem WellFormed.named_assigned {limits : Limits} {block : Block α}
    (formed : block.WellFormed limits [] []) {v : ValueId} (member : v ∈ block.named) : v ∈ block.assigned := by
  obtain ⟨s, inside, here⟩ := List.mem_flatMap.mp member
  rcases List.mem_append.mp here with dst | used
  · exact List.mem_filterMap.mpr ⟨s, inside, Option.mem_toList.mp dst⟩
  · exact (formed.operand_known inside used).elim nofun id

theorem WellFormed.named_lt {limits : Limits} {block : Block α}
    (formed : block.WellFormed limits [] []) {v : ValueId} (member : v ∈ block.named) :
    v.index < limits.counter := formed.assigned_lt (formed.named_assigned member)

end Block

theorem Kernel.ofBody_counter (name : String) (domain : Domain) (argCount : Nat) (body : Block α) :
    (ofBody name domain argCount body).counter.toNat = body.valueBound := ShortWord.ofNat_eq body.valueBound_lt

end FieldKernel
