import FieldKernel.Proofs.Kernel.Fusion

-- A fused kernel does at all points what the two kernels do one after the other.
namespace FieldKernel

variable {α δ : Type} [Scalar α] {R : ValueId → ValueId → Prop} {T : FieldTable α → FieldTable α → Prop}
  {uses : Use → String → Prop}

namespace FieldTable

theorem Sustained.same (uses : Use → String → Prop) : Sustained (α := α) Eq uses where
  serves related _ found := ⟨_, related ▸ found, rfl, fun _ => rfl, fun _ _ => id⟩
  store related _ _ _ := by rw [related]
  add related _ _ _ _ _ := by rw [related]

def AgreeOn (fields : String → Prop) (t t' : FieldTable α) : Prop :=
  ∀ name, fields name → t'.find? name = t.find? name

theorem Sustained.agreeOn (fields : String → Prop) :
    Sustained (AgreeOn (α := α) fields) fun _ name => fields name where
  serves related used found :=
    ⟨_, (related _ used).trans found, rfl, fun _ => rfl, fun _ _ => id⟩
  store related _ _ _ := fun key inside => by simp only [find?_setAt, related key inside]
  add related _ _ _ _ _ := fun key inside => by simp only [find?_addGradAt, related key inside]

theorem Sustained.insert (name : String) (field : Field α) :
    Sustained (fun t t' : FieldTable α => t' = t.insert name field) fun _ key => key ≠ name where
  serves related used found := by
    rw [related]
    exact ⟨_, by simp [used, found], rfl, fun _ => rfl, fun _ _ => id⟩
  store {t t' key} related used position x := by
    refine NameMap.ext_find? fun other => ?_
    simp only [related, find?_setAt, NameMap.find?_insert]
    by_cases here : other = name <;> by_cases there : other = key <;> simp_all
  add {t t' key field} related used _ _ position x := by
    refine NameMap.ext_find? fun other => ?_
    simp only [related, find?_addGradAt, NameMap.find?_insert]
    by_cases here : other = name <;> by_cases there : other = key <;> simp_all

theorem Sustained.enableGrads (group : String) (uses : Use → String → Prop) :
    Sustained (fun t t' : FieldTable α => t' = t.enableGrads group) uses where
  serves {t t' use name field} related used found := by
    rw [related]
    refine ⟨enableField group field, by simp [FieldTable.enableGrads, found], ?_⟩
    unfold enableField Field.enableGradient
    split
    · split
      · next bare =>
        refine ⟨rfl, fun _ => rfl, fun _ g stored => ?_⟩
        simp [stored] at bare
      · exact ⟨rfl, fun _ => rfl, fun _ _ => id⟩
    · exact ⟨rfl, fun _ => rfl, fun _ _ => id⟩
  store {t t' key} related used position x := by
    refine NameMap.ext_find? fun other => ?_
    simp only [related, find?_setAt, FieldTable.enableGrads, NameMap.find?_mapEntries]
    split
    · cases t.find? other with
      | none => rfl
      | some field =>
        simp only [Option.map_some, enableField, Field.enableGradient, Field.setAt]
        by_cases covers : groupCovers group field.group = true <;>
          by_cases bare : (field.element.isReal && field.grad?.isNone) = true <;> simp [covers, bare]
    · rfl
  add {t t' key field} related used found graded position x := by
    refine NameMap.ext_find? fun other => ?_
    simp only [related, find?_addGradAt, FieldTable.enableGrads, NameMap.find?_mapEntries]
    split
    · next same =>
      obtain ⟨g, stored⟩ := Option.isSome_iff_exists.mp graded
      rw [same, found]
      simp only [Option.map_some, enableField, Field.enableGradient, Field.addGradAt, stored]
      split <;> simp [stored]
    · rfl

end FieldTable

namespace Kernel

variable {a b : Kernel α} {args : List α} {point : Point} {t t' t₁ : FieldTable α}

theorem start_linked {registers registers' : Nat}
    (level : ∀ v w, R v w → (v.index < registers ↔ w.index < registers')) (related : T t t') :
    (Machine.start t registers).Linked R T (.start t' registers') where
  table := related
  values {v w} named := by
    simp only [Machine.start, Machine.value?, Array.getElem?_replicate]
    split <;> split <;> rfl
  adjoints {v w} named := by
    simp only [Machine.start, Machine.adjoint?, Array.getElem?_replicate, level v w named]
  room {v w} named inside := by
    simp only [Machine.start, Array.size_replicate] at inside ⊢
    exact (level v w named).mp inside

-- One kernel on one table and another one, the same under other names, on a related table.
structure Follows (R : ValueId → ValueId → Prop) (T : FieldTable α → FieldTable α → Prop)
    (uses : Use → String → Prop) (a b : Kernel α) : Prop where
  one : OneToOne R
  body : a.body.Renamed R b.body
  level : ∀ v w, R v w → (v.index < a.counter ↔ w.index < b.counter)
  sustained : FieldTable.Sustained T uses
  used : ∀ use name, a.body.Uses use name → uses use name

theorem Follows.runPoint (follows : Follows R T uses a b) (related : T t t')
    (ran : a.runPoint args point t = .ok () t₁) :
    ∃ t₁', b.runPoint args point t' = .ok () t₁' ∧ T t₁ t₁' := by
  obtain ⟨m, runs, rfl⟩ := runPoint_ok.mp ran
  have frames : (Frame.mk a args point).Alike ⟨b, args, point⟩ := ⟨rfl, rfl⟩
  obtain ⟨m', runs', linked⟩ := runs.linked frames follows.one follows.sustained
    (start_linked follows.level related) follows.body follows.used
  exact ⟨m'.table, runPoint_ok.mpr ⟨m', runs', rfl⟩, linked.table⟩

theorem Follows.points (follows : Follows R T uses a b) {points : List Point} (related : T t t')
    (ran : points.forM (a.runPoint args) t = .ok () t₁) :
    ∃ t₁', points.forM (b.runPoint args) t' = .ok () t₁' ∧ T t₁ t₁' := by
  induction points generalizing t t' with
  | nil =>
    cases ran
    exact ⟨t', rfl, related⟩
  | cons point rest ih =>
    obtain ⟨_, t₂, first, others⟩ := bind_ok.mp ran
    obtain ⟨t₂', first', related₂⟩ := follows.runPoint related first
    obtain ⟨t₁', others', related₁⟩ := ih related₂ others
    exact ⟨t₁', bind_ok.mpr ⟨(), t₂', first', others'⟩, related₁⟩

theorem follows_self (sustained : FieldTable.Sustained T uses)
    (used : ∀ use name, a.body.Uses use name → uses use name) : Follows Eq T uses a a where
  one := fun _ _ _ _ left right => by rw [left, right]
  body := Block.renamed_refl fun _ _ => rfl
  level := fun _ _ same => by rw [same]
  sustained := sustained
  used := used

end Kernel

theorem Bound.launch_follows {a b : Bound α δ} {args : List α} {order : VisitOrder}
    {t t' t₁ : FieldTable α} (follows : Kernel.Follows R T uses a.kernel b.kernel)
    (argCount : b.kernel.argCount = a.kernel.argCount) (domain : b.kernel.domain = a.kernel.domain)
    (accessA : a.access = .ofBlock a.kernel.body) (access : b.access = a.access)
    (related : T t t') (ran : a.launch args order t = .ok () t₁) :
    ∃ t₁', b.launch args order t' = .ok () t₁' ∧ T t₁ t₁' := by
  obtain ⟨launchable, executed⟩ := launch_ok.mp ran
  rw [Kernel.execute_eq] at executed
  obtain ⟨t₁', executed', related₁⟩ := follows.points related executed
  refine ⟨t₁', launch_ok.mpr ⟨?_, ?_⟩, related₁⟩
  · obtain ⟨count, graded⟩ := launchable_ok.mp launchable
    refine launchable_ok.mpr ⟨count.trans argCount.symm, fun name member => ?_⟩
    rw [access] at member
    obtain ⟨field, found, has⟩ := graded name member
    obtain ⟨use, grad, used⟩ : ∃ use, (use = .gradRead ∨ use = .gradWrite) ∧
        a.kernel.body.Uses use name := by
      rw [accessA, Access.contains_gradientFields] at member
      rcases member with reads | writes
      · exact ⟨.gradRead, .inl rfl, Access.contains_ofBlock.mp reads⟩
      · exact ⟨.gradWrite, .inr rfl, Access.contains_ofBlock.mp writes⟩
    obtain ⟨field', found', serves⟩ := follows.sustained.serves related (follows.used _ _ used) found
    obtain ⟨g, stored⟩ := Option.isSome_iff_exists.mp has
    refine ⟨field', found', ?_⟩
    rw [Field.hasGrad, serves.grad grad g stored]
    rfl
  · rw [Kernel.execute_eq, domain]
    exact executed'

namespace Kernel

variable {a b c : Kernel α} {args args' : List α} {point point' : Point} {t t' : FieldTable α}

def Spares (a b : Kernel α) : Prop :=
  ∀ name, a.body.Uses .write name ∨ a.body.Uses .gradWrite name → ∀ use, ¬b.body.Uses use name

theorem unwritten (ran : a.runPoint args point t = .ok () t') {name : String}
    (spared : ¬(a.body.Uses .write name ∨ a.body.Uses .gradWrite name)) :
    t'.find? name = t.find? name :=
  ((a.moves_runPoint args point).ok ran).find_eq (not_or.mp spared).1 (not_or.mp spared).2

theorem Spares.swaps (ab : a.Spares b) (ba : b.Spares a) :
    Swaps (a.runPoint args point) (b.runPoint args' point') := by
  intro t t₁ t₂ first second
  have followsA : Follows Eq _ _ a a :=
    follows_self (.agreeOn fun name => ∃ use, a.body.Uses use name) fun use _ used => ⟨use, used⟩
  have followsB : Follows Eq _ _ b b :=
    follows_self (.agreeOn fun name => ∃ use, b.body.Uses use name) fun use _ used => ⟨use, used⟩
  have sameB : t₁.AgreeOn (fun name => ∃ use, b.body.Uses use name) t :=
    fun name ⟨use, used⟩ => (unwritten first fun writes => ab name writes use used).symm
  obtain ⟨s, second', agreeB⟩ := followsB.runPoint sameB second
  have sameA : t.AgreeOn (fun name => ∃ use, a.body.Uses use name) s :=
    fun name ⟨use, used⟩ => unwritten second' fun writes => ba name writes use used
  obtain ⟨s', first', agreeA⟩ := followsA.runPoint sameA first
  refine ⟨s, second', ?_⟩
  suffices s' = t₂ from this ▸ first'
  refine NameMap.ext_find? fun name => ?_
  by_cases inA : ∃ use, a.body.Uses use name
  · obtain ⟨use, used⟩ := inA
    rw [agreeA name ⟨use, used⟩, unwritten second fun writes => ba name writes use used]
  · have spared : ¬(a.body.Uses .write name ∨ a.body.Uses .gradWrite name) := fun writes =>
      inA (writes.elim (⟨_, ·⟩) (⟨_, ·⟩))
    rw [unwritten first' spared]
    by_cases inB : ∃ use, b.body.Uses use name
    · exact agreeB name inB
    · have spared' : ¬(b.body.Uses .write name ∨ b.body.Uses .gradWrite name) := fun writes =>
        inB (writes.elim (⟨_, ·⟩) (⟨_, ·⟩))
      rw [unwritten second' spared', unwritten second spared', unwritten first spared]

omit [Scalar α] in
theorem Alike.fused_apart (alike : (a.fused b).Alike c) (left : a.check = .ok ()) (right : b.check = .ok ())
    (checked : c.check = .ok ()) {v : ValueId} (second : v ∈ b.body.named) : v.shift a.counter ∉ a.body.named := by
  intro first
  have distinct := (check_ok.mp checked).assigned_nodup
  rw [alike.body, fused_body, Block.assigned_append, Block.shift, Block.assigned_rename] at distinct
  have moved : v.shift a.counter ∈ b.body.assigned.map (·.shift a.counter) :=
    List.mem_map_of_mem ((check_ok.mp right).named_assigned second)
  exact (List.nodup_append.mp distinct).2.2 _ ((check_ok.mp left).named_assigned first) _ moved rfl

omit [Scalar α] in
theorem Alike.fused_room (alike : (a.fused b).Alike c) (checked : c.check = .ok ()) :
    (∀ v ∈ a.body.named, v.index < c.counter) ∧ ∀ v ∈ b.body.named, (v.shift a.counter).index < c.counter := by
  have inside : ∀ v ∈ c.body.named, v.index < c.counter := fun _ => (check_ok.mp checked).named_lt
  rw [alike.body, fused_body, Block.named_append, Block.shift, Block.named_rename, List.forall_mem_append,
    List.forall_mem_map] at inside
  exact inside

theorem Alike.fused_linked {m : Machine α} {frame : Frame α} (alike : (a.fused b).Alike c) (left : a.check = .ok ())
    (right : b.check = .ok ()) (checked : c.check = .ok ()) (runs : frame.Runs (.start t c.counter) a.body m) :
    (Machine.start m.table b.counter).Linked (fun v w => w = v.shift a.counter ∧ v ∈ b.body.named) Eq m := by
  have values : ∀ v ∈ b.body.named, m.value? (v.shift a.counter) = none := fun v second => by
    rw [runs.value?_other fun member =>
      alike.fused_apart left right checked second (a.body.assigned_subset_named member)]
    simp only [Machine.start, Machine.value?, Array.getElem?_replicate]
    split <;> rfl
  have adjoints : ∀ v ∈ b.body.named, m.adjoint? (v.shift a.counter) =
      (Machine.start t c.counter).adjoint? (v.shift a.counter) := fun v second =>
    runs.adjoint?_other fun s member used => alike.fused_apart left right checked second
      (List.mem_flatMap.mpr ⟨s, member, List.mem_append_right _ used⟩)
  have size : m.values.size = c.counter := by
    rw [runs.altered.values]
    simp [Machine.start]
  have own : ∀ v ∈ b.body.named, v.index < b.counter := fun _ => (check_ok.mp right).named_lt
  have room := (alike.fused_room checked).2
  refine ⟨rfl, ?_, ?_, ?_⟩
  · rintro v _ ⟨rfl, inside⟩
    rw [values v inside]
    simp [Machine.start, Machine.value?, own v inside]
  · rintro v _ ⟨rfl, inside⟩
    rw [adjoints v inside]
    simp [Machine.start, Machine.adjoint?, own v inside, room v inside]
  · rintro v _ ⟨rfl, inside⟩ -
    rw [size]
    exact room v inside

omit [Scalar α] in
theorem oneToOne_shift (right : b.check = .ok ()) (offset : Nat) :
    OneToOne fun v w => w = v.shift offset ∧ v ∈ b.body.named := by
  rintro v w v' w' ⟨rfl, inside⟩ ⟨rfl, inside'⟩
  have short : ∀ v ∈ b.body.named, v.index < 4294967296 := fun v member =>
    Nat.lt_trans ((check_ok.mp right).named_lt member) b.counter.short
  exact ⟨fun same => same ▸ rfl, ValueId.shift_inj (short v inside) (short v' inside')⟩

-- At one point a fused kernel does what the first kernel does and then what the second does.
theorem Alike.fused_runPoint_ok (alike : (a.fused b).Alike c) (left : a.check = .ok ()) (right : b.check = .ok ())
    (checked : c.check = .ok ()) : c.runPoint [] point t = .ok () t' ↔
      ∃ t₁, a.runPoint [] point t = .ok () t₁ ∧ b.runPoint [] point t₁ = .ok () t' := by
  have named : a.body.Renamed (fun v w => w = v ∧ v ∈ a.body.named) a.body :=
    Block.renamed_refl fun v member => ⟨rfl, member⟩
  have moved : b.body.Renamed (fun v w => w = v.shift a.counter ∧ v ∈ b.body.named)
      (b.body.shift a.counter) := Block.renamed_rename fun v member => ⟨rfl, member⟩
  have same : OneToOne fun v w => w = v ∧ v ∈ a.body.named := by
    rintro v _ v' _ ⟨rfl, -⟩ ⟨rfl, -⟩
    exact Iff.rfl
  have level : ∀ v w : ValueId, w = v ∧ v ∈ a.body.named →
      (v.index < a.counter ↔ w.index < c.counter) := by
    rintro _ w ⟨rfl, inside⟩
    exact iff_of_true ((check_ok.mp left).named_lt inside) ((alike.fused_room checked).1 w inside)
  have own : ∀ v ∈ b.body.named, v.index < b.counter := fun _ => (check_ok.mp right).named_lt
  have frames : ∀ k l : Kernel α, (Frame.mk k [] point).Alike ⟨l, [], point⟩ := fun _ _ => ⟨rfl, rfl⟩
  have anything : FieldTable.Sustained (α := α) Eq fun _ _ => True := .same _
  simp only [runPoint_ok, alike.body, fused_body, Frame.runs_append]
  constructor
  · rintro ⟨m, ⟨m₁, first, second⟩, rfl⟩
    have linkedA := start_linked (T := Eq) (fun v w back => (level w v back).symm) (Eq.refl t)
    obtain ⟨n, first', tables⟩ := first.linked (frames _ a) same.symm anything linkedA named.symm
      fun _ _ _ => trivial
    have linked := alike.fused_linked left right checked first
    have back : m₁.Linked (fun w v => w = v.shift a.counter ∧ v ∈ b.body.named) Eq
        (.start m₁.table b.counter) :=
      ⟨rfl, fun here => (linked.values here).symm, fun here => (linked.adjoints here).symm,
        fun here _ => by simpa [Machine.start] using own _ here.2⟩
    obtain ⟨n', second', tables'⟩ := second.linked (frames _ b) (oneToOne_shift right _).symm anything
      back moved.symm fun _ _ _ => trivial
    exact ⟨n.table, ⟨n, first', rfl⟩, n', by rw [← tables.table]; exact second', tables'.table⟩
  · rintro ⟨_, ⟨n, first, rfl⟩, n', second, rfl⟩
    obtain ⟨m₁, first', tables⟩ := first.linked (frames _ c) same anything
      (start_linked level (Eq.refl t)) named fun _ _ _ => trivial
    have linked := alike.fused_linked left right checked first'
    rw [← tables.table] at linked
    obtain ⟨m, second', tables'⟩ := second.linked (frames _ c) (oneToOne_shift right _) anything
      linked moved fun _ _ _ => trivial
    exact ⟨m, ⟨m₁, first', second'⟩, tables'.table⟩

end Kernel

-- A fused launch succeeds exactly if the two launches do one after the other, and to the same end.
theorem Bound.fused_launch_ok {a b c : Bound α δ} {order : VisitOrder} {t t' : FieldTable α}
    (alike : (a.kernel.fused b.kernel).Alike c.kernel) (access : c.access = .ofBlock c.kernel.body)
    (accessA : a.access = .ofBlock a.kernel.body) (accessB : b.access = .ofBlock b.kernel.body)
    (left : a.kernel.check = .ok ()) (right : b.kernel.check = .ok ()) (checked : c.kernel.check = .ok ())
    (leftArgs : a.kernel.argCount = 0) (rightArgs : b.kernel.argCount = 0)
    (domain : a.kernel.domain = b.kernel.domain)
    (ab : a.kernel.Spares b.kernel) (ba : b.kernel.Spares a.kernel) :
    c.launch [] order t = .ok () t' ↔
      ∃ t₁, a.launch [] order t = .ok () t₁ ∧ b.launch [] order t₁ = .ok () t' := by
  have executed : c.kernel.execute [] order t = .ok () t' ↔
      ∃ t₁, a.kernel.execute [] order t = .ok () t₁ ∧ b.kernel.execute [] order t₁ = .ok () t' := by
    have each : ∀ point t t', c.kernel.runPoint [] point t = .ok () t' ↔
        ∃ t₁, a.kernel.runPoint [] point t = .ok () t₁ ∧ b.kernel.runPoint [] point t₁ = .ok () t' :=
      fun _ _ _ => alike.fused_runPoint_ok left right checked
    have sweep : c.kernel.domain = a.kernel.domain := alike.domain
    simp only [Kernel.execute_eq, ← domain, sweep]
    exact forM_both_ok each (fun _ _ => ab.swaps ba) fun _ _ => ba.swaps ab
  have gradients : ∀ name, c.access.gradientFields.contains name = true ↔
      a.access.gradientFields.contains name = true ∨ b.access.gradientFields.contains name = true := by
    intro name
    rw [access, accessA, accessB, alike.body]
    simp only [Access.contains_gradientFields, Kernel.contains_access_fused]
    exact or_or_or_comm
  have argCount : c.kernel.argCount = 0 := alike.argCount
  simp only [launch_ok, launchable_ok, gradients, executed, argCount, leftArgs, rightArgs,
    List.length_nil, true_and]
  constructor
  · rintro ⟨graded, t₁, first, second⟩
    refine ⟨t₁, ⟨fun name member => graded name (.inl member), first⟩, fun name member => ?_, second⟩
    obtain ⟨field, found, has⟩ := graded name (.inr member)
    rw [Kernel.execute_eq] at first
    obtain ⟨field', found', changed⟩ := ((a.kernel.moves_points _ _).ok first).find found
    exact ⟨field', found', changed.hasGrad.trans has⟩
  · rintro ⟨t₁, ⟨gradedA, first⟩, gradedB, second⟩
    refine ⟨fun name member => ?_, t₁, first, second⟩
    rcases member with inA | inB
    · exact gradedA name inA
    · obtain ⟨field, found, has⟩ := gradedB name inB
      rw [Kernel.execute_eq] at first
      obtain ⟨field', found', changed⟩ := ((a.kernel.moves_points _ _).ok first).find_back found
      exact ⟨field', found', changed.hasGrad.symm.trans has⟩

end FieldKernel
