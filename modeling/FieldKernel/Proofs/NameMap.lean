import FieldKernel.NameMap

-- What look-ups see of operations on name maps. A map is determined by its answers.
namespace FieldKernel

variable {β γ : Type}

-- Answers to one look-up in two maps: both missing, or both there and related.
section Answers

variable {β' : Type} {P : β → γ → Prop} {x : Option β} {y : Option γ}

theorem answers_refl {P : β → β → Prop} (refl : ∀ b, P b b) (x : Option β) : Option.Rel P x x := by
  cases x with
  | none => exact .none
  | some b => exact .some (refl b)

theorem answers_mono {Q : β → γ → Prop} (answers : Option.Rel P x y)
    (more : ∀ b c, x = some b → P b c → Q b c) : Option.Rel Q x y := by
  cases answers with
  | none => exact .none
  | some related => exact .some (more _ _ rfl related)

theorem answers_symm {Q : γ → β → Prop} (answers : Option.Rel P x y) (back : ∀ b c, P b c → Q c b) :
    Option.Rel Q y x := by
  cases answers with
  | none => exact .none
  | some related => exact .some (back _ _ related)

theorem answers_trans {Q : γ → β' → Prop} {R : β → β' → Prop} {z : Option β'} (first : Option.Rel P x y)
    (second : Option.Rel Q y z) (through : ∀ b c d, P b c → Q c d → R b d) : Option.Rel R x z := by
  cases first with
  | none =>
    cases second
    exact .none
  | some left =>
    cases second with
    | some right => exact .some (through _ _ _ left right)

theorem answers_both {Q R : β → γ → Prop} (first : Option.Rel P x y) (second : Option.Rel Q x y)
    (both : ∀ b c, P b c → Q b c → R b c) : Option.Rel R x y := by
  cases first with
  | none => exact .none
  | some left =>
    cases second with
    | some right => exact .some (both _ _ left right)

theorem answers_find {b : β} (answers : Option.Rel P x y) (found : x = some b) :
    ∃ c, y = some c ∧ P b c := by
  cases answers with
  | none => cases found
  | some related =>
    cases found
    exact ⟨_, rfl, related⟩

theorem answers_find_back {c : γ} (answers : Option.Rel P x y) (found : y = some c) :
    ∃ b, x = some b ∧ P b c := answers_find (answers_symm answers fun _ _ => id) found

theorem answers_missing (answers : Option.Rel P x y) (missing : x = none) : y = none := by
  cases answers with
  | none => rfl
  | some related => cases missing

theorem answers_map {γ' : Type} {Q : β' → γ' → Prop} {f : β → β'} {g : γ → γ'} (answers : Option.Rel P x y)
    (each : ∀ b c, P b c → Q (f b) (g c)) : Option.Rel Q (x.map f) (y.map g) := by
  cases answers with
  | none => exact .none
  | some related => exact .some (each _ _ related)

end Answers

theorem lookup_cons_ne {name key : String} (other : key ≠ name) (value : β)
    (rest : List (String × β)) : ((name, value) :: rest).lookup key = rest.lookup key := by
  rw [List.lookup_cons, beq_eq_false_iff_ne.mpr other]

theorem lookup_insertEntry (name key : String) (value : β) (entries : List (String × β)) :
    (insertEntry name value entries).lookup key =
      if key = name then some value else entries.lookup key := by
  induction entries with
  | nil =>
    by_cases same : key = name
    · simp [insertEntry, same]
    · simp [insertEntry, lookup_cons_ne same, same]
  | cons head rest ih =>
    obtain ⟨n, v⟩ := head
    unfold insertEntry
    split
    · by_cases same : key = name
      · simp [same]
      · simp [lookup_cons_ne same, same]
    · split
      · next _ same =>
        subst same
        by_cases hit : key = name
        · simp [hit]
        · simp [lookup_cons_ne hit, hit]
      · next _ other =>
        by_cases hit : key = n
        · subst hit
          simp [Ne.symm other]
        · rw [lookup_cons_ne hit, lookup_cons_ne hit, ih]

theorem lookup_eq_some_iff_mem {entries : List (String × β)} (ascending : Ascending entries)
    {name : String} {value : β} : entries.lookup name = some value ↔ (name, value) ∈ entries := by
  induction entries with
  | nil => simp
  | cons head rest ih =>
    obtain ⟨n, v⟩ := head
    have later : ∀ e ∈ rest, n < e.1 := fun _ => List.rel_of_pairwise_cons ascending
    by_cases same : name = n
    · subst same
      have fresh : (name, value) ∉ rest := fun member => String.lt_irrefl _ (later _ member)
      simp [fresh, eq_comm]
    · simp [lookup_cons_ne same, same, ih ascending.of_cons]

theorem entries_eq_of_lookup {a b : List (String × β)} (left : Ascending a) (right : Ascending b)
    (same : ∀ name, a.lookup name = b.lookup name) : a = b := by
  have members : ∀ e, e ∈ a ↔ e ∈ b := fun e => by
    rw [← lookup_eq_some_iff_mem left, ← lookup_eq_some_iff_mem right, same]
  clear same
  induction a generalizing b with
  | nil =>
    refine (List.eq_nil_iff_forall_not_mem.mpr fun e member => ?_).symm
    exact List.not_mem_nil ((members e).mpr member)
  | cons x xs ih =>
    cases b with
    | nil => exact absurd ((members x).mp List.mem_cons_self) List.not_mem_nil
    | cons y ys =>
      have headEq : x = y := by
        rcases List.mem_cons.mp ((members x).mp List.mem_cons_self) with equal | inYs
        · exact equal
        · rcases List.mem_cons.mp ((members y).mpr List.mem_cons_self) with equal | inXs
          · exact equal.symm
          · exact absurd (String.lt_trans (List.rel_of_pairwise_cons left inXs)
              (List.rel_of_pairwise_cons right inYs)) (String.lt_irrefl _)
      subst headEq
      have tail : ∀ e, e ∈ xs ↔ e ∈ ys := fun e => by
        have := members e
        constructor
        · intro member
          rcases List.mem_cons.mp (this.mp (List.mem_cons_of_mem _ member)) with rfl | found
          · exact absurd (List.rel_of_pairwise_cons left member) (String.lt_irrefl _)
          · exact found
        · intro member
          rcases List.mem_cons.mp (this.mpr (List.mem_cons_of_mem _ member)) with rfl | found
          · exact absurd (List.rel_of_pairwise_cons right member) (String.lt_irrefl _)
          · exact found
      rw [ih left.of_cons right.of_cons tail]

namespace NameMap

theorem ext_find? {a b : NameMap β} (same : ∀ name, a.find? name = b.find? name) : a = b :=
  ext_entries (entries_eq_of_lookup a.ascending b.ascending same)

theorem mem_entries_iff {map : NameMap β} {name : String} {value : β} :
    (name, value) ∈ map.entries ↔ map.find? name = some value :=
  (lookup_eq_some_iff_mem map.ascending).symm

@[simp] theorem find?_empty (name : String) : (empty : NameMap β).find? name = none := rfl

@[simp] theorem find?_insert (map : NameMap β) (name key : String) (value : β) :
    (map.insert name value).find? key = if key = name then some value else map.find? key :=
  lookup_insertEntry name key value map.entries

@[simp] theorem find?_mapEntries (map : NameMap β) (f : String → β → γ) (key : String) :
    (map.mapEntries f).find? key = (map.find? key).map (f key) := by
  unfold find? mapEntries
  dsimp only
  induction map.entries with
  | nil => rfl
  | cons head rest ih =>
    obtain ⟨n, v⟩ := head
    by_cases same : key = n
    · subst same
      simp
    · rw [List.map_cons, lookup_cons_ne same, lookup_cons_ne same, ih]

@[simp] theorem find?_modify (map : NameMap β) (name key : String) (f : β → β) :
    (map.modify name f).find? key = if key = name then (map.find? key).map f else map.find? key := by
  rw [modify, find?_mapEntries]
  split
  · rfl
  · exact congrFun Option.map_id _

theorem contains_iff {map : NameMap β} {name : String} :
    map.contains name = true ↔ ∃ value, map.find? name = some value := Option.isSome_iff_exists

theorem mem_names {map : NameMap β} {name : String} :
    name ∈ map.names ↔ map.contains name = true := by
  rw [contains_iff, names, List.mem_map]
  constructor
  · rintro ⟨⟨n, v⟩, member, rfl⟩
    exact ⟨v, mem_entries_iff.mp member⟩
  · rintro ⟨value, found⟩
    exact ⟨(name, value), mem_entries_iff.mpr found, rfl⟩

theorem pairwise_names (map : NameMap β) : map.names.Pairwise (· < ·) :=
  List.pairwise_map.mpr map.ascending

theorem forall_before_iff (map : NameMap β) {before after : List String} {name : String}
    (names : map.names = before ++ name :: after) {P : String → Prop} :
    (∀ other ∈ before, P other) ↔ ∀ other < name, other ∈ map.names → P other := by
  have ascending := map.pairwise_names
  rw [names] at ascending ⊢
  obtain ⟨-, rest, apart⟩ := List.pairwise_append.mp ascending
  constructor
  · intro each other smaller member
    rcases List.mem_append.mp member with earlier | later
    · exact each other earlier
    · rcases List.mem_cons.mp later with same | beyond
      · exact absurd (same ▸ smaller) (String.lt_irrefl name)
      · have greater := List.rel_of_pairwise_cons rest beyond
        exact absurd (String.lt_trans smaller greater) (String.lt_irrefl other)
  · intro each other earlier
    exact each other (apart other earlier name List.mem_cons_self) (List.mem_append_left _ earlier)

theorem find?_foldl_insert (pairs : List (String × β)) (map : NameMap β) (name : String) :
    (pairs.foldl (fun map pair => map.insert pair.1 pair.2) map).find? name =
      (pairs.reverse.lookup name).or (map.find? name) := by
  induction pairs generalizing map with
  | nil => simp
  | cons pair rest ih =>
    rw [List.foldl_cons, ih, List.reverse_cons, List.lookup_append]
    obtain ⟨n, v⟩ := pair
    by_cases same : name = n
    · simp [same]
    · simp [lookup_cons_ne same, same]

theorem find?_ofList (pairs : List (String × β)) (name : String) :
    (ofList pairs).find? name = pairs.reverse.lookup name := by
  rw [ofList, find?_foldl_insert]
  simp

theorem lookup_filterMap (names : List String) (f : String → Option β) (key : String) :
    (names.filterMap fun name => (f name).map fun value => (name, value)).lookup key =
      if key ∈ names then f key else none := by
  induction names with
  | nil => rfl
  | cons name rest ih =>
    cases value : f name with
    | none =>
      rw [List.filterMap_cons_none (by rw [value]; rfl), ih]
      by_cases same : key = name
      · simp [same, value]
      · simp [same]
    | some x =>
      rw [List.filterMap_cons_some (by rw [value]; rfl)]
      by_cases same : key = name
      · simp [same, value]
      · rw [lookup_cons_ne same, ih]
        simp [same]

theorem find?_ofList_filterMap (names : List String) (f : String → Option β) (key : String) :
    (ofList (names.filterMap fun name => (f name).map fun value => (name, value))).find? key =
      if key ∈ names then f key else none := by
  rw [find?_ofList, ← List.filterMap_reverse, lookup_filterMap]
  simp

end NameMap

namespace NameSet

@[simp] theorem contains_add (set : NameSet) (name key : String) :
    (set.add name).contains key = (decide (key = name) || set.contains key) := by
  simp only [add, NameMap.contains, NameMap.find?_insert]
  split <;> simp [*]

theorem contains_foldl_add (names : List String) (set : NameSet) (key : String) :
    (names.foldl add set).contains key = (decide (key ∈ names) || set.contains key) := by
  induction names generalizing set with
  | nil => simp
  | cons name rest ih =>
    rw [List.foldl_cons, ih, contains_add]
    by_cases same : key = name <;> simp [same]

@[simp] theorem contains_ofNames (names : List String) (key : String) :
    (ofNames names).contains key = decide (key ∈ names) := by
  rw [ofNames, contains_foldl_add]
  simp [NameMap.contains]

@[simp] theorem contains_union (a b : NameSet) (key : String) :
    (a.union b).contains key = (a.contains key || b.contains key) := by
  rw [union, contains_foldl_add, Bool.or_comm]
  congr 1
  by_cases member : key ∈ b.names
  · simp [member, NameMap.mem_names.mp member]
  · have absent := mt NameMap.mem_names.mpr member
    simp [member, Bool.eq_false_iff.mpr absent]

@[simp] theorem contains_empty (key : String) : (NameMap.empty : NameSet).contains key = false := rfl

theorem firstShared_eq_none_iff {a b : NameSet} :
    a.firstShared b = none ↔ ∀ name, a.contains name = true → b.contains name = false := by
  simp only [firstShared, List.find?_eq_none, NameMap.mem_names, Bool.not_eq_true]

theorem firstShared_eq_some_iff {a b : NameSet} {name : String} : a.firstShared b = some name ↔
    (a.contains name = true ∧ b.contains name = true) ∧
      ∀ other < name, ¬(a.contains other = true ∧ b.contains other = true) := by
  rw [firstShared, List.find?_eq_some_iff_append]
  constructor
  · rintro ⟨shared, before, after, names, apart⟩
    have member : a.contains name = true := NameMap.mem_names.mp (names ▸ List.mem_append_cons_self)
    refine ⟨⟨member, shared⟩, fun other smaller both => ?_⟩
    have alone := (NameMap.forall_before_iff a names).mp apart other smaller (NameMap.mem_names.mpr both.1)
    simp [both.2] at alone
  · rintro ⟨⟨member, shared⟩, first⟩
    obtain ⟨before, after, names⟩ := List.append_of_mem (NameMap.mem_names.mpr member)
    refine ⟨shared, before, after, names, (NameMap.forall_before_iff a names).mpr ?_⟩
    intro other smaller there
    simpa using fun shared => first other smaller ⟨NameMap.mem_names.mp there, shared⟩

theorem disjoint_iff {a b : NameSet} :
    a.disjoint b = true ↔ ∀ name, a.contains name = true → b.contains name = false := by
  rw [disjoint, Option.isNone_iff_eq_none, firstShared_eq_none_iff]

end NameSet

end FieldKernel
