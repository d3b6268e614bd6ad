-- Maps from names to values, listed in ascending order of the name. The order is part of the type, so two maps
-- that answer every look-up alike are the same map.
namespace FieldKernel

variable {β γ : Type}

-- The one place where an entry may stand; an entry of the same name is replaced.
def insertEntry (name : String) (value : β) : List (String × β) → List (String × β)
  | [] => [(name, value)]
  | (n, v) :: rest =>
    if name < n then (name, value) :: (n, v) :: rest
    else if name = n then (name, value) :: rest
    else (n, v) :: insertEntry name value rest

def Ascending (entries : List (String × β)) : Prop :=
  entries.Pairwise fun a b => a.1 < b.1

theorem mem_insertEntry {name : String} {value : β} {entries : List (String × β)}
    {e : String × β} (member : e ∈ insertEntry name value entries) :
    e = (name, value) ∨ e ∈ entries := by
  induction entries with
  | nil => simpa [insertEntry] using member
  | cons head rest ih =>
    unfold insertEntry at member
    split at member
    · simpa using member
    · split at member
      · rcases List.mem_cons.mp member with same | old
        · exact .inl same
        · exact .inr (List.mem_cons_of_mem _ old)
      · rcases List.mem_cons.mp member with same | old
        · exact .inr (same ▸ List.mem_cons_self)
        · exact (ih old).imp id (List.mem_cons_of_mem _)

theorem ascending_insertEntry (name : String) (value : β) {entries : List (String × β)}
    (ascending : Ascending entries) : Ascending (insertEntry name value entries) := by
  induction entries with
  | nil => simp [insertEntry, Ascending]
  | cons head rest ih =>
    have tail : Ascending rest := ascending.of_cons
    unfold insertEntry
    split
    · next before =>
      refine ascending.cons fun e member => ?_
      rcases List.mem_cons.mp member with rfl | old
      · exact before
      · exact String.lt_trans before (List.rel_of_pairwise_cons ascending old)
    · split
      · next _ same =>
        refine tail.cons fun e member => ?_
        have := List.rel_of_pairwise_cons ascending member
        simpa [same] using this
      · next before other =>
        refine (ih tail).cons fun e member => ?_
        rcases mem_insertEntry member with rfl | old
        · exact Std.lt_of_le_of_ne (String.not_lt.mp before) (Ne.symm other)
        · exact List.rel_of_pairwise_cons ascending old

theorem ascending_map (f : String → β → γ) {entries : List (String × β)}
    (ascending : Ascending entries) : Ascending (entries.map fun e => (e.1, f e.1 e.2)) :=
  List.pairwise_map.mpr ascending

structure NameMap (β : Type) where
  entries : List (String × β)
  ascending : Ascending entries

namespace NameMap

def empty : NameMap β := ⟨[], .nil⟩

instance : Inhabited (NameMap β) := ⟨empty⟩

theorem ext_entries {a b : NameMap β} (same : a.entries = b.entries) : a = b := by
  cases a; cases b; cases same; rfl

instance [DecidableEq β] : DecidableEq (NameMap β) := fun a b =>
  decidable_of_iff (a.entries = b.entries) ⟨ext_entries, fun same => same ▸ rfl⟩

def find? (map : NameMap β) (name : String) : Option β := map.entries.lookup name

def contains (map : NameMap β) (name : String) : Bool := (map.find? name).isSome

def insert (map : NameMap β) (name : String) (value : β) : NameMap β :=
  ⟨insertEntry name value map.entries, ascending_insertEntry name value map.ascending⟩

def mapEntries (map : NameMap β) (f : String → β → γ) : NameMap γ :=
  ⟨map.entries.map fun e => (e.1, f e.1 e.2), ascending_map f map.ascending⟩

def modify (map : NameMap β) (name : String) (f : β → β) : NameMap β :=
  map.mapEntries fun n v => if n = name then f v else v

def ofList (pairs : List (String × β)) : NameMap β :=
  pairs.foldl (fun map pair => map.insert pair.1 pair.2) empty

def names (map : NameMap β) : List String := map.entries.map (·.1)

def values (map : NameMap β) : List β := map.entries.map (·.2)

def size (map : NameMap β) : Nat := map.entries.length

def isEmpty (map : NameMap β) : Bool := map.entries.isEmpty

end NameMap

abbrev NameSet := NameMap Unit

namespace NameSet

def add (set : NameSet) (name : String) : NameSet := NameMap.insert set name ()

def ofNames (names : List String) : NameSet := names.foldl add NameMap.empty

def union (a b : NameSet) : NameSet := b.names.foldl add a

def firstShared (a b : NameSet) : Option String := a.names.find? b.contains

def disjoint (a b : NameSet) : Bool := (firstShared a b).isNone

end NameSet

end FieldKernel
