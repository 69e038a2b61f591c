import DefiniteInit.Name.Basic

/-!
# Sets of attributes

A set of names that remembers the order in which its members were added. Adding a
member the set has changes nothing, and removing one keeps the order of the rest.
Membership is the view the analysis reasons with (`mem_insert`, `mem_filter`, `mem_inter`,
`mem_union`); two sets with the same members may still list them differently, which
`sameMembers` overlooks.
-/

namespace DefiniteInit

/-- Names without repetition, in the order in which they were added. -/
@[ext]
structure AttrSet where
  /-- The members. -/
  toList : List Name
  /-- No member is listed twice. -/
  nodup : toList.Nodup
deriving DecidableEq

namespace AttrSet

instance : Membership Name AttrSet := ⟨fun s a => a ∈ s.toList⟩

instance (a : Name) (s : AttrSet) : Decidable (a ∈ s) := inferInstanceAs (Decidable (a ∈ s.toList))

@[simp]
theorem mem_toList {a : Name} {s : AttrSet} : a ∈ s.toList ↔ a ∈ s := Iff.rfl

/-- No members. -/
def empty : AttrSet := ⟨[], List.nodup_nil⟩

instance : EmptyCollection AttrSet := ⟨empty⟩

instance : Inhabited AttrSet := ⟨∅⟩

@[simp]
theorem toList_empty : (∅ : AttrSet).toList = [] := rfl

@[simp]
theorem not_mem_empty (a : Name) : a ∉ (∅ : AttrSet) := List.not_mem_nil

/-- Number of members. -/
def size (s : AttrSet) : Nat := s.toList.length

/-- Adds a member at the end, unless the set has it. -/
def insert (s : AttrSet) (a : Name) : AttrSet :=
  if h : a ∈ s then s
  else
    { toList := s.toList ++ [a]
      nodup := List.nodup_append.2
        ⟨s.nodup, by simp, by rintro b hb c hc rfl; simp_all⟩ }

@[simp]
theorem mem_insert {a b : Name} {s : AttrSet} : b ∈ s.insert a ↔ b ∈ s ∨ b = a := by
  by_cases h : a ∈ s
  · simp only [insert, h, dif_pos]
    exact ⟨Or.inl, fun hb => hb.elim id fun hba => hba ▸ h⟩
  · simp only [insert, h, dif_neg, not_false_eq_true, ← mem_toList, List.mem_append,
      List.mem_singleton]

theorem insert_of_mem {a : Name} {s : AttrSet} (h : a ∈ s) : s.insert a = s := by
  simp [insert, h]

theorem toList_insert_of_not_mem {a : Name} {s : AttrSet} (h : a ∉ s) :
    (s.insert a).toList = s.toList ++ [a] := by simp [insert, h]

/-- Keeps the members that satisfy `p`. -/
def filter (s : AttrSet) (p : Name → Bool) : AttrSet := ⟨s.toList.filter p, s.nodup.filter p⟩

@[simp]
theorem toList_filter (s : AttrSet) (p : Name → Bool) :
    (s.filter p).toList = s.toList.filter p := rfl

@[simp]
theorem mem_filter {a : Name} {s : AttrSet} {p : Name → Bool} :
    a ∈ s.filter p ↔ a ∈ s ∧ p a = true := List.mem_filter

theorem size_filter_le (s : AttrSet) (p : Name → Bool) : (s.filter p).size ≤ s.size :=
  List.length_filter_le p s.toList

/-- A filter that loses no member leaves the set as it is. -/
theorem filter_eq_self_of_size_le {s : AttrSet} {p : Name → Bool}
    (h : s.size ≤ (s.filter p).size) : s.filter p = s := by
  refine AttrSet.ext ?_
  exact List.filter_sublist.eq_of_length_le h

/-- Removes a member, if it is there. -/
def erase (s : AttrSet) (a : Name) : AttrSet := s.filter (· != a)

@[simp]
theorem mem_erase {a b : Name} {s : AttrSet} : b ∈ s.erase a ↔ b ∈ s ∧ b ≠ a := by
  simp [erase]

/-- Removes several members. -/
def eraseAll (s : AttrSet) (names : List Name) : AttrSet := s.filter (· ∉ names)

@[simp]
theorem mem_eraseAll {b : Name} {s : AttrSet} {names : List Name} :
    b ∈ s.eraseAll names ↔ b ∈ s ∧ b ∉ names := by simp [eraseAll]

/-- The members of the first set that the second has, in the order of the first. -/
def inter (s t : AttrSet) : AttrSet := s.filter (· ∈ t)

instance : Inter AttrSet := ⟨inter⟩

@[simp]
theorem mem_inter {a : Name} {s t : AttrSet} : a ∈ s ∩ t ↔ a ∈ s ∧ a ∈ t := by
  simp [Inter.inter, inter]

/-- Adds names one after the other. -/
def insertAll (s : AttrSet) (names : List Name) : AttrSet := names.foldl insert s

@[simp]
theorem mem_insertAll {a : Name} {names : List Name} {s : AttrSet} :
    a ∈ s.insertAll names ↔ a ∈ s ∨ a ∈ names := by
  induction names generalizing s with
  | nil => simp [insertAll]
  | cons b names ih => rw [insertAll, List.foldl_cons, ← insertAll, ih]; simp [or_assoc]

/-- The names of a list, each where it first occurs. -/
def ofList (names : List Name) : AttrSet := insertAll ∅ names

@[simp]
theorem mem_ofList {a : Name} {names : List Name} : a ∈ ofList names ↔ a ∈ names := by
  simp [ofList]

/-- The members of the first set, then the others of the second. -/
def union (s t : AttrSet) : AttrSet := s.insertAll t.toList

instance : Union AttrSet := ⟨union⟩

@[simp]
theorem mem_union {a : Name} {s t : AttrSet} : a ∈ s ∪ t ↔ a ∈ s ∨ a ∈ t := by
  simp [Union.union, union]

instance : HasSubset AttrSet := ⟨fun s t => ∀ a, a ∈ s → a ∈ t⟩

theorem subset_iff {s t : AttrSet} : s ⊆ t ↔ ∀ a, a ∈ s → a ∈ t := Iff.rfl

/-- Whether every member of the first set is in the second. -/
def isSubset (s t : AttrSet) : Bool := s.toList.all (· ∈ t)

@[simp]
theorem isSubset_eq_true {s t : AttrSet} : s.isSubset t = true ↔ s ⊆ t := by
  simp [isSubset, subset_iff]

instance (s t : AttrSet) : Decidable (s ⊆ t) := decidable_of_iff _ isSubset_eq_true

/-- Whether two sets have the same members, in whatever order. -/
def sameMembers (s t : AttrSet) : Bool := s.isSubset t && t.isSubset s

@[simp]
theorem sameMembers_eq_true {s t : AttrSet} :
    s.sameMembers t = true ↔ ∀ a, a ∈ s ↔ a ∈ t := by
  simp only [sameMembers, Bool.and_eq_true, isSubset_eq_true, subset_iff]
  exact ⟨fun h a => ⟨h.1 a, h.2 a⟩, fun h => ⟨fun a => (h a).1, fun a => (h a).2⟩⟩

end AttrSet

end DefiniteInit
