import DefiniteInit.AttrSet

/-!
# The state of a path

What is known at one point of one path through an initializer: which attributes of the
receiver are surely assigned, and whether the receiver may already have been seen by
other code. Once it has, later assignments no longer count (`define`).

Where paths meet, what holds on all of them holds (`merge`). A path that has ended is
`none`, and merging with it changes nothing (`mergePaths`). The left operand of a merge
fixes the order in which attributes are listed.
-/

namespace DefiniteInit

/-- The state of a path that has not ended. -/
structure State where
  /-- Attributes surely assigned. -/
  defined : AttrSet
  /-- Whether other code may hold the receiver. -/
  escaped : Bool
deriving DecidableEq

namespace State

/-- At the entry: nothing assigned, nothing escaped. -/
def start : State := ⟨∅, false⟩

instance : Inhabited State := ⟨start⟩

/-- Counts `attr` as assigned, unless the receiver has escaped. -/
def define (s : State) (attr : Name) : State :=
  if s.escaped then s else { s with defined := s.defined.insert attr }

/-- Whether `define` would add the attribute. -/
def gains (s : State) (attr : Name) : Bool := !s.escaped && attr ∉ s.defined

/-- Counts several attributes as assigned. -/
def defineAll (s : State) (attrs : List Name) : State := attrs.foldl define s

/-- Counts `attr` as not assigned. -/
def undefine (s : State) (attr : Name) : State := { s with defined := s.defined.erase attr }

/-- Notes that other code may hold the receiver. -/
def escape (s : State) : State := { s with escaped := true }

/-- What holds on both of two paths. -/
def merge (s t : State) : State := ⟨s.defined ∩ t.defined, s.escaped || t.escaped⟩

/-- `merge` with a path that may have ended. -/
def mergePath (s : State) : Option State → State
  | none => s
  | some t => s.merge t

/-- Whether two states say the same, in whatever order attributes are listed. -/
def same (s t : State) : Bool := s.defined.sameMembers t.defined && s.escaped == t.escaped

/-- How many more times the state can get weaker. -/
def slack (s : State) : Nat := s.defined.size + if s.escaped then 0 else 1

theorem slack_merge_le (s t : State) : (s.merge t).slack ≤ s.slack := by
  have h := s.defined.size_filter_le (· ∈ t.defined)
  have he : (if s.escaped || t.escaped then 0 else 1) ≤ if s.escaped then 0 else 1 := by
    cases s.escaped <;> cases t.escaped <;> decide
  exact Nat.add_le_add h he

/-- A merge that leaves as much slack changes nothing. -/
theorem merge_eq_self_of_slack_le {s t : State} (h : s.slack ≤ (s.merge t).slack) :
    s.merge t = s := by
  have hle := s.defined.size_filter_le (· ∈ t.defined)
  have hsz : (s.merge t).defined.size = (s.defined.filter (· ∈ t.defined)).size := rfl
  have hesc : (s.merge t).escaped = (s.escaped || t.escaped) := rfl
  simp only [slack, hsz, hesc] at h
  have hfil : s.defined.size ≤ (s.defined.filter (· ∈ t.defined)).size := by
    cases hs : s.escaped <;> cases ht : t.escaped <;> simp [hs, ht] at h <;> omega
  have hor : (s.escaped || t.escaped) = s.escaped := by
    cases hs : s.escaped <;> cases ht : t.escaped <;> simp [hs, ht] at h ⊢
    omega
  have hset : s.defined ∩ t.defined = s.defined := AttrSet.filter_eq_self_of_size_le hfil
  cases s
  simp_all [merge]

theorem slack_mergePath_le (s : State) (p : Option State) : (s.mergePath p).slack ≤ s.slack := by
  cases p with
  | none => exact Nat.le_refl _
  | some t => exact slack_merge_le s t

theorem mergePath_eq_self_of_slack_le {s : State} {p : Option State}
    (h : s.slack ≤ (s.mergePath p).slack) : s.mergePath p = s := by
  cases p with
  | none => rfl
  | some t => exact merge_eq_self_of_slack_le h

theorem defineAll_of_escaped {s : State} (hs : s.escaped = true) (attrs : List Name) :
    s.defineAll attrs = s := by
  induction attrs with
  | nil => rfl
  | cons attr attrs ih =>
    have hdefine : s.define attr = s := if_pos hs
    rw [defineAll, List.foldl_cons, ← defineAll, hdefine, ih]

theorem defineAll_of_not_escaped {s : State} (hs : s.escaped = false) (attrs : List Name) :
    s.defineAll attrs = ⟨s.defined.insertAll attrs, false⟩ := by
  induction attrs generalizing s with
  | nil => rw [← hs]; rfl
  | cons attr attrs ih =>
    have hdefine : s.define attr = ⟨s.defined.insert attr, false⟩ := by simp [define, hs]
    rw [defineAll, List.foldl_cons, ← defineAll, hdefine, ih rfl]
    rfl

@[simp]
theorem same_refl (s : State) : s.same s = true := by simp [same]

end State

/-- What holds on both of two paths, either of which may have ended. -/
def mergePaths : Option State → Option State → Option State
  | none, p => p
  | some s, p => some (s.mergePath p)

@[simp]
theorem mergePaths_none_left (p : Option State) : mergePaths none p = p := rfl

@[simp]
theorem mergePaths_none_right (p : Option State) : mergePaths p none = p := by cases p <;> rfl

end DefiniteInit
