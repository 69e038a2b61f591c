import DefiniteInit.Class.Graph

/-!
# Ancestors

`Graph.ancestors` lists the classes of the unit above a class, each once, in the order in
which they are met when bases are followed depth first. All that is above the first base
comes before the second base. The search does not rely on the hierarchy being free of
cycles: `Graph.load` counts the steps it can still take, and every step takes one.
-/

namespace DefiniteInit

namespace Graph

/-- How many classes, and bases of classes, a search that has met `met` can still come
upon. -/
def load (g : Graph) (met : List ClassId) : Nat :=
  ((g.ids.filter (· ∉ met)).flatMap fun id => id :: g.localBases id).length

theorem length_flatMap_not_mem_append_le (f : ClassId → List ClassId) (met : List ClassId)
    (id : ClassId) (l : List ClassId) :
    ((l.filter (· ∉ met ++ [id])).flatMap f).length ≤ ((l.filter (· ∉ met)).flatMap f).length := by
  induction l with
  | nil => exact Nat.le_refl _
  | cons a l ih =>
    by_cases ha : a ∈ met <;> by_cases hid : a = id <;> simp_all
    omega

/-- Having met one class more, a search is spared what that class counts for. -/
theorem length_flatMap_not_mem_append_add_le (f : ClassId → List ClassId) {met : List ClassId}
    {id : ClassId} (hmet : id ∉ met) {l : List ClassId} (hid : id ∈ l) :
    ((l.filter (· ∉ met ++ [id])).flatMap f).length + (f id).length ≤
      ((l.filter (· ∉ met)).flatMap f).length := by
  induction l with
  | nil => simp at hid
  | cons a l ih =>
    by_cases ha : a = id
    · subst ha
      have := length_flatMap_not_mem_append_le f met a l
      simp_all
      omega
    · have hl : id ∈ l := by simpa [Ne.symm ha] using hid
      have := ih hl
      by_cases ham : a ∈ met <;> simp_all
      omega

theorem localBases_eq_nil_of_not_mem_ids {g : Graph} {id : ClassId} (h : id ∉ g.ids) :
    g.localBases id = [] := by
  have : ¬id.index < g.classes.length := by
    intro hlt
    exact h (List.mem_map.2 ⟨id.index, List.mem_range.2 hlt, rfl⟩)
  simp [localBases, class?, List.getElem?_eq_none (Nat.le_of_not_lt this)]

/-- The bases of a class are paid for by meeting it. -/
theorem load_append_add_le (g : Graph) {met : List ClassId} {id : ClassId} (h : id ∉ met) :
    g.load (met ++ [id]) + (g.localBases id).length ≤ g.load met := by
  by_cases hid : id ∈ g.ids
  · have := length_flatMap_not_mem_append_add_le (fun id => id :: g.localBases id) h hid
    simp only [load, List.length_cons] at this ⊢
    omega
  · rw [localBases_eq_nil_of_not_mem_ids hid]
    exact length_flatMap_not_mem_append_le _ met id g.ids

/-- Follows bases depth first. `stack` is still to be looked at, `met` has been; `root`
itself is never met. -/
def ascend (g : Graph) (root : ClassId) (stack met : List ClassId) : List ClassId :=
  match stack with
  | [] => met
  | next :: rest =>
    if next = root ∨ next ∈ met then g.ascend root rest met
    else g.ascend root (g.localBases next ++ rest) (met ++ [next])
termination_by g.load met + stack.length
decreasing_by
  · simp
  · rename_i h
    have := g.load_append_add_le (fun hm => h (Or.inr hm) : next ∉ met)
    simp only [List.length_append, List.length_cons]
    omega

/-- The classes of the unit above a class, depth first, each once. -/
def ancestors (g : Graph) (id : ClassId) : List ClassId := g.ascend id (g.localBases id) []

/-- A class and its ancestors. -/
def lineage (g : Graph) (id : ClassId) : List ClassId := id :: g.ancestors id

/-- The properties a class has or inherits. -/
def lineageProperties (g : Graph) (id : ClassId) : AttrSet :=
  .ofList ((g.lineage id).flatMap fun c => ((g.class? c).map Class.properties).getD [])

/-- The attributes an instance has before its initializer runs. -/
def defaultedAttrs (g : Graph) (id : ClassId) : AttrSet :=
  .ofList (((g.lineage id).flatMap g.attributes).filter (·.isDefaulted) |>.map (·.name))

/-- The attributes that may be deleted from an instance. -/
def deletableAttrs (g : Graph) (id : ClassId) : AttrSet :=
  .ofList (((g.lineage id).flatMap g.attributes).filter (·.deletable) |>.map (·.name))

end Graph

end DefiniteInit
