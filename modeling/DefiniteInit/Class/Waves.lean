import DefiniteInit.Class.Graph

/-!
# Base-first order

`Graph.waves` groups the classes so that every local base of a class stands in an
earlier group. Within a group classes are in the order of declaration; they do not
depend on each other.
-/

namespace DefiniteInit

namespace Graph

/-- How many of the bases of a class are still waiting. -/
def pending (g : Graph) (waiting : List ClassId) (id : ClassId) : Nat :=
  (g.localBases id).countP (· ∈ waiting)

/-- The waiting classes none of whose bases is waiting. -/
def ready (g : Graph) (waiting : List ClassId) : List ClassId :=
  waiting.filter (g.pending waiting · = 0)

/-- The waiting classes some of whose bases are waiting too. -/
def blocked (g : Graph) (waiting : List ClassId) : List ClassId :=
  waiting.filter (g.pending waiting · ≠ 0)

theorem length_ready_add_length_blocked (g : Graph) (waiting : List ClassId) :
    (g.ready waiting).length + (g.blocked waiting).length = waiting.length := by
  simp only [ready, blocked, ← List.countP_eq_length_filter]
  rw [List.length_eq_countP_add_countP (fun id => decide (g.pending waiting id = 0))]
  congr 2
  funext id
  simp

/-- The groups of the waiting classes. Classes on or below a cycle are in none. -/
def wavesFrom (g : Graph) (waiting : List ClassId) : List (List ClassId) :=
  if (g.ready waiting).isEmpty then []
  else g.ready waiting :: g.wavesFrom (g.blocked waiting)
termination_by waiting.length
decreasing_by
  rename_i h
  have := g.length_ready_add_length_blocked waiting
  have : 0 < (g.ready waiting).length := by
    simpa [List.isEmpty_iff, List.length_pos_iff] using h
  omega

/-- The classes in groups, bases first. -/
def waves (g : Graph) : List (List ClassId) := g.wavesFrom g.ids

end Graph

end DefiniteInit
