import DefiniteInit.Class.Lineage

/-!
# Cycles

A class that is its own ancestor has no facts. `Graph.findCycle?` looks for one depth
first, in the order of declarations and bases, and gives the classes from the first
repeated one round to it again.
-/

namespace DefiniteInit

namespace Graph

/-- Looks above the classes of `pending`. `path` leads to them, each class a base of the
one before; above the classes of `done` there is no cycle. Gives the cycle found, or the
classes above which there is none. -/
def search (g : Graph) (path pending done : List ClassId) :
    Except (List ClassId) (List ClassId) :=
  match pending with
  | [] => .ok done
  | next :: rest =>
    if next ∈ path then .error (path.dropWhile (· ≠ next) ++ [next])
    else if next ∈ done then g.search path rest done
    else
      match g.search (path ++ [next]) (g.localBases next) done with
      | .error cycle => .error cycle
      | .ok done => g.search path rest (next :: done)
termination_by g.load path + pending.length
decreasing_by
  · simp
  · rename_i h _
    have := g.load_append_add_le h
    simp only [List.length_cons]
    omega
  · simp

/-- The first cycle of the hierarchy, if there is one. It begins and ends with the same
class. -/
def findCycle? (g : Graph) : Option (List ClassId) :=
  match g.search [] g.ids [] with
  | .error cycle => some cycle
  | .ok _ => none

end Graph

end DefiniteInit
