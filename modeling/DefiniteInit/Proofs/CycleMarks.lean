import DefiniteInit.Proofs.Cycles
import Mathlib.Data.List.Perm.Subperm

/-!
# Marks of the search

The search for a cycle can keep a mark for each class instead of lists of classes. A class is
unvisited, active while the search looks above it, and done after that (`Mark`). The path of the
active classes is kept beside the marks; a base that is active closes a cycle with the end of that
path (`Graph.meet`, `Graph.visit`). A search that goes deeper than it may has no result.

The marks say no more than the lists (`Tour.Stands`): the active classes are those of the path, and
of the others those are done above which there is no cycle. So the search with marks takes the steps
of `Graph.search` (`Graph.follows_meetAll`). As the classes of the path are all different, it never
goes deeper than there are classes, and it finds the same cycle, if there is one
(`Graph.findCycleByMarks_eq`).
-/

namespace DefiniteInit

/-- What the search has done about a class. -/
inductive Mark where
  | unvisited
  /-- The search is above the class. -/
  | active
  | done
deriving DecidableEq

/-- How far the search is: the marks of the classes, and the active ones from the first to the
last. -/
structure Tour where
  marks : ClassTable Mark
  path : List ClassId

namespace Tour

/-- The mark of a class. -/
def mark (t : Tour) (id : ClassId) : Mark := (t.marks.get? id).getD .unvisited

/-- Begins to look above a class. -/
def enter (t : Tour) (id : ClassId) : Tour := ⟨t.marks.insert id .active, t.path ++ [id]⟩

/-- Ends looking above a class, the last of the path. -/
def leave (t : Tour) (id : ClassId) : Tour := ⟨t.marks.insert id .done, t.path.dropLast⟩

/-- The cycle that a base closes with the path. -/
def cycle (t : Tour) (base : ClassId) : List ClassId :=
  t.path.drop ((t.path.findIdx? (· = base)).getD 0) ++ [base]

end Tour

/-- Computations on a tour. They may end with a cycle, and they may go too deep. -/
abbrev Touring := StateT Tour (ExceptT (List ClassId) Option)

namespace Graph

/-- What is done about a base of the last class of the path. -/
def meet (visit : ClassId → Touring Unit) (base : ClassId) : Touring Unit := do
  let t ← get
  match t.mark base with
  | .active => throw (t.cycle base)
  | .unvisited => visit base
  | .done => pure ()

/-- Looks above a class that is unvisited. -/
def visit (g : Graph) : (depth : Nat) → ClassId → Touring Unit
  | 0, _ => liftM (none : Option Unit)
  | depth + 1, id => do
    modify (·.enter id)
    (g.localBases id).forM (meet (g.visit depth))
    modify (·.leave id)

/-- Looks above a class, unless that was done. -/
def visitNew (g : Graph) (id : ClassId) : Touring Unit := do
  if (← get).mark id = .unvisited then g.visit g.ids.length id

/-- The first cycle that is found with marks above the classes, in the order of declaration. -/
def findCycleByMarks (g : Graph) : Option (Option (List ClassId)) :=
  ((g.ids.forM g.visitNew).run ⟨∅, []⟩).run.map fun
    | .error cycle => some cycle
    | .ok _ => none

end Graph

/-! ## Marks and lists -/

namespace Tour

variable {t : Tour} {path done : List ClassId} {id : ClassId}

/-- The path is this one, and the marks are those of the classes on it and of those done. -/
structure Stands (t : Tour) (path done : List ClassId) : Prop where
  path_eq : t.path = path
  mark_eq : ∀ c, t.mark c =
    if c ∈ path then .active else if c ∈ done then .done else .unvisited

/-- Before the tour nothing is marked. -/
theorem stands_start : Stands ⟨∅, []⟩ [] [] := ⟨rfl, by simp [mark]⟩

/-- Only the mark of the class itself changes when the search begins above it. -/
theorem mark_enter (t : Tour) (id c : ClassId) :
    (t.enter id).mark c = if c = id then .active else t.mark c := by
  unfold mark enter
  rw [ClassTable.get?_insert]
  split <;> rfl

/-- Leaving a class marks it done and no other. -/
theorem mark_leave (t : Tour) (id c : ClassId) :
    (t.leave id).mark c = if c = id then .done else t.mark c := by
  unfold mark leave
  rw [ClassTable.get?_insert]
  split <;> rfl

/-- Entering a class puts it at the end of the path. -/
theorem Stands.enter (h : t.Stands path done) (id : ClassId) :
    (t.enter id).Stands (path ++ [id]) done := by
  refine ⟨by rw [Tour.enter, h.path_eq], fun c => ?_⟩
  rw [mark_enter, h.mark_eq]
  by_cases hc : c = id <;> simp [hc]

/-- The class that the search leaves was the last of the path, and is done. -/
theorem Stands.leave (h : t.Stands (path ++ [id]) done) (hid : id ∉ path) :
    (t.leave id).Stands path (id :: done) := by
  refine ⟨by rw [Tour.leave, h.path_eq, List.dropLast_concat], fun c => ?_⟩
  rw [mark_leave, h.mark_eq]
  by_cases hc : c = id
  · simp [hc, hid]
  · simp [hc]

/-- The cycle begins at the class that is met again. -/
theorem Stands.cycle_eq (h : t.Stands path done) (hid : id ∈ path) :
    t.cycle id = path.dropWhile (· ≠ id) ++ [id] := by
  have hfind : path.findIdx? (· = id) = some (path.findIdx (· = id)) :=
    List.findIdx?_eq_some_of_exists ⟨id, hid, by simp⟩
  rw [cycle, h.path_eq, hfind, Option.getD_some, List.dropWhile_eq_drop_findIdx_not]
  simp

end Tour

namespace Graph

variable {g : Graph} {t : Tour} {path done : List ClassId} {id : ClassId} {depth : Nat}

/-- What follows a computation that ended with a cycle is not done. -/
theorem run_bind_of_error {α β : Type} {m : Touring α} {f : α → Touring β} {cycle : List ClassId}
    (h : (m.run t).run = some (.error cycle)) : ((m >>= f).run t).run = some (.error cycle) := by
  rw [StateT.run_bind, ExceptT.run_bind, h]
  rfl

/-- A tour that went well is followed by the next. -/
theorem run_bind_of_ok {α β : Type} {m : Touring α} {f : α → Touring β} {a : α} {t' : Tour}
    (h : (m.run t).run = some (.ok (a, t'))) : ((m >>= f).run t).run = ((f a).run t').run := by
  rw [StateT.run_bind, ExceptT.run_bind, h]
  rfl

/-- Meeting a base is a cycle if it is active, a visit if it is new and nothing otherwise. -/
theorem run_meet (visit : ClassId → Touring Unit) (t : Tour) (base : ClassId) :
    ((meet visit base).run t).run =
      match t.mark base with
      | .active => some (.error (t.cycle base))
      | .unvisited => ((visit base).run t).run
      | .done => some (.ok ((), t)) := by
  rw [meet, run_bind_of_ok rfl]
  cases t.mark base <;> rfl

/-- A class is visited unless it was before. -/
theorem run_visitNew (g : Graph) (t : Tour) (id : ClassId) : ((g.visitNew id).run t).run =
    if t.mark id = .unvisited then ((g.visit g.ids.length id).run t).run
    else some (.ok ((), t)) := by
  rw [visitNew, run_bind_of_ok rfl]
  split <;> rfl

/-- The computation has ended as a search over lists does: with the same cycle, or where the search
stands with its list of the classes that are done. -/
def Follows (ended : Option (Except (List ClassId) (Unit × Tour))) (path : List ClassId) :
    Except (List ClassId) (List ClassId) → Prop
  | .error cycle => ended = some (.error cycle)
  | .ok done => ∃ t, ended = some (.ok ((), t)) ∧ t.Stands path done

/-- Visiting a class that is not on the path ends as the search above it. -/
theorem follows_visit (hid : id ∉ path) {found : Except (List ClassId) (List ClassId)}
    (h : Follows (((g.localBases id).forM (meet (g.visit depth))).run (t.enter id)).run
      (path ++ [id]) found) :
    Follows ((g.visit (depth + 1) id).run t).run path (found.map (id :: ·)) := by
  rw [visit, run_bind_of_ok rfl]
  cases found with
  | error cycle => exact run_bind_of_error h
  | ok done =>
    obtain ⟨t', hrun, hstands⟩ := h
    rw [run_bind_of_ok hrun]
    exact ⟨t'.leave id, rfl, hstands.leave hid⟩

/-! ## Depth -/

/-- The path has different classes of the graph, and the search may go up to as many. -/
structure HasRoom (g : Graph) (path : List ClassId) (depth : Nat) : Prop where
  nodup : path.Nodup
  mem_ids : ∀ c ∈ path, c ∈ g.ids
  length_le : g.ids.length ≤ depth + path.length

/-- At the start there is room for a path through all the classes. -/
theorem hasRoom_start (g : Graph) : g.HasRoom [] g.ids.length := ⟨List.nodup_nil, by simp, by simp⟩

/-- There is room for a class that is not on the path. -/
theorem HasRoom.enter (h : g.HasRoom path depth) (hid : id ∈ g.ids) (hnew : id ∉ path) :
    ∃ depth', depth = depth' + 1 ∧ g.HasRoom (path ++ [id]) depth' := by
  have hnodup : (path ++ [id]).Nodup :=
    h.nodup.append (List.nodup_singleton id) (by simpa using hnew)
  have hids : ∀ c ∈ path ++ [id], c ∈ g.ids := by
    simpa [or_imp, forall_and, hid] using h.mem_ids
  have hlen := (hnodup.subperm hids).length_le
  have hroom := h.length_le
  rw [List.length_append, List.length_singleton] at hlen
  refine ⟨depth - 1, by omega, hnodup, hids, ?_⟩
  rw [List.length_append, List.length_singleton]
  omega

/-! ## Steps -/

/-- The search with marks takes the steps of the search over lists. -/
theorem follows_meetAll {pending : List ClassId} (h : t.Stands path done)
    (hroom : g.HasRoom path depth) (hpending : ∀ c ∈ pending, c ∈ g.ids) :
    Follows ((pending.forM (meet (g.visit depth))).run t).run path
      (g.search path pending done) := by
  -- On the search by lists: the marks stand for its path and its finished classes at every step.
  fun_induction search g path pending done generalizing t depth with
  | case1 path done => exact ⟨t, rfl, h⟩
  | case2 path done next rest hmem =>
    have hmeet := run_meet (g.visit depth) t next
    rw [h.mark_eq, if_pos hmem, h.cycle_eq hmem] at hmeet
    exact run_bind_of_error hmeet
  | case3 path done next rest hnew hdone ih =>
    have hmeet := run_meet (g.visit depth) t next
    rw [h.mark_eq, if_neg hnew, if_pos hdone] at hmeet
    rw [List.forM_eq_forM, List.forM_cons, run_bind_of_ok hmeet]
    exact ih h hroom fun c hc => hpending c (List.mem_cons_of_mem _ hc)
  | case4 path done next rest hnew hdone above hsearch ih =>
    have hmeet := run_meet (g.visit depth) t next
    rw [h.mark_eq, if_neg hnew, if_neg hdone] at hmeet
    obtain ⟨depth, rfl, hroom'⟩ := hroom.enter (hpending next List.mem_cons_self) hnew
    have hvisit := follows_visit hnew
      (ih (h.enter next) hroom' fun _ hc => mem_ids_of_mem_localBases hc)
    rw [hsearch] at hvisit
    exact run_bind_of_error (hmeet.trans hvisit)
  | case5 path done next rest hnew hdone above hsearch ih₁ ih₂ =>
    have hmeet := run_meet (g.visit depth) t next
    rw [h.mark_eq, if_neg hnew, if_neg hdone] at hmeet
    obtain ⟨depth, rfl, hroom'⟩ := hroom.enter (hpending next List.mem_cons_self) hnew
    have hvisit := follows_visit hnew
      (ih₁ (h.enter next) hroom' fun _ hc => mem_ids_of_mem_localBases hc)
    rw [hsearch] at hvisit
    -- The visit came back without a cycle and the marks stand for the longer list of finished
    -- classes.
    obtain ⟨t', hrun, hstands⟩ := hvisit
    rw [List.forM_eq_forM, List.forM_cons, run_bind_of_ok (hmeet.trans hrun)]
    exact ih₂ hstands hroom fun c hc => hpending c (List.mem_cons_of_mem _ hc)

/-- Between the classes that it begins with the search has no path, so that none is active. -/
theorem follows_visitNewAll {ids : List ClassId} (h : t.Stands [] done)
    (hids : ∀ id ∈ ids, id ∈ g.ids) :
    Follows ((ids.forM g.visitNew).run t).run [] (g.search [] ids done) := by
  -- Between two visits no class is active, so a class is new or done.
  induction ids generalizing t done with
  | nil =>
    rw [search]
    exact ⟨t, rfl, h⟩
  | cons id rest ih =>
    obtain ⟨hid, hrest⟩ := List.forall_mem_cons.1 hids
    have hnew := g.run_visitNew t id
    rw [h.mark_eq, if_neg List.not_mem_nil] at hnew
    rw [search, if_neg List.not_mem_nil]
    by_cases hdone : id ∈ done
    · rw [if_pos hdone, if_neg (by decide)] at hnew
      rw [if_pos hdone, List.forM_eq_forM, List.forM_cons, run_bind_of_ok hnew]
      exact ih h hrest
    · rw [if_neg hdone, if_pos rfl] at hnew
      rw [if_neg hdone]
      obtain ⟨depth, hdepth, hroom⟩ := g.hasRoom_start.enter hid List.not_mem_nil
      have hvisit := follows_visit List.not_mem_nil
        (follows_meetAll (h.enter id) hroom fun _ hc => mem_ids_of_mem_localBases hc)
      rw [← hdepth, ← hnew] at hvisit
      cases hsearch : g.search ([] ++ [id]) (g.localBases id) done with
      | error cycle =>
        rw [hsearch] at hvisit
        exact run_bind_of_error hvisit
      | ok done' =>
        rw [hsearch] at hvisit
        obtain ⟨t', hrun, hstands⟩ := hvisit
        rw [List.forM_eq_forM, List.forM_cons, run_bind_of_ok hrun]
        exact ih hstands hrest

/-- The search with marks never goes too deep, and finds the cycle that the search over lists
finds. -/
theorem findCycleByMarks_eq (g : Graph) : g.findCycleByMarks = some g.findCycle? := by
  have h : Follows ((g.ids.forM g.visitNew).run ⟨∅, []⟩).run [] (g.search [] g.ids []) :=
    follows_visitNewAll Tour.stands_start fun _ hid => hid
  unfold findCycleByMarks findCycle?
  cases hsearch : g.search [] g.ids [] with
  | error cycle =>
    rw [hsearch] at h
    rw [h]
    rfl
  | ok done =>
    rw [hsearch] at h
    obtain ⟨t, hrun, -⟩ := h
    rw [hrun]
    rfl

end Graph

end DefiniteInit
