import DefiniteInit.Proofs.Hierarchy
import Mathlib.Data.List.Chain

/-!
# Cycles in a hierarchy

A class must not derive from itself through one base or more (`Graph.Acyclic`). The search for a
cycle is exact. While it goes up, its path is a chain of classes, each a base of the one
before and none met twice, so a class that it meets again on the path closes a cycle
(`Graph.search_error`, `Graph.IsCycle`). If it finds none, the classes can be listed with the bases
of each after it, and no class comes after itself (`Graph.BasesFollow.acyclic`). So it finds none
if and only if there is none (`Graph.findCycle?_eq_none_iff`).
-/

namespace DefiniteInit

namespace Graph

variable {g : Graph}

/-- No class derives from itself through one base or more. -/
def Acyclic (g : Graph) : Prop :=
  ∀ id, ¬Relation.TransGen (fun d base => base ∈ g.localBases d) id id

/-- Each class of the list has the next one as a base. -/
def IsPath (g : Graph) (path : List ClassId) : Prop :=
  path.IsChain fun d base => base ∈ g.localBases d

/-- The list leads from a class back to it, over classes that are all different. -/
def IsCycle (g : Graph) (cycle : List ClassId) : Prop :=
  ∃ c between, cycle = c :: (between ++ [c]) ∧ (c :: between).Nodup ∧ g.IsPath cycle

/-! ## The cycle that is found -/

theorem IsPath.snoc {path : List ClassId} {next : ClassId} (hpath : g.IsPath path)
    (hnext : ∀ last ∈ path.getLast?, next ∈ g.localBases last) : g.IsPath (path ++ [next]) := by
  refine List.IsChain.append hpath (List.isChain_singleton next) fun last hlast b hb => ?_
  obtain rfl : next = b := by simpa using hb
  exact hnext last hlast

/-- A class on a path leads back to itself, if it is a base of the last class. -/
theorem IsPath.isCycle {path : List ClassId} {next : ClassId} (hpath : g.IsPath path)
    (hnodup : path.Nodup) (hmem : next ∈ path)
    (hnext : ∀ last ∈ path.getLast?, next ∈ g.localBases last) :
    g.IsCycle (path.dropWhile (· ≠ next) ++ [next]) := by
  obtain ⟨before, between, rfl, hbefore⟩ := List.eq_append_cons_of_mem hmem
  have hdrop : (before ++ next :: between).dropWhile (· ≠ next) = next :: between := by
    rw [List.dropWhile_append_of_pos fun c hc => by simpa using ne_of_mem_of_not_mem hc hbefore,
      List.dropWhile_cons_of_neg (by simp)]
  rw [hdrop]
  refine ⟨next, between, rfl, hnodup.of_append_right, IsPath.snoc hpath.right_of_append ?_⟩
  intro last hlast
  refine hnext last ?_
  rw [List.getLast?_append, hlast]
  rfl

/-- A search that fails has found a cycle on its path. -/
theorem search_error {path pending done cycle : List ClassId}
    (h : g.search path pending done = .error cycle) (hpath : g.IsPath path) (hnodup : path.Nodup)
    (hpending : ∀ c ∈ pending, ∀ last ∈ path.getLast?, c ∈ g.localBases last) :
    g.IsCycle cycle := by
  fun_induction search g path pending done with
  | case1 path done => simp at h
  | case2 path done next rest hmem =>
    obtain rfl : path.dropWhile (· ≠ next) ++ [next] = cycle := by simpa using h
    exact hpath.isCycle hnodup hmem (hpending next List.mem_cons_self)
  | case3 path done next rest hnew hdone ih =>
    exact ih h hpath hnodup fun c hc => hpending c (List.mem_cons_of_mem _ hc)
  | case4 path done next rest hnew hdone above hsearch ih =>
    obtain rfl : above = cycle := by simpa using h
    refine ih hsearch (hpath.snoc (hpending next List.mem_cons_self)) ?_ (by simp)
    exact hnodup.append (List.nodup_singleton next) (by simpa using hnew)
  | case5 path done next rest hnew hdone above hsearch ih₁ ih₂ =>
    exact ih₂ h hpath hnodup fun c hc => hpending c (List.mem_cons_of_mem _ hc)

/-- What is reported is a cycle. -/
theorem isCycle_of_findCycle? {cycle : List ClassId} (h : g.findCycle? = some cycle) :
    g.IsCycle cycle := by
  unfold findCycle? at h
  split at h
  · rename_i found hsearch
    obtain rfl : found = cycle := by simpa using h
    exact search_error hsearch List.isChain_nil List.nodup_nil (by simp)
  · simp at h

/-- A hierarchy with a cycle has one. -/
theorem IsCycle.not_acyclic {cycle : List ClassId} (h : g.IsCycle cycle) : ¬g.Acyclic := by
  obtain ⟨c, between, rfl, -, hpath⟩ := h
  intro hacyclic
  have hchain : (c :: (between ++ [c])).IsChain
      (Relation.TransGen fun d base => base ∈ g.localBases d) :=
    List.IsChain.imp (fun _ _ => .single) hpath
  exact hacyclic c (hchain.rel_cons (by simp))

/-! ## Where none is found -/

/-- With a class all that it derives from is in the list. -/
theorem BasesFollow.mem_of_derivesFrom {order : List ClassId} (ho : g.BasesFollow order)
    {d c : ClassId} (h : g.DerivesFrom d c) (hd : d ∈ order) : c ∈ order := by
  have hstep : ∀ d ∈ order, ∀ base ∈ g.localBases d, base ∈ order := by
    clear h hd
    induction order with
    | nil => simp
    | cons first rest ih =>
      refine List.forall_mem_cons.2 ⟨fun base hb => List.mem_cons_of_mem _ (ho.1 base hb), ?_⟩
      exact fun d hd base hb => List.mem_cons_of_mem _ (ih ho.2 d hd base hb)
  induction h with
  | refl => exact hd
  | tail _ hbase ih => exact hstep _ ih _ hbase

/-- All that a class derives from comes after it, so it is none of that. -/
theorem BasesFollow.acyclic {order : List ClassId} (ho : g.BasesFollow order) :
    ∀ id ∈ order, ¬Relation.TransGen (fun d base => base ∈ g.localBases d) id id := by
  induction order with
  | nil => simp
  | cons first rest ih =>
    refine List.forall_mem_cons.2 ⟨fun hcycle => ?_, ih ho.2⟩
    obtain ⟨base, hbase, hback⟩ := Relation.TransGen.head'_iff.1 hcycle
    exact ih ho.2 first (ho.2.mem_of_derivesFrom hback (ho.1 base hbase)) hcycle

/-- The search finds a cycle exactly if there is one. -/
theorem findCycle?_eq_none_iff : g.findCycle? = none ↔ g.Acyclic := by
  constructor
  · intro h id hcycle
    obtain ⟨order, ho, hall⟩ := exists_basesFollow h
    obtain ⟨base, hbase, -⟩ := Relation.TransGen.head'_iff.1 hcycle
    exact ho.acyclic id (hall id (mem_ids_of_localBases_ne_nil hbase)) hcycle
  · intro h
    cases hfind : g.findCycle? with
    | none => rfl
    | some cycle => exact absurd h (isCycle_of_findCycle? hfind).not_acyclic

end Graph

end DefiniteInit
