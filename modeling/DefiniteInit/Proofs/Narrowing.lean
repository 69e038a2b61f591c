import DefiniteInit.Proofs.WriteOnce

/-!
# What narrowing leaves

Narrowing goes from the last wave to the first, so that the subclasses of a class have their sets
when it comes to the class (`Graph.eachAfter_reverse_waves`). What it gives to a class is then
what follows from what it gives to all (`Graph.get?_narrow`), and downward through the hierarchy:
what the class and every class below it always define (`Graph.mem_narrow_iff`), in the order in
which the class has it (`Graph.toList_narrowedBy_sublist`). The pass writes no cell for facts
(`Work.leavesFacts_storeNarrowed`, `Work.leavesFacts_forM`).
-/

namespace DefiniteInit

/-! ## The sets after the pass -/

namespace Graph

variable {g : Graph} {known : ClassTable Facts} {t t' : ClassTable AttrSet} {id : ClassId}

/-- What is left to a class depends on what is left to its subclasses alone. -/
theorem narrowedBy_congr (h : ∀ sub ∈ g.subclasses id, t.get? sub = t'.get? sub) :
    g.narrowedBy known t id = g.narrowedBy known t' id := by
  refine List.foldl_ext _ _ _ fun set sub hsub => ?_
  rw [h sub hsub]

/-- From the last wave to the first, each class comes after those below it. -/
theorem eachAfter_reverse_waves (h : g.Acyclic) :
    EachAfter g.subclasses g.waves.reverse.flatten := by
  obtain ⟨order, ho, hall⟩ := exists_basesFollow (findCycle?_eq_none_iff.2 h)
  intro before id after horder sub hsub
  have hbase := mem_subclasses.1 hsub
  exact mem_before_reverse_wavesFrom ho hall horder hbase (mem_ids_of_localBases_ne_nil hbase)

theorem mem_reverse_waves (h : g.Acyclic) (hid : id ∈ g.ids) : id ∈ g.waves.reverse.flatten :=
  mem_reverse_wavesFrom.2 (mem_waves (findCycle?_eq_none_iff.2 h) hid)

/-- What is left to a class is what follows from what is left to all. -/
theorem get?_narrow (h : g.Acyclic) (hid : id ∈ g.ids) :
    (g.narrow known).get? id = some (g.narrowedBy known (g.narrow known) id) :=
  ClassTable.get?_fill (fun _ _ _ => narrowedBy_congr) (eachAfter_reverse_waves h)
    nodup_reverse_waves id (mem_reverse_waves h hid)

/-- An attribute is left to a class if the class and all classes below it always define it. -/
theorem mem_narrow_of_alwaysDefines (h : g.Acyclic) {a : Name} (hid : id ∈ g.ids)
    (ha : ∀ d, g.DerivesFrom d id → AlwaysDefines known d a) :
    a ∈ g.narrowedBy known (g.narrow known) id := by
  -- By induction along the order of the pass: the subclasses of a class come before it.
  refine EachAfter.induction (P := fun id => id ∈ g.ids →
    (∀ d, g.DerivesFrom d id → AlwaysDefines known d a) →
      a ∈ g.narrowedBy known (g.narrow known) id) (eachAfter_reverse_waves h)
    (fun id ih _ ha => mem_foldl_inter.2 ⟨?_, fun sub hsub => ?_⟩)
    id (mem_reverse_waves h hid) hid ha
  · obtain ⟨facts, hfacts, hmem⟩ := ha id .refl
    simpa [hfacts] using hmem
  · have hbase := mem_subclasses.1 hsub
    have hsub' := mem_ids_of_localBases_ne_nil hbase
    rw [get?_narrow h hsub']
    exact ih sub hsub hsub' fun d hd => ha d (hd.tail hbase)

/-- What is left of a class is what all classes below it always define. -/
theorem mem_narrow_iff (h : g.Acyclic) {a : Name} (hid : id ∈ g.ids) :
    a ∈ g.narrowedBy known (g.narrow known) id ↔
      ∀ d, g.DerivesFrom d id → AlwaysDefines known d a :=
  ⟨fun ha _ hd => assigned_below_of_mem_narrow (get?_narrow h hid) ha hd,
    mem_narrow_of_alwaysDefines h hid⟩

/-- Intersections keep the order of the first set. -/
theorem toList_foldl_inter_sublist (subs : List ClassId) (start : AttrSet) :
    (subs.foldl (fun set sub => set ∩ (t.get? sub).getD ∅) start).toList.Sublist start.toList := by
  induction subs generalizing start with
  | nil => exact List.Sublist.refl _
  | cons sub subs ih => exact (ih _).trans List.filter_sublist

/-- What is left to a class stays in its order. -/
theorem toList_narrowedBy_sublist {facts : Facts} (h : known.get? id = some facts) :
    (g.narrowedBy known t id).toList.Sublist facts.alwaysDefined.toList := by
  have hsub := toList_foldl_inter_sublist (t := t) (g.subclasses id)
    (((known.get? id).map Facts.alwaysDefined).getD ∅)
  simpa [narrowedBy, h] using hsub

end Graph

/-! ## The facts after the pass -/

namespace Work

variable {α β : Type}

/-- The facts are the same after the work, whether or not it comes to its end. -/
def LeavesFacts (work : Work α) : Prop := ∀ u, (work.leaves u).facts = u.facts

/-- Work in turn leaves the facts as they are if each part does. -/
theorem LeavesFacts.bind {x : Work α} {f : α → Work β} (hx : LeavesFacts x)
    (hf : ∀ a, LeavesFacts (f a)) : LeavesFacts (x >>= f) := by
  intro u
  cases hrun : x.run u with
  | ok a v =>
    have hsecond : (x >>= f).leaves u = (f a).leaves v := by
      rw [leaves, run_bind_of_run_eq_ok hrun, leaves]
    rw [hsecond, hf a v, ← hx u, leaves_eq_of_ok hrun]
  | error fault v =>
    have hstop : (x >>= f).run u = .error fault v := by rw [EStateM.run_bind, hrun]
    rw [leaves_eq_of_error hstop, ← hx u, leaves_eq_of_error hrun]

theorem leavesFacts_forM {step : ClassId → Work Unit} (h : ∀ id, LeavesFacts (step id))
    (ids : List ClassId) : LeavesFacts (forM ids step) := by
  induction ids with
  | nil => exact fun _ => rfl
  | cons id ids ih =>
    rw [List.forM_cons]
    exact (h id).bind fun _ => ih

/-- To write a narrowed set leaves the facts as they are. -/
theorem leavesFacts_storeNarrowed (id : ClassId) : LeavesFacts (storeNarrowed id) := by
  intro u
  cases hcell : u.narrowed.get? id with
  | none =>
    have hrun : (storeNarrowed id).run u = .ok () { u with
        narrowed := u.narrowed.insert id (u.graph.narrowedBy u.facts u.narrowed id) } :=
      Cells.run_store hcell
    rw [leaves_eq_of_ok hrun]
  | some set =>
    have hrun : (storeNarrowed id).run u = .error (.alreadyAnalyzed (u.className id)) u := by
      unfold storeNarrowed Cells.store
      rw [run_get_bind, run_get_bind]
      simp only [Cells.narrowed, hcell]
      rfl
    rw [leaves_eq_of_error hrun]

end Work

namespace CompileUnit

theorem exists_alwaysDefined?_iff {u : CompileUnit} {id : ClassId} {a : Name} :
    (∃ set, u.alwaysDefined? id = some set ∧ a ∈ set) ↔ Graph.AlwaysDefines u.facts id a := by
  simp [alwaysDefined?, Graph.AlwaysDefines]

/-- The narrowed set of a class holds what the class and all classes below it always define, in the
order of the class. So no set holds an attribute that may be deleted from an instance of a class
below. The pass leaves the facts as they are. -/
theorem narrowed_eq_inter_below (names : NameTable) (decls : List Declaration) (u : CompileUnit)
    (hbuild : build names decls = .ok u) (hacyclic : u.graph.Acyclic) (o : Options)
    (ho : o.narrowBySubclasses = true) :
    ∃ report u', u.analyze o = .ok (report, u') ∧ u'.graph = u.graph ∧
      (∀ id ∈ u'.graph.ids, ∃ own set, u'.alwaysDefined? id = some own ∧
        u'.narrowed.get? id = some set ∧ set.toList.Sublist own.toList ∧
        (∀ a, a ∈ set ↔ ∀ d, u'.graph.DerivesFrom d id →
          ∃ below, u'.alwaysDefined? d = some below ∧ a ∈ below) ∧
        (∀ base ∈ u'.graph.localBases id,
          ∃ above, u'.narrowed.get? base = some above ∧ above ⊆ set) ∧
        ∀ d, u'.graph.DerivesFrom d id → ∀ c, u'.graph.DerivesFrom d c →
          ∀ a, Graph.letsDelete (u'.graph.attributes c) a = true → a ∉ set) ∧
      (∀ v, ((forM v.graph.waves.reverse.flatten Work.storeNarrowed).leaves v).facts = v.facts) ∧
      u.analyze { o with narrowBySubclasses := false } =
        .ok (report, { u' with narrowed := ∅ }) := by
  have hcycle := Graph.findCycle?_eq_none_iff.2 hacyclic
  have hempty : ∀ id ∈ u.graph.ids, u.facts.get? id = none :=
    fun id _ => get?_facts_of_build hbuild id
  have hset : ∀ id ∈ u.graph.ids, (u.analyzed o).narrowed.get? id = some
      (u.graph.narrowedBy (u.graph.analyze o) (u.graph.narrow (u.graph.analyze o)) id) := by
    intro id hid
    rw [analyzed, ho]
    exact Graph.get?_narrow hacyclic hid
  -- All three parts about a set follow from what its members are.
  have hmem : ∀ id ∈ u.graph.ids, ∀ a,
      a ∈ u.graph.narrowedBy (u.graph.analyze o) (u.graph.narrow (u.graph.analyze o)) id ↔
        ∀ d, u.graph.DerivesFrom d id → Graph.AlwaysDefines (u.graph.analyze o) d a :=
    fun id hid a => Graph.mem_narrow_iff hacyclic hid
  refine ⟨_, u.analyzed o, analyze_eq_ok_of_acyclic hempty hacyclic o, rfl, fun id hid => ?_,
    fun v => Work.leavesFacts_forM Work.leavesFacts_storeNarrowed _ v,
    analyze_eq_ok_of_acyclic hempty hacyclic _⟩
  have hfacts := Graph.get?_analyze (o := o) hcycle hid
  refine ⟨_, _, congrArg (Option.map Facts.alwaysDefined) hfacts, hset id hid,
    Graph.toList_narrowedBy_sublist hfacts, fun a => ?_, fun base hbase => ?_, ?_⟩
  · simp only [exists_alwaysDefined?_iff]
    exact hmem id hid a
  · have hbase' := Graph.mem_ids_of_mem_localBases hbase
    refine ⟨_, hset base hbase', fun a ha => (hmem id hid a).2 fun d hd => ?_⟩
    exact (hmem base hbase' a).1 ha d (hd.tail hbase)
  · intro d hd c hc a hdel ha
    have hdefines := (hmem id hid a).1 ha d hd
    exact Graph.not_mem_deletableAttrs_of_alwaysDefines hcycle hdefines
      (Graph.mem_deletableAttrs.2 ⟨c, hc, hdel⟩)

/-- A class that assigns three attributes, a subclass that lets the second be deleted, and one that
assigns the first two in another order. -/
def threeWays : List Declaration :=
  [(Declaration.named ⟨20⟩).withInitializer ⟨[.setAttr ⟨30⟩ (.literal .none),
      .setAttr ⟨31⟩ (.literal .none), .setAttr ⟨32⟩ (.literal .none)], .empty⟩,
    (((Declaration.named ⟨21⟩).addBase ⟨20⟩).addAttribute
      (Attribute.plain ⟨31⟩).asDeletable).withInitializer ⟨[.callInit .next []], .empty⟩,
    ((Declaration.named ⟨22⟩).addBase ⟨20⟩).withInitializer
      ⟨[.setAttr ⟨31⟩ (.literal .none), .setAttr ⟨30⟩ (.literal .none)], .empty⟩]

/-- The unit of the three classes, before it is analyzed. -/
def threeWaysUnit : CompileUnit := ⟨.fresh, .ofDeclarations threeWays, ∅, ∅⟩

/-- Of the three attributes the first is left to the class above. -/
theorem narrowed_eq_inter_below_threeWays : build .fresh threeWays = .ok threeWaysUnit ∧
    threeWaysUnit.graph.Acyclic ∧
    ∃ report u' own set, threeWaysUnit.analyze .default = .ok (report, u') ∧
      u'.alwaysDefined? ⟨0⟩ = some own ∧ own = .ofList [⟨30⟩, ⟨31⟩, ⟨32⟩] ∧
      u'.narrowed.get? ⟨0⟩ = some set ∧ set = .ofList [⟨30⟩] ∧
      ∀ a, a ∈ set ↔ ∀ d, u'.graph.DerivesFrom d ⟨0⟩ →
        ∃ below, u'.alwaysDefined? d = some below ∧ a ∈ below := by
  have hbuild : build .fresh threeWays = .ok threeWaysUnit := rfl
  have hacyclic : threeWaysUnit.graph.Acyclic :=
    Graph.findCycle?_eq_none_iff.1 (by decide +kernel)
  obtain ⟨report, u', hanalyze, hgraph, hsets, -⟩ :=
    narrowed_eq_inter_below .fresh threeWays threeWaysUnit hbuild hacyclic .default rfl
  obtain ⟨own, set, hown, hset, -, hmem, -⟩ := hsets ⟨0⟩ (by rw [hgraph]; decide +kernel)
  have hsets : (threeWaysUnit.analyze .default).toOption.map (fun (_, u') =>
      (u'.alwaysDefined? ⟨0⟩, u'.narrowed.get? ⟨0⟩)) =
      some (some (.ofList [⟨30⟩, ⟨31⟩, ⟨32⟩]), some (.ofList [⟨30⟩])) := by decide +kernel
  rw [hanalyze] at hsets
  simp only [Except.toOption, Option.map_some, hown, hset, Option.some.injEq, Prod.mk.injEq]
    at hsets
  exact ⟨hbuild, hacyclic, report, u', own, set, hanalyze, hown, hsets.1, hset, hsets.2, hmem⟩

end CompileUnit

end DefiniteInit
