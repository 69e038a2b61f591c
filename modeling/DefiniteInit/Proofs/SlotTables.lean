import DefiniteInit.Proofs.Credits
import DefiniteInit.Proofs.DeletableSlots
import DefiniteInit.Proofs.Forwarding
import DefiniteInit.Proofs.LayoutsOnDemand

/-!
# Slot tables

A layout is made from nothing by adding slots and by boxing them, class by class along the
hierarchy. What holds of no slots and is kept by both steps holds of every layout
(`Graph.layoutAt_induction`). So no layout has two slots of one name, since a slot is added only
where there is none of that name. The slots of a class are those of the attributes that it and the
classes above it have (`Graph.perm_names_layoutAt`).

What a class always defines is found by another way: from defaults, from the walk over its
initializer and from what is known of its bases. By each of these an attribute is always defined
only if the class or one above it declares or assigns it, and every attribute that an initializer
assigns is one of the class (`Graph.hasAttr_of_alwaysDefines`). So it has a slot.
-/

namespace DefiniteInit

/-! ## Layouts -/

namespace Layout

variable {l : Layout}

/-- The names of the slots, in their order. -/
def names (l : Layout) : List Name := l.slots.map (·.name)

theorem isSome_slot?_iff_mem_names {a : Name} : (l.slot? a).isSome = true ↔ a ∈ l.names := by
  rw [isSome_slot?, names, List.mem_map]

/-- A new slot adds its name at the end. -/
theorem names_place (name : Name) (owner : ClassId) (repr : ValueRepr) (defined deletable : Bool) :
    (l.place name owner repr defined deletable).names = l.names ++ [name] := by
  simp [names, slots_place]

theorem names_boxSlot (name : Name) (id : ClassId) : (l.boxSlot name id).names = l.names := by
  simp only [names, boxSlot, List.map_map]
  refine List.map_congr_left fun slot _ => ?_
  simp only [Function.comp_apply]
  split <;> rfl

/-- Names stay distinct if the slot is new. -/
theorem nodup_names_place (h : l.names.Nodup) {name : Name} (hnew : ¬(l.slot? name).isSome = true)
    (owner : ClassId) (repr : ValueRepr) (defined deletable : Bool) :
    (l.place name owner repr defined deletable).names.Nodup := by
  rw [isSome_slot?_iff_mem_names] at hnew
  rw [names_place]
  exact h.append (List.nodup_singleton name) (by simpa using hnew)

end Layout

namespace Graph

variable {g : Graph} {guaranteed : ClassId → Name → Bool} {id : ClassId} {a : Name}

/-- What holds of no slots, and is kept when a slot is added under a new name and when one is boxed,
holds of every layout. -/
theorem layoutAt_induction {P : Layout → Prop} (h : g.Acyclic) (hempty : P .empty)
    (hplace : ∀ (l : Layout) (name : Name) (owner : ClassId) (repr : ValueRepr)
      (defined deletable : Bool), P l → ¬(l.slot? name).isSome = true →
      P (l.place name owner repr defined deletable))
    (hbox : ∀ (l : Layout) (name : Name) (id : ClassId), P l → P (l.boxSlot name id))
    (id : ClassId) : P (g.layoutAt guaranteed id) := by
  have hinherit : ∀ id deletable fromTrait l slot, P l →
      P (inheritSlot guaranteed id deletable fromTrait l slot) := by
    intro id deletable fromTrait l slot hl
    unfold inheritSlot
    split
    · exact hl
    · exact hplace _ _ _ _ _ _ hl ‹_›
  have hdeclare : ∀ id l attr, P l → P (declareSlot guaranteed id l attr) := by
    intro id l attr hl
    unfold declareSlot
    split
    · split
      · exact hbox l attr.name id hl
      · exact hl
    · exact hplace _ _ _ _ _ _ hl ‹_›
  -- The induction is along the bases: a layout starts with that of the primary base.
  induction id using h.induction with
  | hstep id ih =>
    by_cases hid : id ∈ g.ids
    · have hstart : P (((g.primaryBase? id).map (g.layoutAt guaranteed)).getD .empty) := by
        cases hbase : g.primaryBase? id with
        | none => exact hempty
        | some base => exact ih base (mem_localBases_of_primaryBase? hbase)
      rw [layoutAt_eq h hid]
      refine List.foldlRecOn _ _ ?_ fun l hl attr _ => hdeclare id l attr hl
      refine List.foldlRecOn _ _ hstart fun l hl base _ => ?_
      exact List.foldlRecOn _ _ hl fun l hl slot _ => hinherit id _ _ l slot hl
    · have hnone : (g.planLayouts guaranteed).get? id = none :=
        ClassTable.get?_foldl_insert_of_not_mem ∅ fun hmem =>
          hid ((isSchedule_waves h).perm.mem_iff.1 hmem)
      rw [layoutAt, hnone]
      exact hempty

theorem nodup_names_layoutAt (h : g.Acyclic) (id : ClassId) :
    (g.layoutAt guaranteed id).names.Nodup := by
  refine layoutAt_induction (P := fun l => l.names.Nodup) h List.nodup_nil ?_ ?_ id
  · intro l name owner repr defined deletable hl hnew
    exact Layout.nodup_names_place hl hnew owner repr defined deletable
  · intro l name id hl
    rwa [Layout.names_boxSlot]

/-- The attributes that a class and the classes above it have. -/
def lineageAttrs (g : Graph) (id : ClassId) : AttrSet :=
  .ofList (((g.lineage id).flatMap g.attributes).map (·.name))

theorem mem_lineageAttrs : a ∈ g.lineageAttrs id ↔ g.HasAttr id a := by
  simp only [lineageAttrs, AttrSet.mem_ofList, List.mem_map, List.mem_flatMap, mem_lineage, HasAttr]
  constructor
  · rintro ⟨attr, ⟨c, hc, hattr⟩, rfl⟩
    exact ⟨c, hc, attr, hattr, rfl⟩
  · rintro ⟨c, hc, attr, hattr, rfl⟩
    exact ⟨attr, ⟨c, hc, hattr⟩, rfl⟩

/-- The slots of a class are those of the attributes of its lineage, each once. -/
theorem perm_names_layoutAt (h : g.Acyclic) (hid : id ∈ g.ids) :
    (g.layoutAt guaranteed id).names.Perm (g.lineageAttrs id).toList := by
  refine (List.perm_ext_iff_of_nodup (nodup_names_layoutAt h id) (g.lineageAttrs id).nodup).2
    fun a => ?_
  rw [← Layout.isSome_slot?_iff_mem_names, isSome_slot?_layoutAt h hid, AttrSet.mem_toList,
    mem_lineageAttrs]

end Graph

/-! ## What declarations introduce -/

/-- The declaration lists the attribute, or its initializer assigns it. -/
def Declaration.Introduces (d : Declaration) (a : Name) : Prop :=
  (∃ attr ∈ d.attributes, attr.name = a) ∨
    ∃ init, d.initializer = some init ∧ a ∈ assignedAttrs init.body

namespace Graph

variable {decls : List Declaration} {o : Options} {id : ClassId} {a : Name}

/-- A declaration introduces what it lists and what its initializer assigns. -/
theorem exists_mem_allAttributes (d : Declaration) :
    (∃ attr ∈ allAttributes d, attr.name = a) ↔ d.Introduces a := by
  have hassigned : a ∈ (d.initializer.map fun init => (assignedAttrs init.body).toList).getD [] ↔
      ∃ init, d.initializer = some init ∧ a ∈ assignedAttrs init.body := by
    cases d.initializer <;> simp
  rw [Declaration.Introduces, ← hassigned]
  simp only [allAttributes, List.mem_append, List.mem_map, List.mem_filter]
  constructor
  · rintro ⟨attr, hattr | ⟨name, ⟨hname, -⟩, rfl⟩, rfl⟩
    · exact .inl ⟨attr, hattr, rfl⟩
    · exact .inr hname
  · intro h
    -- What is assigned gets an attribute of its own only if it is not listed.
    by_cases hlisted : ∃ attr ∈ d.attributes, attr.name = a
    · obtain ⟨attr, hattr, hname⟩ := hlisted
      exact ⟨attr, .inl hattr, hname⟩
    · have hnew : (d.attributes.all fun attr => decide (attr.name ≠ a)) = true := by
        simpa using hlisted
      exact ⟨.plain a, .inr ⟨a, ⟨h.resolve_left hlisted, hnew⟩, rfl⟩, rfl⟩

theorem exists_mem_attributes (c : ClassId) :
    (∃ attr ∈ (ofDeclarations decls).attributes c, attr.name = a) ↔
      ∃ d, decls[c.index]? = some d ∧ d.Introduces a := by
  simp only [attributes, class?_ofDeclarations]
  cases decls[c.index]? with
  | none => simp
  | some d =>
    simp only [Option.map_some, Option.getD_some, Option.some.injEq, exists_eq_left']
    exact exists_mem_allAttributes d

/-- A class has what the declarations of the classes it derives from introduce. -/
theorem hasAttr_ofDeclarations : (ofDeclarations decls).HasAttr id a ↔
    ∃ c d, (ofDeclarations decls).DerivesFrom id c ∧ decls[c.index]? = some d ∧
      d.Introduces a := by
  simp only [HasAttr, exists_mem_attributes, exists_and_left]

/-- What the initializer of a class assigns is one of its attributes. -/
theorem Assigns.hasAttr (h : (ofDeclarations decls).Assigns id a) :
    (ofDeclarations decls).HasAttr id a := by
  obtain ⟨init, hinit, ha⟩ := h
  obtain ⟨cls, hcls, hinit⟩ := Option.bind_eq_some_iff.1 hinit
  rw [class?_ofDeclarations] at hcls
  obtain ⟨d, hd, rfl⟩ := Option.map_eq_some_iff.1 hcls
  exact ⟨id, .refl, (exists_mem_attributes id).2
    ⟨d, hd, .inr ⟨init, hinit, AttrSet.mem_ofList.2 ha⟩⟩⟩

/-- A default is one of an attribute. -/
theorem hasAttr_of_mem_defaultedAttrs {g : Graph} (h : a ∈ g.defaultedAttrs id) :
    g.HasAttr id a := by
  rw [← mem_lineageAttrs]
  simp only [defaultedAttrs, lineageAttrs, AttrSet.mem_ofList] at h ⊢
  exact List.map_subset _ (List.filter_subset_self _) h

/-- What a class always defines, it or a class above it declares or assigns. -/
theorem hasAttr_of_alwaysDefines (h : (ofDeclarations decls).Acyclic) :
    ∀ id, AlwaysDefines ((ofDeclarations decls).analyze o) id a →
      (ofDeclarations decls).HasAttr id a := by
  refine h.induction fun id ih ha => ?_
  rcases routes_of_alwaysDefines h ha with hdefault | ⟨hassigns, -⟩ | ⟨base, hruns, hbase⟩
  · exact hasAttr_of_mem_defaultedAttrs hdefault
  · exact hassigns.hasAttr
  · exact hasAttr_iff.2 (.inl ⟨base, hruns.mem_localBases, ih base hruns.mem_localBases hbase⟩)

end Graph

namespace CompileUnit

/-- The analysis of a unit without a cycle succeeds, and there is one layout for each class, the one
that is also built on demand. Its slots are those of the attributes that the class and the classes
above it declare, or assign in their initializers, each once. All that the class always defines has
a slot, and the owner of every slot is the class itself or above it. -/
theorem slot_tables_complete (names : NameTable) (decls : List Declaration) (u : CompileUnit)
    (hbuild : build names decls = .ok u) (hacyclic : u.graph.Acyclic) (o o' : Options) :
    ∃ report u' ls, u.analyze o = .ok (report, u') ∧ u'.graph = u.graph ∧ u'.layouts o' = .ok ls ∧
      u'.graph.layoutsOnDemand (u'.guaranteed o') = some ls ∧ ls.map Prod.fst = u'.graph.ids ∧
      ∀ id l, (id, l) ∈ ls →
        (l.slots.map (·.name)).Nodup ∧
        (∀ a, a ∈ l.slots.map (·.name) ↔ ∃ c d, u'.graph.DerivesFrom id c ∧
          decls[c.index]? = some d ∧ d.Introduces a) ∧
        (∃ set, u'.alwaysDefined? id = some set ∧ ∀ a ∈ set, (l.slot? a).isSome = true) ∧
        ∀ slot ∈ l.slots, u'.graph.DerivesFrom id slot.owner := by
  have hempty : ∀ id ∈ u.graph.ids, u.facts.get? id = none :=
    fun id _ => get?_facts_of_build hbuild id
  have hgraph : u.graph = .ofDeclarations decls := by rw [eq_of_build_eq_ok hbuild]
  have hanalyze := analyze_eq_ok_of_acyclic hempty hacyclic o
  obtain ⟨ls, hls, hids, hat⟩ := exists_layouts_of_analyze hanalyze o'
  -- There are layouts, and the plan on demand comes to the same.
  have hplanned := Except.ok.inj ((layouts_of_analyze hanalyze o').symm.trans hls)
  refine ⟨_, _, ls, hanalyze, rfl, hls, hplanned ▸ Graph.layoutsOnDemand_eq hacyclic _, hids,
    fun id l hl => ?_⟩
  obtain ⟨hid, rfl⟩ := hat id l hl
  rw [hgraph] at hacyclic hid ⊢
  refine ⟨Graph.nodup_names_layoutAt hacyclic id, fun a => ?_, ?_, fun slot hslot => ?_⟩
  · rw [← Graph.hasAttr_ofDeclarations, ← Graph.isSome_slot?_layoutAt hacyclic hid]
    exact Layout.isSome_slot?_iff_mem_names.symm
  · have hfacts := Graph.solves_analyze hacyclic o id hid
    refine ⟨_, congrArg (Option.map Facts.alwaysDefined) hfacts, fun a ha => ?_⟩
    exact (Graph.isSome_slot?_layoutAt hacyclic hid).2
      (Graph.hasAttr_of_alwaysDefines hacyclic id ⟨_, hfacts, ha⟩)
  · exact (Graph.backed_layoutAt _ id slot hslot).1

/-- A class that lists one attribute and assigns another, a trait with a default, and a class that
uses the trait, runs the initializer of the first and assigns one more. -/
def mixedIn : List Declaration :=
  [((Declaration.named ⟨20⟩).addAttribute (.plain ⟨30⟩)).withInitializer
      ⟨[.setAttr ⟨31⟩ (.literal .none)], .empty⟩,
    ((Declaration.named ⟨21⟩).addAttribute (Attribute.plain ⟨32⟩).withDefault).asTrait,
    (((Declaration.named ⟨22⟩).addBase ⟨21⟩).addBase ⟨20⟩).withInitializer
      ⟨[.callInit (.explicit ⟨20⟩) [], .setAttr ⟨33⟩ (.literal .none)], .empty⟩]

/-- The unit of the three classes, before it is analyzed. -/
def mixedInUnit : CompileUnit := ⟨.fresh, .ofDeclarations mixedIn, ∅, ∅⟩

/-- The layout of the last class. -/
def mixedInBelow : Layout :=
  ⟨[⟨⟨30⟩, ⟨0⟩, .reference, .boxedWithSentinel false⟩, ⟨⟨31⟩, ⟨0⟩, .reference, .unboxed⟩,
    ⟨⟨32⟩, ⟨2⟩, .reference, .unboxed⟩, ⟨⟨33⟩, ⟨2⟩, .reference, .unboxed⟩], 0⟩

/-- The last class has the slots of all four attributes, of which it always defines three. -/
theorem slot_tables_complete_mixedIn : build .fresh mixedIn = .ok mixedInUnit ∧
    mixedInUnit.graph.Acyclic ∧
    ∃ report u' ls, mixedInUnit.analyze .default = .ok (report, u') ∧
      u'.layouts .default = .ok ls ∧
      u'.graph.layoutsOnDemand (u'.guaranteed .default) = some ls ∧ (⟨2⟩, mixedInBelow) ∈ ls ∧
      (∀ a, a ∈ [⟨30⟩, ⟨31⟩, ⟨32⟩, ⟨33⟩] ↔ ∃ c d, u'.graph.DerivesFrom ⟨2⟩ c ∧
        mixedIn[c.index]? = some d ∧ d.Introduces a) ∧
      u'.alwaysDefined? ⟨2⟩ = some (.ofList [⟨32⟩, ⟨31⟩, ⟨33⟩]) ∧
      (∀ a ∈ AttrSet.ofList [⟨32⟩, ⟨31⟩, ⟨33⟩], (mixedInBelow.slot? a).isSome = true) ∧
      ∀ slot ∈ mixedInBelow.slots, u'.graph.DerivesFrom ⟨2⟩ slot.owner := by
  have hbuild : build .fresh mixedIn = .ok mixedInUnit := rfl
  have hacyclic : mixedInUnit.graph.Acyclic := Graph.findCycle?_eq_none_iff.1 (by decide +kernel)
  obtain ⟨report, u', ls, hanalyze, -, hls, hdemand, -, hslots⟩ :=
    slot_tables_complete .fresh mixedIn mixedInUnit hbuild hacyclic .default .default
  have hplan : (mixedInUnit.analyze .default).toOption.bind (fun (_, u') =>
      (u'.layouts .default).toOption.bind (·[2]?)) = some (⟨2⟩, mixedInBelow) := by decide +kernel
  have hset : (mixedInUnit.analyze .default).toOption.bind (fun (_, u') =>
      u'.alwaysDefined? ⟨2⟩) = some (.ofList [⟨32⟩, ⟨31⟩, ⟨33⟩]) := by decide +kernel
  simp only [hanalyze, Except.toOption, Option.bind_some, hls] at hplan hset
  have hmem := List.mem_of_getElem? hplan
  obtain ⟨-, hnames, ⟨set, hset', hall⟩, howner⟩ := hslots ⟨2⟩ mixedInBelow hmem
  obtain rfl := Option.some.inj (hset'.symm.trans hset)
  exact ⟨hbuild, hacyclic, report, u', ls, hanalyze, hls, hdemand, hmem, hnames, hset, hall,
    howner⟩

end CompileUnit

end DefiniteInit
