import DefiniteInit.Proofs.ForeignAncestry
import DefiniteInit.Proofs.Forwarding

/-!
# Facts of classes without initializers

A class without an initializer takes over what is known of its initializer base, adds its defaults
and drops what may be deleted (`Graph.Inherits.factsOf_of_base`). The base may have no initializer
either, and so on up to a class that has one, to a class that was passed over, or to the end
(`Graph.LeadsTo`).

The steps on the way need not be gone through one by one. The defaults of a class are among those of
the classes below it, and so are the attributes that it lets be deleted. So what a class on the way
adds is added below it in any case, and what it drops is dropped there
(`AttrSet.filter_union_filter_union`).
-/

namespace DefiniteInit

namespace AttrSet

/-- Of two steps that add and drop attributes, the first makes no difference if the second adds and
drops all that it does. -/
theorem filter_union_filter_union {d d' x x' : AttrSet} (hd : d' ⊆ d) (hx : x' ⊆ x) (s : AttrSet) :
    (d ∪ (d' ∪ s).filter (· ∉ x')).filter (· ∉ x) = (d ∪ s).filter (· ∉ x) := by
  have hadded : d'.toList.filter (fun a => decide (a ∉ d) && decide (a ∉ x')) = [] := by
    rw [List.filter_eq_nil_iff]
    intro a ha
    simp [hd a ha]
  refine AttrSet.ext ?_
  simp only [toList_filter, toList_union, List.filter_append, List.filter_filter, hadded,
    List.nil_append]
  congr 1
  refine List.filter_congr fun a _ => ?_
  by_cases had : a ∈ d <;> by_cases hax : a ∈ x <;>
    simp [had, hax, mt (hd a), mt (hx a)]

end AttrSet

namespace Graph

variable {g : Graph} {known : ClassTable Facts} {o : Options} {id base : ClassId}

/-- A class has the defaults of its bases. -/
theorem defaultedAttrs_subset (h : base ∈ g.localBases id) :
    g.defaultedAttrs base ⊆ g.defaultedAttrs id :=
  fun _ => mem_defaultedAttrs_of_derivesFrom (.single h)

/-- What can be deleted from a base can be deleted from the class. -/
theorem deletableAttrs_subset (h : base ∈ g.localBases id) :
    g.deletableAttrs base ⊆ g.deletableAttrs id := by
  intro a ha
  obtain ⟨c, hc, hdel⟩ := mem_deletableAttrs.1 ha
  exact mem_deletableAttrs.2 ⟨c, .head h hc, hdel⟩

/-! ## One class -/

/-- The class was looked at, is no trait and has no initializer. -/
structure Inherits (g : Graph) (known : ClassTable Facts) (id : ClassId) : Prop where
  no_initializer : (g.class? id).bind Class.initializer = none
  no_trait : g.isTrait id = false
  not_passedOver : g.seedReason? known id = none

/-- There is no reason to pass over a class that was looked at. -/
theorem seedReason?_eq_none_of_isSeeded (htrait : g.isTrait id = false)
    (h : (g.factsOf known o id).isSeeded = false) : g.seedReason? known id = none := by
  cases hseed : g.seedReason? known id with
  | none => rfl
  | some reason => simp [factsOf, htrait, hseed, Facts.seeded, Facts.isSeeded] at h

/-- The base an initializer is inherited from is no trait. -/
theorem isTrait_of_initializerBase? (h : g.initializerBase? id = some (.inUnit base)) :
    g.isTrait base = false := by
  simpa using List.find?_some h

/-- The base an initializer is inherited from is the primary one. -/
theorem primaryBase?_of_initializerBase? (h : g.initializerBase? id = some (.inUnit base)) :
    g.primaryBase? id = some base := by
  rw [primaryBase?, h]
  rfl

/-- The base an initializer is inherited from is a base in the unit. -/
theorem mem_localBases_of_initializerBase? (h : g.initializerBase? id = some (.inUnit base)) :
    base ∈ g.localBases id :=
  mem_localBases_of_primaryBase? (primaryBase?_of_initializerBase? h)

namespace Inherits

variable (h : g.Inherits known id)

include h

/-- A class that inherits takes its initializer from a class of the unit. -/
theorem initializerBase?_ne_foreign (name : Name) :
    g.initializerBase? id ≠ some (.foreign name) := by
  intro hbase
  have hmem : Base.foreign name ∈ g.bases id := List.mem_of_find?_eq_some hbase
  have hforeign : g.hasForeignBase id = true := by
    unfold bases at hmem
    unfold hasForeignBase
    cases hc : g.class? id with
    | none => simp [hc] at hmem
    | some c =>
      rw [hc] at hmem
      exact List.any_eq_true.2 ⟨_, hmem, rfl⟩
  have hseed := h.not_passedOver
  rw [seedReason?_eq_foreignAncestry_iff.2 (Or.inl hforeign)] at hseed
  simp at hseed

/-- Without a base there is nothing but defaults. -/
theorem factsOf_of_no_base (hbase : g.initializerBase? id = none) :
    (g.factsOf known o id).alwaysDefined =
        (g.defaultedAttrs id).filter (· ∉ g.deletableAttrs id) ∧
      (g.factsOf known o id).compromised = false := by
  have hprimary : g.primaryBase? id = none := by
    rw [primaryBase?, hbase]
    rfl
  simp only [factsOf, h.no_trait, h.not_passedOver, initialFacts, h.no_initializer, hprimary]
  exact ⟨rfl, rfl⟩

/-- From its initializer base a class takes over what is known, with its own defaults and without
what may be deleted. -/
theorem factsOf_of_base (hbase : g.initializerBase? id = some (.inUnit base)) {above : Facts}
    (habove : known.get? base = some above) :
    (g.factsOf known o id).alwaysDefined =
        (g.defaultedAttrs id ∪ above.alwaysDefined).filter (· ∉ g.deletableAttrs id) ∧
      (g.factsOf known o id).compromised = above.compromised := by
  simp only [factsOf, h.no_trait, h.not_passedOver, initialFacts, h.no_initializer,
    primaryBase?_of_initializerBase? hbase, habove]
  exact ⟨rfl, rfl⟩

end Inherits

/-! ## The way up -/

/-- Whether a class has an initializer of its own, or was passed over. -/
def stands (g : Graph) (known : ClassTable Facts) (id : ClassId) : Bool :=
  ((g.class? id).bind Class.initializer).isSome || (known.get? id).any Facts.isSeeded

/-- Where the way from a class up the initializer bases leads, past classes that have no initializer
and were not passed over: to a class that stands, or to the end. -/
inductive LeadsTo (g : Graph) (known : ClassTable Facts) : ClassId → Option ClassId → Prop
  | ends {id : ClassId} (base_eq : g.initializerBase? id = none) : LeadsTo g known id none
  | reaches {id base : ClassId} (base_eq : g.initializerBase? id = some (.inUnit base))
      (stands : g.stands known base = true) : LeadsTo g known id (some base)
  | passes {id base : ClassId} {last : Option ClassId}
      (base_eq : g.initializerBase? id = some (.inUnit base)) (passed : g.stands known base = false)
      (rest : LeadsTo g known base last) : LeadsTo g known id last

/-- From a class with an initializer base the way leads there, or where the way from there leads. -/
theorem leadsTo_iff_of_base {last : Option ClassId}
    (hbase : g.initializerBase? id = some (.inUnit base)) : g.LeadsTo known id last ↔
      (g.stands known base = true ∧ last = some base) ∨
        g.stands known base = false ∧ g.LeadsTo known base last := by
  have hsame : ∀ {b : ClassId}, g.initializerBase? id = some (.inUnit b) → b = base := by
    intro b hb
    simpa [hbase] using hb.symm
  constructor
  · rintro (hnone | ⟨hbase', hstands⟩ | ⟨hbase', hpassed, hrest⟩)
    · simp [hbase] at hnone
    · obtain rfl := hsame hbase'
      exact .inl ⟨hstands, rfl⟩
    · obtain rfl := hsame hbase'
      exact .inr ⟨hpassed, hrest⟩
  · rintro (⟨hstands, rfl⟩ | ⟨hpassed, hrest⟩)
    · exact .reaches hbase hstands
    · exact .passes hbase hpassed hrest

/-- Without a base to inherit from the way up ends where it starts. -/
theorem leadsTo_iff_of_no_base {last : Option ClassId} (hbase : g.initializerBase? id = none) :
    g.LeadsTo known id last ↔ last = none := by
  constructor
  · rintro (_ | ⟨hbase', -⟩ | ⟨hbase', -, -⟩)
    · rfl
    · simp [hbase] at hbase'
    · simp [hbase] at hbase'
  · rintro rfl
    exact .ends hbase

/-- A base that does not stand inherits too. -/
theorem inherits_of_not_stands (h : g.Acyclic)
    (hbase : g.initializerBase? id = some (.inUnit base))
    (hpassed : g.stands (g.analyze o) base = false) : g.Inherits (g.analyze o) base := by
  have htrait := isTrait_of_initializerBase? hbase
  have hfacts := solves_analyze h o base
    (mem_ids_of_mem_localBases (mem_localBases_of_initializerBase? hbase))
  rw [stands, hfacts, Bool.or_eq_false_iff] at hpassed
  exact ⟨by simpa using hpassed.1, htrait, seedReason?_eq_none_of_isSeeded htrait hpassed.2⟩

/-- What is known where a way ends: nothing is always defined, and nothing escapes, beyond the last
class. -/
def knownAt (known : ClassTable Facts) : Option ClassId → Option (AttrSet × Bool)
  | none => some (∅, false)
  | some id => (known.get? id).map fun facts => (facts.alwaysDefined, facts.compromised)

/-- The way leads to one end, and what is known there makes the facts of the class. -/
theorem exists_leadsTo (h : g.Acyclic) (o : Options) : ∀ id ∈ g.ids, g.Inherits (g.analyze o) id →
    ∃ last set compromised, (∀ last', g.LeadsTo (g.analyze o) id last' ↔ last' = last) ∧
      knownAt (g.analyze o) last = some (set, compromised) ∧
      (g.factsOf (g.analyze o) o id).alwaysDefined =
        (g.defaultedAttrs id ∪ set).filter (· ∉ g.deletableAttrs id) ∧
      (g.factsOf (g.analyze o) o id).compromised = compromised := by
  -- From the bases down. The way ends, reaches a class that stands on its own, or passes through
  -- one that inherits in turn; there the filters of the two classes collapse into one.
  refine h.induction fun id ih hid hinherits => ?_
  cases hbase : g.initializerBase? id with
  | none =>
    exact ⟨none, ∅, false, fun _ => leadsTo_iff_of_no_base hbase, rfl,
      hinherits.factsOf_of_no_base hbase⟩
  | some b =>
    cases b with
    | foreign name => exact absurd hbase (hinherits.initializerBase?_ne_foreign name)
    | inUnit base =>
      have hmem := mem_localBases_of_initializerBase? hbase
      have habove := solves_analyze h o base (mem_ids_of_mem_localBases hmem)
      obtain ⟨hdefined, hcompromised⟩ := hinherits.factsOf_of_base (o := o) hbase habove
      cases hstands : g.stands (g.analyze o) base with
      | true =>
        refine ⟨some base, _, _, fun last' => ?_, by rw [knownAt, habove]; rfl, hdefined,
          hcompromised⟩
        simp [leadsTo_iff_of_base hbase, hstands]
      | false =>
        obtain ⟨last, set, compromised, hleads, hknown, hset, hsame⟩ :=
          ih base hmem (mem_ids_of_mem_localBases hmem) (inherits_of_not_stands h hbase hstands)
        refine ⟨last, set, compromised, fun last' => ?_, hknown, ?_, hcompromised.trans hsame⟩
        · simp [leadsTo_iff_of_base hbase, hstands, hleads]
        · rw [hdefined, hset, AttrSet.filter_union_filter_union (defaultedAttrs_subset hmem)
            (deletableAttrs_subset hmem)]

end Graph

namespace CompileUnit

/-- From a class without an initializer the way up the initializer bases leads to one end. If that
is a class, the class below always defines its defaults and what that class always defines, in this
order, but for what may be deleted, and is compromised exactly if that class is. If it is none,
there are only the defaults, and nothing is compromised. -/
theorem inherited_closed_form (names : NameTable) (decls : List Declaration) (u : CompileUnit)
    (hbuild : build names decls = .ok u) (hacyclic : u.graph.Acyclic) (o : Options) :
    ∃ report u', u.analyze o = .ok (report, u') ∧ u'.graph = u.graph ∧
      ∀ id ∈ u'.graph.ids, ∃ f, u'.facts.get? id = some f ∧
        (u'.graph.isTrait id = false → f.isSeeded = false →
          (u'.graph.class? id).bind Class.initializer = none →
          (∃! last, u'.graph.LeadsTo u'.facts id last) ∧
          (∀ source, u'.graph.LeadsTo u'.facts id (some source) →
            ∃ above, u'.facts.get? source = some above ∧
              f.alwaysDefined = (u'.graph.defaultedAttrs id ∪ above.alwaysDefined).filter
                (· ∉ u'.graph.deletableAttrs id) ∧
              f.compromised = above.compromised) ∧
          (u'.graph.LeadsTo u'.facts id none →
            f.alwaysDefined =
              (u'.graph.defaultedAttrs id).filter (· ∉ u'.graph.deletableAttrs id) ∧
            f.compromised = false)) := by
  have hempty : ∀ id ∈ u.graph.ids, u.facts.get? id = none :=
    fun id _ => get?_facts_of_build hbuild id
  refine ⟨_, _, analyze_eq_ok_of_acyclic hempty hacyclic o, rfl, fun id hid => ?_⟩
  refine ⟨_, Graph.solves_analyze hacyclic o id hid, fun htrait hseeded hinit => ?_⟩
  obtain ⟨last, set, compromised, hleads, hknown, hdefined, hsame⟩ :=
    Graph.exists_leadsTo hacyclic o id hid
      ⟨hinit, htrait, Graph.seedReason?_eq_none_of_isSeeded htrait hseeded⟩
  refine ⟨⟨last, (hleads last).2 rfl, fun last' => (hleads last').1⟩, fun source hsource => ?_,
    fun hnone => ?_⟩
  · obtain rfl := (hleads (some source)).1 hsource
    obtain ⟨above, habove, heq⟩ := Option.map_eq_some_iff.1 hknown
    obtain ⟨rfl, rfl⟩ := Prod.mk.inj heq
    exact ⟨above, habove, hdefined, hsame⟩
  · obtain rfl := (hleads none).1 hnone
    obtain ⟨rfl, rfl⟩ := Prod.mk.inj (Option.some.inj hknown)
    exact ⟨hdefined, hsame⟩

/-- A class that assigns three attributes and then lets the receiver escape; a trait and a class
with a default each; a class that derives from the trait and the first and lets an attribute be
deleted; and one that derives from this and the class with a default, and has one of its own. Only
the first has an initializer. -/
def heirs : List Declaration :=
  [(Declaration.named ⟨20⟩).withInitializer
      ⟨[.setAttr ⟨30⟩ (.literal .none), .setAttr ⟨31⟩ (.literal .none),
        .setAttr ⟨32⟩ (.literal .none), .run (.callNamed ⟨12⟩ [.receiver])], .empty⟩,
    ((Declaration.named ⟨21⟩).addAttribute (Attribute.plain ⟨33⟩).withDefault).asTrait,
    (Declaration.named ⟨22⟩).addAttribute (Attribute.plain ⟨34⟩).withDefault,
    (((Declaration.named ⟨23⟩).addBase ⟨21⟩).addBase ⟨20⟩).addAttribute
      (Attribute.plain ⟨31⟩).asDeletable,
    (((Declaration.named ⟨24⟩).addBase ⟨23⟩).addBase ⟨22⟩).addAttribute
      (Attribute.plain ⟨35⟩).withDefault]

/-- The unit of the five classes, before it is analyzed. -/
def heirsUnit : CompileUnit := ⟨.fresh, .ofDeclarations heirs, ∅, ∅⟩

/-- From the last class the way leads past the one above it to the first, and from the class with a
default it ends. -/
theorem inherited_closed_form_heirs : build .fresh heirs = .ok heirsUnit ∧
    heirsUnit.graph.Acyclic ∧
    ∃ report u' f above f', heirsUnit.analyze .default = .ok (report, u') ∧
      u'.facts.get? ⟨4⟩ = some f ∧ u'.graph.LeadsTo u'.facts ⟨4⟩ (some ⟨0⟩) ∧
      u'.facts.get? ⟨0⟩ = some above ∧ above.alwaysDefined = .ofList [⟨30⟩, ⟨31⟩, ⟨32⟩] ∧
      f.alwaysDefined = .ofList [⟨35⟩, ⟨33⟩, ⟨34⟩, ⟨30⟩, ⟨32⟩] ∧ f.compromised = true ∧
      u'.facts.get? ⟨2⟩ = some f' ∧ u'.graph.LeadsTo u'.facts ⟨2⟩ none ∧
      f'.alwaysDefined = .ofList [⟨34⟩] ∧ f'.compromised = false := by
  have hbuild : build .fresh heirs = .ok heirsUnit := rfl
  have hacyclic : heirsUnit.graph.Acyclic := Graph.findCycle?_eq_none_iff.1 (by decide +kernel)
  obtain ⟨report, u', hanalyze, -, hclosed⟩ :=
    inherited_closed_form .fresh heirs heirsUnit hbuild hacyclic .default
  obtain ⟨-, -, -, rfl⟩ := analyze_eq_ok_iff.1 hanalyze
  have hfirst : (heirsUnit.graph.analyze .default).get? ⟨0⟩ =
      some ⟨.ofList [⟨30⟩, ⟨31⟩, ⟨32⟩], true, .analyzed, some ⟨.selfValue, .empty⟩⟩ := by
    decide +kernel
  have hleads : heirsUnit.graph.LeadsTo (heirsUnit.graph.analyze .default) ⟨4⟩ (some ⟨0⟩) :=
    .passes (by decide +kernel : heirsUnit.graph.initializerBase? ⟨4⟩ = some (.inUnit ⟨3⟩))
      (by decide +kernel) (.reaches (by decide +kernel) (by decide +kernel))
  have hends : heirsUnit.graph.LeadsTo (heirsUnit.graph.analyze .default) ⟨2⟩ none :=
    .ends (by decide +kernel)
  obtain ⟨f, hf, hway⟩ := hclosed ⟨4⟩ (by decide +kernel)
  obtain ⟨f', hf', hway'⟩ := hclosed ⟨2⟩ (by decide +kernel)
  obtain rfl := Option.some.inj
    (hf.symm.trans (Graph.solves_analyze hacyclic .default ⟨4⟩ (by decide +kernel)))
  obtain rfl := Option.some.inj
    (hf'.symm.trans (Graph.solves_analyze hacyclic .default ⟨2⟩ (by decide +kernel)))
  obtain ⟨-, hsource, -⟩ := hway (by decide +kernel) (by decide +kernel) (by decide +kernel)
  obtain ⟨-, -, hnone⟩ := hway' (by decide +kernel) (by decide +kernel) (by decide +kernel)
  obtain ⟨above, habove, hdefined, hcompromised⟩ := hsource ⟨0⟩ hleads
  obtain rfl := Option.some.inj (hfirst.symm.trans habove)
  exact ⟨hbuild, hacyclic, report, _, _, _, _, hanalyze, hf, hleads, hfirst, rfl,
    hdefined.trans (by decide +kernel), hcompromised, hf', hends,
    (hnone hends).1.trans (by decide +kernel), (hnone hends).2⟩

end CompileUnit

end DefiniteInit
