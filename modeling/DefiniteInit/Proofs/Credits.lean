import DefiniteInit.Proofs.Chains
import DefiniteInit.Proofs.Monotonicity
import DefiniteInit.Proofs.WriteOnce

/-!
# What a class owes its attributes to

A walk takes an attribute for assigned only if it was so at the start, if the body assigns it and it
is no property, or if a call in the body runs the initializer of a base that always defines it
(`Scope.Credits`). This holds of its returns, its end and its summary, from whatever state it starts
(`Graph.walk_owed_to_assignments`). So a class always defines an attribute by one of four routes: a
default, an assignment of its own, a call of a base's initializer, or the base whose initializer it
inherits (`Graph.routes_of_alwaysDefines`).

A property is never credited to an assignment. It may still be always defined, by a default, or
by one of the other two routes from a base. The chain of such bases ends in a class with a
default for it, or in one where it is no property (`Graph.exists_source`).
-/

namespace DefiniteInit

/-! ## Bodies -/

namespace Scope

/-- The attribute is assigned at the start, or the body assigns it and it is no property, or a call
in the body runs the initializer of a base that always defines it. -/
def Credits (sc : Scope) (body : List Stmt) (entry : AttrSet) (a : Name) : Prop :=
  a ∈ entry ∨ (a ∈ Stmt.assignedAll body ∧ a ∉ sc.judge.properties) ∨
    ∃ target ∈ Stmt.superTargetsAll body, ∃ base facts,
      sc.baseCall target = .analyzed base facts ∧ a ∈ facts.alwaysDefined

/-- All that is assigned in the state is credited to the body. -/
def Credited (sc : Scope) (body : List Stmt) (entry : AttrSet) (s : State) : Prop :=
  ∀ a ∈ s.defined, sc.Credits body entry a

variable {sc : Scope} {body : List Stmt} {entry : AttrSet}

theorem lasts_credited : Lasts (sc.Credited body entry) :=
  fun _ _ h hs a ha => hs a (h.defined a ha)

/-- What the body assigns is credited to it. -/
theorem credited_define (s : State) (a : Name) (ha : a ∈ Stmt.assignedAll body)
    (hnot : a ∉ sc.judge.properties) (h : sc.Credited body entry s) :
    sc.Credited body entry (s.define a) := by
  intro b hb
  rcases State.mem_defined_define hb with hb | rfl
  · exact h b hb
  · exact .inr (.inl ⟨ha, hnot⟩)

/-- What a call gives is credited to the call. -/
theorem weakens_baseCall {target : SuperTarget} (ht : target ∈ Stmt.superTargetsAll body) :
    (sc.baseCall target).Weakens (sc.Credited body entry) (sc.baseCall target) where
  fold {s s'} h := by
    refine ⟨h.toWeakens.fold (sc.baseCall target), fun a ha => ?_⟩
    rcases BaseCall.mem_defined_fold ha with ha | ⟨base, facts, hcall, ha⟩
    · exact h.keeps a ha
    · exact .inr (.inr ⟨target, ht, base, facts, hcall, ha⟩)
  escapes _ := id

/-- All that is assigned where the body completes is credited to it. -/
theorem credited_exits (sc : Scope) (body : List Stmt) (m : Mode) (s : State) :
    ∀ e ∈ (sc.block m body s).exits, sc.Credited body s.defined e.state := by
  have hcompare : Comparison sc sc (· ∈ Stmt.assignedAll body) (· ∈ Stmt.superTargetsAll body) _
      (WalksUnder (sc.Credited body s.defined)) :=
    comparison_under lasts_credited (.refl sc.judge) credited_define fun _ => weakens_baseCall
  have hwalks := hcompare.block body m (fun _ => id) fun _ => id
  -- The walk is compared with itself; only what it keeps is of interest.
  exact (hwalks.under ⟨.refl s, fun _ => .inl⟩).keeps_exits

end Scope

/-! ## Classes -/

namespace Graph

variable {g : Graph} {known : ClassTable Facts} {o : Options} {id : ClassId} {a : Name}

/-- What is in the summary of a body is credited to it. -/
theorem credits_of_mem_walkBody {body : List Stmt} {entry : State}
    (h : a ∈ (g.walkBody known o id body entry).defined) :
    (g.scope known o id).Credits body entry.defined a := by
  obtain ⟨hne, hexits, -⟩ := Summary.mem_defined_ofOutcome.1 h
  obtain ⟨e, he⟩ := List.exists_mem_of_ne_nil _ hne
  exact Scope.credited_exits _ body .top entry e he a (hexits e he)

/-- What the facts of a class say it always defines, and what stands against it. -/
theorem mem_factsOf : a ∈ (g.factsOf known o id).alwaysDefined ↔
    g.isTrait id = false ∧ g.seedReason? known id = none ∧ a ∉ g.deletableAttrs id ∧
      (a ∈ g.defaultedAttrs id ∨ a ∈ (g.initialFacts known o id).alwaysDefined) := by
  unfold factsOf
  cases g.isTrait id with
  | true => simp [Facts.ofTrait]
  | false =>
    cases g.seedReason? known id with
    | some reason => simp [Facts.seeded]
    | none => simp [and_comm]

theorem initialFacts_of_initializer {init : Initializer}
    (h : (g.class? id).bind Class.initializer = some init) :
    (g.initialFacts known o id).alwaysDefined =
      (g.walkBody known o id init.body ⟨g.defaultedAttrs id, false⟩).defined := by
  rw [initialFacts, h]

/-- A class without an initializer has what its primary base always defines. -/
theorem mem_initialFacts_of_no_initializer (h : (g.class? id).bind Class.initializer = none) :
    a ∈ (g.initialFacts known o id).alwaysDefined ↔
      ∃ base, g.primaryBase? id = some base ∧ AlwaysDefines known base a := by
  rw [initialFacts, h]
  cases hbase : g.primaryBase? id with
  | none => simp
  | some base => cases hfacts : known.get? base <;> simp [AlwaysDefines, hfacts]

/-- As an object of the class is initialised, the initializer of the base runs: the class has none
of its own and inherits that one, or its own calls it. -/
def RunsBase (g : Graph) (known : ClassTable Facts) (id base : ClassId) : Prop :=
  match (g.class? id).bind Class.initializer with
  | none => g.primaryBase? id = some base
  | some init => ∃ target ∈ Stmt.superTargetsAll init.body, ∃ facts,
      g.baseCall known id target = .analyzed base facts

/-- The class, or one it derives from, declares the property. -/
def HasProperty (g : Graph) (id : ClassId) (a : Name) : Prop :=
  ∃ c, g.DerivesFrom id c ∧ ∃ cls, g.class? c = some cls ∧ a ∈ cls.properties

theorem mem_lineageProperties : a ∈ g.lineageProperties id ↔ g.HasProperty id a := by
  rw [lineageProperties, AttrSet.mem_ofList, List.mem_flatMap]
  refine exists_congr fun c => and_congr mem_lineage ?_
  cases g.class? c <;> simp

/-- The body of the initializer of the class assigns the attribute, if the class has one. -/
def Assigns (g : Graph) (id : ClassId) (a : Name) : Prop :=
  ∃ init, (g.class? id).bind Class.initializer = some init ∧ a ∈ Stmt.assignedAll init.body

theorem RunsBase.mem_localBases {base : ClassId} (h : g.RunsBase known id base) :
    base ∈ g.localBases id := by
  unfold RunsBase at h
  split at h
  · exact mem_localBases_of_primaryBase? h
  · obtain ⟨target, -, facts, hcall⟩ := h
    exact (baseCall_eq_analyzed hcall).1

/-- A base whose initializer is run is above the class. -/
theorem derivesFrom_of_runsBase {c : ClassId} (h : Relation.ReflTransGen (g.RunsBase known) id c) :
    g.DerivesFrom id c := Relation.ReflTransGen.mono (fun _ _ => RunsBase.mem_localBases) _ _ h

/-- The routes by which an attribute comes to be always defined. -/
theorem routes_of_mem_initialFacts (h : a ∈ (g.initialFacts known o id).alwaysDefined) :
    a ∈ g.defaultedAttrs id ∨ (g.Assigns id a ∧ ¬g.HasProperty id a) ∨
      ∃ base, g.RunsBase known id base ∧ AlwaysDefines known base a := by
  cases hinit : (g.class? id).bind Class.initializer with
  | none =>
    obtain ⟨base, hbase, hdef⟩ := (mem_initialFacts_of_no_initializer hinit).1 h
    refine .inr (.inr ⟨base, ?_, hdef⟩)
    rwa [RunsBase, hinit]
  | some init =>
    rw [initialFacts_of_initializer hinit] at h
    rcases credits_of_mem_walkBody h with
      hd | ⟨hassigned, hnot⟩ | ⟨target, ht, base, facts, hcall, hmem⟩
    · exact .inl hd
    · exact .inr (.inl ⟨⟨init, hinit, hassigned⟩, fun hp => hnot (mem_lineageProperties.2 hp)⟩)
    · refine .inr (.inr ⟨base, ?_, facts, (baseCall_eq_analyzed hcall).2, hmem⟩)
      rw [RunsBase, hinit]
      exact ⟨target, ht, facts, hcall⟩

/-- What an analysis says a class always defines. -/
theorem alwaysDefines_analyze_iff (h : g.Acyclic) : AlwaysDefines (g.analyze o) id a ↔ id ∈ g.ids ∧
    g.isTrait id = false ∧ g.seedReason? (g.analyze o) id = none ∧ a ∉ g.deletableAttrs id ∧
      (a ∈ g.defaultedAttrs id ∨ a ∈ (g.initialFacts (g.analyze o) o id).alwaysDefined) := by
  rw [← mem_factsOf]
  constructor
  · rintro ⟨facts, hfacts, ha⟩
    have hid := mem_ids_of_get?_analyze hfacts
    rw [solves_analyze h o id hid] at hfacts
    obtain rfl := Option.some.inj hfacts
    exact ⟨hid, ha⟩
  · rintro ⟨hid, ha⟩
    exact ⟨_, solves_analyze h o id hid, ha⟩

/-- What a class always defines it has by one of four routes. -/
theorem routes_of_alwaysDefines (h : g.Acyclic) (ha : AlwaysDefines (g.analyze o) id a) :
    a ∈ g.defaultedAttrs id ∨ (g.Assigns id a ∧ ¬g.HasProperty id a) ∨
      ∃ base, g.RunsBase (g.analyze o) id base ∧ AlwaysDefines (g.analyze o) base a := by
  obtain ⟨-, -, -, -, hd | hinitial⟩ := (alwaysDefines_analyze_iff h).1 ha
  · exact .inl hd
  · exact routes_of_mem_initialFacts hinitial

/-- The chain of bases from which a property comes ends in a class that has a default for it, or
in one where it is no property. -/
theorem exists_source (h : g.Acyclic) : ∀ id, AlwaysDefines (g.analyze o) id a →
    ∃ c, Relation.ReflTransGen (g.RunsBase (g.analyze o)) id c ∧ AlwaysDefines (g.analyze o) c a ∧
      (a ∈ g.defaultedAttrs c ∨ ¬g.HasProperty c a) := by
  refine h.induction fun id ih ha => ?_
  rcases routes_of_alwaysDefines h ha with hd | ⟨-, hnot⟩ | ⟨base, hruns, hbase⟩
  · exact ⟨id, .refl, ha, .inl hd⟩
  · exact ⟨id, .refl, ha, .inr hnot⟩
  · obtain ⟨c, hc, hdef, hsource⟩ := ih base hruns.mem_localBases hbase
    exact ⟨c, .head hruns hc, hdef, hsource⟩

/-- If no class gets a property by a default, nor from a base where it is none, then no class has
one from anywhere. -/
theorem not_alwaysDefines_of_hasProperty (h : g.Acyclic)
    (hnew : ∀ id, g.HasProperty id a → AlwaysDefines (g.analyze o) id a → a ∉ g.defaultedAttrs id ∧
      ∀ base, g.RunsBase (g.analyze o) id base → AlwaysDefines (g.analyze o) base a →
        g.HasProperty base a) :
    ∀ id, g.HasProperty id a → ¬AlwaysDefines (g.analyze o) id a := by
  refine h.induction fun id ih hp ha => ?_
  obtain ⟨hdefault, hbases⟩ := hnew id hp ha
  rcases routes_of_alwaysDefines h ha with hd | ⟨-, hnot⟩ | ⟨base, hruns, hbase⟩
  · exact hdefault hd
  · exact hnot hp
  · exact ih base hruns.mem_localBases (hbases base hruns hbase) hbase

end Graph

namespace CompileUnit

/-- What a class always defines it has by a default, by an assignment to an attribute that is no
property, or from a base whose initializer runs. A property that is always defined comes down a
chain of such bases from a class that has a default for it, or in which it is no property. -/
theorem alwaysDefined_property_sources (names : NameTable) (decls : List Declaration)
    (u : CompileUnit) (hbuild : build names decls = .ok u) (hacyclic : u.graph.Acyclic)
    (o : Options) :
    ∃ report u', u.analyze o = .ok (report, u') ∧ u'.graph = u.graph ∧
      (∀ id a, Graph.AlwaysDefines u'.facts id a → a ∈ u'.graph.defaultedAttrs id ∨
        (u'.graph.Assigns id a ∧ ¬u'.graph.HasProperty id a) ∨
        ∃ base, u'.graph.RunsBase u'.facts id base ∧ Graph.AlwaysDefines u'.facts base a) ∧
      (∀ id a, u'.graph.HasProperty id a → Graph.AlwaysDefines u'.facts id a →
        ∃ c, Relation.ReflTransGen (u'.graph.RunsBase u'.facts) id c ∧
          Graph.AlwaysDefines u'.facts c a ∧
          (a ∈ u'.graph.defaultedAttrs c ∨ ¬u'.graph.HasProperty c a)) ∧
      ((∀ id a, u'.graph.HasProperty id a → ¬Graph.AlwaysDefines u'.facts id a) ↔
        ∀ id a, u'.graph.HasProperty id a → Graph.AlwaysDefines u'.facts id a →
          a ∉ u'.graph.defaultedAttrs id ∧
          ∀ base, u'.graph.RunsBase u'.facts id base → Graph.AlwaysDefines u'.facts base a →
            u'.graph.HasProperty base a) := by
  have hempty : ∀ id ∈ u.graph.ids, u.facts.get? id = none :=
    fun id _ => get?_facts_of_build hbuild id
  refine ⟨_, _, analyze_eq_ok_of_acyclic hempty hacyclic o, rfl,
    fun _ _ => Graph.routes_of_alwaysDefines hacyclic,
    fun id _ _ => Graph.exists_source hacyclic id,
    fun hnone id a hp ha => absurd ha (hnone id a hp), ?_⟩
  exact fun hnew id a => Graph.not_alwaysDefines_of_hasProperty hacyclic (fun id => hnew id a) id

/-- A class that assigns an attribute, a class that derives from it and declares a property of that
name, and a class below that calls the initializer the second inherits. -/
def shadowing : List Declaration :=
  [(Declaration.named ⟨20⟩).withInitializer ⟨[.setAttr ⟨30⟩ (.literal .none)], .empty⟩,
    ((Declaration.named ⟨21⟩).addBase ⟨20⟩).addProperty ⟨30⟩,
    ((Declaration.named ⟨22⟩).addBase ⟨21⟩).withInitializer ⟨[.callInit .next []], .empty⟩]

/-- The unit of the three classes, before it is analyzed. -/
def shadowingUnit : CompileUnit := ⟨.fresh, .ofDeclarations shadowing, ∅, ∅⟩

theorem hasProperty_shadowing {id : ClassId} (h : shadowingUnit.graph.DerivesFrom id ⟨1⟩) :
    shadowingUnit.graph.HasProperty id ⟨30⟩ :=
  ⟨⟨1⟩, h, _, rfl, by decide +kernel⟩

/-- The property of the last class comes from the first, by way of the second. -/
theorem alwaysDefined_property_sources_shadowing : build .fresh shadowing = .ok shadowingUnit ∧
    shadowingUnit.graph.Acyclic ∧
    ∃ report u', shadowingUnit.analyze .default = .ok (report, u') ∧
      u'.graph.HasProperty ⟨2⟩ ⟨30⟩ ∧ Graph.AlwaysDefines u'.facts ⟨2⟩ ⟨30⟩ ∧
      ∃ c, Relation.ReflTransGen (u'.graph.RunsBase u'.facts) ⟨2⟩ c ∧
        Graph.AlwaysDefines u'.facts c ⟨30⟩ ∧ ¬u'.graph.HasProperty c ⟨30⟩ := by
  have hbuild : build .fresh shadowing = .ok shadowingUnit := rfl
  have hacyclic : shadowingUnit.graph.Acyclic := Graph.findCycle?_eq_none_iff.1 (by decide +kernel)
  obtain ⟨report, u', hanalyze, hgraph, -, hsource, -⟩ :=
    alwaysDefined_property_sources .fresh shadowing shadowingUnit hbuild hacyclic .default
  obtain ⟨-, -, -, rfl⟩ := analyze_eq_ok_iff.1 hanalyze
  have hproperty : shadowingUnit.graph.HasProperty ⟨2⟩ ⟨30⟩ :=
    hasProperty_shadowing (.single (by decide +kernel))
  have hdefined : Graph.AlwaysDefines (shadowingUnit.graph.analyze .default) ⟨2⟩ ⟨30⟩ :=
    ⟨⟨.ofList [⟨30⟩], false, .analyzed, none⟩, by decide +kernel, by decide +kernel⟩
  refine ⟨hbuild, hacyclic, report, _, hanalyze, hproperty, hdefined, ?_⟩
  obtain ⟨c, hc, hdef, hdefault | hnot⟩ := hsource ⟨2⟩ ⟨30⟩ hproperty hdefined
  · have hderives : shadowingUnit.graph.DerivesFrom ⟨2⟩ c := Graph.derivesFrom_of_runsBase hc
    exact absurd (Graph.mem_defaultedAttrs_of_derivesFrom hderives hdefault) (by decide +kernel)
  · exact ⟨c, hc, hdef, hnot⟩

/-- The property of the second class is always defined. -/
theorem not_property_free_shadowing : ¬∀ report u',
    shadowingUnit.analyze .default = .ok (report, u') →
      ∀ id a, u'.graph.HasProperty id a → ¬Graph.AlwaysDefines u'.facts id a := by
  intro h
  have hanalyze := (analyze_eq_ok_iff (u := shadowingUnit) (o := .default)).2
    ⟨fun _ _ => rfl, by decide +kernel, rfl, rfl⟩
  refine h _ _ hanalyze ⟨1⟩ ⟨30⟩ (hasProperty_shadowing .refl) ?_
  exact ⟨⟨.ofList [⟨30⟩], false, .inherited ⟨0⟩, none⟩, by decide +kernel, by decide +kernel⟩

end CompileUnit

/-! ## Bodies from any state -/

namespace Graph

/-- A call in the body runs the initializer of a base that always defines the attribute. -/
def CallDefines (g : Graph) (known : ClassTable Facts) (id : ClassId) (body : List Stmt)
    (a : Name) : Prop :=
  ∃ target ∈ Stmt.superTargetsAll body, ∃ base facts,
    g.baseCall known id target = .analyzed base facts ∧ a ∈ facts.alwaysDefined

/-- What is taken for assigned was so at the start, the body assigns it or a call in the body
defines it; a property was so at the start or a call defines it. -/
structure OwedTo (g : Graph) (known : ClassTable Facts) (id : ClassId) (body : List Stmt)
    (entry defined : AttrSet) : Prop where
  sources : ∀ a ∈ defined, a ∈ entry ∨ a ∈ assignedAttrs body ∨ g.CallDefines known id body a
  properties : ∀ a ∈ defined, g.HasProperty id a → a ∈ entry ∨ g.CallDefines known id body a

variable {g : Graph} {known : ClassTable Facts} {o : Options} {id : ClassId} {body : List Stmt}
  {entry d : AttrSet}

/-- What is credited to a body is owed to its start, its assignments and its calls. -/
theorem owedTo_of_credits (h : ∀ a ∈ d, (g.scope known o id).Credits body entry a) :
    g.OwedTo known id body entry d where
  sources a ha := by
    rcases h a ha with hentry | ⟨hassigned, -⟩ | hcall
    · exact .inl hentry
    · exact .inr (.inl (AttrSet.mem_ofList.2 hassigned))
    · exact .inr (.inr hcall)
  properties a ha hproperty := by
    rcases h a ha with hentry | ⟨-, hnot⟩ | hcall
    · exact .inl hentry
    · exact absurd (mem_lineageProperties.2 hproperty) hnot
    · exact .inr hcall

/-- In whatever surroundings a body is walked and from whatever state, all that is assigned where it
returns, where it ends and in the summary is owed to that state, to its assignments or to its calls,
and no property to an assignment. -/
theorem walk_owed_to_assignments (g : Graph) (known : ClassTable Facts) (o : Options)
    (id : ClassId) (body : List Stmt) (entry : State) :
    (∀ m, (∀ e ∈ ((g.scope known o id).block m body entry).trace.exits,
        g.OwedTo known id body entry.defined e.state.defined) ∧
      ∀ t, ((g.scope known o id).block m body entry).next = some t →
        g.OwedTo known id body entry.defined t.defined) ∧
    g.OwedTo known id body entry.defined (g.walkBody known o id body entry).defined := by
  refine ⟨fun m => ⟨fun e he => ?_, fun t ht => ?_⟩, owedTo_of_credits fun a =>
    credits_of_mem_walkBody⟩
  · exact owedTo_of_credits
      (Scope.credited_exits _ body m entry e (List.mem_append_left _ he))
  · have hend : (⟨t, .fellThrough, .empty⟩ : Exit) ∈
        ((g.scope known o id).block m body entry).exits := by
      simp [Outcome.exits, ht]
    exact owedTo_of_credits (Scope.credited_exits _ body m entry _ hend)

/-- A call of the next initializer, and a loop that binds an attribute in its head and returns in
its first round. -/
def boundInHead : List Stmt :=
  [.callInit .next [],
    .forLoop (.ofList [.var ⟨8⟩, .ofSelf ⟨31⟩]) (.var .param ⟨9⟩) [.leave none] [] .empty]

/-- Of the two attributes assigned at the return, the property is owed to the call. -/
theorem walk_owed_to_assignments_boundInHead :
    ∃ (g : Graph) (known : ClassTable Facts) (e : Exit), g.HasProperty ⟨1⟩ ⟨30⟩ ∧
      e ∈ ((g.scope known .default ⟨1⟩).block .top boundInHead .start).trace.exits ∧
      e.state.defined.toList = [⟨30⟩, ⟨31⟩] ∧ assignedAttrs boundInHead = .ofList [⟨31⟩] ∧
      g.CallDefines known ⟨1⟩ boundInHead ⟨30⟩ := by
  have hproperty : CompileUnit.shadowingUnit.graph.HasProperty ⟨1⟩ ⟨30⟩ :=
    CompileUnit.hasProperty_shadowing .refl
  obtain ⟨hwalk, -⟩ := walk_owed_to_assignments CompileUnit.shadowingUnit.graph
    (CompileUnit.shadowingUnit.graph.analyze .default) .default ⟨1⟩ boundInHead .start
  have he : (⟨⟨.ofList [⟨30⟩, ⟨31⟩], false⟩, .returned, .empty⟩ : Exit) ∈
      ((CompileUnit.shadowingUnit.graph.scope
        (CompileUnit.shadowingUnit.graph.analyze .default) .default ⟨1⟩).block .top boundInHead
          .start).trace.exits := by decide +kernel
  have howed := ((hwalk .top).1 _ he).properties ⟨30⟩ (by decide +kernel) hproperty
  exact ⟨_, _, _, hproperty, he, by decide +kernel, by decide +kernel,
    howed.resolve_left (by decide +kernel)⟩

end Graph

end DefiniteInit
