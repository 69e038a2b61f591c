import DefiniteInit.Proofs.Credits
import DefiniteInit.Proofs.ForeignAncestry
import DefiniteInit.Proofs.SilentWalks

/-!
# Strict and lenient analyses

A strict analysis takes a read of a module-level variable for an escape, a lenient one does not. So
a class that is compromised for the lenient one is so for the strict one, and the two have the same
facts of any class that is not compromised for the strict one
(`Graph.sameUnlessCompromised_analyze`).

Wherever an initializer completes, the strict walk knows no more than the lenient one. But the
summary of an initializer counts the states at its escapes too, and only the first escape on a path
is noted. An early escape that only the strict walk notes hides a later one, at which less may be
assigned. So a class may always define more for the strict analysis: of what the strict one says, it
loses in the lenient one exactly what is missing in a state where the lenient walk notes an escape
(`Graph.EscapesWithout`, `Graph.alwaysDefines_lenient_iff`).
-/

namespace DefiniteInit

namespace Options

/-- The options with reads of module-level variables taken for escapes. -/
def strict (o : Options) : Options := { o with strictMutableGlobals := true }

/-- The options with reads of module-level variables not taken for escapes. -/
def lenient (o : Options) : Options := { o with strictMutableGlobals := false }

end Options

namespace Graph

variable {g : Graph} {known known' : ClassTable Facts} {o : Options} {id : ClassId} {a : Name}

/-! ## Two tables of facts -/

/-- Both tables have facts of the class, and the same ones unless it is compromised for the
first. -/
def SameUnlessCompromised (known known' : ClassTable Facts) (id : ClassId) : Prop :=
  ∃ f f', known.get? id = some f ∧ known'.get? id = some f' ∧ (f.compromised = false → f' = f)

/-- With two tables that agree on every trusted base, a call is the same, or it goes to one base
with the facts of either table. -/
theorem baseCallOn_cases {b : Base} (hb : b ∈ g.bases id)
    (h : ∀ base ∈ g.localBases id, SameUnlessCompromised known known' base) :
    g.baseCallOn known' b = g.baseCallOn known b ∨ ∃ base f f', base ∈ g.localBases id ∧
      known.get? base = some f ∧ known'.get? base = some f' ∧ (f.compromised = false → f' = f) ∧
      g.baseCallOn known b = .analyzed base f ∧ g.baseCallOn known' b = .analyzed base f' := by
  cases b with
  | foreign _ => exact .inl rfl
  | inUnit base =>
    have hbase := mem_localBases.2 hb
    obtain ⟨f, f', hf, hf', hsame⟩ := h base hbase
    cases hinert : (g.class? base).any fun c => c.isTrait || c.openToForeign with
    | true => exact .inl (by simp only [baseCallOn, hinert, if_true])
    | false =>
      refine .inr ⟨base, f, f', hbase, hf, hf', hsame, ?_, ?_⟩
      · simp only [baseCallOn, hinert, hf, Bool.false_eq_true, if_false]
      · simp only [baseCallOn, hinert, hf', Bool.false_eq_true, if_false]

/-- A call is the same with both tables, or runs the initializer of a base of which both have
facts. -/
theorem baseCall_cases (h : ∀ base ∈ g.localBases id, SameUnlessCompromised known known' base)
    (target : SuperTarget) :
    g.baseCall known' id target = g.baseCall known id target ∨ ∃ base f f', base ∈ g.localBases id ∧
      known.get? base = some f ∧ known'.get? base = some f' ∧ (f.compromised = false → f' = f) ∧
      g.baseCall known id target = .analyzed base f ∧
      g.baseCall known' id target = .analyzed base f' := by
  cases target with
  | next =>
    cases hb : (g.bases id).head? with
    | none => exact .inl (by simp only [baseCall, hb])
    | some b =>
      simp only [baseCall, hb]
      exact baseCallOn_cases (List.mem_of_head? hb) h
  | explicit name =>
    cases hb : (g.bases id).find? (g.isNamed name) with
    | none => exact .inl (by simp only [baseCall, hb])
    | some b =>
      simp only [baseCall, hb]
      exact baseCallOn_cases (List.mem_of_find?_eq_some hb) h

/-- The lenient scope raises fewer complaints than the strict one. -/
theorem milder_scope (known known' : ClassTable Facts) (o : Options) (id : ClassId) :
    (g.scope known o.strict id).judge.Milder (g.scope known' o.lenient id).judge :=
  ⟨rfl, fun _ => rfl⟩

/-! ## Classes that are not compromised -/

/-- Calls that let nothing escape are the same with both tables. -/
theorem baseCall_eq_of_escape?_eq_none
    (h : ∀ base ∈ g.localBases id, SameUnlessCompromised known known' base) (target : SuperTarget)
    (span : Span) (hnone : (g.baseCall known id target).escape? span = none) :
    g.baseCall known' id target = g.baseCall known id target := by
  rcases baseCall_cases h target with heq | ⟨base, f, f', -, -, -, hsame, hcall, hcall'⟩
  · exact heq
  · have htrusted : f.compromised = false := by simpa [hcall, BaseCall.escape?] using hnone
    rw [hcall, hcall', hsame htrusted]

/-- An initializer that the strict walk finds nothing wrong with gets the same facts from the
lenient walk. -/
theorem initialFacts_eq_of_not_compromised
    (h : ∀ base ∈ g.localBases id, SameUnlessCompromised known known' base)
    (htrusted : (g.initialFacts known o.strict id).compromised = false) :
    g.initialFacts known' o.lenient id = g.initialFacts known o.strict id := by
  cases hinit : (g.class? id).bind Class.initializer with
  | some init =>
    simp only [initialFacts, hinit, walkBody] at htrusted ⊢
    have hsilent : ((g.scope known o.strict id).block .top init.body
        ⟨g.defaultedAttrs id, false⟩).trace.escapes = [] := Summary.escapes_eq_nil htrusted
    -- No escape was recorded, so the strict walk never took a path the lenient one would not.
    have hblock := Scope.block_eq_of_silent (milder_scope known known' o id)
      (baseCall_eq_of_escape?_eq_none h) init.body .top rfl hsilent
    rw [hblock]
    rfl
  | none =>
    cases hbase : g.primaryBase? id with
    | none => simp only [initialFacts, hinit, hbase]
    | some base =>
      obtain ⟨f, f', hf, hf', hsame⟩ := h base (mem_localBases_of_primaryBase? hbase)
      simp only [initialFacts, hinit, hbase, hf, hf'] at htrusted ⊢
      rw [hsame htrusted]

/-- The facts of a class that is not compromised for the strict analysis are those that the lenient
one finds. -/
theorem sameUnlessCompromised_analyze (h : g.Acyclic) (o : Options) : ∀ id, id ∈ g.ids →
    SameUnlessCompromised (g.analyze o.strict) (g.analyze o.lenient) id := by
  -- From the bases down: a class is seeded for the same reason with both options, and otherwise
  -- walks bases that agree.
  refine h.induction fun id ih hid => ?_
  refine ⟨_, _, solves_analyze h _ id hid, solves_analyze h _ id hid, fun htrusted => ?_⟩
  have hbases : ∀ base ∈ g.localBases id,
      SameUnlessCompromised (g.analyze o.strict) (g.analyze o.lenient) base :=
    fun base hbase => ih base hbase (mem_ids_of_mem_localBases hbase)
  have hseed := seedReason?_analyze_congr h o.lenient o.strict id
  unfold factsOf at htrusted ⊢
  cases htrait : g.isTrait id with
  | true => simp only [if_true]
  | false =>
    cases hreason : g.seedReason? (g.analyze o.strict) id with
    | some reason => simp only [hseed, hreason, Bool.false_eq_true, if_false]
    | none =>
      simp only [htrait, hreason, Bool.false_eq_true, if_false] at htrusted
      simp only [hseed, hreason, Bool.false_eq_true, if_false,
        initialFacts_eq_of_not_compromised hbases htrusted]

/-! ## What is always defined -/

/-- Calls add no more with the first table, if the bases always define no more there. -/
theorem weakens_baseCall_of_subset
    (h : ∀ base ∈ g.localBases id, SameUnlessCompromised known known' base)
    (hsub : ∀ base ∈ g.localBases id, ∀ a, AlwaysDefines known base a → AlwaysDefines known' base a)
    (target : SuperTarget) :
    (g.baseCall known id target).Weakens (fun _ => True) (g.baseCall known' id target) := by
  rcases baseCall_cases h target with heq | ⟨base, f, f', hbase, hf, hf', hsame, hcall, hcall'⟩
  · rw [heq]
    exact ⟨fun hs => ⟨hs.toWeakens.fold _, trivial⟩, fun _ hsome => hsome⟩
  · rw [hcall, hcall']
    have hattrs : f.alwaysDefined.toList ⊆ f'.alwaysDefined.toList := by
      intro a ha
      obtain ⟨f'', hf'', hmem⟩ := hsub base hbase a ⟨f, hf, ha⟩
      obtain rfl : f' = f'' := Option.some.inj (hf'.symm.trans hf'')
      exact hmem
    refine ⟨fun hs => ⟨hs.toWeakens.defineAll hattrs, trivial⟩, fun span hsome => ?_⟩
    cases htrusted : f.compromised with
    | true => simp [BaseCall.escape?, htrusted]
    | false => simp [BaseCall.escape?, hsame htrusted, htrusted] at hsome

/-- The initializer of the class lets the receiver escape where the attribute is not assigned, and
the class has no default for it. -/
def EscapesWithout (g : Graph) (known : ClassTable Facts) (o : Options) (id : ClassId)
    (a : Name) : Prop :=
  a ∉ g.defaultedAttrs id ∧ ∃ init, (g.class? id).bind Class.initializer = some init ∧
    ∃ e ∈ ((g.scope known o id).block .top init.body ⟨g.defaultedAttrs id, false⟩).trace.escapes,
      a ∉ e.defined

/-- Where an initializer completes the strict walk knows no more than the lenient one, so only an
escape can make a difference. -/
theorem mem_walkBody_lenient (h : ∀ base ∈ g.localBases id, SameUnlessCompromised known known' base)
    (hsub : ∀ base ∈ g.localBases id, ∀ a, AlwaysDefines known base a → AlwaysDefines known' base a)
    {body : List Stmt} {entry : State} (ha : a ∈ (g.walkBody known o.strict id body entry).defined)
    (hescapes : ∀ e ∈ ((g.scope known' o.lenient id).block .top body entry).trace.escapes,
      a ∈ e.defined) :
    a ∈ (g.walkBody known' o.lenient id body entry).defined := by
  have hcompare : Scope.Comparison (g.scope known o.strict id) (g.scope known' o.lenient id)
      (fun _ => True) (fun _ => True) _ (WalksUnder fun _ => True) :=
    Scope.comparison_under (fun _ _ _ _ => trivial) (milder_scope known known' o id)
      (fun _ _ _ _ _ => trivial) fun target _ => weakens_baseCall_of_subset h hsub target
  have hwalks := hcompare.block body .top (fun _ _ => trivial) fun _ _ => trivial
  exact (hwalks.under ⟨.refl entry, trivial⟩).mem_defined ha hescapes

/-- For a class whose bases always define no more for the strict analysis, that holds of the class
exactly if it does not let the receiver escape without an attribute it always defines there. -/
theorem alwaysDefines_lenient_iff (h : g.Acyclic)
    (hsub : ∀ base ∈ g.localBases id, ∀ a, AlwaysDefines (g.analyze o.strict) base a →
      AlwaysDefines (g.analyze o.lenient) base a)
    (ha : AlwaysDefines (g.analyze o.strict) id a) :
    AlwaysDefines (g.analyze o.lenient) id a ↔
      ¬g.EscapesWithout (g.analyze o.lenient) o.lenient id a := by
  constructor
  -- What is always defined is defined at every escape of the walk.
  · rintro hdef ⟨hnot, init, hinit, e, he, hlacks⟩
    obtain ⟨-, -, -, -, hinitial⟩ := (alwaysDefines_analyze_iff h).1 hdef
    have hmem := hinitial.resolve_left hnot
    rw [initialFacts_of_initializer hinit] at hmem
    exact hlacks ((Summary.mem_defined_ofOutcome.1 hmem).2.2 e he)
  · intro hnone
    obtain ⟨hid, htrait, hseed, hdeletable, hsource⟩ := (alwaysDefines_analyze_iff h).1 ha
    rw [seedReason?_analyze_congr h o.strict o.lenient] at hseed
    refine (alwaysDefines_analyze_iff h).2
      ⟨hid, htrait, hseed, hdeletable, or_iff_not_imp_left.2 fun hnot => ?_⟩
    have hmem := hsource.resolve_left hnot
    -- A class without an initializer has what its primary base has; one with an initializer is
    -- walked again.
    cases hinit : (g.class? id).bind Class.initializer with
    | none =>
      rw [mem_initialFacts_of_no_initializer hinit] at hmem ⊢
      obtain ⟨base, hbase, hdef⟩ := hmem
      exact ⟨base, hbase, hsub base (mem_localBases_of_primaryBase? hbase) a hdef⟩
    | some init =>
      rw [initialFacts_of_initializer hinit] at hmem ⊢
      refine mem_walkBody_lenient (fun base hbase => ?_) hsub hmem fun e he => ?_
      · exact sameUnlessCompromised_analyze h o base (mem_ids_of_mem_localBases hbase)
      · by_contra hlacks
        exact hnone ⟨hnot, init, hinit, e, he, hlacks⟩

/-- If no class above lets the receiver escape without what it always defines for the strict
analysis, all of them always define it for the lenient one. -/
theorem alwaysDefines_lenient_of_lineage (h : g.Acyclic) : ∀ id,
    (∀ c, g.DerivesFrom id c → ∀ a, AlwaysDefines (g.analyze o.strict) c a →
      ¬g.EscapesWithout (g.analyze o.lenient) o.lenient c a) →
    ∀ a, AlwaysDefines (g.analyze o.strict) id a → AlwaysDefines (g.analyze o.lenient) id a := by
  refine h.induction fun id ih hall a ha => ?_
  have hsub : ∀ base ∈ g.localBases id, ∀ a, AlwaysDefines (g.analyze o.strict) base a →
      AlwaysDefines (g.analyze o.lenient) base a :=
    fun base hbase => ih base hbase fun c hc => hall c (.head hbase hc)
  exact (alwaysDefines_lenient_iff h hsub ha).2 (hall id .refl a ha)

end Graph

namespace CompileUnit

/-- Of two analyses that differ in whether a read of a module-level variable is an escape, the
strict one compromises more, and a class that it does not compromise has the same facts for both. A
class and all it derives from always define no more for it exactly if none of them lets the receiver
escape in the lenient walk without what it always defines for it. -/
theorem strict_alwaysDefines_iff (names : NameTable) (decls : List Declaration) (u : CompileUnit)
    (hbuild : build names decls = .ok u) (hacyclic : u.graph.Acyclic) (o : Options) :
    ∃ report report' v v',
      u.analyze { o with strictMutableGlobals := true } = .ok (report, v) ∧
      u.analyze { o with strictMutableGlobals := false } = .ok (report', v') ∧
      (∀ id ∈ u.graph.ids, ∃ f f', v.facts.get? id = some f ∧ v'.facts.get? id = some f' ∧
        (f'.compromised = true → f.compromised = true) ∧ (f.compromised = false → f' = f)) ∧
      ∀ id, (∀ c, u.graph.DerivesFrom id c → ∀ a, Graph.AlwaysDefines v.facts c a →
          Graph.AlwaysDefines v'.facts c a) ↔
        ∀ c, u.graph.DerivesFrom id c → ∀ a, Graph.AlwaysDefines v.facts c a →
          ¬u.graph.EscapesWithout v'.facts { o with strictMutableGlobals := false } c a := by
  have hempty : ∀ id ∈ u.graph.ids, u.facts.get? id = none :=
    fun id _ => get?_facts_of_build hbuild id
  refine ⟨_, _, _, _, analyze_eq_ok_of_acyclic hempty hacyclic o.strict,
    analyze_eq_ok_of_acyclic hempty hacyclic o.lenient, fun id hid => ?_, fun id => ⟨?_, ?_⟩⟩
  · obtain ⟨f, f', hf, hf', hsame⟩ := Graph.sameUnlessCompromised_analyze hacyclic o id hid
    refine ⟨f, f', hf, hf', fun hcompromised => ?_, hsame⟩
    by_contra htrusted
    rw [Bool.not_eq_true] at htrusted
    rw [hsame htrusted, htrusted] at hcompromised
    simp at hcompromised
  -- Each class of the lineage has all its bases in the lineage.
  · intro hall c hc a ha
    have hsub : ∀ base ∈ u.graph.localBases c, ∀ a,
        Graph.AlwaysDefines (u.graph.analyze o.strict) base a →
          Graph.AlwaysDefines (u.graph.analyze o.lenient) base a :=
      fun base hbase => hall base (hc.tail hbase)
    exact (Graph.alwaysDefines_lenient_iff hacyclic hsub ha).1 (hall c hc a ha)
  · intro hall c hc
    exact Graph.alwaysDefines_lenient_of_lineage hacyclic c fun d hd => hall d (hc.trans hd)

/-- A class one branch of whose initializer assigns an attribute, reads a module-level variable and
may return; after both branches the receiver is handed over and an exception raised. And a class
that inherits the initializer. -/
def overlooking : List Declaration :=
  [(Declaration.named ⟨20⟩).withInitializer
      ⟨[.branch (.var .param ⟨9⟩)
          [.setAttr ⟨30⟩ (.literal .none), .run (.var .global ⟨10⟩),
            .branch (.var .param ⟨8⟩) [.leave none] []] [],
        .run (.callNamed ⟨11⟩ [.receiver]), .throwing (.callNamed ⟨12⟩ [])], .empty⟩,
    (Declaration.named ⟨21⟩).addBase ⟨20⟩]

/-- The unit of the two classes, before it is analyzed. -/
def overlookingUnit : CompileUnit := ⟨.fresh, .ofDeclarations overlooking, ∅, ∅⟩

/-- For the strict analysis the read hides the hand-over, at which nothing need be assigned. -/
theorem alwaysDefines_overlooking :
    Graph.AlwaysDefines (overlookingUnit.graph.analyze Options.default.strict) ⟨0⟩ ⟨30⟩ :=
  ⟨⟨.ofList [⟨30⟩], true, .analyzed, some ⟨.mutableGlobal ⟨10⟩, .empty⟩⟩, by decide +kernel,
    by decide +kernel⟩

/-- The lenient analysis does not promise the attribute. -/
theorem not_alwaysDefines_overlooking :
    ¬Graph.AlwaysDefines (overlookingUnit.graph.analyze Options.default.lenient) ⟨0⟩ ⟨30⟩ := by
  have hfacts : (overlookingUnit.graph.analyze Options.default.lenient).get? ⟨0⟩ =
      some ⟨∅, true, .analyzed, some ⟨.selfValue, .empty⟩⟩ := by decide +kernel
  rintro ⟨f, hf, hmem⟩
  obtain rfl := Option.some.inj (hfacts.symm.trans hf)
  exact AttrSet.not_mem_empty _ hmem

/-- The class that inherits owes what it always defines for the strict analysis to an escape that
went unseen above it. -/
theorem strict_alwaysDefines_iff_overlooking : build .fresh overlooking = .ok overlookingUnit ∧
    overlookingUnit.graph.Acyclic ∧
    ∃ report report' v v',
      overlookingUnit.analyze { Options.default with strictMutableGlobals := true } =
        .ok (report, v) ∧
      overlookingUnit.analyze { Options.default with strictMutableGlobals := false } =
        .ok (report', v') ∧
      ∃ c a, overlookingUnit.graph.DerivesFrom ⟨1⟩ c ∧ Graph.AlwaysDefines v.facts c a ∧
        overlookingUnit.graph.EscapesWithout v'.facts
          { Options.default with strictMutableGlobals := false } c a := by
  have hbuild : build .fresh overlooking = .ok overlookingUnit := rfl
  have hacyclic : overlookingUnit.graph.Acyclic :=
    Graph.findCycle?_eq_none_iff.1 (by decide +kernel)
  obtain ⟨report, report', v, v', hstrict, hlenient, -, hiff⟩ :=
    strict_alwaysDefines_iff .fresh overlooking overlookingUnit hbuild hacyclic .default
  refine ⟨hbuild, hacyclic, report, report', v, v', hstrict, hlenient, ?_⟩
  obtain ⟨-, -, -, rfl⟩ := analyze_eq_ok_iff.1 hstrict
  obtain ⟨-, -, -, rfl⟩ := analyze_eq_ok_iff.1 hlenient
  -- If no class escaped without an attribute, the lenient analysis would promise what the strict
  -- one does.
  by_contra hnone
  push Not at hnone
  have hbase : overlookingUnit.graph.DerivesFrom ⟨1⟩ ⟨0⟩ := .single (by decide +kernel)
  have hall := (hiff ⟨1⟩).2 fun c hc a => hnone c a hc
  exact not_alwaysDefines_overlooking (hall ⟨0⟩ hbase ⟨30⟩ alwaysDefines_overlooking)

/-- The class always defines more for the strict analysis. -/
theorem not_strict_conservative_overlooking : ¬∀ report report' v v',
    overlookingUnit.analyze { Options.default with strictMutableGlobals := true } =
      .ok (report, v) →
    overlookingUnit.analyze { Options.default with strictMutableGlobals := false } =
      .ok (report', v') →
    ∀ id a, Graph.AlwaysDefines v.facts id a → Graph.AlwaysDefines v'.facts id a := by
  intro h
  have hacyclic : overlookingUnit.graph.findCycle? = none := by decide +kernel
  have hstrict := (analyze_eq_ok_iff (u := overlookingUnit) (o := Options.default.strict)).2
    ⟨fun _ _ => rfl, hacyclic, rfl, rfl⟩
  have hlenient := (analyze_eq_ok_iff (u := overlookingUnit) (o := Options.default.lenient)).2
    ⟨fun _ _ => rfl, hacyclic, rfl, rfl⟩
  exact not_alwaysDefines_overlooking
    (h _ _ _ _ hstrict hlenient ⟨0⟩ ⟨30⟩ alwaysDefines_overlooking)

end CompileUnit

end DefiniteInit
