import DefiniteInit.Proofs.Schedules

/-!
# Foreign ancestry

A class with a base from outside the unit is not looked at, and neither is a class one of whose
bases was not looked at for this reason. What is known of a base is its origin, and the origin
of a trait says no more than that it is a trait. So the reason is handed down from class to class
until it meets a trait, and no further (`Graph.passedOver_of_derivesPastTraits`,
`Graph.exists_derivesPastTraits_of_passedOver`): a class is passed over for
foreign ancestry exactly if a base from outside is named by the class, or above it by a class to
which a way leads that meets no trait (`Graph.DerivesPastTraits`).
-/

namespace DefiniteInit

namespace Graph

variable {g : Graph} {known : ClassTable Facts} {o : Options} {id : ClassId}

/-- Whether a class names a base from outside the unit. -/
def hasForeignBase (g : Graph) (id : ClassId) : Bool := (g.class? id).any Class.hasForeignBase

/-- `d` is `c`, or derives from it through bases none of which is a trait. -/
def DerivesPastTraits (g : Graph) : ClassId → ClassId → Prop :=
  Relation.ReflTransGen fun d base => base ∈ g.localBases d ∧ g.isTrait base = false

/-- The class was passed over for foreign ancestry. -/
def PassedOver (known : ClassTable Facts) (id : ClassId) : Prop :=
  ∃ facts, known.get? id = some facts ∧ facts.origin = .seeded .foreignAncestry

/-! ## One class -/

/-- A class is passed over for foreign ancestry if it has a base from outside or one that is passed
over for it. -/
theorem seedReason?_eq_foreignAncestry_iff : g.seedReason? known id = some .foreignAncestry ↔
    g.hasForeignBase id = true ∨ ∃ base ∈ g.localBases id, PassedOver known base := by
  have hbases : ((g.localBases id).any fun base =>
      (known.get? base).any (·.origin = .seeded .foreignAncestry)) = true ↔
      ∃ base ∈ g.localBases id, PassedOver known base := by
    simp [PassedOver, Option.any_eq_true]
  rw [← hbases, ← Bool.or_eq_true]
  unfold seedReason? hasForeignBase
  dsimp only
  split
  · rename_i hfrom
    exact iff_of_true rfl hfrom
  · rename_i hfrom
    refine iff_of_false ?_ hfrom
    split <;> simp

theorem seedReason?_of_ne_foreignAncestry (h : g.seedReason? known id ≠ some .foreignAncestry) :
    g.seedReason? known id =
      if (g.class? id).any Class.openToForeign then some .optedOut else none := by
  unfold seedReason? at h ⊢
  dsimp only at h ⊢
  split at h
  · exact absurd rfl h
  · rename_i hfrom
    rw [if_neg hfrom]

theorem origin_initialFacts_ne_seeded (reason : SeedReason) :
    (g.initialFacts known o id).origin ≠ .seeded reason := by
  unfold initialFacts
  split
  · simp
  · split
    · simp
    · split <;> simp

/-- A class is passed over for foreign ancestry if it is no trait and names a base from outside,
or one that was passed over for this reason. -/
theorem origin_factsOf_iff : (g.factsOf known o id).origin = .seeded .foreignAncestry ↔
    g.isTrait id = false ∧
      (g.hasForeignBase id = true ∨ ∃ base ∈ g.localBases id, PassedOver known base) := by
  rw [← seedReason?_eq_foreignAncestry_iff]
  unfold factsOf
  cases htrait : g.isTrait id with
  | true => simp [Facts.ofTrait]
  | false =>
    cases hseed : g.seedReason? known id with
    | some reason => simp [Facts.seeded]
    | none => simpa using origin_initialFacts_ne_seeded _

/-- The facts of such a class say nothing. -/
theorem factsOf_eq_seeded (h : (g.factsOf known o id).origin = .seeded .foreignAncestry) :
    g.factsOf known o id = .seeded .foreignAncestry := by
  obtain ⟨htrait, hfrom⟩ := origin_factsOf_iff.1 h
  simp [factsOf, htrait, seedReason?_eq_foreignAncestry_iff.2 hfrom]

/-! ## All classes -/

/-- The same for the facts of an analysis, in which traits stop the search. -/
theorem passedOver_analyze_iff (h : g.Acyclic) (hid : id ∈ g.ids) :
    PassedOver (g.analyze o) id ↔ g.isTrait id = false ∧
      (g.hasForeignBase id = true ∨ ∃ base ∈ g.localBases id, PassedOver (g.analyze o) base) := by
  rw [← origin_factsOf_iff (o := o), PassedOver, solves_analyze h o id hid]
  simp

/-- The reason is handed down past classes that are no traits. -/
theorem passedOver_of_derivesPastTraits (h : g.Acyclic) {c : ClassId}
    (hid : id ∈ g.ids) (htrait : g.isTrait id = false) (hc : g.DerivesPastTraits id c)
    (hforeign : g.hasForeignBase c = true) : PassedOver (g.analyze o) id := by
  induction hc using Relation.ReflTransGen.head_induction_on with
  | refl => exact (passedOver_analyze_iff h hid).2 ⟨htrait, Or.inl hforeign⟩
  | head hbase _ ih =>
    have hpassed := ih (mem_ids_of_mem_localBases hbase.1) hbase.2
    exact (passedOver_analyze_iff h hid).2 ⟨htrait, Or.inr ⟨_, hbase.1, hpassed⟩⟩

theorem mem_ids_of_passedOver (h : PassedOver (g.analyze o) id) : id ∈ g.ids := by
  obtain ⟨facts, hfacts, -⟩ := h
  exact mem_ids_of_get?_analyze hfacts

/-- It comes from a base from outside, on a way that meets no trait. -/
theorem exists_derivesPastTraits_of_passedOver (h : g.Acyclic) :
    PassedOver (g.analyze o) id → ∃ c, g.DerivesPastTraits id c ∧ g.hasForeignBase c = true := by
  induction id using h.induction with
  | hstep id ih =>
    intro hpassed
    obtain ⟨-, hforeign | ⟨base, hbase, habove⟩⟩ :=
      (passedOver_analyze_iff h (mem_ids_of_passedOver hpassed)).1 hpassed
    · exact ⟨id, .refl, hforeign⟩
    · obtain ⟨c, hc, hforeign⟩ := ih base hbase habove
      have htrait := ((passedOver_analyze_iff h (mem_ids_of_passedOver habove)).1 habove).1
      exact ⟨c, .head ⟨hbase, htrait⟩ hc, hforeign⟩

/-- A class is passed over if a way that meets no trait leads to a base from outside. The induction
is along the bases. -/
theorem passedOver_iff (h : g.Acyclic) (hid : id ∈ g.ids) (htrait : g.isTrait id = false) :
    PassedOver (g.analyze o) id ↔ ∃ c, g.DerivesPastTraits id c ∧ g.hasForeignBase c = true :=
  ⟨exists_derivesPastTraits_of_passedOver h,
    fun ⟨_, hc, hforeign⟩ => passedOver_of_derivesPastTraits h hid htrait hc hforeign⟩

/-- Whether a class is passed over does not depend on the options. -/
theorem passedOver_analyze_congr (h : g.Acyclic) (o o' : Options) (id : ClassId) :
    PassedOver (g.analyze o) id ↔ PassedOver (g.analyze o') id := by
  induction id using h.induction with
  | hstep id ih =>
    by_cases hid : id ∈ g.ids
    · rw [passedOver_analyze_iff h hid, passedOver_analyze_iff h hid]
      exact and_congr_right fun _ => or_congr_right
        (exists_congr fun base => and_congr_right fun hbase => ih base hbase)
    · exact iff_of_false (fun hp => hid (mem_ids_of_passedOver hp))
        fun hp => hid (mem_ids_of_passedOver hp)

/-- Whether a class is passed over does not depend on options. -/
theorem seedReason?_analyze_congr (h : g.Acyclic) (o o' : Options) (id : ClassId) :
    g.seedReason? (g.analyze o) id = g.seedReason? (g.analyze o') id := by
  have hiff : g.seedReason? (g.analyze o) id = some .foreignAncestry ↔
      g.seedReason? (g.analyze o') id = some .foreignAncestry := by
    rw [seedReason?_eq_foreignAncestry_iff, seedReason?_eq_foreignAncestry_iff]
    exact or_congr_right (exists_congr fun base => and_congr_right fun _ =>
      passedOver_analyze_congr h o o' base)
  by_cases hforeign : g.seedReason? (g.analyze o) id = some .foreignAncestry
  · rw [hforeign, hiff.1 hforeign]
  · rw [seedReason?_of_ne_foreignAncestry hforeign,
      seedReason?_of_ne_foreignAncestry fun h => hforeign (hiff.2 h)]

theorem DerivesPastTraits.derivesFrom {c : ClassId} (h : g.DerivesPastTraits id c) :
    g.DerivesFrom id c :=
  Relation.ReflTransGen.mono (fun _ _ hbase => hbase.1) _ _ h

/-- Where no trait above a class has foreign ancestry, ways to foreign bases meet none. -/
theorem DerivesFrom.pastTraits {c : ClassId} (hc : g.DerivesFrom id c)
    (hforeign : ∃ f, g.DerivesFrom c f ∧ g.hasForeignBase f = true)
    (htraits : ∀ t, g.DerivesFrom id t → g.isTrait t = true →
      ¬∃ f, g.DerivesFrom t f ∧ g.hasForeignBase f = true) : g.DerivesPastTraits id c := by
  induction hc with
  | refl => exact .refl
  | tail hb hbase ih =>
    obtain ⟨f, hf, hff⟩ := hforeign
    refine (ih ⟨f, .head hbase hf, hff⟩).tail ⟨hbase, ?_⟩
    rw [Bool.eq_false_iff]
    exact fun htrait => htraits _ (hb.tail hbase) htrait ⟨f, hf, hff⟩

end Graph

namespace CompileUnit

/-- A class that is no trait is passed over for foreign ancestry, with nothing always defined and as
compromised, exactly if it, or a class above it to which a way leads that meets no trait, names a
base from outside. Where no trait above the class has foreign ancestry, that is any class above it.
-/
theorem origin_foreignAncestry_iff (names : NameTable) (decls : List Declaration) (u : CompileUnit)
    (hbuild : build names decls = .ok u) (hacyclic : u.graph.Acyclic) (o : Options) :
    ∃ report u', u.analyze o = .ok (report, u') ∧ u'.graph = u.graph ∧
      ∀ id ∈ u'.graph.ids, u'.graph.isTrait id = false →
        ∃ facts, u'.facts.get? id = some facts ∧
          (facts.origin = .seeded .foreignAncestry →
            facts.alwaysDefined = ∅ ∧ facts.compromised = true) ∧
          (facts.origin = .seeded .foreignAncestry ↔
            ∃ c, u'.graph.DerivesPastTraits id c ∧ u'.graph.hasForeignBase c = true) ∧
          ((∀ t, u'.graph.DerivesFrom id t → u'.graph.isTrait t = true →
              ¬∃ c, u'.graph.DerivesFrom t c ∧ u'.graph.hasForeignBase c = true) →
            (facts.origin = .seeded .foreignAncestry ↔
              ∃ c, u'.graph.DerivesFrom id c ∧ u'.graph.hasForeignBase c = true)) := by
  have hempty : ∀ id ∈ u.graph.ids, u.facts.get? id = none :=
    fun id _ => get?_facts_of_build hbuild id
  refine ⟨_, _, analyze_eq_ok_of_acyclic hempty hacyclic o, rfl, fun id hid htrait => ?_⟩
  have hfacts := Graph.solves_analyze hacyclic o id hid
  have hiff : (u.graph.factsOf (u.graph.analyze o) o id).origin = .seeded .foreignAncestry ↔
      ∃ c, u.graph.DerivesPastTraits id c ∧ u.graph.hasForeignBase c = true := by
    rw [← Graph.passedOver_iff (o := o) hacyclic hid htrait, Graph.PassedOver, hfacts]
    simp
  refine ⟨_, hfacts, fun h => ?_, hiff, fun htraits => hiff.trans ?_⟩
  · rw [Graph.factsOf_eq_seeded h]
    exact ⟨rfl, rfl⟩
  · refine exists_congr fun c => and_congr_left fun hforeign => ?_
    exact ⟨Graph.DerivesPastTraits.derivesFrom,
      fun hc => hc.pastTraits ⟨c, .refl, hforeign⟩ htraits⟩

/-- A class with a base from outside, one that derives from it and is open to foreign classes, a
trait, and a class that derives from the last two. -/
def handedDown : List Declaration :=
  [(Declaration.named ⟨20⟩).addForeignBase ⟨40⟩,
    ((Declaration.named ⟨21⟩).addBase ⟨20⟩).asOpenToForeign,
    (Declaration.named ⟨22⟩).asTrait,
    ((Declaration.named ⟨23⟩).addBase ⟨22⟩).addBase ⟨21⟩]

/-- The unit of the four classes, before it is analyzed. -/
def handedDownUnit : CompileUnit := ⟨.fresh, .ofDeclarations handedDown, ∅, ∅⟩

/-- The last class is passed over for the base from outside, two classes above it. -/
theorem origin_foreignAncestry_iff_handedDown : build .fresh handedDown = .ok handedDownUnit ∧
    handedDownUnit.graph.Acyclic ∧
    ∃ report u' facts, handedDownUnit.analyze .default = .ok (report, u') ∧
      u'.facts.get? ⟨3⟩ = some facts ∧ facts.origin = .seeded .foreignAncestry := by
  have hbuild : build .fresh handedDown = .ok handedDownUnit := rfl
  have hacyclic : handedDownUnit.graph.Acyclic :=
    Graph.findCycle?_eq_none_iff.1 (by decide +kernel)
  obtain ⟨report, u', hanalyze, hgraph, hclasses⟩ :=
    origin_foreignAncestry_iff .fresh handedDown handedDownUnit hbuild hacyclic .default
  obtain ⟨facts, hfacts, -, hiff, -⟩ := hclasses ⟨3⟩ (by rw [hgraph]; decide +kernel)
    (by rw [hgraph]; decide +kernel)
  refine ⟨hbuild, hacyclic, report, u', facts, hanalyze, hfacts, hiff.2 ⟨⟨0⟩, ?_, ?_⟩⟩
  · rw [hgraph]
    exact .head (b := ⟨1⟩) (by decide +kernel) (.single (by decide +kernel))
  · rw [hgraph]
    decide +kernel

/-- A trait with a base from outside, and a class that derives from the trait. -/
def foreignTrait : CompileUnit where
  names := .fresh
  graph := .ofDeclarations
    [((Declaration.named ⟨20⟩).addForeignBase ⟨40⟩).asTrait,
      ((Declaration.named ⟨21⟩).addBase ⟨20⟩).withInitializer
        ⟨[.setAttr ⟨30⟩ (.literal .none)], .empty⟩]
  facts := ∅
  narrowed := ∅

/-- The class is looked at all the same. -/
theorem not_origin_foreignAncestry_iff_foreignTrait : ¬∀ report u',
    foreignTrait.analyze .default = .ok (report, u') →
      ∀ id ∈ u'.graph.ids, u'.graph.isTrait id = false → ∀ facts, u'.facts.get? id = some facts →
        (facts.origin = .seeded .foreignAncestry ↔
          ∃ c, u'.graph.DerivesFrom id c ∧ u'.graph.hasForeignBase c = true) := by
  intro h
  have hanalyze := (analyze_eq_ok_iff (u := foreignTrait) (o := .default)).2
    ⟨fun _ _ => rfl, by decide +kernel, rfl, rfl⟩
  have hfacts : (foreignTrait.graph.analyze .default).get? ⟨1⟩ =
      some ⟨.ofList [⟨30⟩], false, .analyzed, none⟩ := by decide +kernel
  have hiff := h _ _ hanalyze ⟨1⟩ (by decide +kernel) (by decide +kernel) _ hfacts
  have horigin := hiff.2 ⟨⟨0⟩, .single (by decide +kernel), by decide +kernel⟩
  simp at horigin

end CompileUnit

end DefiniteInit
