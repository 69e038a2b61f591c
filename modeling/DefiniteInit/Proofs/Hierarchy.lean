import DefiniteInit.CompileUnit
import Mathlib.Data.List.Nodup
import Mathlib.Logic.Relation

/-!
# Hierarchies without a cycle

A search that finds no cycle leaves the classes in an order in which the bases of each
come after it (`Graph.search_ok`). So among classes that wait there is always one none of
whose bases waits (`Graph.exists_ready`), and the waves hold every class, once
(`Graph.mem_waves`, `Graph.nodup_waves`).

The facts of a class depend on what is known of its bases and on nothing else known
(`Graph.factsOf_congr`). A wave is looked at when the bases of its classes have their facts,
and these stay. So the facts found are those that follow from each other:
`Graph.get?_analyze` says that the facts of a class are what `Graph.factsOf` makes of the
facts of all.
-/

namespace DefiniteInit

namespace Graph

variable {g : Graph}

/-! ## Bases -/

/-- `d` is `c`, or derives from it through any number of bases. -/
def DerivesFrom (g : Graph) : ClassId → ClassId → Prop :=
  Relation.ReflTransGen fun d b => b ∈ g.localBases d

/-- The bases from the unit, among all bases. -/
theorem mem_localBases {id base : ClassId} :
    base ∈ g.localBases id ↔ Base.inUnit base ∈ g.bases id := by
  unfold localBases bases Class.localBases
  cases g.class? id with
  | none => simp
  | some c =>
    simp only [Option.map_some, Option.getD_some, List.mem_filterMap]
    constructor
    · rintro ⟨b, hb, hid⟩
      cases b with
      | inUnit id' =>
        obtain rfl : id' = base := by simpa [Base.inUnit?] using hid
        exact hb
      | foreign _ => simp [Base.inUnit?] at hid
    · exact fun h => ⟨.inUnit base, h, rfl⟩

/-- Classes are numbered from zero on. -/
theorem mem_ids {id : ClassId} : id ∈ g.ids ↔ id.index < g.size := by
  constructor
  · intro h
    obtain ⟨i, hi, rfl⟩ := List.mem_map.1 h
    exact List.mem_range.1 hi
  · exact fun h => List.mem_map.2 ⟨id.index, List.mem_range.2 h, rfl⟩

theorem nodup_ids : g.ids.Nodup :=
  List.Nodup.map (fun _ _ h => by simpa using h) List.nodup_range

/-- A base that stands for a class of the unit is one. -/
theorem mem_ids_of_mem_localBases {id base : ClassId} (h : base ∈ g.localBases id) :
    base ∈ g.ids := by
  unfold localBases at h
  cases hc : g.class? id with
  | none => simp [hc] at h
  | some c =>
    rw [hc] at h
    exact mem_ids.2 (g.bases_valid c (List.mem_of_getElem? hc) base h)

theorem mem_ids_of_localBases_ne_nil {id base : ClassId} (h : base ∈ g.localBases id) :
    id ∈ g.ids := by
  by_contra hid
  rw [localBases_eq_nil_of_not_mem_ids hid] at h
  simp at h

/-- The primary base is a base. -/
theorem mem_localBases_of_primaryBase? {id base : ClassId} (h : g.primaryBase? id = some base) :
    base ∈ g.localBases id := by
  obtain ⟨b, hb, hbase⟩ := Option.bind_eq_some_iff.1 h
  cases b with
  | inUnit id' =>
    obtain rfl : id' = base := by simpa [Base.inUnit?] using hbase
    exact mem_localBases.2 (List.mem_of_find?_eq_some hb)
  | foreign _ => simp [Base.inUnit?] at hbase

/-! ## Lineages -/

/-- The search meets what it started with and what that derives from. -/
theorem derivesFrom_of_mem_ascend {root c : ClassId} {stack met : List ClassId}
    (h : c ∈ g.ascend root stack met) : c ∈ met ∨ ∃ s ∈ stack, g.DerivesFrom s c := by
  fun_induction ascend g root stack met with
  | case1 met => exact Or.inl h
  | case2 met next rest hseen ih =>
    exact (ih h).imp id fun ⟨s, hs, hd⟩ => ⟨s, List.mem_cons_of_mem _ hs, hd⟩
  | case3 met next rest hnew ih =>
    rcases ih h with h | ⟨s, hs, hd⟩
    · rcases List.mem_append.1 h with h | h
      · exact Or.inl h
      · exact Or.inr ⟨next, List.mem_cons_self, List.mem_singleton.1 h ▸ .refl⟩
    · rcases List.mem_append.1 hs with hs | hs
      · exact Or.inr ⟨next, List.mem_cons_self, .head hs hd⟩
      · exact Or.inr ⟨s, List.mem_cons_of_mem _ hs, hd⟩

/-- What is still to be looked at is met, and so are the bases of what is met. -/
theorem ascend_closed (g : Graph) (root : ClassId) (stack met : List ClassId)
    (hmet : ∀ c ∈ met, ∀ base ∈ g.localBases c, base = root ∨ base ∈ met ∨ base ∈ stack) :
    (∀ c ∈ stack, c = root ∨ c ∈ g.ascend root stack met) ∧
      (∀ c ∈ met, c ∈ g.ascend root stack met) ∧
      ∀ c ∈ g.ascend root stack met, ∀ base ∈ g.localBases c,
        base = root ∨ base ∈ g.ascend root stack met := by
  -- The invariant: a base of a class already met is the root, met as well, or still on the stack.
  fun_induction ascend g root stack met with
  | case1 met => exact ⟨by simp, fun _ => id, by simpa using hmet⟩
  | case2 met next rest hseen ih =>
    obtain ⟨hstack, hkept, hclosed⟩ := ih fun c hc base hbase => by
      rcases hmet c hc base hbase with h | h | h
      · exact Or.inl h
      · exact Or.inr (Or.inl h)
      · rcases List.mem_cons.1 h with rfl | h
        · exact hseen.imp id Or.inl
        · exact Or.inr (Or.inr h)
    exact ⟨List.forall_mem_cons.2 ⟨hseen.imp id (hkept next), hstack⟩, hkept, hclosed⟩
  | case3 met next rest hnew ih =>
    obtain ⟨hstack, hkept, hclosed⟩ := ih fun c hc base hbase => by
      rcases List.mem_append.1 hc with hc | hc
      · rcases hmet c hc base hbase with h | h | h
        · exact Or.inl h
        · exact Or.inr (Or.inl (List.mem_append_left _ h))
        · rcases List.mem_cons.1 h with rfl | h
          · exact Or.inr (Or.inl (by simp))
          · exact Or.inr (Or.inr (List.mem_append_right _ h))
      · rw [List.mem_singleton.1 hc] at hbase
        exact Or.inr (Or.inr (List.mem_append_left _ hbase))
    refine ⟨List.forall_mem_cons.2 ⟨Or.inr (hkept next (by simp)), fun c hc => ?_⟩,
      fun c hc => hkept c (List.mem_append_left _ hc), hclosed⟩
    exact hstack c (List.mem_append_right _ hc)

/-- The lineage of a class is what it derives from. -/
theorem mem_lineage {id c : ClassId} : c ∈ g.lineage id ↔ g.DerivesFrom id c := by
  obtain ⟨hstack, -, hclosed⟩ := ascend_closed g id (g.localBases id) [] (by simp)
  constructor
  · intro h
    rcases List.mem_cons.1 h with rfl | h
    · exact .refl
    · obtain ⟨s, hs, hd⟩ := (derivesFrom_of_mem_ascend h).resolve_left (by simp)
      exact .head hs hd
  · intro h
    induction h with
    | refl => exact List.mem_cons_self
    | tail _ hbase ih =>
      rcases List.mem_cons.1 ih with rfl | ih
      · exact List.mem_cons.2 (hstack _ hbase)
      · exact List.mem_cons.2 (hclosed _ ih _ hbase)

/-- What a class has by default, the classes below it have by default. -/
theorem mem_defaultedAttrs_of_derivesFrom {d c : ClassId} (h : g.DerivesFrom d c) {a : Name}
    (ha : a ∈ g.defaultedAttrs c) : a ∈ g.defaultedAttrs d := by
  simp only [defaultedAttrs, AttrSet.mem_ofList, List.mem_map, List.mem_filter,
    List.mem_flatMap] at ha ⊢
  obtain ⟨attr, ⟨⟨c', hc', hattr⟩, hdefault⟩, rfl⟩ := ha
  exact ⟨attr, ⟨⟨c', mem_lineage.2 (h.trans (mem_lineage.1 hc')), hattr⟩, hdefault⟩, rfl⟩

/-- Whether one of the attributes has that name and may be deleted. -/
def letsDelete (attrs : List Attribute) (a : Name) : Bool :=
  attrs.any fun attr => attr.name = a && attr.deletable

theorem letsDelete_eq_true {attrs : List Attribute} {a : Name} :
    letsDelete attrs a = true ↔ ∃ attr ∈ attrs, attr.name = a ∧ attr.deletable = true := by
  simp [letsDelete]

/-- What may be deleted from an instance is what a class of the lineage lets be deleted. -/
theorem mem_deletableAttrs {id : ClassId} {a : Name} : a ∈ g.deletableAttrs id ↔
    ∃ c, g.DerivesFrom id c ∧ letsDelete (g.attributes c) a = true := by
  simp only [deletableAttrs, AttrSet.mem_ofList, List.mem_map, List.mem_filter, List.mem_flatMap,
    letsDelete_eq_true]
  constructor
  · rintro ⟨attr, ⟨⟨c, hc, hattr⟩, hdel⟩, rfl⟩
    exact ⟨c, mem_lineage.1 hc, attr, hattr, rfl, hdel⟩
  · rintro ⟨c, hc, attr, hattr, rfl, hdel⟩
    exact ⟨attr, ⟨⟨c, mem_lineage.2 hc, hattr⟩, hdel⟩, rfl⟩

/-! ## Searches that find no cycle -/

/-- The bases of each class of the list come after it. -/
def BasesFollow (g : Graph) : List ClassId → Prop
  | [] => True
  | c :: rest => (∀ base ∈ g.localBases c, base ∈ rest) ∧ g.BasesFollow rest

/-- A search that finds no cycle leaves a list in which bases follow, with all that it had to visit.
-/
theorem search_ok {path pending done done' : List ClassId}
    (h : g.search path pending done = .ok done') (hdone : g.BasesFollow done) :
    g.BasesFollow done' ∧ (∀ c ∈ pending, c ∈ done') ∧ ∀ c ∈ done, c ∈ done' := by
  fun_induction search g path pending done generalizing done' with
  | case1 path done =>
    obtain rfl : done = done' := by simpa using h
    exact ⟨hdone, by simp, fun _ => id⟩
  | case2 path done next rest hpath => simp at h
  | case3 path done next rest hpath hmem ih =>
    obtain ⟨hfollow, hrest, hkept⟩ := ih h hdone
    exact ⟨hfollow, List.forall_mem_cons.2 ⟨hkept next hmem, hrest⟩, hkept⟩
  | case4 path done next rest hpath hmem cycle hsearch ih => simp at h
  | case5 path done next rest hpath hmem above hsearch ih₁ ih₂ =>
    obtain ⟨hfollow₁, hbases, hkept₁⟩ := ih₁ hsearch hdone
    obtain ⟨hfollow, hrest, hkept⟩ := ih₂ h ⟨hbases, hfollow₁⟩
    refine ⟨hfollow, List.forall_mem_cons.2 ⟨hkept next List.mem_cons_self, hrest⟩, fun c hc => ?_⟩
    exact hkept c (List.mem_cons_of_mem _ (hkept₁ c hc))

/-- Without a cycle, the classes can be listed with the bases of each after it. -/
theorem exists_basesFollow (h : g.findCycle? = none) :
    ∃ order, g.BasesFollow order ∧ ∀ id ∈ g.ids, id ∈ order := by
  unfold findCycle? at h
  split at h
  · simp at h
  · rename_i order hsearch
    obtain ⟨hfollow, hall, -⟩ := search_ok hsearch trivial
    exact ⟨order, hfollow, hall⟩

/-! ## Waves -/

/-- A class is ready when none of its bases waits. -/
theorem mem_ready {waiting : List ClassId} {id : ClassId} :
    id ∈ g.ready waiting ↔ id ∈ waiting ∧ ∀ base ∈ g.localBases id, base ∉ waiting := by
  simp [ready, pending]

theorem mem_blocked {waiting : List ClassId} {id : ClassId} :
    id ∈ g.blocked waiting ↔ id ∈ waiting ∧ id ∉ g.ready waiting := by
  simp +contextual [blocked, ready]

/-- Of waiting classes, the last in the order waits for none. -/
theorem exists_ready {order waiting : List ClassId} (ho : g.BasesFollow order)
    (hw : ∃ c ∈ waiting, c ∈ order) : ∃ c, c ∈ g.ready waiting := by
  induction order with
  | nil => simp at hw
  | cons c rest ih =>
    by_cases hrest : ∃ c ∈ waiting, c ∈ rest
    · exact ih ho.2 hrest
    · obtain ⟨c', hc', hmem⟩ := hw
      rcases List.mem_cons.1 hmem with rfl | hmem
      · exact ⟨c', mem_ready.2 ⟨hc', fun base hb hw => hrest ⟨base, hw, ho.1 base hb⟩⟩⟩
      · exact absurd ⟨c', hc', hmem⟩ hrest

/-- Where none is ready, none waits. -/
theorem eq_nil_of_ready_isEmpty {order waiting : List ClassId} (ho : g.BasesFollow order)
    (hw : ∀ c ∈ waiting, c ∈ order) (h : (g.ready waiting).isEmpty = true) : waiting = [] := by
  rw [List.eq_nil_iff_forall_not_mem]
  intro c hc
  obtain ⟨r, hr⟩ := exists_ready ho ⟨c, hc, hw c hc⟩
  rw [List.isEmpty_iff.1 h] at hr
  simp at hr

/-- Waves are made of classes that wait. -/
theorem mem_of_mem_wavesFrom {waiting : List ClassId} {id : ClassId}
    (h : id ∈ (g.wavesFrom waiting).flatten) : id ∈ waiting := by
  fun_induction wavesFrom g waiting with
  | case1 waiting hempty => simp at h
  | case2 waiting hready ih =>
    rw [List.flatten_cons, List.mem_append] at h
    rcases h with h | h
    · exact (mem_ready.1 h).1
    · exact (mem_blocked.1 (ih h)).1

/-- Without a cycle every class that waits comes into a wave. -/
theorem mem_wavesFrom {order waiting : List ClassId} (ho : g.BasesFollow order)
    (hw : ∀ c ∈ waiting, c ∈ order) {id : ClassId} (h : id ∈ waiting) :
    id ∈ (g.wavesFrom waiting).flatten := by
  fun_induction wavesFrom g waiting with
  | case1 waiting hempty =>
    rw [eq_nil_of_ready_isEmpty ho hw hempty] at h
    simp at h
  | case2 waiting hready ih =>
    rw [List.flatten_cons, List.mem_append]
    by_cases hid : id ∈ g.ready waiting
    · exact Or.inl hid
    · exact Or.inr (ih (fun c hc => hw c (mem_blocked.1 hc).1) (mem_blocked.2 ⟨h, hid⟩))

/-- No class comes into two waves. -/
theorem nodup_wavesFrom {waiting : List ClassId} (h : waiting.Nodup) :
    (g.wavesFrom waiting).flatten.Nodup := by
  fun_induction wavesFrom g waiting with
  | case1 waiting hempty => simp
  | case2 waiting hready ih =>
    rw [List.flatten_cons]
    refine List.Nodup.append (h.filter _) (ih (h.filter _)) fun id hid hlater => ?_
    exact (mem_blocked.1 (mem_of_mem_wavesFrom hlater)).2 hid

/-- Every class is in a wave. -/
theorem mem_waves (h : g.findCycle? = none) {id : ClassId} (hid : id ∈ g.ids) :
    id ∈ g.waves.flatten := by
  obtain ⟨order, ho, hall⟩ := exists_basesFollow h
  exact mem_wavesFrom ho hall hid

/-- No class is in two waves. -/
theorem nodup_waves : g.waves.flatten.Nodup := nodup_wavesFrom nodup_ids

end Graph

/-! ## Facts -/

theorem ClassTable.get?_insertAll_map {α : Type} (f : ClassId → α) (ids : List ClassId)
    (t : ClassTable α) (id : ClassId) :
    (t.insertAll (ids.map fun id => (id, f id))).get? id =
      if id ∈ ids then some (f id) else t.get? id := by
  induction ids generalizing t with
  | nil => simp [insertAll]
  | cons c ids ih =>
    have hstep : t.insertAll ((c :: ids).map fun id => (id, f id)) =
        (t.insert c (f c)).insertAll (ids.map fun id => (id, f id)) := rfl
    rw [hstep, ih, get?_insert]
    by_cases hc : id = c <;> by_cases hids : id ∈ ids <;> simp [hc, hids]

namespace Graph

variable {g : Graph} {known known' : ClassTable Facts} {o : Options} {id : ClassId}

/-- The class has facts that say the attribute is always defined. -/
def AlwaysDefines (known : ClassTable Facts) (id : ClassId) (a : Name) : Prop :=
  ∃ facts, known.get? id = some facts ∧ a ∈ facts.alwaysDefined

theorem baseCallOn_congr {b : Base}
    (h : ∀ base, b = .inUnit base → known.get? base = known'.get? base) :
    g.baseCallOn known b = g.baseCallOn known' b := by
  cases b with
  | foreign _ => rfl
  | inUnit base => simp only [baseCallOn, h base rfl]

/-- What a call runs depends on the facts of the bases alone. -/
theorem baseCall_congr (h : ∀ base ∈ g.localBases id, known.get? base = known'.get? base) :
    g.baseCall known id = g.baseCall known' id := by
  have hon : ∀ b ∈ g.bases id, g.baseCallOn known b = g.baseCallOn known' b :=
    fun b hb => baseCallOn_congr fun base hbase => h base (mem_localBases.2 (hbase ▸ hb))
  funext target
  cases target with
  | next =>
    cases hhead : (g.bases id).head? with
    | none => simp only [baseCall, hhead]
    | some b => simp only [baseCall, hhead, hon b (List.mem_of_head? hhead)]
  | explicit name =>
    cases hfind : (g.bases id).find? (g.isNamed name) with
    | none => simp only [baseCall, hfind]
    | some b => simp only [baseCall, hfind, hon b (List.mem_of_find?_eq_some hfind)]

/-- So does whether a class is passed over. -/
theorem seedReason?_congr (h : ∀ base ∈ g.localBases id, known.get? base = known'.get? base) :
    g.seedReason? known id = g.seedReason? known' id := by
  have hany : ((g.localBases id).any fun base =>
      (known.get? base).any (·.origin = .seeded .foreignAncestry)) =
      (g.localBases id).any fun base =>
        (known'.get? base).any (·.origin = .seeded .foreignAncestry) := by
    rw [Bool.eq_iff_iff, List.any_eq_true, List.any_eq_true]
    exact exists_congr fun base => and_congr_right fun hb => by rw [h base hb]
  simp only [seedReason?, hany]

/-- So does what its initializer comes to. -/
theorem initialFacts_congr (h : ∀ base ∈ g.localBases id, known.get? base = known'.get? base) :
    g.initialFacts known o id = g.initialFacts known' o id := by
  unfold initialFacts
  cases (g.class? id).bind Class.initializer with
  | some init => simp only [walkBody, scope, baseCall_congr h]
  | none =>
    cases hbase : g.primaryBase? id with
    | none => rfl
    | some base => simp only [h base (mem_localBases_of_primaryBase? hbase)]

/-- The facts of a class depend on those of its bases alone. -/
theorem factsOf_congr (h : ∀ base ∈ g.localBases id, known.get? base = known'.get? base) :
    g.factsOf known o id = g.factsOf known' o id := by
  simp only [factsOf, seedReason?_congr h, initialFacts_congr h]

/-- What may be deleted is in no facts. -/
theorem not_mem_deletableAttrs_of_mem_factsOf {a : Name}
    (h : a ∈ (g.factsOf known o id).alwaysDefined) : a ∉ g.deletableAttrs id := by
  unfold factsOf at h
  split at h
  · simp [Facts.ofTrait] at h
  · split at h
    · simp [Facts.seeded] at h
    · simpa using (AttrSet.mem_filter.1 h).2

/-- A wave gives its classes their facts and leaves the others as they are. -/
theorem get?_analyzeWave (wave : List ClassId) : (g.analyzeWave o known wave).get? id =
    if id ∈ wave then some (g.factsOf known o id) else known.get? id :=
  ClassTable.get?_insertAll_map (g.factsOf known o) wave known id

/-- Waves leave the facts of classes that do not wait as they are. -/
theorem get?_foldl_wavesFrom_of_not_mem {waiting : List ClassId} (hid : id ∉ waiting) :
    ((g.wavesFrom waiting).foldl (g.analyzeWave o) known).get? id = known.get? id := by
  fun_induction wavesFrom g waiting generalizing known with
  | case1 waiting hempty => rfl
  | case2 waiting hready ih =>
    rw [List.foldl_cons, ih fun h => hid (mem_blocked.1 h).1, get?_analyzeWave,
      if_neg fun h => hid (mem_ready.1 h).1]

/-- A class of a wave gets its facts when those of its bases are there for good. -/
theorem get?_foldl_wavesFrom {order waiting : List ClassId} (ho : g.BasesFollow order)
    (hw : ∀ c ∈ waiting, c ∈ order) (hid : id ∈ waiting) :
    ((g.wavesFrom waiting).foldl (g.analyzeWave o) known).get? id =
      some (g.factsOf ((g.wavesFrom waiting).foldl (g.analyzeWave o) known) o id) := by
  fun_induction wavesFrom g waiting generalizing known with
  | case1 waiting hempty =>
    rw [eq_nil_of_ready_isEmpty ho hw hempty] at hid
    simp at hid
  | case2 waiting hready ih =>
    rw [List.foldl_cons]
    by_cases hr : id ∈ g.ready waiting
    · have hlater : id ∉ g.blocked waiting := fun h => (mem_blocked.1 h).2 hr
      rw [get?_foldl_wavesFrom_of_not_mem hlater, get?_analyzeWave, if_pos hr]
      refine congrArg some (factsOf_congr fun base hbase => ?_)
      -- A base of a ready class does not wait, so neither this wave nor a later one gives
      -- it facts.
      have hbase' := (mem_ready.1 hr).2 base hbase
      rw [get?_foldl_wavesFrom_of_not_mem fun h => hbase' (mem_blocked.1 h).1, get?_analyzeWave,
        if_neg fun h => hbase' (mem_ready.1 h).1]
    · exact ih (fun c hc => hw c (mem_blocked.1 hc).1) (mem_blocked.2 ⟨hid, hr⟩)

/-- Only classes of the unit have facts. -/
theorem get?_analyze_of_not_mem (hid : id ∉ g.ids) : (g.analyze o).get? id = none := by
  rw [analyze, waves, get?_foldl_wavesFrom_of_not_mem hid, ClassTable.get?_empty]

theorem mem_ids_of_get?_analyze {facts : Facts} (h : (g.analyze o).get? id = some facts) :
    id ∈ g.ids := by
  by_contra hid
  simp [get?_analyze_of_not_mem hid] at h

/-- The facts of every class are what follows from the facts of all. -/
theorem get?_analyze (h : g.findCycle? = none) (hid : id ∈ g.ids) :
    (g.analyze o).get? id = some (g.factsOf (g.analyze o) o id) := by
  obtain ⟨order, ho, hall⟩ := exists_basesFollow h
  exact get?_foldl_wavesFrom ho hall hid

/-- What may be deleted is not always defined. -/
theorem not_mem_deletableAttrs_of_alwaysDefines (h : g.findCycle? = none) {a : Name}
    (ha : AlwaysDefines (g.analyze o) id a) : a ∉ g.deletableAttrs id := by
  obtain ⟨facts, hfacts, ha⟩ := ha
  rw [get?_analyze h (mem_ids_of_get?_analyze hfacts)] at hfacts
  obtain rfl := Option.some.inj hfacts
  exact not_mem_deletableAttrs_of_mem_factsOf ha

end Graph

namespace CompileUnit

variable {u u' : CompileUnit} {o : Options} {report : Report}

/-- A unit can be analyzed if it has not been and no class is its own ancestor. -/
theorem analyze_eq_ok_iff : u.analyze o = .ok (report, u') ↔
    (∀ id ∈ u.graph.ids, u.facts.get? id = none) ∧ u.graph.findCycle? = none ∧
      report = u.graph.report (u.graph.analyze o) ∧
      u' = { u with
        facts := u.graph.analyze o
        narrowed := if o.narrowBySubclasses then u.graph.narrow (u.graph.analyze o) else ∅ } := by
  unfold analyze
  cases hfind : u.graph.ids.find? fun id => (u.facts.get? id).isSome with
  | some id =>
    have hmem := List.mem_of_find?_eq_some hfind
    have hsome := List.find?_some hfind
    simp only [reduceCtorEq, false_iff, not_and]
    intro hnone
    simp [hnone id hmem] at hsome
  | none =>
    have hnone : ∀ id ∈ u.graph.ids, u.facts.get? id = none := by
      simpa using List.find?_eq_none.1 hfind
    cases hcycle : u.graph.findCycle? with
    | some cycle => simp
    | none =>
      constructor
      · intro h
        obtain ⟨rfl, rfl⟩ := Prod.mk.inj (Except.ok.inj h)
        exact ⟨hnone, rfl, rfl, rfl⟩
      · rintro ⟨-, -, rfl, rfl⟩
        rfl

/-- What holds of an analyzed unit. -/
theorem of_analyze_eq_ok (h : u.analyze o = .ok (report, u')) : u'.graph.findCycle? = none ∧
    u'.facts = u'.graph.analyze o ∧
    (o.narrowBySubclasses = true → u'.narrowed = u'.graph.narrow u'.facts) := by
  obtain ⟨-, hcycle, -, rfl⟩ := analyze_eq_ok_iff.1 h
  exact ⟨hcycle, rfl, fun ho => if_pos ho⟩

end CompileUnit

end DefiniteInit
