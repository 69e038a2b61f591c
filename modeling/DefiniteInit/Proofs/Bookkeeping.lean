import DefiniteInit.Proofs.Forwarding

/-!
# Options that only keep books

One option of an analysis bears on what is found: whether reading a module-level variable counts as
an escape. The others say how the work is done and what is kept of it. Initializers are walked alike
whatever these are (`Graph.scope_eq`), so the facts of a class differ in their first escape at most
(`Graph.quiet_factsOf_eq`), and that makes no difference to the classes below
(`Graph.quiet_get?_analyze`).

Where the classes of a wave are worked on in parallel they may be finished in any order (`Pool`). No
class of a wave depends on another, so the facts are the same (`Graph.get?_analyzeOn`). If the
results are put in the order of the wave before they are written, so are the account and what is
narrowed (`Pool.gather_eq`).
-/

namespace DefiniteInit

/-! ## First escapes -/

/-- The facts without the first escape. -/
def Facts.quiet (f : Facts) : Facts := { f with firstEscape := none }

/-- Facts differ in the first escape at most. -/
theorem Facts.quiet_eq_iff {f f' : Facts} : f'.quiet = f.quiet ↔
    f'.alwaysDefined = f.alwaysDefined ∧ f'.compromised = f.compromised ∧ f'.origin = f.origin := by
  simp [quiet]

theorem Facts.Alike.of_quiet {f f' : Facts} (h : f'.quiet = f.quiet) : f.Alike f' := by
  obtain ⟨hdefined, hcompromised, horigin⟩ := Facts.quiet_eq_iff.1 h
  exact ⟨hdefined, hcompromised, by rw [horigin]⟩

/-- The tables have facts for the same classes, which differ in the first escape at most. -/
def QuietlyEqual (known known' : ClassTable Facts) : Prop :=
  ∀ id, (known'.get? id).map Facts.quiet = (known.get? id).map Facts.quiet

/-- Such facts say the same of instances. -/
theorem AlikeAt.of_quiet {known known' : ClassTable Facts} {id : ClassId}
    (h : (known'.get? id).map Facts.quiet = (known.get? id).map Facts.quiet) :
    AlikeAt known known' id := by
  cases hf : known.get? id with
  | none =>
    rw [hf, Option.map_none, Option.map_eq_none_iff] at h
    exact .inl ⟨hf, h⟩
  | some f =>
    rw [hf, Option.map_some] at h
    obtain ⟨f', hf', hquiet⟩ := Option.map_eq_some_iff.1 h
    exact .inr ⟨f, f', hf, hf', .of_quiet hquiet⟩

namespace Graph

theorem SameOutline.refl (g : Graph) : g.SameOutline g := rfl

variable {g : Graph} {known known' : ClassTable Facts} {o o' : Options} {id : ClassId}

/-- The account of an analysis does not mention escapes. -/
theorem report_eq_of_quiet (h : QuietlyEqual known known') : g.report known' = g.report known := by
  have hmap : ∀ ids : List ClassId, (ids.filterMap known'.get?).map Facts.quiet =
      (ids.filterMap known.get?).map Facts.quiet := by
    intro ids
    rw [List.map_filterMap, List.map_filterMap]
    exact List.filterMap_congr fun id _ => h id
  have hcount : ∀ (p : Facts → Bool) (ids : List ClassId), (∀ f, p f.quiet = p f) →
      (ids.filterMap known'.get?).countP p = (ids.filterMap known.get?).countP p := by
    intro p ids hp
    have hcomp : p ∘ Facts.quiet = p := funext hp
    have hcountP := congrArg (List.countP p) (hmap ids)
    rwa [List.countP_map, List.countP_map, hcomp] at hcountP
  simp only [report]
  congr 1 <;> exact hcount _ _ fun _ => rfl

section Options

variable (hstrict : o'.strictMutableGlobals = o.strictMutableGlobals)

include hstrict

theorem scope_eq : g.scope known o' id = g.scope known o id := by rw [scope, scope, hstrict]

/-- If both keep first escapes or neither does, an initializer comes to the same facts. -/
theorem initialFacts_eq_of_record (hrecord : o'.recordEscapeSites = o.recordEscapeSites) :
    g.initialFacts known o' id = g.initialFacts known o id := by
  simp only [initialFacts, walkBody, scope_eq hstrict, hrecord]

theorem factsOf_eq_of_record (hrecord : o'.recordEscapeSites = o.recordEscapeSites) :
    g.factsOf known o' id = g.factsOf known o id := by
  simp only [factsOf, initialFacts_eq_of_record hstrict hrecord]

/-- Otherwise they differ in the first escape at most. -/
theorem quiet_initialFacts_eq :
    (g.initialFacts known o' id).quiet = (g.initialFacts known o id).quiet := by
  unfold initialFacts
  cases (g.class? id).bind Class.initializer with
  | none => rfl
  | some init =>
    simp only [walkBody, scope_eq hstrict]
    rfl

/-- So do those of the class. -/
theorem quiet_factsOf_eq : (g.factsOf known o' id).quiet = (g.factsOf known o id).quiet := by
  have hinitial : (g.initialFacts known o' id).quiet = (g.initialFacts known o id).quiet :=
    quiet_initialFacts_eq hstrict
  obtain ⟨hdefined, hcompromised, horigin⟩ := Facts.quiet_eq_iff.1 hinitial
  unfold factsOf
  split
  · rfl
  · split
    · rfl
    · simp only [Facts.quiet, hdefined, hcompromised, horigin]

/-- So do those of all classes. The induction is along the bases. -/
theorem quiet_get?_analyze (hacyclic : g.Acyclic) : QuietlyEqual (g.analyze o) (g.analyze o') := by
  intro id
  induction id using hacyclic.induction with
  | hstep id ih =>
    by_cases hid : id ∈ g.ids
    · -- No class looks at the first escape of a base, in which the bases may differ.
      have hbases : ∀ base ∈ g.localBases id, AlikeAt (g.analyze o) (g.analyze o') base :=
        fun base hbase => .of_quiet (ih base hbase)
      have hknown : g.factsOf (g.analyze o') o' id = g.factsOf (g.analyze o) o' id :=
        (SameOutline.refl g).frame.factsOf_eq hbases rfl
      rw [solves_analyze hacyclic o id hid, solves_analyze hacyclic o' id hid, hknown,
        Option.map_some, Option.map_some, quiet_factsOf_eq hstrict]
    · rw [get?_analyze_of_not_mem hid, get?_analyze_of_not_mem hid]

/-- If first escapes are kept in both, the facts are the same. -/
theorem get?_analyze_eq (hacyclic : g.Acyclic)
    (hrecord : o'.recordEscapeSites = o.recordEscapeSites) (id : ClassId) :
    (g.analyze o').get? id = (g.analyze o).get? id := by
  induction id using hacyclic.induction with
  | hstep id ih =>
    by_cases hid : id ∈ g.ids
    · rw [solves_analyze hacyclic o id hid, solves_analyze hacyclic o' id hid,
        factsOf_congr ih, factsOf_eq_of_record hstrict hrecord]
    · rw [get?_analyze_of_not_mem hid, get?_analyze_of_not_mem hid]

end Options

/-- If they are not kept, there are none. -/
theorem firstEscape_factsOf (hrecord : o.recordEscapeSites = false) :
    (g.factsOf known o id).firstEscape = none := by
  have hinitial : (g.initialFacts known o id).firstEscape = none := by
    unfold initialFacts walkBody
    split
    · simp [Summary.ofOutcome, Summary.ofStates, hrecord]
    · split
      · rfl
      · split <;> rfl
  unfold factsOf
  split
  · rfl
  · split
    · rfl
    · exact hinitial

/-! ## Parallel waves -/

end Graph

/-- The order in which the classes of a wave are finished when they are worked on in parallel. -/
structure Pool where
  finished : List ClassId → List ClassId
  perm : ∀ wave, (finished wave).Perm wave

namespace Graph

variable {g : Graph} {known known' : ClassTable Facts} {o : Options} {id : ClassId}

/-- Adds the facts of the classes of one wave, in parallel if that is worth it. -/
def analyzeWaveOn (g : Graph) (o : Options) (pool : Pool) (known : ClassTable Facts)
    (wave : List ClassId) : ClassTable Facts :=
  if o.usesPoolFor wave.length then
    known.insertAll ((pool.finished wave).map fun id => (id, g.factsOf known o id))
  else g.analyzeWave o known wave

/-- The facts of all classes, found on the pool. -/
def analyzeOn (g : Graph) (o : Options) (pool : Pool) : ClassTable Facts :=
  g.waves.foldl (g.analyzeWaveOn o pool) ∅

/-- On a pool a wave gives its classes the facts that it gives them in turn. -/
theorem get?_analyzeWaveOn (pool : Pool) (h : ∀ id, known'.get? id = known.get? id)
    (wave : List ClassId) (id : ClassId) :
    (g.analyzeWaveOn o pool known' wave).get? id = (g.analyzeWave o known wave).get? id := by
  have hfacts : g.factsOf known' o = g.factsOf known o :=
    funext fun id => factsOf_congr fun base _ => h base
  unfold analyzeWaveOn analyzeWave
  split
  · simp only [ClassTable.get?_insertAll_map, hfacts, h, (pool.perm wave).mem_iff]
  · simp only [ClassTable.get?_insertAll_map, hfacts, h]

/-- So do all waves, by induction along them. -/
theorem get?_foldl_analyzeWaveOn (pool : Pool) (h : ∀ id, known'.get? id = known.get? id)
    (waves : List (List ClassId)) (id : ClassId) :
    (waves.foldl (g.analyzeWaveOn o pool) known').get? id =
      (waves.foldl (g.analyzeWave o) known).get? id := by
  induction waves generalizing known known' with
  | nil => exact h id
  | cons wave waves ih => exact ih (get?_analyzeWaveOn pool h wave)

theorem get?_analyzeOn (pool : Pool) (id : ClassId) :
    (g.analyzeOn o pool).get? id = (g.analyze o).get? id :=
  get?_foldl_analyzeWaveOn pool (fun _ => rfl) g.waves id

end Graph

namespace Pool

/-- The results of a wave that was worked on in parallel, in the order of the wave. -/
def collect (pool : Pool) : Gathering := fun wave f =>
  let results := (pool.finished wave).map fun id => (id, f id)
  wave.filterMap fun id => (results.lookup id).map fun facts => (id, facts)

/-- Works on a wave in parallel if that is worth it. -/
def gather (pool : Pool) (o : Options) : Gathering := fun wave f =>
  if o.usesPoolFor wave.length then pool.collect wave f else inTurn wave f

theorem lookup_map_of_mem {ids : List ClassId} (f : ClassId → Facts) {id : ClassId} (h : id ∈ ids) :
    (ids.map fun id => (id, f id)).lookup id = some (f id) := by
  induction ids with
  | nil => simp at h
  | cons first ids ih =>
    rw [List.map_cons, List.lookup_cons]
    by_cases hfirst : id = first
    · simp [hfirst]
    · have hbeq : (id == first) = false := by simpa using hfirst
      rw [hbeq]
      exact ih ((List.mem_cons.1 h).resolve_left hfirst)

/-- Results that come back in whatever order are put back in the order of the classes. -/
theorem collect_eq (pool : Pool) : pool.collect = inTurn := by
  funext wave f
  have hresult : ∀ id ∈ wave, (((pool.finished wave).map fun id => (id, f id)).lookup id).map
      (fun facts => (id, facts)) = some (id, f id) := by
    intro id hid
    rw [lookup_map_of_mem f ((pool.perm wave).mem_iff.2 hid), Option.map_some]
  rw [collect, List.filterMap_congr hresult, List.filterMap_eq_map']
  rfl

/-- In whatever order the classes of a wave are finished, the results are those found in turn. -/
theorem gather_eq (pool : Pool) (o : Options) : pool.gather o = inTurn := by
  funext wave f
  rw [gather, collect_eq, ite_self]

end Pool

/-- Analyzes the unit cell by cell, on the pool. -/
def Work.analyzeOn (o : Options) (pool : Pool) : Work Report := Work.analyzeBy (pool.gather o) o

namespace CompileUnit

/-- Two sets of options that take reads of module-level variables alike lead to one account and to
facts that differ in the first escape at most: attributes stand in the same order. If both narrow by
subclasses, they come to the same sets. On a pool the whole summary is the same in whatever order
classes are finished. -/
theorem analyze_bookkeeping (names : NameTable) (decls : List Declaration) (u : CompileUnit)
    (hbuild : build names decls = .ok u) (hacyclic : u.graph.Acyclic) (o o' : Options)
    (hstrict : o'.strictMutableGlobals = o.strictMutableGlobals) :
    ∃ report v v', u.analyze o = .ok (report, v) ∧ u.analyze o' = .ok (report, v') ∧
      (∀ id ∈ u.graph.ids, ∃ f f', v.facts.get? id = some f ∧ v'.facts.get? id = some f' ∧
        f'.alwaysDefined = f.alwaysDefined ∧ f'.compromised = f.compromised ∧
        f'.origin = f.origin ∧
        (o.recordEscapeSites = true → o'.recordEscapeSites = true →
          f'.firstEscape = f.firstEscape) ∧
        (o.recordEscapeSites = false → f.firstEscape = none) ∧
        (o'.recordEscapeSites = false → f'.firstEscape = none)) ∧
      (o.narrowBySubclasses = true → o'.narrowBySubclasses = true → v'.narrowed = v.narrowed) ∧
      (∀ pool id, (u.graph.analyzeOn o pool).get? id = v.facts.get? id ∧
        (u.graph.analyzeOn o' pool).get? id = v'.facts.get? id) ∧
      ∀ pool, (Work.analyzeOn o pool).run u = .ok report v ∧
        (Work.analyzeOn o' pool).run u = .ok report v' := by
  have hfacts : u.facts = ∅ := by rw [eq_of_build_eq_ok hbuild]
  have hnarrowed : u.narrowed = ∅ := by rw [eq_of_build_eq_ok hbuild]
  have hquiet : QuietlyEqual (u.graph.analyze o) (u.graph.analyze o') :=
    Graph.quiet_get?_analyze hstrict hacyclic
  have hreport := Graph.report_eq_of_quiet (g := u.graph) hquiet
  have hrun : ∀ o,
      (Work.analyze o).run u = .ok (u.graph.report (u.graph.analyze o)) (u.analyzed o) :=
    fun o => by
      rw [run_analyze (.inr ⟨hfacts, hnarrowed⟩), analyze_of_acyclic hfacts hacyclic o]
      rfl
  refine ⟨_, _, _, analyze_of_acyclic hfacts hacyclic o,
    by rw [analyze_of_acyclic hfacts hacyclic o', hreport], fun id hid => ?_,
    fun hnarrow hnarrow' => ?_, fun pool id =>
      ⟨Graph.get?_analyzeOn pool id, Graph.get?_analyzeOn pool id⟩, fun pool => ?_⟩
  · have hf := Graph.solves_analyze hacyclic o id hid
    have hf' := Graph.solves_analyze hacyclic o' id hid
    -- What the two analyses say of one class, first but for the first escape and then with it.
    have hsame := hquiet id
    rw [hf, hf', Option.map_some, Option.map_some, Option.some_inj] at hsame
    obtain ⟨hdefined, hcompromised, horigin⟩ := Facts.quiet_eq_iff.1 hsame
    refine ⟨_, _, hf, hf', hdefined, hcompromised, horigin, fun hrecord hrecord' => ?_,
      Graph.firstEscape_factsOf, Graph.firstEscape_factsOf⟩
    have heq := Graph.get?_analyze_eq hstrict hacyclic (hrecord'.trans hrecord.symm) id
    rw [hf, hf', Option.some_inj] at heq
    rw [heq]
  · simp only [analyzed, hnarrow, hnarrow', if_true]
    exact (Graph.SameOutline.refl u.graph).narrow_eq fun id =>
      (AlikeAt.of_quiet (hquiet id)).map_alwaysDefined
  · rw [Work.analyzeOn, Work.analyzeOn, Pool.gather_eq, Pool.gather_eq, ← hreport]
    exact ⟨hreport ▸ hrun o, hrun o'⟩

/-- A class that hands its receiver to a function, and one that calls its initializer. -/
def handingOn : List Declaration :=
  [(Declaration.named ⟨20⟩).withInitializer
      ⟨[.setAttr ⟨30⟩ (.literal .none), .run (.callNamed ⟨8⟩ [.receiver])], .empty⟩,
    ((Declaration.named ⟨21⟩).addBase ⟨20⟩).withInitializer ⟨[.callInit .next []], .empty⟩]

/-- The unit of these classes. -/
def handingOnUnit : CompileUnit := ⟨.fresh, .ofDeclarations handingOn, ∅, ∅⟩

/-- The receiver escapes in both, which is found on a pool and without a record of it as well. -/
theorem analyze_bookkeeping_handingOn : build .fresh handingOn = .ok handingOnUnit ∧
    ∃ report v v' f f', handingOnUnit.analyze .default = .ok (report, v) ∧
      handingOnUnit.analyze ⟨true, 1, false, false, false⟩ = .ok (report, v') ∧
      v.facts.get? ⟨1⟩ = some f ∧ v'.facts.get? ⟨1⟩ = some f' ∧
      f'.alwaysDefined = f.alwaysDefined ∧ f'.compromised = f.compromised ∧ f'.origin = f.origin ∧
      f.firstEscape = some ⟨.compromisedBase ⟨0⟩, .empty⟩ ∧ f'.firstEscape = none := by
  have hbuild : build .fresh handingOn = .ok handingOnUnit := rfl
  have hacyclic : handingOnUnit.graph.Acyclic := Graph.findCycle?_eq_none_iff.1 (by decide +kernel)
  have hid : ⟨1⟩ ∈ handingOnUnit.graph.ids := by decide
  have hescape : ((handingOnUnit.graph.analyze .default).get? ⟨1⟩).bind Facts.firstEscape =
      some ⟨.compromisedBase ⟨0⟩, .empty⟩ := by decide +kernel
  obtain ⟨report, v, v', hv, hv', hfacts, -⟩ := analyze_bookkeeping .fresh handingOn
    handingOnUnit hbuild hacyclic .default ⟨true, 1, false, false, false⟩ rfl
  obtain ⟨f, f', hf, hf', hdefined, hcompromised, horigin, -, -, hnone⟩ := hfacts ⟨1⟩ hid
  refine ⟨hbuild, report, v, v', f, f', hv, hv', hf, hf', hdefined, hcompromised, horigin, ?_,
    hnone rfl⟩
  obtain ⟨-, hv⟩ := Prod.mk.inj (Except.ok.inj
    (hv.symm.trans (analyze_of_acyclic (u := handingOnUnit) rfl hacyclic .default)))
  rw [hv] at hf
  rwa [show (handingOnUnit.graph.analyze .default).get? ⟨1⟩ = some f from hf] at hescape

end CompileUnit

end DefiniteInit
