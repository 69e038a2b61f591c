import DefiniteInit.Proofs.LayoutSoundness
import DefiniteInit.Proofs.Schedules

/-!
# Cells that are written once

A unit has two cells for each class, one for its facts and one for what it and all classes
below it define. Both are written once. `CompileUnit.analyze` says what an analysis leaves in the
cells when it is over. `Work.analyze` gets there cell by cell: it stops where it meets
a cell that is full, and then what it wrote before stays written. Each class is taken down as its
facts are written, which comes to the account of all facts (`Report.recordAll_eq_report`).

That never happens. A class is in one wave and no other, so no cell is written twice in one
analysis, and a unit that was analyzed before is refused before anything is written. So the two
agree on every unit that requests can lead to, and a request that is refused leaves the unit as
it was (`CompileUnit.run_analyze`). After any requests the cells are those of the first analysis
that succeeded, or empty if none did (`CompileUnit.reached_serveAll`).
-/

namespace DefiniteInit

/-! ## Writing cell by cell -/

/-- A request under way. If it fails, what it wrote before stays written. -/
abbrev Work (α : Type) : Type := EStateM Fault CompileUnit α

/-- One of the tables of a unit, to be read and replaced. -/
structure Cells (α : Type) where
  read : CompileUnit → ClassTable α
  write : CompileUnit → ClassTable α → CompileUnit
  read_write : ∀ u t, read (write u t) = t
  write_read : ∀ u, write u (read u) = u
  write_write : ∀ u t t', write (write u t) t' = write u t'

namespace Cells

/-- The cells for the facts. -/
def facts : Cells Facts where
  read := CompileUnit.facts
  write u t := { u with facts := t }
  read_write _ _ := rfl
  write_read _ := rfl
  write_write _ _ _ := rfl

/-- The cells for what a class and all below it define. -/
def narrowed : Cells AttrSet where
  read := CompileUnit.narrowed
  write u t := { u with narrowed := t }
  read_write _ _ := rfl
  write_read _ := rfl
  write_write _ _ _ := rfl

/-- Writes the cell of a class, unless it is full. -/
def store {α : Type} (cells : Cells α) (id : ClassId) (value : α) : Work Unit := do
  let u ← get
  match (cells.read u).get? id with
  | some _ => throw (.alreadyAnalyzed (u.className id))
  | none => set (cells.write u ((cells.read u).insert id value))

end Cells

namespace Report

/-- The account before a class was looked at. -/
def start (waves : Nat) : Report := ⟨[], waves, 0, 0, 0, 0, 0⟩

/-- Counts the origin of facts. -/
def tally (r : Report) : Origin → Report
  | .analyzed => { r with analyzed := r.analyzed + 1 }
  | .inherited _ | .defaultsOnly => { r with inherited := r.inherited + 1 }
  | .seeded _ => { r with seeded := r.seeded + 1 }
  | .trait => { r with traits := r.traits + 1 }

/-- Takes down a class and its facts. -/
def record (r : Report) (id : ClassId) (f : Facts) : Report :=
  let r := { r with order := r.order ++ [id] }.tally f.origin
  if f.compromised then { r with compromised := r.compromised + 1 } else r

/-- Takes down classes one after the other. -/
def recordAll (r : Report) (results : List (ClassId × Facts)) : Report :=
  results.foldl (fun r x => r.record x.1 x.2) r

/-- Results are counted one after the other. -/
theorem recordAll_append (r : Report) (results results' : List (ClassId × Facts)) :
    r.recordAll (results ++ results') = (r.recordAll results).recordAll results' :=
  List.foldl_append

end Report

/-- How the facts of the classes of a wave are found and put in a list, given how to find those of
one class. -/
abbrev Gathering := List ClassId → (ClassId → Facts) → List (ClassId × Facts)

/-- The classes are looked at one after the other. -/
def inTurn : Gathering := fun wave f => wave.map fun id => (id, f id)

namespace Work

/-- Takes facts down and writes them, class by class. -/
def storeEach (report : Report) (results : List (ClassId × Facts)) : Work Report :=
  results.foldlM (fun report x => do
    Cells.facts.store x.1 x.2
    return report.record x.1 x.2) report

/-- Writes the facts of a wave, by what is known when it begins. -/
def storeWave (gather : Gathering) (o : Options) (report : Report) (wave : List ClassId) :
    Work Report := do
  let u ← get
  storeEach report (gather wave (u.factsOf o))

/-- Writes what a class and all below it define, by what is known of those below. -/
def storeNarrowed (id : ClassId) : Work Unit := do
  let u ← get
  Cells.narrowed.store id (u.graph.narrowedBy u.facts u.narrowed id)

/-- Writes the cells of all classes, and takes them down on the way. -/
def storeAll (gather : Gathering) (o : Options) : Work Report := do
  let u ← get
  let report ← u.graph.waves.foldlM (storeWave gather o) (.start u.graph.waves.length)
  if o.narrowBySubclasses then forM u.graph.waves.reverse.flatten storeNarrowed
  return report

/-- Analyzes the unit cell by cell, with the classes of a wave gathered in this way. -/
def analyzeBy (gather : Gathering) (o : Options) : Work Report := do
  let u ← get
  match u.graph.ids.find? fun id => (u.facts.get? id).isSome with
  | some id => throw (.alreadyAnalyzed (u.className id))
  | none =>
    match u.graph.findCycle? with
    | some cycle =>
      let chain := cycle.map u.className
      throw (.cyclicHierarchy (chain.getLast?.getD "") chain)
    | none => storeAll gather o

/-- Analyzes the unit cell by cell. -/
def analyze (o : Options) : Work Report := analyzeBy inTurn o

/-- Plans the layouts of the unit. -/
def plan (o : Options) : Work (List (ClassId × Layout)) := do
  let u ← get
  match u.layouts o with
  | .ok layouts => return layouts
  | .error fault => throw fault

end Work

/-! ## No write meets a full cell -/

section Writes

variable {α β : Type} {u v : CompileUnit} {o : Options}

/-- Work goes on from where it has succeeded. -/
theorem Work.run_bind_of_run_eq_ok {x : Work α} {f : α → Work β} {a : α} (h : x.run u = .ok a v) :
    (x >>= f).run u = (f a).run v := by
  rw [EStateM.run_bind, h]

theorem Work.run_get_bind (f : CompileUnit → Work α) (u : CompileUnit) :
    (get >>= f : Work α).run u = (f u).run u := rfl

/-- To write into an empty cell succeeds. -/
theorem Cells.run_store {cells : Cells α} {id : ClassId} {value : α}
    (h : (cells.read u).get? id = none) : (cells.store id value).run u =
      .ok () (cells.write u ((cells.read u).insert id value)) := by
  unfold store
  rw [Work.run_get_bind, h]
  rfl

/-- Cells of different classes that are all empty can be filled one after the other, each by
what stands in the cells then. -/
theorem Cells.run_forM_store (cells : Cells α) (value : CompileUnit → ClassId → α)
    {ids : List ClassId} (hnodup : ids.Nodup)
    (hempty : ∀ id ∈ ids, (cells.read u).get? id = none) :
    (forM ids fun id => do cells.store id (value (← get) id)).run u =
      .ok () (cells.write u
        (ids.foldl (fun t id => t.insert id (value (cells.write u t) id)) (cells.read u))) := by
  induction ids generalizing u with
  | nil => exact congrArg (EStateM.Result.ok ()) (cells.write_read u).symm
  | cons id ids ih =>
    obtain ⟨hid, hids⟩ := List.nodup_cons.1 hnodup
    obtain ⟨hempty_id, hempty_ids⟩ := List.forall_mem_cons.1 hempty
    have hfirst : (do cells.store id (value (← get) id) : Work Unit).run u =
        .ok () (cells.write u ((cells.read u).insert id (value u id))) := run_store hempty_id
    rw [List.forM_cons, Work.run_bind_of_run_eq_ok hfirst, ih hids]
    · simp only [cells.read_write, cells.write_write, List.foldl_cons, cells.write_read]
    · intro id' hid'
      rw [cells.read_write, ClassTable.get?_insert, if_neg (ne_of_mem_of_not_mem hid' hid)]
      exact hempty_ids id' hid'

namespace Work

/-- To write results one after the other succeeds if their cells are empty and differ. The induction
is along the results, for any report. -/
theorem run_storeEach {report : Report} {results : List (ClassId × Facts)}
    (hnodup : (results.map Prod.fst).Nodup)
    (hempty : ∀ x ∈ results, u.facts.get? x.1 = none) : (storeEach report results).run u =
      .ok (report.recordAll results) { u with facts := u.facts.insertAll results } := by
  induction results generalizing u report with
  | nil => rfl
  | cons x results ih =>
    obtain ⟨hx, hresults⟩ := List.nodup_cons.1 hnodup
    obtain ⟨hempty_x, hempty_results⟩ := List.forall_mem_cons.1 hempty
    have hstore : (Cells.facts.store x.1 x.2).run u =
        .ok () { u with facts := u.facts.insert x.1 x.2 } := Cells.run_store hempty_x
    have hfirst : (do Cells.facts.store x.1 x.2; return report.record x.1 x.2 : Work Report).run u =
        .ok (report.record x.1 x.2) { u with facts := u.facts.insert x.1 x.2 } :=
      run_bind_of_run_eq_ok hstore
    rw [storeEach, List.foldlM_cons, run_bind_of_run_eq_ok hfirst]
    refine ih hresults fun y hy => ?_
    have hne : y.1 ≠ x.1 := ne_of_mem_of_not_mem (List.mem_map_of_mem hy) hx
    rw [ClassTable.get?_insert, if_neg hne]
    exact hempty_results y hy

/-- A wave is written as it is analyzed, if none of its classes has facts. -/
theorem run_storeWave (o : Options) (report : Report) (wave : List ClassId) (hnodup : wave.Nodup)
    (hempty : ∀ id ∈ wave, u.facts.get? id = none) : (storeWave inTurn o report wave).run u =
      .ok (report.recordAll (inTurn wave (u.factsOf o)))
        { u with facts := u.graph.analyzeWave o u.facts wave } := by
  have hids : (inTurn wave (u.factsOf o)).map Prod.fst = wave := by
    simp [inTurn, Function.comp_def]
  refine run_storeEach (hids.symm ▸ hnodup) fun x hx => ?_
  exact hempty x.1 (hids ▸ List.mem_map_of_mem hx)

/-- The classes that wait have no facts yet, and those of a wave no longer wait after it. What is
taken down of a class are the facts that it has in the end. -/
theorem run_foldlM_storeWave {g : Graph} (hg : u.graph = g) {waiting : List ClassId}
    (hnodup : waiting.Nodup) (hempty : ∀ id ∈ waiting, u.facts.get? id = none) (report : Report) :
    ∃ results, results.map Prod.fst = (g.wavesFrom waiting).flatten ∧
      (∀ x ∈ results, ((g.wavesFrom waiting).foldl (g.analyzeWave o) u.facts).get? x.1 = some x.2) ∧
      ((g.wavesFrom waiting).foldlM (storeWave inTurn o) report).run u =
        .ok (report.recordAll results)
          { u with facts := (g.wavesFrom waiting).foldl (g.analyzeWave o) u.facts } := by
  -- Wave by wave: the cells of the classes that wait are empty before each, so every store
  -- succeeds.
  fun_induction Graph.wavesFrom g waiting generalizing u report with
  | case1 waiting hnone => exact ⟨[], rfl, by simp, rfl⟩
  | case2 waiting hready ih =>
    subst hg
    have hwave := run_storeWave o report (u.graph.ready waiting) (hnodup.filter _) fun id hid =>
      hempty id (Graph.mem_ready.1 hid).1
    have hlater : ∀ id ∈ u.graph.blocked waiting,
        (u.graph.analyzeWave o u.facts (u.graph.ready waiting)).get? id = none := by
      intro id hid
      obtain ⟨hwaits, hlater⟩ := Graph.mem_blocked.1 hid
      rw [Graph.get?_analyzeWave, if_neg hlater]
      exact hempty id hwaits
    obtain ⟨results, hids, hfacts, hrun⟩ := ih
      (u := { u with facts := u.graph.analyzeWave o u.facts (u.graph.ready waiting) }) rfl
      (hnodup.filter _) hlater (report.recordAll (inTurn (u.graph.ready waiting) (u.factsOf o)))
    refine ⟨inTurn (u.graph.ready waiting) (u.factsOf o) ++ results, ?_, fun x hx => ?_, ?_⟩
    · simp [hids, inTurn, Function.comp_def]
    · rcases List.mem_append.1 hx with hx | hx
      · obtain ⟨id, hid, rfl⟩ := List.mem_map.1 hx
        have hdone : id ∉ u.graph.blocked waiting := fun h => (Graph.mem_blocked.1 h).2 hid
        rw [List.foldl_cons, Graph.get?_foldl_wavesFrom_of_not_mem hdone, Graph.get?_analyzeWave,
          if_pos hid]
        rfl
      · exact hfacts x hx
    · rw [List.foldlM_cons, run_bind_of_run_eq_ok hwave, hrun, Report.recordAll_append]
      rfl

/-- Narrowed sets are written one after the other as they are found. -/
theorem run_forM_storeNarrowed {order : List ClassId} (hnodup : order.Nodup)
    (hempty : ∀ id ∈ order, u.narrowed.get? id = none) :
    (forM order storeNarrowed).run u = .ok () { u with
      narrowed := order.foldl (fun t id => t.insert id (u.graph.narrowedBy u.facts t id))
        u.narrowed } :=
  Cells.narrowed.run_forM_store (fun v => v.graph.narrowedBy v.facts v.narrowed) hnodup hempty

end Work

/-- The unit with the cells of an analysis. -/
def CompileUnit.analyzed (u : CompileUnit) (o : Options) : CompileUnit :=
  { u with
    facts := u.graph.analyze o
    narrowed := if o.narrowBySubclasses then u.graph.narrow (u.graph.analyze o) else ∅ }

/-- What is taken down on the way is the account of the facts that are there in the end. -/
theorem Report.recordAll_eq_report {g : Graph} {known : ClassTable Facts}
    {results : List (ClassId × Facts)} (hids : results.map Prod.fst = g.waves.flatten)
    (hfacts : ∀ x ∈ results, known.get? x.1 = some x.2) :
    (Report.start g.waves.length).recordAll results = g.report known := by
  have hmap : g.waves.flatten.filterMap known.get? = results.map Prod.snd := by
    rw [← hids, List.filterMap_map, ← List.filterMap_eq_map]
    exact List.filterMap_congr hfacts
  simp only [Graph.report, hmap]
  rw [← hids]
  clear hids hfacts hmap
  induction results using List.reverseRecOn with
  | nil => rfl
  | append_singleton results x ih =>
    have hlast : ∀ r : Report, r.recordAll [x] = r.record x.1 x.2 := fun _ => rfl
    rw [recordAll_append, ih, hlast]
    simp only [List.map_append, List.countP_append, List.map_singleton, List.countP_singleton]
    cases horigin : x.2.origin <;> cases hcompromised : x.2.compromised <;>
      simp [record, tally, horigin, hcompromised]

/-- All waves are written, and the account is the one of the whole analysis. -/
theorem Work.run_storeAll (hfacts : u.facts = ∅) (hnarrowed : u.narrowed = ∅) (o : Options) :
    (storeAll inTurn o).run u = .ok (u.graph.report (u.graph.analyze o)) (u.analyzed o) := by
  obtain ⟨names, g, facts, narrowed⟩ := u
  obtain rfl : facts = ∅ := hfacts
  obtain rfl : narrowed = ∅ := hnarrowed
  have hwaves : (g.waves.foldlM (storeWave inTurn o) (.start g.waves.length)).run
      ⟨names, g, ∅, ∅⟩ = .ok (g.report (g.analyze o)) ⟨names, g, g.analyze o, ∅⟩ := by
    obtain ⟨results, hids, hresults, hrun⟩ := run_foldlM_storeWave (u := ⟨names, g, ∅, ∅⟩) (o := o)
      rfl g.nodup_ids (by simp) (.start g.waves.length)
    have hreport : (Report.start g.waves.length).recordAll results = g.report (g.analyze o) :=
      Report.recordAll_eq_report hids hresults
    rw [← hreport]
    exact hrun
  unfold storeAll
  rw [run_get_bind, run_bind_of_run_eq_ok hwaves]
  -- The second pass, over the waves in reverse, is made only if it is asked for.
  cases hnarrow : o.narrowBySubclasses with
  | false =>
    simp only [CompileUnit.analyzed, hnarrow, Bool.false_eq_true, if_false]
    rfl
  | true =>
    have hcells : (forM g.waves.reverse.flatten storeNarrowed).run ⟨names, g, g.analyze o, ∅⟩ =
        .ok () ⟨names, g, g.analyze o, g.narrow (g.analyze o)⟩ :=
      run_forM_storeNarrowed Graph.nodup_reverse_waves (by simp)
    simp only [CompileUnit.analyzed, hnarrow, if_true]
    exact run_bind_of_run_eq_ok hcells

end Writes

/-! ## How an analysis ends -/

namespace CompileUnit

variable {u v : CompileUnit} {o : Options}

/-- There is a class, and it has facts. -/
def HasFacts (u : CompileUnit) : Prop := ∃ id ∈ u.graph.ids, (u.facts.get? id).isSome = true

/-- A unit with facts is refused. -/
theorem analyze_of_hasFacts (h : u.HasFacts) (o : Options) :
    ∃ cls, u.analyze o = .error (.alreadyAnalyzed cls) := by
  obtain ⟨id, hid, hfacts⟩ := h
  unfold analyze
  cases hfind : u.graph.ids.find? fun id => (u.facts.get? id).isSome with
  | some first => exact ⟨_, rfl⟩
  | none => exact absurd hfacts (List.find?_eq_none.1 hfind id hid)

/-- A unit with a cycle is refused. -/
theorem analyze_of_not_acyclic (hfacts : u.facts = ∅) (h : ¬u.graph.Acyclic) (o : Options) :
    ∃ cls chain, u.analyze o = .error (.cyclicHierarchy cls chain) := by
  have hfind : (u.graph.ids.find? fun id => (u.facts.get? id).isSome) = none := by simp [hfacts]
  unfold analyze
  rw [hfind]
  cases hcycle : u.graph.findCycle? with
  | some cycle => exact ⟨_, _, rfl⟩
  | none => exact absurd (Graph.findCycle?_eq_none_iff.1 hcycle) h

/-- A unit without facts and without a cycle is analyzed. -/
theorem analyze_of_acyclic (hfacts : u.facts = ∅) (h : u.graph.Acyclic) (o : Options) :
    u.analyze o = .ok (u.graph.report (u.graph.analyze o), u.analyzed o) :=
  analyze_eq_ok_of_acyclic (by simp [hfacts]) h o

/-- How a request ends that hands over the unit when it is over: with the new unit, or with the
old one. -/
def outcome {α : Type} (u : CompileUnit) :
    Except Fault (α × CompileUnit) → EStateM.Result Fault CompileUnit α
  | .ok (answer, v) => .ok answer v
  | .error fault => .error fault u

/-- Facts are there, or all cells are empty. -/
def Whole (u : CompileUnit) : Prop := u.HasFacts ∨ u.facts = ∅ ∧ u.narrowed = ∅

/-- Cell by cell, an analysis ends as it does in one piece. -/
theorem run_analyze (h : u.Whole) (o : Options) :
    (Work.analyze o).run u = u.outcome (u.analyze o) := by
  unfold Work.analyze Work.analyzeBy analyze
  rw [Work.run_get_bind]
  cases hfind : u.graph.ids.find? fun id => (u.facts.get? id).isSome with
  | some id => rfl
  | none =>
    cases hcycle : u.graph.findCycle? with
    | some cycle => rfl
    | none =>
      obtain ⟨id, hid, hfacts⟩ | ⟨hfacts, hnarrowed⟩ := h
      · exact absurd hfacts (List.find?_eq_none.1 hfind id hid)
      · exact Work.run_storeAll hfacts hnarrowed o

end CompileUnit

/-! ## Requests -/

/-- What a unit can be asked for. -/
inductive Request where
  | analyze (o : Options)
  | plan (o : Options)

/-- What is left of a unit after the work. -/
def Work.leaves {α : Type} (work : Work α) (u : CompileUnit) : CompileUnit :=
  match work.run u with
  | .ok _ v => v
  | .error _ v => v

theorem Work.leaves_eq_of_ok {α : Type} {work : Work α} {u v : CompileUnit} {a : α}
    (h : work.run u = .ok a v) : work.leaves u = v := by
  rw [leaves, h]

theorem Work.leaves_eq_of_error {α : Type} {work : Work α} {u v : CompileUnit} {fault : Fault}
    (h : work.run u = .error fault v) : work.leaves u = v := by
  rw [leaves, h]

namespace CompileUnit

variable {u v : CompileUnit} {o : Options}

/-- The unit after a request, granted or refused. -/
def serve (u : CompileUnit) : Request → CompileUnit
  | .analyze o => (Work.analyze o).leaves u
  | .plan o => (Work.plan o).leaves u

/-- The unit after several requests. -/
def serveAll (u : CompileUnit) (requests : List Request) : CompileUnit :=
  requests.foldl serve u

/-- The options of the first analysis that succeeds. -/
def firstAnalysis? (u : CompileUnit) : List Request → Option Options
  | [] => none
  | .plan o :: rest => (u.serve (.plan o)).firstAnalysis? rest
  | .analyze o :: rest =>
    match (Work.analyze o).run u with
    | .ok _ _ => some o
    | .error _ v => v.firstAnalysis? rest

/-- To ask for layouts leaves the unit as it was. -/
theorem serve_plan (u : CompileUnit) (o : Options) : u.serve (.plan o) = u := by
  cases h : u.layouts o with
  | ok layouts =>
    have hrun : (Work.plan o).run u = .ok layouts u := by
      rw [Work.plan, Work.run_get_bind, h]
      rfl
    exact Work.leaves_eq_of_ok hrun
  | error fault =>
    have hrun : (Work.plan o).run u = .error fault u := by
      rw [Work.plan, Work.run_get_bind, h]
      rfl
    exact Work.leaves_eq_of_error hrun

theorem isSome_get?_analyzed (h : u.graph.Acyclic) {id : ClassId} (hid : id ∈ u.graph.ids) :
    ((u.analyzed o).facts.get? id).isSome = true :=
  Option.isSome_iff_exists.2 ⟨_, Graph.solves_analyze h o id hid⟩

theorem analyzed_of_ids_eq_nil (h : u.graph.ids = []) (o : Options) :
    u.analyzed o = { u with facts := ∅, narrowed := ∅ } := by
  have hwaves : u.graph.waves = [] := by
    rw [Graph.waves, h, Graph.wavesFrom]
    rfl
  simp [analyzed, Graph.analyze, Graph.narrow, hwaves]

theorem hasFacts_analyzed (h : u.graph.Acyclic) (hids : u.graph.ids ≠ []) (o : Options) :
    (u.analyzed o).HasFacts := by
  obtain ⟨id, hid⟩ := List.exists_mem_of_ne_nil _ hids
  exact ⟨id, hid, isSome_get?_analyzed h hid⟩

/-- An analyzed unit stays as it is, whatever it is asked for. -/
theorem serve_analyzed (h : u.graph.Acyclic) (o : Options) (request : Request) :
    (u.analyzed o).serve request = u.analyzed o := by
  cases request with
  | plan o' => exact serve_plan _ o'
  | analyze o' =>
    by_cases hids : u.graph.ids = []
    · have hempty := analyzed_of_ids_eq_nil hids o
      have hagain : (u.analyzed o).analyzed o' = u.analyzed o :=
        (analyzed_of_ids_eq_nil (u := u.analyzed o) hids o').trans (by rw [hempty])
      have hrun := run_analyze (u := u.analyzed o) (.inr (by simp [hempty])) o'
      rw [analyze_of_acyclic (u := u.analyzed o) (by simp [hempty]) h o', hagain] at hrun
      exact Work.leaves_eq_of_ok hrun
    · have hfacts := hasFacts_analyzed h hids o
      obtain ⟨cls, hcls⟩ := analyze_of_hasFacts hfacts o'
      have hrun := run_analyze (.inl hfacts) o'
      rw [hcls] at hrun
      exact Work.leaves_eq_of_error hrun

/-- The unit as it was built, or as the first analysis that succeeded left it. -/
inductive Reached (u : CompileUnit) : Option Options → CompileUnit → Prop where
  | built : Reached u none u
  | analyzed (h : u.graph.Acyclic) (o : Options) : Reached u (some o) (u.analyzed o)

/-- After any requests the unit is as it was or as the first analysis that succeeds leaves it. The
induction is along the requests. -/
theorem reached_serveAll (hfacts : u.facts = ∅) (hnarrowed : u.narrowed = ∅)
    (requests : List Request) :
    u.Reached (u.firstAnalysis? requests) (u.serveAll requests) := by
  induction requests with
  | nil => exact .built
  | cons request rest ih =>
    cases request with
    | plan o =>
      rw [firstAnalysis?, serveAll, List.foldl_cons, serve_plan]
      exact ih
    | analyze o =>
      have hrun := run_analyze (.inr ⟨hfacts, hnarrowed⟩) o
      rw [firstAnalysis?, serveAll, List.foldl_cons, serve]
      by_cases hacyclic : u.graph.Acyclic
      · rw [analyze_of_acyclic hfacts hacyclic o] at hrun
        rw [hrun, Work.leaves_eq_of_ok hrun, List.foldl_fixed' (serve_analyzed hacyclic o)]
        exact .analyzed hacyclic o
      · obtain ⟨cls, chain, hfault⟩ := analyze_of_not_acyclic hfacts hacyclic o
        rw [hfault] at hrun
        rw [hrun, Work.leaves_eq_of_error hrun]
        exact ih

namespace Reached

variable {first : Option Options}

theorem graph_eq (h : u.Reached first v) : v.graph = u.graph := by
  cases h with
  | built => rfl
  | analyzed _ o => rfl

/-- All classes have facts, or none has. -/
theorem isSome_get?_facts (h : u.Reached first v) (hfacts : u.facts = ∅) :
    ∀ id ∈ v.graph.ids, (v.facts.get? id).isSome = first.isSome := by
  intro id hid
  cases h with
  | built => simp [hfacts]
  | analyzed hacyclic o => exact isSome_get?_analyzed hacyclic hid

/-- All classes have narrowed sets, or none has. -/
theorem isSome_get?_narrowed (h : u.Reached first v) (hnarrowed : u.narrowed = ∅) :
    ∀ id ∈ v.graph.ids, (v.narrowed.get? id).isSome = first.any (·.narrowBySubclasses) := by
  intro id hid
  cases h with
  | built => simp [hnarrowed]
  | analyzed hacyclic o =>
    cases hnarrow : o.narrowBySubclasses with
    | false => simp [CompileUnit.analyzed, hnarrow]
    | true =>
      have hcycle := Graph.findCycle?_eq_none_iff.2 hacyclic
      simpa [CompileUnit.analyzed, hnarrow] using Graph.isSome_get?_narrow hcycle hid

theorem whole (h : u.Reached first v) (hfacts : u.facts = ∅) (hnarrowed : u.narrowed = ∅) :
    v.Whole := by
  cases h with
  | built => exact .inr ⟨hfacts, hnarrowed⟩
  | analyzed hacyclic o =>
    by_cases hids : u.graph.ids = []
    · exact .inr (by simp [analyzed_of_ids_eq_nil hids])
    · exact .inl (hasFacts_analyzed hacyclic hids o)

theorem analyze_of_acyclic (h : u.Reached none v) (hfacts : u.facts = ∅)
    (hacyclic : v.graph.Acyclic) (o : Options) :
    v.analyze o = .ok (v.graph.report (v.graph.analyze o), v.analyzed o) := by
  cases h with
  | built => exact CompileUnit.analyze_of_acyclic hfacts hacyclic o

theorem analyze_of_not_acyclic (h : u.Reached first v) (hfacts : u.facts = ∅)
    (hcyclic : ¬v.graph.Acyclic) (o : Options) :
    ∃ cls chain, v.analyze o = .error (.cyclicHierarchy cls chain) := by
  cases h with
  | built => exact CompileUnit.analyze_of_not_acyclic hfacts hcyclic o
  | analyzed hacyclic _ => exact absurd hacyclic hcyclic

end Reached

section Layouts

-- Where all classes have facts or none has.
variable {b : Bool} (hall : ∀ id ∈ u.graph.ids, (u.facts.get? id).isSome = b)
include hall

/-- Layouts are refused to a unit that has classes and no facts. -/
theorem layouts_eq_error_iff : (∃ cls, u.layouts o = .error (.notAnalyzed cls)) ↔
    u.graph.ids ≠ [] ∧ ¬u.HasFacts := by
  unfold layouts
  cases hfind : u.graph.ids.find? fun id => (u.facts.get? id).isNone with
  | some id =>
    have hid := List.mem_of_find?_eq_some hfind
    have hnone : (u.facts.get? id).isSome = false := by simpa using List.find?_some hfind
    refine iff_of_true ⟨_, rfl⟩ ⟨List.ne_nil_of_mem hid, ?_⟩
    rintro ⟨id', hid', hfacts⟩
    rw [hall id' hid', ← hall id hid, hnone] at hfacts
    simp at hfacts
  | none =>
    refine iff_of_false (by simp) fun ⟨hids, hfacts⟩ => ?_
    obtain ⟨id, hid⟩ := List.exists_mem_of_ne_nil _ hids
    have hsome : (u.facts.get? id).isSome = true := by
      simpa [Option.isSome_iff_ne_none] using List.find?_eq_none.1 hfind id hid
    exact hfacts ⟨id, hid, hsome⟩

theorem exists_layouts (h : u.graph.ids = [] ∨ u.HasFacts) (o : Options) :
    ∃ layouts, u.layouts o = .ok layouts := by
  refine ⟨_, layouts_eq_ok (fun id hid => ?_) o⟩
  obtain hids | ⟨id', hid', hfacts⟩ := h
  · simp [hids] at hid
  · rw [hall id hid, ← hall id' hid', hfacts]

end Layouts

/-- After any requests all classes have their facts or none has, and likewise what the classes below
leave, if the first analysis that succeeded was asked for it. An analysis that writes cell by cell
ends as one in one piece does, and leaves the unit as it was if it is refused, which it is where
there is a cycle or where there are facts. -/
theorem requests_all_or_nothing (names : NameTable) (decls : List Declaration) (u : CompileUnit)
    (hbuild : build names decls = .ok u) (requests : List Request) :
    ∃ v first, u.serveAll requests = v ∧ u.firstAnalysis? requests = first ∧ v.graph = u.graph ∧
      (∀ id ∈ v.graph.ids, (v.facts.get? id).isSome = first.isSome) ∧
      (∀ id ∈ v.graph.ids, (v.narrowed.get? id).isSome = first.any (·.narrowBySubclasses)) ∧
      (∀ o, (Work.analyze o).run v = v.outcome (v.analyze o)) ∧
      (v.graph.Acyclic → first = none → ∀ o, ∃ report, v.analyze o = .ok (report, v.analyzed o)) ∧
      (¬v.graph.Acyclic → ∀ o, ∃ cls chain, v.analyze o = .error (.cyclicHierarchy cls chain)) ∧
      (v.HasFacts → ∀ o, ∃ cls, v.analyze o = .error (.alreadyAnalyzed cls)) ∧
      ∀ o, v.serve (.plan o) = v ∧
        ((∃ cls, v.layouts o = .error (.notAnalyzed cls)) ↔ v.graph.ids ≠ [] ∧ ¬v.HasFacts) ∧
        (v.graph.ids = [] ∨ v.HasFacts → ∃ layouts, v.layouts o = .ok layouts) := by
  have hempty := eq_of_build_eq_ok hbuild
  have hfacts : u.facts = ∅ := by rw [hempty]
  have hnarrowed : u.narrowed = ∅ := by rw [hempty]
  have hreached := reached_serveAll hfacts hnarrowed requests
  have hall := hreached.isSome_get?_facts hfacts
  refine ⟨_, _, rfl, rfl, hreached.graph_eq, hall, hreached.isSome_get?_narrowed hnarrowed,
    run_analyze (hreached.whole hfacts hnarrowed), fun hacyclic hfirst o => ?_,
    hreached.analyze_of_not_acyclic hfacts, analyze_of_hasFacts,
    fun o => ⟨serve_plan _ o, layouts_eq_error_iff hall, fun h => exists_layouts hall h o⟩⟩
  rw [hfirst] at hreached
  exact ⟨_, hreached.analyze_of_acyclic hfacts hacyclic o⟩

/-- The diamond is analyzed once. That the second analysis is asked for what the classes below
leave does not matter. -/
theorem requests_all_or_nothing_diamond : build .fresh diamond = .ok diamondUnit ∧
    ∃ v, diamondUnit.serveAll [.plan .default, .analyze { Options.default with
        narrowBySubclasses := false }, .analyze .default, .plan .default] = v ∧
      (v.facts.get? ⟨3⟩).isSome = true ∧ v.narrowed.get? ⟨3⟩ = none ∧
      (∃ cls, v.analyze .default = .error (.alreadyAnalyzed cls)) ∧
      ∃ layouts, v.layouts .default = .ok layouts := by
  have hbuild : build .fresh diamond = .ok diamondUnit := rfl
  obtain ⟨v, first, hv, hfirst, hgraph, hfacts, hnarrowed, -, -, -, hagain, hplan⟩ :=
    requests_all_or_nothing .fresh diamond diamondUnit hbuild [.plan .default,
      .analyze { Options.default with narrowBySubclasses := false }, .analyze .default,
      .plan .default]
  obtain rfl : some { Options.default with narrowBySubclasses := false } = first := by
    rw [← hfirst]
    decide +kernel
  have hid : (⟨3⟩ : ClassId) ∈ v.graph.ids := by
    rw [hgraph]
    decide +kernel
  have hhas : v.HasFacts := ⟨⟨3⟩, hid, hfacts _ hid⟩
  exact ⟨hbuild, v, hv, hfacts _ hid, by simpa using hnarrowed _ hid, hagain hhas .default,
    (hplan .default).2.2 (.inr hhas)⟩

end CompileUnit

end DefiniteInit
