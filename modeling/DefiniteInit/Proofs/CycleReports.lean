import DefiniteInit.Proofs.CycleMarks
import DefiniteInit.Proofs.NameTables
import DefiniteInit.Proofs.WriteOnce

/-!
# What is said of a cycle

A unit with a cycle is refused, and the fault names the classes of the cycle from one of them
round to it again. It is refused for this reason only if there is a cycle
(`CompileUnit.analyze_eq_cyclicHierarchy_iff`), and the cycle is the one that the search with marks
finds.

The fault gives the classes by name. No two classes of a unit that was built have one name
(`CompileUnit.lookup?_name`), so a text that the table of names has leads back to the class
(`CompileUnit.lookup?_className`).
-/

namespace DefiniteInit

/-! ## Names of classes -/

/-- Where no two elements have one name, an element is the first of its name. -/
theorem findIdx?_of_nodup_map {α : Type} {f : α → Name} {l : List α} (h : (l.map f).Nodup) {i : Nat}
    (hi : i < l.length) : l.findIdx? (fun x => f x = f l[i]) = some i := by
  refine List.findIdx?_eq_some_iff_getElem.2 ⟨hi, by simp, fun j hj hname => ?_⟩
  have hj' : j < l.length := hj.trans hi
  have heq : (l.map f)[j]? = (l.map f)[i]? := by simpa [hj', hi] using hname
  exact List.nodup_iff_getElem?_ne_getElem?.1 h j i hj (by simpa using hi) heq

namespace Graph

variable {g : Graph} {id : ClassId}

/-- The ids of a unit are those of its classes. -/
theorem exists_class? (h : id ∈ g.ids) : ∃ c, g.class? id = some c :=
  ⟨_, List.getElem?_eq_getElem (mem_ids.1 h)⟩

/-- What a path leads to are classes of the graph. -/
theorem IsPath.mem_ids {path : List ClassId} (h : g.IsPath (id :: path)) :
    ∀ c ∈ path, c ∈ g.ids := by
  induction path generalizing id with
  | nil => simp
  | cons next rest ih =>
    obtain ⟨hbase, hrest⟩ := List.isChain_cons_cons.1 h
    exact List.forall_mem_cons.2 ⟨mem_ids_of_mem_localBases hbase, ih hrest⟩

end Graph

namespace CompileUnit

variable {names : NameTable} {decls : List Declaration} {u : CompileUnit} {o : Options}
  {id : ClassId}

/-- No duplicate is found exactly if there is none, among the names and against those seen. -/
theorem firstDuplicate?_eq_none_iff {seen names : List Name} :
    firstDuplicate? seen names = none ↔ names.Nodup ∧ ∀ n ∈ names, n ∉ seen := by
  induction names generalizing seen with
  | nil => simp [firstDuplicate?]
  | cons n rest ih =>
    rw [firstDuplicate?]
    by_cases hn : n ∈ seen
    · simp [hn]
    · rw [if_neg hn, ih, List.nodup_cons, List.forall_mem_cons]
      simp only [List.mem_cons, not_or]
      constructor
      · rintro ⟨hnodup, hrest⟩
        exact ⟨⟨fun hmem => (hrest n hmem).1 rfl, hnodup⟩, hn, fun m hm => (hrest m hm).2⟩
      · rintro ⟨⟨hmem, hnodup⟩, -, hrest⟩
        exact ⟨hnodup, fun m hm => ⟨fun heq => hmem (heq ▸ hm), hrest m hm⟩⟩

/-- A unit is built of declarations that are not too many and have different names. -/
theorem exists_build_iff : (∃ u, build names decls = .ok u) ↔
    decls.length ≤ maxClasses ∧ (decls.map (·.name)).Nodup := by
  have hnone : firstDuplicate? [] (decls.map (·.name)) = none ↔ (decls.map (·.name)).Nodup := by
    rw [firstDuplicate?_eq_none_iff]
    simp
  unfold build
  by_cases hmany : decls.length > maxClasses
  · simp [hmany, Nat.not_le.2 hmany]
  · rw [if_neg hmany, ← hnone, and_iff_right (Nat.not_lt.1 hmany)]
    cases firstDuplicate? [] (decls.map (·.name)) <;> simp

/-- No two classes of a unit have one name. -/
theorem nodup_names_of_build (h : build names decls = .ok u) :
    (u.graph.classes.map (·.name)).Nodup := by
  have hnames : u.graph.classes.map (·.name) = decls.map (·.name) := by
    rw [eq_of_build_eq_ok h]
    simp [Graph.ofDeclarations, Graph.classOf]
  exact hnames ▸ (exists_build_iff.1 ⟨u, h⟩).2

/-- A class is the one of its name. -/
theorem lookup?_name (h : build names decls = .ok u) {c : Class} (hc : u.graph.class? id = some c) :
    u.graph.lookup? c.name = some id := by
  have hnodup := nodup_names_of_build h
  obtain ⟨hlt, rfl⟩ := List.getElem?_eq_some_iff.1 hc
  rw [Graph.lookup?, findIdx?_of_nodup_map hnodup hlt, Option.map_some]

/-- A class that has a name in the table is the one looked up by its name. -/
theorem lookup?_className (h : build names decls = .ok u) {c : Class}
    (hc : u.graph.class? id = some c) (hname : c.name.index < u.names.size) :
    u.lookup? (u.className id) = some id := by
  have htext : u.names.text? c.name = some (u.className id) := by
    obtain ⟨text, htext⟩ : ∃ text, u.names.text? c.name = some text :=
      ⟨_, List.getElem?_eq_getElem hname⟩
    simp [className, hc, NameTable.display, htext]
  rw [lookup?, NameTable.get?_of_text? htext, Option.bind_some, lookup?_name h hc]

/-! ## Faults that name a cycle -/

/-- The analysis reports a cycle exactly if the search finds one, and reports that one by names. -/
theorem analyze_eq_cyclicHierarchy_iff (hfacts : u.facts = ∅) {cls : String} {chain : List String} :
    u.analyze o = .error (.cyclicHierarchy cls chain) ↔
      ∃ cycle, u.graph.findCycle? = some cycle ∧ cycle.map u.className = chain ∧
        chain.getLast?.getD "" = cls := by
  have hfind : (u.graph.ids.find? fun id => (u.facts.get? id).isSome) = none := by simp [hfacts]
  unfold analyze
  rw [hfind]
  cases hcycle : u.graph.findCycle? with
  | none => simp
  | some cycle =>
    constructor
    · intro h
      obtain ⟨hcls, hchain⟩ := Fault.cyclicHierarchy.inj (Except.error.inj h)
      exact ⟨cycle, rfl, hchain, hchain ▸ hcls⟩
    · rintro ⟨_, ⟨⟩, rfl, rfl⟩
      rfl

/-- Some cycle is reported exactly if there is one. -/
theorem exists_cyclicHierarchy_iff (hfacts : u.facts = ∅) :
    (∃ cls chain, u.analyze o = .error (.cyclicHierarchy cls chain)) ↔ ¬u.graph.Acyclic := by
  constructor
  · rintro ⟨cls, chain, h⟩
    obtain ⟨cycle, hcycle, -⟩ := (analyze_eq_cyclicHierarchy_iff hfacts).1 h
    exact (Graph.isCycle_of_findCycle? hcycle).not_acyclic
  · exact fun h => analyze_of_not_acyclic hfacts h o

/-- A unit that has no facts is as it was built. -/
theorem Reached.eq_of_not_hasFacts {v : CompileUnit} {first : Option Options}
    (h : u.Reached first v) (hfacts : u.facts = ∅) (hnarrowed : u.narrowed = ∅)
    (hno : ¬v.HasFacts) : v = u := by
  cases h with
  | built => rfl
  | analyzed hacyclic o =>
    have hids : u.graph.ids = [] := by
      by_contra hids
      exact hno (hasFacts_analyzed hacyclic hids o)
    rw [analyzed_of_ids_eq_nil hids, ← hfacts, ← hnarrowed]

/-- A unit that was built, asked for whatever, and has no facts is refused for a cycle exactly if a
class derives from itself, which the search with marks finds. The chain then given leads from the
class that is named back to it, over classes that are all different and of which each has the next
as a base. A name of it that is in the table is the name of that class alone. -/
theorem analyze_cycle_report_exact (names : NameTable) (decls : List Declaration) (u : CompileUnit)
    (hbuild : build names decls = .ok u) (requests : List Request) (v : CompileUnit)
    (hv : u.serveAll requests = v) (hno : ¬v.HasFacts) (o : Options) :
    ((∃ cls chain, v.analyze o = .error (.cyclicHierarchy cls chain)) ↔
      ∃ id, Relation.TransGen (fun d base => base ∈ v.graph.localBases d) id id) ∧
    (v.graph.findCycleByMarks = some none ↔
      ¬∃ id, Relation.TransGen (fun d base => base ∈ v.graph.localBases d) id id) ∧
    ∀ cls chain, v.analyze o = .error (.cyclicHierarchy cls chain) →
      2 ≤ chain.length ∧ chain.head? = some cls ∧ chain.getLast? = some cls ∧
      ∃ first between, chain = (first :: (between ++ [first])).map v.className ∧
        v.graph.findCycleByMarks = some (some (first :: (between ++ [first]))) ∧
        (first :: between).Nodup ∧ v.graph.IsPath (first :: (between ++ [first])) ∧
        ∀ id ∈ first :: between, ∃ c, v.get id = .ok c ∧
          (c.name.index < v.names.size → v.lookup? (v.className id) = some id) := by
  have hempty := eq_of_build_eq_ok hbuild
  have hfacts : u.facts = ∅ := by rw [hempty]
  have hnarrowed : u.narrowed = ∅ := by rw [hempty]
  -- A unit without facts has not been analyzed, and requests leave such a unit as it was built.
  obtain rfl : v = u :=
    (hv ▸ reached_serveAll hfacts hnarrowed requests).eq_of_not_hasFacts hfacts hnarrowed hno
  refine ⟨?_, ?_, fun cls chain h => ?_⟩
  · rw [exists_cyclicHierarchy_iff hfacts, Graph.Acyclic, not_forall_not]
  · rw [Graph.findCycleByMarks_eq, Option.some.injEq, Graph.findCycle?_eq_none_iff, Graph.Acyclic,
      not_exists]
  · obtain ⟨cycle, hcycle, rfl, rfl⟩ := (analyze_eq_cyclicHierarchy_iff hfacts).1 h
    obtain ⟨first, between, rfl, hnodup, hpath⟩ := Graph.isCycle_of_findCycle? hcycle
    have hlast : ((first :: (between ++ [first])).map v.className).getLast? =
        some (v.className first) := by
      rw [List.getLast?_map, ← List.cons_append, List.getLast?_concat, Option.map_some]
    rw [hlast]
    refine ⟨by simp, rfl, rfl, first, between, rfl, ?_, hnodup, hpath, fun id hid => ?_⟩
    · rw [Graph.findCycleByMarks_eq, hcycle]
    · have hid' : id ∈ between ++ [first] := by simpa [or_comm] using hid
      obtain ⟨c, hc⟩ := Graph.exists_class? (hpath.mem_ids id hid')
      exact ⟨c, by rw [get, hc], lookup?_className hbuild hc⟩

/-- A class that derives from the first of two that derive from each other. -/
def belowCycle : List Declaration :=
  [(Declaration.named ⟨4⟩).addBase ⟨5⟩, (Declaration.named ⟨5⟩).addBase ⟨6⟩,
    (Declaration.named ⟨6⟩).addBase ⟨5⟩]

/-- The unit of these classes. -/
def belowCycleUnit : CompileUnit :=
  ⟨⟨Name.wellKnown ++ ["A", "B", "C"], by decide⟩, .ofDeclarations belowCycle, ∅, ∅⟩

/-- The class that is not on the cycle is not named. -/
theorem analyze_cycle_report_exact_belowCycle :
    build belowCycleUnit.names belowCycle = .ok belowCycleUnit ∧
    belowCycleUnit.serveAll [.plan .default] = belowCycleUnit ∧ ¬belowCycleUnit.HasFacts ∧
    belowCycleUnit.analyze .default = .error (.cyclicHierarchy "B" ["B", "C", "B"]) ∧
    (∃ id, Relation.TransGen (fun d base => base ∈ belowCycleUnit.graph.localBases d) id id) ∧
    ∃ first between,
      ["B", "C", "B"] = (first :: (between ++ [first])).map belowCycleUnit.className ∧
      belowCycleUnit.graph.findCycleByMarks = some (some (first :: (between ++ [first]))) ∧
      (first :: between).Nodup ∧ belowCycleUnit.graph.IsPath (first :: (between ++ [first])) := by
  have hbuild : build belowCycleUnit.names belowCycle = .ok belowCycleUnit := rfl
  have hserve : belowCycleUnit.serveAll [.plan .default] = belowCycleUnit :=
    serve_plan belowCycleUnit .default
  have hno : ¬belowCycleUnit.HasFacts := by simp [HasFacts, belowCycleUnit]
  have hreport : belowCycleUnit.analyze .default =
      .error (.cyclicHierarchy "B" ["B", "C", "B"]) :=
    (analyze_eq_cyclicHierarchy_iff rfl).2
      ⟨[⟨1⟩, ⟨2⟩, ⟨1⟩], by decide +kernel, by decide +kernel, rfl⟩
  obtain ⟨hiff, -, hreal⟩ :=
    analyze_cycle_report_exact _ belowCycle belowCycleUnit hbuild _ _ hserve hno .default
  obtain ⟨-, -, -, first, between, hchain, hmarks, hnodup, hpath, -⟩ := hreal _ _ hreport
  exact ⟨hbuild, hserve, hno, hreport, hiff.1 ⟨_, _, hreport⟩, first, between, hchain, hmarks,
    hnodup, hpath⟩

end CompileUnit

end DefiniteInit
