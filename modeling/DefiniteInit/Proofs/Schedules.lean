import DefiniteInit.Proofs.Cycles
import DefiniteInit.Stmt.Shorthand

/-!
# Schedules of an analysis

The facts of the classes of a unit are a solution of one equation for each class: its facts
are what `Graph.factsOf` makes of the facts of all (`Graph.Solves`). In a hierarchy without a cycle
there is one solution and no other (`Graph.Solves.unique`), by induction along an order in which
the bases of each class come after it.

A table that is filled class by class, each after the classes its entry depends on (`EachAfter`),
ends with what follows from the whole table (`ClassTable.get?_fill`). So it does not matter in which
order the classes are looked at. Whoever takes them one at a time, each after its bases
(`Graph.IsSchedule`), and gives each its facts by what is known then (`Graph.analyzeInOrder`), ends
with the solution. The order in which the waves take the classes is one of these
(`Graph.isSchedule_waves`).
-/

namespace DefiniteInit

/-! ## Tables filled in an order -/

/-- Each class of the list stands after the classes it needs. -/
def EachAfter (needs : ClassId → List ClassId) (order : List ClassId) : Prop :=
  ∀ before id after, order = before ++ id :: after → ∀ c ∈ needs id, c ∈ before

namespace EachAfter

variable {needs : ClassId → List ClassId} {order : List ClassId}

/-- An order stays one when its last class is taken away. -/
theorem of_concat {next : ClassId} (h : EachAfter needs (order ++ [next])) :
    EachAfter needs order := by
  intro before id after horder
  refine h before id (after ++ [next]) ?_
  rw [horder, List.append_assoc, List.cons_append]

/-- Whatever a listed class needs is listed. -/
theorem mem_of_mem (h : EachAfter needs order) {id c : ClassId} (hid : id ∈ order)
    (hc : c ∈ needs id) : c ∈ order := by
  obtain ⟨before, after, rfl⟩ := List.append_of_mem hid
  exact List.mem_append_left _ (h before id after rfl c hc)

/-- What holds of a class once it holds of the classes it needs holds of the whole list. -/
theorem induction {P : ClassId → Prop} (h : EachAfter needs order)
    (hstep : ∀ id, (∀ c ∈ needs id, P c) → P id) : ∀ id ∈ order, P id := by
  induction order using List.reverseRecOn with
  | nil => simp
  | append_singleton order next ih =>
    have hall := ih h.of_concat
    have hnext : P next := hstep next fun c hc => hall c (h order next [] rfl c hc)
    intro id hid
    rcases List.mem_append.1 hid with hid | hid
    · exact hall id hid
    · exact List.mem_singleton.1 hid ▸ hnext

end EachAfter

namespace ClassTable

variable {α : Type} {f : ClassTable α → ClassId → α}

/-- Gives the classes their values one at a time, each by what is known then. -/
def fill (f : ClassTable α → ClassId → α) (order : List ClassId) : ClassTable α :=
  order.foldl (fun t id => t.insert id (f t id)) ∅

/-- Filling one more class is one more insertion. -/
theorem fill_concat (order : List ClassId) (next : ClassId) :
    fill f (order ++ [next]) = (fill f order).insert next (f (fill f order) next) := by
  simp [fill, List.foldl_append]

/-- Where a value depends only on those of the classes that are needed, and these come first, it
stays what follows from all: the classes that come later are not needed for it. -/
theorem get?_fill {needs : ClassId → List ClassId}
    (hf : ∀ t t' id, (∀ c ∈ needs id, t.get? c = t'.get? c) → f t id = f t' id)
    {order : List ClassId} (hafter : EachAfter needs order) (hnodup : order.Nodup) :
    ∀ id ∈ order, (fill f order).get? id = some (f (fill f order) id) := by
  induction order using List.reverseRecOn with
  | nil => simp
  | append_singleton order next ih =>
    have hnew : next ∉ order := by
      rw [List.nodup_append'] at hnodup
      exact fun h => hnodup.2.2 h (List.mem_singleton_self next)
    -- What is known of the classes before `next` is known after it too.
    have hkept : ∀ id ∈ order, (fill f (order ++ [next])).get? id = (fill f order).get? id := by
      intro id hid
      rw [fill_concat, get?_insert, if_neg (ne_of_mem_of_not_mem hid hnew)]
    have hvalue : ∀ id, (∀ c ∈ needs id, c ∈ order) →
        f (fill f order) id = f (fill f (order ++ [next])) id :=
      fun id hneeds => hf _ _ id fun c hc => (hkept c (hneeds c hc)).symm
    intro id hid
    rcases List.mem_append.1 hid with hid | hid
    · rw [hkept id hid, ih hafter.of_concat hnodup.of_append_left id hid]
      exact congrArg some (hvalue id fun c hc => hafter.of_concat.mem_of_mem hid hc)
    · obtain rfl := List.mem_singleton.1 hid
      rw [← hvalue id (hafter order id [] rfl), fill_concat, get?_insert, if_pos rfl]

end ClassTable

namespace Graph

variable {g : Graph} {o : Options}

/-! ## The equations of a unit -/

/-- The facts of every class are what follows from the facts of all. -/
def Solves (g : Graph) (o : Options) (facts : ClassTable Facts) : Prop :=
  ∀ id ∈ g.ids, facts.get? id = some (g.factsOf facts o id)

/-- Without cycles the table of the analysis solves the equations of the unit. -/
theorem solves_analyze (h : g.Acyclic) (o : Options) : g.Solves o (g.analyze o) :=
  fun _ hid => get?_analyze (findCycle?_eq_none_iff.2 h) hid

/-- Two solutions agree on a class once they agree on its bases. -/
theorem Solves.agree {facts facts' : ClassTable Facts} (h : g.Solves o facts)
    (h' : g.Solves o facts') {order : List ClassId} (ho : g.BasesFollow order) :
    ∀ id ∈ order, id ∈ g.ids → facts.get? id = facts'.get? id := by
  induction order with
  | nil => simp
  | cons first rest ih =>
    refine List.forall_mem_cons.2 ⟨fun hid => ?_, ih ho.2⟩
    rw [h first hid, h' first hid]
    refine congrArg some (factsOf_congr fun base hbase => ?_)
    exact ih ho.2 base (ho.1 base hbase) (mem_ids_of_mem_localBases hbase)

/-- The equations of a unit without cycles have one solution. -/
theorem Solves.unique {facts facts' : ClassTable Facts} (h : g.Solves o facts)
    (h' : g.Solves o facts') (hacyclic : g.Acyclic) {id : ClassId} (hid : id ∈ g.ids) :
    facts.get? id = facts'.get? id := by
  obtain ⟨order, ho, hall⟩ := exists_basesFollow (findCycle?_eq_none_iff.2 hacyclic)
  exact h.agree h' ho id (hall id hid) hid

/-! ## One class at a time -/

/-- Every base of a class stands before it. -/
def BasesFirst (g : Graph) (order : List ClassId) : Prop :=
  ∀ before id after, order = before ++ id :: after → ∀ base ∈ g.localBases id, base ∈ before

/-- Bases come first when every prefix of the order has the bases of the class after it. -/
theorem basesFirst_iff_take {order : List ClassId} : g.BasesFirst order ↔
    ∀ i < order.length, ∀ id ∈ order[i]?, ∀ base ∈ g.localBases id, base ∈ order.take i := by
  constructor
  · intro h i hi id hid
    refine h (order.take i) id (order.drop (i + 1)) ?_
    obtain rfl : order[i] = id := by simpa [hi] using hid
    simp
  · rintro h before id after rfl base hbase
    have htake := h before.length (by simp) id (by simp) base hbase
    simpa using htake

instance (g : Graph) (order : List ClassId) : Decidable (g.BasesFirst order) :=
  decidable_of_iff _ basesFirst_iff_take.symm

/-- All classes of the unit, each once and after its bases. -/
structure IsSchedule (g : Graph) (order : List ClassId) : Prop where
  perm : order.Perm g.ids
  basesFirst : g.BasesFirst order

/-- Gives the classes their facts one at a time, each by the facts known then. -/
def analyzeInOrder (g : Graph) (o : Options) (order : List ClassId) : ClassTable Facts :=
  order.foldl (fun known id => known.insert id (g.factsOf known o id)) ∅

/-- In an order with bases first, every class gets the facts its equation asks for. -/
theorem get?_analyzeInOrder {order : List ClassId} (hfirst : g.BasesFirst order)
    (hnodup : order.Nodup) : ∀ id ∈ order, (g.analyzeInOrder o order).get? id =
      some (g.factsOf (g.analyzeInOrder o order) o id) :=
  ClassTable.get?_fill (f := fun known id => g.factsOf known o id)
    (fun _ _ _ h => factsOf_congr h) hfirst hnodup

/-- So the table of a schedule solves the equations of the unit. -/
theorem IsSchedule.solves {order : List ClassId} (h : g.IsSchedule order) :
    g.Solves o (g.analyzeInOrder o order) :=
  fun id hid => get?_analyzeInOrder h.basesFirst (h.perm.nodup_iff.2 nodup_ids) id
    (h.perm.mem_iff.2 hid)

/-! ## The order of the waves -/

/-- A base that waits stands in an earlier wave. -/
theorem mem_before_wavesFrom {waiting before after : List ClassId} {id base : ClassId}
    (h : (g.wavesFrom waiting).flatten = before ++ id :: after) (hbase : base ∈ g.localBases id)
    (hwaits : base ∈ waiting) : base ∈ before := by
  fun_induction wavesFrom g waiting generalizing before with
  | case1 waiting hempty => simp at h
  | case2 waiting hready ih =>
    have hnot : id ∉ g.ready waiting := fun hid => (mem_ready.1 hid).2 base hbase hwaits
    rw [List.flatten_cons, List.append_eq_append_iff] at h
    -- The class is not in the first wave, as a base of it still waits; so the whole first wave
    -- comes before it.
    have hlater : ∃ later, before = g.ready waiting ++ later ∧
        (g.wavesFrom (g.blocked waiting)).flatten = later ++ id :: after := by
      rcases h with h | ⟨rest, hrest, hcons⟩
      · exact h
      · rcases List.cons_eq_append_iff.1 hcons with ⟨rfl, hcons⟩ | ⟨tail, rfl, -⟩
        · exact ⟨[], by simpa using hrest.symm, hcons.symm⟩
        · exact absurd (by simp [hrest]) hnot
    obtain ⟨later, rfl, hlater⟩ := hlater
    by_cases hb : base ∈ g.ready waiting
    · exact List.mem_append_left _ hb
    · exact List.mem_append_right _ (ih hlater (mem_blocked.2 ⟨hwaits, hb⟩))

/-- Without cycles the waves, one after the other, are a schedule. -/
theorem isSchedule_waves (h : g.Acyclic) : g.IsSchedule g.waves.flatten where
  perm := (List.perm_ext_iff_of_nodup nodup_waves nodup_ids).2 fun _ =>
    ⟨mem_of_mem_wavesFrom, mem_waves (findCycle?_eq_none_iff.2 h)⟩
  basesFirst _ _ _ horder _ hbase :=
    mem_before_wavesFrom horder hbase (mem_ids_of_mem_localBases hbase)

/-- What holds of a class once it holds of its bases holds of every class. -/
theorem Acyclic.induction {P : ClassId → Prop} (h : g.Acyclic)
    (hstep : ∀ id, (∀ base ∈ g.localBases id, P base) → P id) (id : ClassId) : P id := by
  by_cases hid : id ∈ g.ids
  · exact EachAfter.induction (isSchedule_waves h).basesFirst hstep id
      ((isSchedule_waves h).perm.mem_iff.2 hid)
  · refine hstep id fun base hbase => ?_
    rw [localBases_eq_nil_of_not_mem_ids hid] at hbase
    simp at hbase

/-- Reversing the waves loses no class. -/
theorem mem_reverse_wavesFrom {waiting : List ClassId} {id : ClassId} :
    id ∈ (g.wavesFrom waiting).reverse.flatten ↔ id ∈ (g.wavesFrom waiting).flatten := by
  simp

/-- From the last wave to the first, a class stands before its bases. -/
theorem mem_before_reverse_wavesFrom {order waiting before after : List ClassId} {id sub : ClassId}
    (ho : g.BasesFollow order) (hw : ∀ c ∈ waiting, c ∈ order)
    (h : (g.wavesFrom waiting).reverse.flatten = before ++ id :: after)
    (hbase : id ∈ g.localBases sub) (hwaits : sub ∈ waiting) : sub ∈ before := by
  fun_induction wavesFrom g waiting generalizing after with
  | case1 waiting hempty => simp at h
  | case2 waiting hready ih =>
    rw [List.reverse_cons, List.flatten_append, List.flatten_singleton] at h
    have hid : id ∈ waiting := by
      have hmem : id ∈ (g.wavesFrom (g.blocked waiting)).reverse.flatten ++ g.ready waiting := by
        rw [h]
        simp
      rcases List.mem_append.1 hmem with hmem | hmem
      · exact (mem_blocked.1 (mem_of_mem_wavesFrom (mem_reverse_wavesFrom.1 hmem))).1
      · exact (mem_ready.1 hmem).1
    -- The subclass waits for the class, so it is in a later wave and here comes earlier.
    have hblocked : sub ∈ g.blocked waiting :=
      mem_blocked.2 ⟨hwaits, fun hsub => (mem_ready.1 hsub).2 id hbase hid⟩
    have hw' : ∀ c ∈ g.blocked waiting, c ∈ order := fun c hc => hw c (mem_blocked.1 hc).1
    have hlater := mem_reverse_wavesFrom.2 (mem_wavesFrom ho hw' hblocked)
    rcases List.append_eq_append_iff.1 h with ⟨_, rfl, -⟩ | ⟨rest, hrest, hcons⟩
    · exact List.mem_append_left _ hlater
    · rcases List.cons_eq_append_iff.1 hcons with ⟨rfl, -⟩ | ⟨tail, rfl, -⟩
      · simpa [hrest] using hlater
      · exact ih hw' hrest hblocked

end Graph

namespace CompileUnit

variable {names : NameTable} {decls : List Declaration} {u : CompileUnit}

/-- A unit is built without facts. -/
theorem eq_of_build_eq_ok (h : build names decls = .ok u) :
    u = ⟨names, .ofDeclarations decls, ∅, ∅⟩ := by
  unfold build at h
  split at h
  · simp at h
  · split at h
    · simp at h
    · exact (Except.ok.inj h).symm

/-- A unit that was just built knows no facts. -/
theorem get?_facts_of_build (h : build names decls = .ok u) (id : ClassId) :
    u.facts.get? id = none := by
  rw [eq_of_build_eq_ok h]
  simp

/-- An analysis of a unit without a cycle and without facts succeeds. -/
theorem analyze_eq_ok_of_acyclic (hfacts : ∀ id ∈ u.graph.ids, u.facts.get? id = none)
    (hacyclic : u.graph.Acyclic) (o : Options) :
    u.analyze o = .ok (u.graph.report (u.graph.analyze o), { u with
      facts := u.graph.analyze o
      narrowed := if o.narrowBySubclasses then u.graph.narrow (u.graph.analyze o) else ∅ }) :=
  analyze_eq_ok_iff.2 ⟨hfacts, Graph.findCycle?_eq_none_iff.2 hacyclic, rfl, rfl⟩

/-- The facts an analysis stores are those that follow from each other, they are the only ones that
do, and they are found in every order that puts bases first, of which its own is one. -/
theorem analyze_unique_solution (names : NameTable) (decls : List Declaration) (u : CompileUnit)
    (hbuild : build names decls = .ok u) (hacyclic : u.graph.Acyclic) (o : Options) :
    ∃ report u', u.analyze o = .ok (report, u') ∧ u'.graph = u.graph ∧
      (∀ id ∈ u'.graph.ids, u'.facts.get? id = some (u'.factsOf o id)) ∧
      (∀ facts, u'.graph.Solves o facts → ∀ id ∈ u'.graph.ids, facts.get? id = u'.facts.get? id) ∧
      u'.graph.IsSchedule report.order ∧
      ∀ order, u'.graph.IsSchedule order →
        ∀ id ∈ u'.graph.ids, (u'.graph.analyzeInOrder o order).get? id = u'.facts.get? id := by
  have hfacts : ∀ id ∈ u.graph.ids, u.facts.get? id = none := by
    rw [eq_of_build_eq_ok hbuild]
    simp
  have hsolves := Graph.solves_analyze hacyclic o
  refine ⟨_, _, analyze_eq_ok_of_acyclic hfacts hacyclic o, rfl, hsolves, ?_,
    Graph.isSchedule_waves hacyclic, ?_⟩
  · exact fun facts h id hid => h.unique hsolves hacyclic hid
  · exact fun order horder id hid => horder.solves.unique hsolves hacyclic hid

/-- A class, two that derive from it, and one that derives from both. Each assigns an attribute
and calls the initializers of its bases. -/
def diamond : List Declaration :=
  [(Declaration.named ⟨20⟩).withInitializer ⟨[.setAttr ⟨30⟩ (.literal .none)], .empty⟩,
    ((Declaration.named ⟨21⟩).addBase ⟨20⟩).withInitializer
      ⟨[.callInit .next [], .setAttr ⟨31⟩ (.literal .none)], .empty⟩,
    ((Declaration.named ⟨22⟩).addBase ⟨20⟩).withInitializer
      ⟨[.callInit .next [], .setAttr ⟨32⟩ (.literal .none)], .empty⟩,
    (((Declaration.named ⟨23⟩).addBase ⟨21⟩).addBase ⟨22⟩).withInitializer
      ⟨[.callInit (.explicit ⟨21⟩) [], .callInit (.explicit ⟨22⟩) []], .empty⟩]

/-- The unit of the diamond, before it is analyzed. -/
def diamondUnit : CompileUnit := ⟨.fresh, .ofDeclarations diamond, ∅, ∅⟩

/-- The diamond taken in an order other than that of the waves. -/
theorem analyze_unique_solution_diamond : build .fresh diamond = .ok diamondUnit ∧
    ∃ report u', diamondUnit.analyze .default = .ok (report, u') ∧
      u'.graph.IsSchedule [⟨0⟩, ⟨2⟩, ⟨1⟩, ⟨3⟩] ∧
      (u'.graph.analyzeInOrder .default [⟨0⟩, ⟨2⟩, ⟨1⟩, ⟨3⟩]).get? ⟨3⟩ = u'.facts.get? ⟨3⟩ := by
  have hbuild : build .fresh diamond = .ok diamondUnit := rfl
  have hacyclic : diamondUnit.graph.Acyclic :=
    Graph.findCycle?_eq_none_iff.1 (by decide +kernel)
  obtain ⟨report, u', hanalyze, hgraph, -, -, -, horders⟩ :=
    analyze_unique_solution .fresh diamond diamondUnit hbuild hacyclic .default
  have hschedule : u'.graph.IsSchedule [⟨0⟩, ⟨2⟩, ⟨1⟩, ⟨3⟩] := by
    rw [hgraph]
    exact ⟨by decide +kernel, by decide +kernel⟩
  refine ⟨hbuild, report, u', hanalyze, hschedule, horders _ hschedule ⟨3⟩ ?_⟩
  rw [hgraph]
  decide +kernel

end CompileUnit

end DefiniteInit
