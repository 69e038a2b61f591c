import DefiniteInit.Proofs.Contexts
import DefiniteInit.Proofs.CycleReports
import DefiniteInit.Proofs.Forwarding

/-!
# Statements that no path comes to

No path runs through a return or a raise, nor through a `break` or `continue` in the body of a loop
(`Stmt.leaves`). What stands after such a statement in its block is not walked, so it makes no
difference to the walk of the body, at whatever depth the block is (`Scope.block_addsDeadCode`).

In a unit it makes a difference to the classes all the same: they have a slot for every attribute
that their initializer assigns, on whatever path. Such a slot has no default and may not be deleted,
and the analysis asks for no others (`Graph.SameFrame`). So the facts of all classes are as before
(`Graph.SameFrame.get?_analyze_eq`).
-/

namespace DefiniteInit

/-! ## Bodies -/

/-- Whether no path runs through the statement, in the body of a loop or not. -/
def Stmt.leaves (inLoop : Bool) : Stmt → Bool
  | .ret _ _ | .raise _ _ _ => true
  | .breakLoop _ | .continueLoop _ => inLoop
  | _ => false

/-- The second body is the first with statements added to one of its blocks, at whatever depth,
after a statement through which no path runs. -/
inductive AddsDeadCode : List Stmt → List Stmt → Prop
  | add (gap : BodyGap) (st : Stmt) (rest dead : List Stmt)
      (h : st.leaves (gap.mode .top).inLoop = true) :
      AddsDeadCode (gap.fill (st :: rest)) (gap.fill (st :: (rest ++ dead)))

/-- The second body is the first with such statements added to any of its blocks. -/
def DeadCodeAdded : List Stmt → List Stmt → Prop := Relation.ReflTransGen AddsDeadCode

namespace Scope

variable {sc : Scope} {m : Mode} {st : Stmt} {body body' : List Stmt}

/-- The walk does not go on after a statement that leaves. -/
theorem next_stmt_of_leaves (h : st.leaves m.inLoop = true) (s : State) :
    (sc.stmt m st s).next = none := by
  cases st with
  | ret value span =>
    rw [stmt]
    rfl
  | raise exception cause span =>
    rw [stmt]
    rfl
  | breakLoop span | continueLoop span =>
    have hloop : m.inLoop = true := h
    rw [stmt, if_pos hloop]
    rfl
  | _ => simp [Stmt.leaves] at h

/-- What follows in the block is not walked. -/
theorem block_of_leaves (h : st.leaves m.inLoop = true) (rest : List Stmt) :
    sc.block m (st :: rest) = sc.stmt m st := by
  funext s
  rw [block, Outcome.andThen, next_stmt_of_leaves h s]

/-- What is added after such a statement is not walked. -/
theorem block_addsDeadCode (h : AddsDeadCode body body') :
    sc.block .top body' = sc.block .top body := by
  obtain ⟨gap, st, rest, dead, hleaves⟩ := h
  have hsame : sc.block (gap.mode .top) (st :: rest) =
      sc.block (gap.mode .top) (st :: (rest ++ dead)) := by
    rw [block_of_leaves hleaves, block_of_leaves hleaves]
  have hempty : (st :: rest).isEmpty = (st :: (rest ++ dead)).isEmpty := rfl
  have hcompare : Comparison sc sc (fun _ => True) (fun _ => True) Eq Eq :=
    comparison_eq rfl (fun _ => rfl) fun _ => rfl
  exact (hcompare.block_fill hempty gap .top hsame).symm

/-- So it is after any number of additions. -/
theorem block_deadCodeAdded (h : DeadCodeAdded body body') :
    sc.block .top body' = sc.block .top body := by
  induction h with
  | refl => rfl
  | tail _ hadd ih => rw [block_addsDeadCode hadd, ih]

end Scope

/-! ## Analyses of graphs with one frame -/

theorem AlikeAt.of_eq {known known' : ClassTable Facts} {id : ClassId}
    (h : known'.get? id = known.get? id) : AlikeAt known known' id := by
  cases hf : known.get? id with
  | none => exact .inl ⟨hf, h.trans hf⟩
  | some f => exact .inr ⟨f, f, hf, h.trans hf, .refl f⟩

namespace Graph

/-- The initializers of all classes are walked alike. -/
def WalkedAlike (g g' : Graph) : Prop :=
  ∀ id, Option.Rel Initializer.WalkedAlike ((g.class? id).bind Class.initializer)
    ((g'.class? id).bind Class.initializer)

namespace SameFrame

variable {g g' : Graph} (h : g.SameFrame g')

include h

/-- The search for a cycle does not look at initializers. -/
theorem search_eq (path pending done : List ClassId) :
    g'.search path pending done = g.search path pending done := by
  fun_induction search g path pending done with
  | case1 path done => rw [search]
  | case2 path done next rest hmem => rw [search, if_pos hmem]
  | case3 path done next rest hmem hdone ih => rw [search, if_neg hmem, if_pos hdone, ih]
  | case4 path done next rest hmem hdone cycle herror ih =>
    rw [search, if_neg hmem, if_neg hdone, h.localBases_eq, ih, herror]
  | case5 path done next rest hmem hdone done' hok ih ih' =>
    rw [search, if_neg hmem, if_neg hdone, h.localBases_eq, ih, hok]
    exact ih'

theorem findCycle?_eq : g'.findCycle? = g.findCycle? := by
  rw [findCycle?, findCycle?, h.ids_eq, h.search_eq]

variable (hwalks : g.WalkedAlike g') (hacyclic : g.Acyclic) (o : Options)

include hwalks hacyclic

/-- Every class has the same facts. The induction is along the bases. -/
theorem get?_analyze_eq (id : ClassId) : (g'.analyze o).get? id = (g.analyze o).get? id := by
  induction id using hacyclic.induction with
  | hstep id ih =>
    by_cases hid : id ∈ g.ids
    · have hid' : id ∈ g'.ids := by rwa [h.ids_eq]
      rw [solves_analyze hacyclic o id hid, solves_analyze (h.acyclic hacyclic) o id hid',
        h.factsOf_eq_of_rel (fun base hbase => .of_eq (ih base hbase)) (hwalks id)]
    · have hid' : id ∉ g'.ids := by rwa [h.ids_eq]
      rw [get?_analyze_of_not_mem hid, get?_analyze_of_not_mem hid']

/-- The account is the same. -/
theorem report_analyze_eq : g'.report (g'.analyze o) = g.report (g.analyze o) := by
  have hget : (g'.analyze o).get? = (g.analyze o).get? :=
    funext (h.get?_analyze_eq hwalks hacyclic o)
  simp only [report, h.waves_eq, hget]

theorem narrow_analyze_eq : g'.narrow (g'.analyze o) = g.narrow (g.analyze o) :=
  h.narrow_eq fun id => by rw [h.get?_analyze_eq hwalks hacyclic o id]

end SameFrame

/-! ## Declarations -/

variable {decls : List Declaration} {i : Nat} {d : Declaration} {init init' : Initializer}

/-- The attributes that its initializer assigns make no difference to the frame of a class. -/
theorem frame_classOf_withInitializer (decls : List Declaration) (d : Declaration)
    (init : Initializer) :
    (classOf decls (d.withInitializer init)).frame = (classOf decls d).frame := by
  have hplain : ∀ names : List Name, (names.map Attribute.plain).filter
      (fun a => a.isDefaulted || a.deletable) = [] := by
    intro names
    refine List.filter_eq_nil_iff.2 fun a ha => ?_
    obtain ⟨name, -, rfl⟩ := List.mem_map.1 ha
    simp [Attribute.plain, Attribute.isDefaulted]
  simp only [Class.frame, classOf, allAttributes, List.filter_append, hplain]
  rfl

/-- To give a class another initializer leaves the hierarchy as it is. -/
theorem sameFrame_set (hd : decls[i]? = some d) (init : Initializer) :
    (ofDeclarations decls).SameFrame (ofDeclarations (decls.set i (d.withInitializer init))) := by
  show (List.map _ _).map _ = (List.map _ _).map _
  rw [classOf_set hd, List.map_map, List.map_map]
  exact map_set_eq _ _ hd (frame_classOf_withInitializer decls d init)

/-- If the new one is walked alike all initializers are. -/
theorem walkedAlike_set (hd : decls[i]? = some d) (hinit : d.initializer = some init)
    (hwalk : init.WalkedAlike init') :
    (ofDeclarations decls).WalkedAlike
      (ofDeclarations (decls.set i (d.withInitializer init'))) := by
  intro id
  rw [class?_ofDeclarations, class?_ofDeclarations, classOf_set hd]
  by_cases hid : i = id.index
  · obtain ⟨hlt, -⟩ := List.getElem?_eq_some_iff.1 hd
    rw [← hid, hd, List.getElem?_set_self hlt]
    show Option.Rel _ d.initializer (some init')
    rw [hinit]
    exact .some hwalk
  · rw [List.getElem?_set_ne hid]
    cases decls[id.index]?.map (classOf decls) with
    | none => exact .none
    | some c =>
      show Option.Rel _ c.initializer c.initializer
      cases c.initializer with
      | none => exact .none
      | some init => exact .some fun _ => rfl

end Graph

namespace CompileUnit

variable {names : NameTable} {decls : List Declaration} {i : Nat} {d : Declaration}
  {u u' : CompileUnit}

/-- Whether a unit can be built does not depend on the initializers of its classes. -/
theorem build_set_eq_error (hd : decls[i]? = some d) (init : Initializer) {fault : Fault}
    (hbuild : build names decls = .error fault) :
    build names (decls.set i (d.withInitializer init)) = .error fault := by
  have hnames := Graph.map_set_eq (·.name) (d.withInitializer init) hd rfl
  unfold build at hbuild ⊢
  rw [List.length_set, hnames]
  split at hbuild
  · rename_i hcount
    rw [if_pos hcount]
    exact hbuild
  · rename_i hcount
    rw [if_neg hcount]
    split at hbuild
    · exact hbuild
    · simp at hbuild

theorem className_eq (hnames : u'.names = u.names) (hframe : u.graph.SameFrame u'.graph)
    (id : ClassId) : u'.className id = u.className id := by
  have hclass := hframe.map_class? Class.name (fun _ => rfl) id
  unfold className
  rw [hnames]
  cases hc : u.graph.class? id <;> cases hc' : u'.graph.class? id <;> simp_all

/-- Units of one frame whose initializers are walked alike are analyzed alike. -/
theorem analyze_of_sameFrame (hnames : u'.names = u.names) (hframe : u.graph.SameFrame u'.graph)
    (hwalks : u.graph.WalkedAlike u'.graph) (hfacts : u.facts = ∅) (hfacts' : u'.facts = ∅)
    (o : Options) :
    (∃ fault, u.analyze o = .error fault ∧ u'.analyze o = .error fault) ∨
    ∃ report v v', u.analyze o = .ok (report, v) ∧ u'.analyze o = .ok (report, v') ∧
      (∀ id, v'.facts.get? id = v.facts.get? id) ∧
      ∀ id, v'.narrowed.get? id = v.narrowed.get? id := by
  cases hcycle : u.graph.findCycle? with
  | some cycle =>
    refine .inl ⟨_, (analyze_eq_cyclicHierarchy_iff hfacts).2 ⟨cycle, hcycle, rfl, rfl⟩,
      (analyze_eq_cyclicHierarchy_iff hfacts').2 ⟨cycle, ?_, ?_, rfl⟩⟩
    · rwa [hframe.findCycle?_eq]
    · rw [funext (className_eq hnames hframe)]
  | none =>
    have hacyclic := Graph.findCycle?_eq_none_iff.1 hcycle
    refine .inr ⟨_, _, u'.analyzed o, analyze_of_acyclic hfacts hacyclic o, ?_,
      hframe.get?_analyze_eq hwalks hacyclic o, fun id => ?_⟩
    · rw [analyze_of_acyclic hfacts' (hframe.acyclic hacyclic) o,
        hframe.report_analyze_eq hwalks hacyclic]
    · simp only [analyzed, hframe.narrow_analyze_eq hwalks hacyclic]

/-- Statements added to an initializer after a return or a raise, or after a jump in the body of a
loop, in any of its blocks and at whatever depth, change neither the summary of the body nor what
becomes of the unit when it is built and analyzed. -/
theorem dead_code_irrelevant (names : NameTable) (decls : List Declaration) (i : Nat)
    (d : Declaration) (hd : decls[i]? = some d) (init : Initializer)
    (hinit : d.initializer = some init) (body : List Stmt) (hdead : DeadCodeAdded init.body body) :
    (∀ (g : Graph) known o id entry,
      g.walkBody known o id body entry = g.walkBody known o id init.body entry) ∧
    ((∃ fault, build names decls = .error fault ∧
        build names (decls.set i (d.withInitializer ⟨body, init.span⟩)) = .error fault) ∨
      ∃ u u', build names decls = .ok u ∧
        build names (decls.set i (d.withInitializer ⟨body, init.span⟩)) = .ok u' ∧
        (∀ known o id entry, u'.graph.walkBody known o id body entry =
          u.graph.walkBody known o id init.body entry) ∧
        ∀ o, (∃ fault, u.analyze o = .error fault ∧ u'.analyze o = .error fault) ∨
          ∃ report v v', u.analyze o = .ok (report, v) ∧ u'.analyze o = .ok (report, v') ∧
            (∀ id, v'.facts.get? id = v.facts.get? id) ∧
            ∀ id, v'.narrowed.get? id = v.narrowed.get? id) := by
  have hwalk : init.WalkedAlike ⟨body, init.span⟩ := fun _ => Scope.block_deadCodeAdded hdead
  refine ⟨hwalk.walkBody_eq, ?_⟩
  cases hbuild : build names decls with
  | error fault => exact .inl ⟨fault, rfl, build_set_eq_error hd _ hbuild⟩
  | ok u =>
    obtain rfl := eq_of_build_eq_ok hbuild
    have hframe := Graph.sameFrame_set hd ⟨body, init.span⟩
    refine .inr ⟨_, _, rfl, build_set hd _ hbuild, fun known o id entry => ?_, fun o => ?_⟩
    · calc (Graph.ofDeclarations _).walkBody known o id body entry
        _ = (Graph.ofDeclarations decls).walkBody known o id body entry :=
          hframe.walkBody_eq (fun _ _ => .of_eq rfl) body entry
        _ = (Graph.ofDeclarations decls).walkBody known o id init.body entry :=
          hwalk.walkBody_eq _ known o id entry
    · have hwalks := Graph.walkedAlike_set hd hinit hwalk
      refine analyze_of_sameFrame ?_ hframe hwalks ?_ ?_ o <;> rfl

/-- A loop whose round is left in a `finally` block, an assignment and a return. -/
def earlyExits : List Stmt :=
  [.loopWhile (.var .param ⟨8⟩) [.guarded [.leave none] [] [] [.breakLoop .empty]] [],
    .setAttr ⟨30⟩ (.literal .none), .leave none]

/-- The same with an assignment and an escape after the `break`, and an assignment after the
return. -/
def paddedExits : List Stmt :=
  [.loopWhile (.var .param ⟨8⟩)
      [.guarded [.leave none] [] [] [.breakLoop .empty, .setAttr ⟨31⟩ (.literal .none),
        .run (.callNamed ⟨9⟩ [.receiver])]] [],
    .setAttr ⟨30⟩ (.literal .none), .leave none, .setAttr ⟨32⟩ (.literal .none)]

/-- A class with that initializer and one that inherits it. -/
def leavingEarly : List Declaration :=
  [(Declaration.named ⟨20⟩).withInitializer ⟨earlyExits, .empty⟩,
    (Declaration.named ⟨21⟩).addBase ⟨20⟩]

/-- The unit of the two classes. -/
def leavingEarlyUnit : CompileUnit := ⟨.fresh, .ofDeclarations leavingEarly, ∅, ∅⟩

theorem deadCodeAdded_paddedExits : DeadCodeAdded earlyExits paddedExits := by
  have hbreak := AddsDeadCode.add
    (.inside [] (.whileBody (.var .param ⟨8⟩) [] .empty)
      (.inside [] (.tryFinal [.leave none] [] [] .empty) (.between [] []) [])
      [.setAttr ⟨30⟩ (.literal .none), .leave none])
    (.breakLoop .empty) [] [.setAttr ⟨31⟩ (.literal .none), .run (.callNamed ⟨9⟩ [.receiver])] rfl
  have hreturn := AddsDeadCode.add
    (.between [.loopWhile (.var .param ⟨8⟩)
        [.guarded [.leave none] [] [] [.breakLoop .empty, .setAttr ⟨31⟩ (.literal .none),
          .run (.callNamed ⟨9⟩ [.receiver])]] [],
      .setAttr ⟨30⟩ (.literal .none)] [])
    (.leave none) [] [.setAttr ⟨32⟩ (.literal .none)] rfl
  exact .tail (.single hbreak) hreturn

/-- The first class gets two more slots, and neither class other facts. -/
theorem dead_code_irrelevant_paddedExits :
    build .fresh leavingEarly = .ok leavingEarlyUnit ∧ DeadCodeAdded earlyExits paddedExits ∧
    ∃ u' report v v',
      build .fresh (leavingEarly.set 0
        (((Declaration.named ⟨20⟩).withInitializer ⟨earlyExits, .empty⟩).withInitializer
          ⟨paddedExits, .empty⟩)) = .ok u' ∧
      leavingEarlyUnit.analyze .default = .ok (report, v) ∧ u'.analyze .default = .ok (report, v') ∧
      (leavingEarlyUnit.graph.attributes ⟨0⟩).map Attribute.name = [⟨30⟩] ∧
      (u'.graph.attributes ⟨0⟩).map Attribute.name = [⟨31⟩, ⟨30⟩, ⟨32⟩] ∧
      v.alwaysDefined? ⟨1⟩ = some (.ofList [⟨30⟩]) ∧ v'.alwaysDefined? ⟨1⟩ = some (.ofList [⟨30⟩]) ∧
      v'.narrowed.get? ⟨0⟩ = v.narrowed.get? ⟨0⟩ := by
  have hbuild : build .fresh leavingEarly = .ok leavingEarlyUnit := rfl
  have hacyclic : leavingEarlyUnit.graph.Acyclic :=
    Graph.findCycle?_eq_none_iff.1 (by decide +kernel)
  have hanalyze := analyze_of_acyclic (u := leavingEarlyUnit) rfl hacyclic .default
  obtain ⟨-, ⟨fault, hfault, -⟩ | ⟨u, u', hu, hu', -, hanalyses⟩⟩ :=
    dead_code_irrelevant .fresh leavingEarly 0 _ rfl _ rfl paddedExits deadCodeAdded_paddedExits
  · rw [hbuild] at hfault
    exact nomatch hfault
  obtain rfl := Except.ok.inj (hbuild.symm.trans hu)
  obtain ⟨fault, hfault, -⟩ | ⟨report, v, v', hv, hv', hfacts, hnarrowed⟩ := hanalyses .default
  · rw [hanalyze] at hfault
    exact nomatch hfault
  have hdefined : v.alwaysDefined? ⟨1⟩ = some (.ofList [⟨30⟩]) := by
    obtain ⟨-, rfl⟩ := Prod.mk.inj (Except.ok.inj (hanalyze.symm.trans hv))
    decide +kernel
  refine ⟨hbuild, deadCodeAdded_paddedExits, u', report, v, v', hu', hv, hv', by decide +kernel, ?_,
    hdefined, ?_, hnarrowed ⟨0⟩⟩
  · rw [← Except.ok.inj hu']
    decide +kernel
  · rw [alwaysDefined?, hfacts]
    exact hdefined

end CompileUnit

end DefiniteInit
