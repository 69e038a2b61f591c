import DefiniteInit.Proofs.RecordedEscapes
import DefiniteInit.Proofs.SafeExpressions
import DefiniteInit.Proofs.SilentWalks
import DefiniteInit.Proofs.WalkLaws

/-!
# What is assigned stays assigned

An attribute that is assigned stays so through all code that does not delete it. A walk that starts
with it leaves only states behind that have it (`Outcome.Keeps`, `Scope.keeps_block`). This goes for
the states in which paths run through, return or jump and for those at the escapes: a merge has what
both sides have, a region that an exception leaves loses only what is deleted in it, and the head of
a loop only what a round takes away.

So what the initializer of a base assigns, if it is called before anything else can go wrong, is
always defined in the class that calls it (`CompileUnit.base_inherited_in_full`).
-/

namespace DefiniteInit

/-! ## Walks that keep an attribute -/

/-- In all states in which paths jump the attribute is assigned. -/
structure Jumps.Keep (a : Name) (j : Jumps) : Prop where
  broken : Surely j.broken a
  continued : Surely j.continued a

/-- In all states in which paths return or jump, and at all escapes, the attribute is assigned, and
it is not deleted. -/
structure Trace.Keeps (a : Name) (x : Trace) : Prop where
  exits : ∀ e ∈ x.exits, a ∈ e.state.defined
  leading : x.leading.Keep a
  trailing : x.trailing.Keep a
  escapes : ∀ e ∈ x.escapes, a ∈ e.defined
  deletions : a ∉ x.deletions

/-- The attribute is assigned in all states that the walk leaves behind. -/
structure Outcome.Keeps (a : Name) (o : Outcome) : Prop where
  next : Surely o.next a
  trace : o.trace.Keeps a

variable {a : Name} {s t : State}

theorem Surely.none : Surely none a := fun _ h => nomatch h

namespace Jumps.Keep

variable {j k : Jumps}

theorem none : Jumps.none.Keep a := ⟨.none, .none⟩

/-- Jumps with the attribute merge into such. -/
theorem merge (hj : j.Keep a) (hk : k.Keep a) : (j.merge k).Keep a :=
  ⟨surely_mergePaths.2 ⟨hj.broken, hk.broken⟩, surely_mergePaths.2 ⟨hj.continued, hk.continued⟩⟩

end Jumps.Keep

namespace Trace.Keeps

variable {x y : Trace}

theorem empty : (∅ : Trace).Keeps a := ⟨nofun, .none, .none, nofun, nofun⟩

theorem ofExit {e : Exit} (h : a ∈ e.state.defined) : (Trace.ofExit e).Keeps a := by
  refine ⟨fun e' he' => ?_, .none, .none, nofun, nofun⟩
  rwa [List.mem_singleton.1 he']

theorem ofJumps {j : Jumps} (h : j.Keep a) : (Trace.ofJumps j).Keeps a :=
  ⟨nofun, .none, h, nofun, nofun⟩

theorem ofDeletion {attr : Name} (h : a ≠ attr) : (Trace.ofDeletion attr).Keeps a :=
  ⟨nofun, .none, .none, nofun, by simpa [Trace.ofDeletion] using h⟩

/-- An escape is noted with what is assigned. -/
theorem ofVerdict (v : Verdict) (h : a ∈ s.defined) : (Trace.ofVerdict v s).Keeps a := by
  unfold Trace.ofVerdict
  split
  · split
    · exact empty
    · refine ⟨nofun, .none, .none, fun e he => ?_, nofun⟩
      rwa [List.mem_singleton.1 he]
  · exact empty

/-- Traces that keep the attribute do so one after the other. -/
theorem append (hx : x.Keeps a) (hy : y.Keeps a) : (x ++ y).Keeps a where
  exits e he := (List.mem_append.1 he).elim (hx.exits e) (hy.exits e)
  leading := hy.leading.merge hx.leading
  trailing := hx.trailing.merge hy.trailing
  escapes e he := (List.mem_append.1 he).elim (hx.escapes e) (hy.escapes e)
  deletions ha := (List.mem_append.1 ha).elim hx.deletions hy.deletions

theorem jumps (hx : x.Keeps a) : x.jumps.Keep a := hx.leading.merge hx.trailing

theorem withoutJumps (hx : x.Keeps a) : x.withoutJumps.Keeps a :=
  ⟨hx.exits, .none, .none, hx.escapes, hx.deletions⟩

theorem withoutExits (hx : x.Keeps a) : x.withoutExits.Keeps a :=
  ⟨nofun, hx.leading, hx.trailing, hx.escapes, hx.deletions⟩

/-- An exception that leaves a region loses only what is deleted in it. -/
theorem interrupted (hx : x.Keeps a) (hs : a ∈ s.defined) : a ∈ (s.interrupted x).defined :=
  AttrSet.mem_eraseAll.2 ⟨hs, hx.deletions⟩

end Trace.Keeps

namespace Outcome.Keeps

variable {o o' : Outcome} {w x : State → Outcome}

theorem goOn (h : a ∈ s.defined) : (Outcome.goOn s).Keeps a := ⟨surely_some.2 h, .empty⟩

theorem stop {x : Trace} (h : x.Keeps a) : (Outcome.stop x).Keeps a := ⟨.none, h⟩

theorem check (v : Verdict) (h : a ∈ s.defined) : (Outcome.check v s).Keeps a :=
  ⟨surely_some.2 (by simpa), .ofVerdict v h⟩

/-- Walks that keep the attribute do so in turn. -/
theorem andThen (ho : o.Keeps a) (hw : ∀ t, a ∈ t.defined → (w t).Keeps a) :
    (o.andThen w).Keeps a := by
  cases hn : o.next with
  | none => rwa [andThen_of_none hn]
  | some t =>
    rw [andThen_of_some hn]
    have hwt := hw t (ho.next t hn)
    exact ⟨hwt.next, ho.trace.append hwt.trace⟩

/-- Branches that keep the attribute keep it. -/
theorem either (ho : o.Keeps a) (ho' : o'.Keeps a) : (o.either o').Keeps a :=
  ⟨surely_mergePaths.2 ⟨ho.next, ho'.next⟩, ho.trace.append ho'.trace⟩

/-- A region with its `else` block and its handlers. -/
theorem region (hs : a ∈ s.defined) (ho : o.Keeps a) (hw : ∀ t, a ∈ t.defined → (w t).Keeps a)
    (hx : ∀ t, a ∈ t.defined → (x t).Keeps a) :
    ((o.andThen w).either (x (s.interrupted o.trace))).Keeps a :=
  (ho.andThen hw).either (hx _ (ho.trace.interrupted hs))

/-- A return keeps it through a `finally` block that does. -/
theorem exitThrough (hw : ∀ t, a ∈ t.defined → (w t).Keeps a) {e : Exit}
    (he : a ∈ e.state.defined) : (Outcome.exitThrough w e).Keeps a := by
  have hwalk := hw e.state he
  unfold Outcome.exitThrough
  dsimp only
  split
  next => exact hwalk.trace
  next t hn => exact hwalk.trace.append (.ofExit (hwalk.next t hn))

/-- So does a path. -/
theorem onPath (hw : ∀ t, a ∈ t.defined → (w t).Keeps a) {p : Option State} (hp : Surely p a) :
    (Outcome.onPath w p).Keeps a := by
  cases p with
  | none => exact .stop .empty
  | some t => exact hw t (hp t rfl)

/-- So do jumps. -/
theorem jumpsThrough (hw : ∀ t, a ∈ t.defined → (w t).Keeps a) {j : Jumps} (hj : j.Keep a) :
    (Outcome.jumpsThrough w j).Keeps a := by
  have hbroken := onPath hw hj.broken
  have hcontinued := onPath hw hj.continued
  have hboth := hbroken.trace.append hcontinued.trace
  exact ⟨hboth.exits, hboth.jumps, ⟨hbroken.next, hcontinued.next⟩, hboth.escapes, hboth.deletions⟩

/-- A region and its `finally` block. -/
theorem closeWith (ho : o.Keeps a) (hw : ∀ t, a ∈ t.defined → (w t).Keeps a) :
    (o.closeWith w).Keeps a := by
  have hexits : (o.exitsOut w).Keeps a := Outcome.exitsOut_induction .empty .append fun e he =>
    exitThrough hw (ho.trace.exits e he)
  have hjumps := jumpsThrough hw (ho.trace.append hexits).jumps
  have hthrough := onPath hw ho.next
  refine ⟨hthrough.next, ?_⟩
  rw [trace_closeWith]
  exact ((ho.trace.withoutExits.withoutJumps.append hexits.withoutJumps).append hjumps).append
    hthrough.trace

/-- The attribute is assigned wherever the body completes. -/
theorem exits (ho : o.Keeps a) : ∀ e ∈ o.exits, a ∈ e.state.defined := by
  intro e he
  rcases List.mem_append.1 he with he | he
  · exact ho.trace.exits e he
  · obtain ⟨t, ht, rfl⟩ := List.mem_map.1 he
    exact ho.next t (Option.mem_toList.1 ht)

end Outcome.Keeps

namespace Loop

variable {l : Loop} (hbody : ∀ t, a ∈ t.defined → (l.body t).Keeps a)

include hbody

/-- A round keeps the attribute if its body does. -/
theorem keeps_round {head : State} (h : a ∈ head.defined) :
    (l.round head).body.Keeps a ∧ (l.round head).trace.Keeps a := by
  have hround : (l.round head).body.Keeps a := hbody _ (by simpa using h)
  exact ⟨hround, (Trace.Keeps.ofVerdict _ h).append hround.trace.withoutJumps⟩

/-- The next head is merged from states that have the attribute. -/
theorem mem_defined_next {head : State} (h : a ∈ head.defined) :
    a ∈ (l.round head).next.defined := by
  have hround := (keeps_round hbody h).1
  have hmerged : Surely (mergePaths (some (l.round head).tested)
      (mergePaths (l.round head).body.next (l.round head).body.trace.jumps.continued)) a := by
    refine surely_mergePaths.2 ⟨surely_some.2 (by simpa [round] using h), surely_mergePaths.2 ?_⟩
    exact ⟨hround.next, hround.trace.jumps.continued⟩
  exact surely_some.1 hmerged

/-- All rounds start with it, up to the head at rest. -/
theorem keeps_settle (head : State) (h : a ∈ head.defined) :
    (l.settle head).trace.Keeps a ∧ a ∈ (l.rest head).defined := by
  induction head using l.settle_induction with
  | done head hsame =>
    rw [settle_of_same l hsame, rest_of_same l hsame]
    exact ⟨(keeps_round hbody h).2, h⟩
  | again head hsame ih =>
    obtain ⟨htrace, hrest⟩ := ih (mem_defined_next hbody h)
    rw [settle_of_not_same l hsame, rest_of_not_same l hsame]
    exact ⟨(keeps_round hbody h).2.withoutExits.append htrace, hrest⟩

/-- A loop keeps the attribute. -/
theorem keeps_walk {orelse : State → Outcome} (horelse : ∀ t, a ∈ t.defined → (orelse t).Keeps a)
    (endless : Bool) (s : State) (h : a ∈ s.defined) : (l.walk endless orelse s).Keeps a := by
  obtain ⟨htrace, hrest⟩ := keeps_settle hbody s h
  have hcompleted :
      (if endless then .stop ∅ else orelse (l.settle s).tested : Outcome).Keeps a := by
    split
    · exact .stop .empty
    · refine horelse _ ?_
      rw [tested_settle, defined_tested_lastRound]
      exact hrest
  have hbroken : Surely (l.settle s).broken a := by
    rw [broken_settle]
    exact (keeps_round hbody hrest).1.trace.jumps.broken
  exact ⟨surely_mergePaths.2 ⟨hcompleted.next, hbroken⟩, htrace.append hcompleted.trace⟩

end Loop

/-! ## Bodies -/

namespace Scope

/-- An assignment keeps what is assigned. -/
theorem keeps_assign (m : Mode) (v : Verdict) (attrs : List Name) (h : a ∈ s.defined) :
    (assign m v attrs s).Keeps a := by
  unfold assign
  split
  · refine .goOn ?_
    unfold define
    split
    · exact h
    · exact ((State.Weakens.refl s).defineAll_right attrs).defined a h
  · exact .check v h

/-- After a call has been folded it may still let the receiver escape. -/
theorem keeps_escape (call : BaseCall) (span : Span) (h : a ∈ s.defined) :
    (match call.escape? span with
      | none => Outcome.goOn s
      | some site => .check (.escapes site) s).Keeps a := by
  cases call.escape? span with
  | none => exact .goOn h
  | some site => exact .check _ h

variable (sc : Scope)

/-- Code that does not delete the attribute leaves only states behind that have it. -/
theorem law_keeps (a : Name) :
    WalkLaw sc (· ≠ a) fun _ _ w => ∀ s, a ∈ s.defined → (w s).Keeps a where
  goOn _ _ _ := .goOn
  raise _ _ _ _ := .stop .empty
  exit _ _ _ _ h := .stop (.ofExit h)
  broken _ _ h := .stop (.ofJumps ⟨surely_some.2 h, .none⟩)
  continued _ _ h := .stop (.ofJumps ⟨.none, surely_some.2 h⟩)
  remove _ _ _ hne _ h :=
    ⟨surely_some.2 (AttrSet.mem_erase.2 ⟨h, hne.symm⟩), .ofDeletion hne.symm⟩
  check _ _ v s h := .check (v s.defined) h
  assign _ m _ _ attrs _ _ h := keeps_assign m _ attrs h
  call _ _ _ span target _ h := .andThen (.check _ h) fun t ht =>
    keeps_escape (sc.baseCall target) span (((State.Weakens.refl t).fold_right _ _).defined a ht)
  andThen hw hx s h := (hw s h).andThen hx
  either hw hx s h := (hw s h).either (hx s h)
  loop _ infinite hw hx s h := Loop.keeps_walk hw hx infinite s h
  region hw hx hy s h := .region h (hw s h) hx hy
  closeWith hw hx s h := (hw s h).closeWith hx

/-- A block keeps what it does not delete. -/
theorem keeps_block (ss : List Stmt) (m : Mode) (ha : a ∉ Stmt.deletedAll ss)
    (h : a ∈ s.defined) : (sc.block m ss s).Keeps a :=
  (sc.law_keeps a).block ss m true (fun _ hb => ne_of_mem_of_not_mem hb ha) (by simp) s h

/-! ## Calls before anything else -/

/-- The body comes to a call of a base's initializer on its only path, before an escape, and the
arguments are safe there. -/
inductive RunsEarly (sc : Scope) (entry : State) (body : List Stmt) (call : BaseCall)
    (post : List Stmt) : Prop
  | intro {pre target args keywords span t}
      (body_eq : body = pre ++ .superInit target args keywords span :: post)
      (next : (sc.block .top pre entry).next = some t)
      (exits : (sc.block .top pre entry).trace.exits = [])
      (escapes : (sc.block .top pre entry).trace.escapes = [])
      (call_eq : sc.baseCall target = call)
      (args_safe : ∀ e ∈ args, sc.judge.expr t.defined e = .safe)
      (keywords_safe : ∀ k ∈ keywords, sc.judge.expr t.defined k.value = .safe)

variable {sc}

/-- What a base always defines is assigned after a call with safe arguments, before an escape. -/
theorem keeps_superInit_of_analyzed {target : SuperTarget} {args : List Expr}
    {keywords : List Keyword} {span : Span} {base : ClassId} {facts : Facts}
    (hcall : sc.baseCall target = .analyzed base facts) (hs : s.escaped = false)
    (hargs : ∀ e ∈ args, sc.judge.expr s.defined e = .safe)
    (hkeywords : ∀ k ∈ keywords, sc.judge.expr s.defined k.value = .safe)
    (ha : a ∈ facts.alwaysDefined) :
    (sc.superInit .top target args keywords span s).Keeps a := by
  have hverdict : ((sc.judge.exprs s.defined args).andThen
      (sc.judge.keywords s.defined keywords)) = .safe := by
    rw [← Verdict.isSafe_iff, Verdict.isSafe_andThen, Judge.isSafe_exprs, Judge.isSafe_keywords]
    simp_all [Verdict.isSafe]
  have hfold : a ∈ (BaseCall.fold (.analyzed base facts) true s).defined := by
    rw [BaseCall.fold, if_pos rfl, State.defineAll_of_not_escaped hs]
    exact AttrSet.mem_insertAll.2 (.inr ha)
  rw [superInit, hverdict, hcall, Outcome.check_safe_andThen]
  exact keeps_escape _ span hfold

/-- Whatever comes after the call, what the base always defines is in the summary, unless it is
deleted there. -/
theorem RunsEarly.mem_defined {entry : State} {body post : List Stmt} {base : ClassId}
    {facts : Facts} (h : sc.RunsEarly entry body (.analyzed base facts) post)
    (hentry : entry.escaped = false)
    (hexits : (sc.block .top body entry).exits ≠ []) (ha : a ∈ facts.alwaysDefined)
    (hpost : a ∉ Stmt.deletedAll post) (recordSites : Bool) :
    a ∈ (Summary.ofOutcome (sc.block .top body entry) recordSites).defined := by
  obtain ⟨rfl, hnext, hnone, hsilent, hcall, hargs, hkeywords⟩ := h
  rename_i pre target args keywords span t
  have ht : t.escaped = false :=
    ((sc.stemsFrom_block .top pre entry).next t hnext).not_escaped hentry hsilent
  have hkeeps : (sc.block .top (.superInit target args keywords span :: post) t).Keeps a := by
    rw [block, stmt]
    exact (keeps_superInit_of_analyzed hcall ht hargs hkeywords ha).andThen
      fun _ => sc.keeps_block post .top hpost
  refine Summary.mem_defined_ofOutcome.2 ⟨hexits, ?_⟩
  -- Nothing returns or escapes before the call, so all that the summary meets comes after it.
  rw [block_append, Outcome.andThen_of_some hnext, Outcome.exits, Trace.exits_append,
    Trace.escapes_append, hnone, hsilent]
  exact ⟨hkeeps.exits, hkeeps.trace.escapes⟩

end Scope

namespace CompileUnit

/-- If the initializer of a class comes to a call of a base's initializer before it can be left and
before an escape, and completes somewhere, then the class always defines all that the base does, but
for what may be deleted in the lineage of the class and what the initializer itself deletes after
the call. -/
theorem base_inherited_in_full (names : NameTable) (decls : List Declaration) (u : CompileUnit)
    (hbuild : build names decls = .ok u) (hacyclic : u.graph.Acyclic) (o : Options) :
    ∃ report u', u.analyze o = .ok (report, u') ∧ u'.graph = u.graph ∧
      ∀ id f init base facts post, u'.facts.get? id = some f → f.origin = .analyzed →
        (u'.graph.class? id).bind Class.initializer = some init →
        (u'.graph.scope u'.facts o id).RunsEarly ⟨u'.graph.defaultedAttrs id, false⟩ init.body
          (.analyzed base facts) post →
        ((u'.graph.scope u'.facts o id).block .top init.body
          ⟨u'.graph.defaultedAttrs id, false⟩).exits ≠ [] →
        base ∈ u'.graph.localBases id ∧ u'.facts.get? base = some facts ∧
          ∀ a ∈ facts.alwaysDefined, a ∉ u'.graph.deletableAttrs id → a ∉ Stmt.deletedAll post →
            a ∈ f.alwaysDefined := by
  have hempty : ∀ id ∈ u.graph.ids, u.facts.get? id = none :=
    fun id _ => get?_facts_of_build hbuild id
  refine ⟨_, _, analyze_eq_ok_of_acyclic hempty hacyclic o, rfl, ?_⟩
  intro id f init base facts post hf horigin hinit hearly hexits
  have hbase : base ∈ u.graph.localBases id ∧ (u.graph.analyze o).get? base = some facts := by
    obtain ⟨-, -, -, -, hcall, -, -⟩ := hearly
    exact Graph.baseCall_eq_analyzed hcall
  refine ⟨hbase.1, hbase.2, fun a ha hdeletable hpost => ?_⟩
  rw [Graph.solves_analyze hacyclic o id (Graph.mem_ids_of_get?_analyze hf)] at hf
  obtain rfl := Option.some.inj hf
  obtain ⟨init', hinit', summary, rfl, hfacts⟩ := Graph.factsOf_of_analyzed horigin
  obtain rfl := Option.some.inj (hinit.symm.trans hinit')
  rw [hfacts]
  refine AttrSet.mem_filter.2 ⟨AttrSet.mem_union.2 (.inr ?_), by simpa using hdeletable⟩
  exact hearly.mem_defined rfl hexits ha hpost o.recordEscapeSites

/-- What a class does after it has run its base's initializer: a loop that hands the receiver over,
is left in several ways and has a `finally` block, and at last an exception. -/
def roughWork : List Stmt :=
  [.loopOver ⟨9⟩ (.var .param ⟨8⟩)
      [.guarded [.run (.callNamed ⟨12⟩ [.receiver]),
          .branch (.var .localVar ⟨9⟩) [.leave none] [.breakLoop .empty]]
        [.on none [.leave none]] [] [.delAttr ⟨32⟩]] [],
    .throwing (.callNamed ⟨13⟩ [])]

/-- Runs the base's initializer with an attribute and a constant before that. -/
def roughInit : List Stmt :=
  [.setAttr ⟨32⟩ (.literal .none)] ++
    .superInit .next [.selfAttr ⟨32⟩] [⟨some ⟨14⟩, .literal .none⟩] .empty :: roughWork

/-- A class that assigns two attributes, and one that derives from it and works roughly. -/
def roughHeir : List Declaration :=
  [(Declaration.named ⟨20⟩).withInitializer
      ⟨[.setAttr ⟨30⟩ (.literal .none), .setAttr ⟨31⟩ (.literal .none)], .empty⟩,
    ((Declaration.named ⟨21⟩).addBase ⟨20⟩).withInitializer ⟨roughInit, .empty⟩]

/-- The unit of the two classes, before it is analyzed. -/
def roughHeirUnit : CompileUnit := ⟨.fresh, .ofDeclarations roughHeir, ∅, ∅⟩

/-- The heir has both attributes of the base for sure, though not its own. -/
theorem base_inherited_in_full_roughHeir : build .fresh roughHeir = .ok roughHeirUnit ∧
    roughHeirUnit.graph.Acyclic ∧
    ∃ report u', roughHeirUnit.analyze .default = .ok (report, u') ∧
      ∃ f facts, u'.facts.get? ⟨1⟩ = some f ∧ u'.facts.get? ⟨0⟩ = some facts ∧
        f.compromised = true ∧ ⟨32⟩ ∉ f.alwaysDefined ∧ facts.alwaysDefined = .ofList [⟨30⟩, ⟨31⟩] ∧
        ∀ a ∈ facts.alwaysDefined, a ∈ f.alwaysDefined := by
  have hbuild : build .fresh roughHeir = .ok roughHeirUnit := rfl
  have hacyclic : roughHeirUnit.graph.Acyclic := Graph.findCycle?_eq_none_iff.1 (by decide +kernel)
  obtain ⟨report, u', hanalyze, -, hinherits⟩ :=
    base_inherited_in_full .fresh roughHeir roughHeirUnit hbuild hacyclic .default
  obtain ⟨-, -, -, rfl⟩ := analyze_eq_ok_iff.1 hanalyze
  have hheir : (roughHeirUnit.graph.analyze .default).get? ⟨1⟩ =
      some ⟨.ofList [⟨30⟩, ⟨31⟩], true, .analyzed, some ⟨.selfValue, .empty⟩⟩ := by decide +kernel
  have hearly : (roughHeirUnit.graph.scope (roughHeirUnit.graph.analyze .default) .default
      ⟨1⟩).RunsEarly ⟨roughHeirUnit.graph.defaultedAttrs ⟨1⟩, false⟩ roughInit
      (.analyzed ⟨0⟩ ⟨.ofList [⟨30⟩, ⟨31⟩], false, .analyzed, none⟩) roughWork :=
    @Scope.RunsEarly.intro _ _ _ _ _ [.setAttr ⟨32⟩ (.literal .none)] .next [.selfAttr ⟨32⟩]
      [⟨some ⟨14⟩, .literal .none⟩] .empty ⟨.ofList [⟨32⟩], false⟩ rfl (by decide +kernel)
      (by decide +kernel) (by decide +kernel) (by decide +kernel)
      (List.forall_mem_singleton.2 (by decide +kernel))
      (List.forall_mem_singleton.2 (by decide +kernel))
  obtain ⟨-, hbase, hall⟩ :=
    hinherits ⟨1⟩ _ _ ⟨0⟩ _ roughWork hheir rfl rfl hearly (by decide +kernel)
  refine ⟨hbuild, hacyclic, report, _, hanalyze, _, _, hheir, hbase, rfl, by decide +kernel, rfl,
    ?_⟩
  exact fun a ha => hall a ha (by revert a; decide +kernel) (by revert a; decide +kernel)

end CompileUnit

end DefiniteInit
