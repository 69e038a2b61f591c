import DefiniteInit.Proofs.Visits
import DefiniteInit.Proofs.WalkLaws

/-!
# Shielded regions only lose

Code in a `try` or `with` statement may be left at any point, so nothing it assigns counts. A walk
that is shielded never adds an attribute: every state it leaves behind says no more than the one it
starts from (`Outcome.Below`, `Scope.below_block`). This goes for the states in which paths run
through, return or jump and for those at the escapes, in loops and for `finally` blocks too, as long
as these are inside the region. Blocks inside a region are shielded as well, so it goes for all that
the walk comes to (`Scope.ComesTo.below`).
-/

namespace DefiniteInit

variable {s t : State} {p q : Option State}

/-! ## States below another -/

/-- A path that has not ended is in a state that says no more than `s`. -/
def PathBelow (s : State) (p : Option State) : Prop := ∀ t, p = some t → t.Weakens s

/-- All paths that jump are in states that say no more than `s`. -/
structure Jumps.Below (s : State) (j : Jumps) : Prop where
  broken : PathBelow s j.broken
  continued : PathBelow s j.continued

/-- The states of all paths that return or jump, and those at the escapes, say no more than `s`. -/
structure Trace.Below (s : State) (x : Trace) : Prop where
  exits : ∀ e ∈ x.exits, e.state.Weakens s
  leading : x.leading.Below s
  trailing : x.trailing.Below s
  escapes : ∀ e ∈ x.escapes, e.state.Weakens s

/-- All states that the walk leaves behind say no more than `s`. -/
structure Outcome.Below (s : State) (o : Outcome) : Prop where
  next : PathBelow s o.next
  trace : o.trace.Below s

namespace PathBelow

theorem none : PathBelow s none := fun _ h => nomatch h

theorem some (h : t.Weakens s) : PathBelow s (some t) := by
  intro u hu
  rwa [← Option.some.inj hu]

/-- Where paths below a state meet, the path is below it. -/
theorem mergePaths (hp : PathBelow s p) (hq : PathBelow s q) : PathBelow s (mergePaths p q) := by
  cases p with
  | none => exact hq
  | some t =>
    cases q with
    | none => exact hp
    | some u => exact some ((State.Weakens.merge_left t u).trans (hp t rfl))

/-- What is below a state is below any that says more. -/
theorem trans (h : t.Weakens s) (hp : PathBelow t p) : PathBelow s p :=
  fun u hu => (hp u hu).trans h

end PathBelow

namespace Jumps.Below

variable {j k : Jumps}

theorem none : Jumps.none.Below s := ⟨.none, .none⟩

/-- Jumps below a state merge into such. -/
theorem merge (hj : j.Below s) (hk : k.Below s) : (j.merge k).Below s :=
  ⟨hj.broken.mergePaths hk.broken, hj.continued.mergePaths hk.continued⟩

theorem trans (h : t.Weakens s) (hj : j.Below t) : j.Below s :=
  ⟨.trans h hj.broken, .trans h hj.continued⟩

end Jumps.Below

namespace Trace.Below

variable {x y : Trace}

theorem empty : (∅ : Trace).Below s := ⟨nofun, .none, .none, nofun⟩

theorem ofExit {e : Exit} (h : e.state.Weakens s) : (Trace.ofExit e).Below s := by
  refine ⟨fun e' he' => ?_, .none, .none, nofun⟩
  rwa [List.mem_singleton.1 he']

theorem ofJumps {j : Jumps} (h : j.Below s) : (Trace.ofJumps j).Below s := ⟨nofun, .none, h, nofun⟩

theorem ofDeletion (attr : Name) : (Trace.ofDeletion attr).Below s := ⟨nofun, .none, .none, nofun⟩

/-- An escape is noted with what was known before it. -/
theorem ofVerdict (v : Verdict) (s : State) : (Trace.ofVerdict v s).Below s := by
  unfold Trace.ofVerdict
  split
  · split
    · exact empty
    · refine ⟨nofun, .none, .none, fun e he => ?_⟩
      rw [List.mem_singleton.1 he]
      exact ⟨fun _ ha => ha, fun _ => rfl⟩
  · exact empty

/-- Traces below a state are so one after the other. -/
theorem append (hx : x.Below s) (hy : y.Below s) : (x ++ y).Below s where
  exits e he := (List.mem_append.1 he).elim (hx.exits e) (hy.exits e)
  leading := hy.leading.merge hx.leading
  trailing := hx.trailing.merge hy.trailing
  escapes e he := (List.mem_append.1 he).elim (hx.escapes e) (hy.escapes e)

/-- A trace below a state is below any that says more. -/
theorem trans (h : t.Weakens s) (hx : x.Below t) : x.Below s :=
  ⟨fun e he => (hx.exits e he).trans h, .trans h hx.leading, .trans h hx.trailing,
    fun e he => (hx.escapes e he).trans h⟩

theorem jumps (hx : x.Below s) : x.jumps.Below s := hx.leading.merge hx.trailing

theorem withoutJumps (hx : x.Below s) : x.withoutJumps.Below s :=
  ⟨hx.exits, .none, .none, hx.escapes⟩

theorem withoutExits (hx : x.Below s) : x.withoutExits.Below s :=
  ⟨nofun, hx.leading, hx.trailing, hx.escapes⟩

end Trace.Below

namespace Outcome.Below

variable {o o' : Outcome} {w : State → Outcome}

theorem goOn (s : State) : (Outcome.goOn s).Below s := ⟨.some (.refl s), .empty⟩

theorem stop {x : Trace} (h : x.Below s) : (Outcome.stop x).Below s := ⟨.none, h⟩

theorem check (v : Verdict) (s : State) : (Outcome.check v s).Below s :=
  ⟨.some (.check_left s v), .ofVerdict v s⟩

theorem trans (h : t.Weakens s) (ho : o.Below t) : o.Below s :=
  ⟨.trans h ho.next, .trans h ho.trace⟩

/-- Walks that add nothing in turn add nothing. -/
theorem andThen (ho : o.Below s) (hw : ∀ t, (w t).Below t) : (o.andThen w).Below s := by
  cases hn : o.next with
  | none => rwa [andThen_of_none hn]
  | some t =>
    rw [andThen_of_some hn]
    have hwt := (hw t).trans (ho.next t hn)
    exact ⟨hwt.next, ho.trace.append hwt.trace⟩

/-- Branches that add nothing add nothing. -/
theorem either (ho : o.Below s) (ho' : o'.Below s) : (o.either o').Below s :=
  ⟨ho.next.mergePaths ho'.next, ho.trace.append ho'.trace⟩

/-- A region with its `else` block and its handlers. -/
theorem region {x : State → Outcome} (ho : o.Below s) (hw : ∀ t, (w t).Below t)
    (hx : ∀ t, (x t).Below t) : ((o.andThen w).either (x (s.interrupted o.trace))).Below s :=
  (ho.andThen hw).either ((hx _).trans (.interrupted_left s _))

/-- A region under a manager. -/
theorem managed (ho : o.Below s) :
    (⟨mergePaths o.next (some (s.interrupted o.trace)), o.trace⟩ : Outcome).Below s :=
  ⟨ho.next.mergePaths (.some (.interrupted_left s _)), ho.trace⟩

/-- A return stays below behind a `finally` block that adds nothing. -/
theorem exitThrough (hw : ∀ t, (w t).Below t) {e : Exit} (he : e.state.Weakens s) :
    (Outcome.exitThrough w e).Below s := by
  have hwalk := (hw e.state).trans he
  unfold Outcome.exitThrough
  dsimp only
  split
  next => exact hwalk.trace
  next t hn => exact hwalk.trace.append (.ofExit (hwalk.next t hn))

/-- So does a path. -/
theorem onPath (hw : ∀ t, (w t).Below t) (hp : PathBelow s p) : (Outcome.onPath w p).Below s := by
  cases p with
  | none => exact .stop .empty
  | some t => exact (hw t).trans (hp t rfl)

/-- So do jumps. -/
theorem jumpsThrough (hw : ∀ t, (w t).Below t) {j : Jumps} (hj : j.Below s) :
    (Outcome.jumpsThrough w j).Below s := by
  have hbroken := onPath hw hj.broken
  have hcontinued := onPath hw hj.continued
  have hboth := hbroken.trace.append hcontinued.trace
  exact ⟨hboth.exits, hboth.jumps, ⟨hbroken.next, hcontinued.next⟩, hboth.escapes⟩

theorem exitsOut (ho : o.Below s) (hw : ∀ t, (w t).Below t) : (o.exitsOut w).Below s :=
  Outcome.exitsOut_induction .empty .append fun e he => exitThrough hw (ho.trace.exits e he)

/-- A region and its `finally` block. -/
theorem closeWith (ho : o.Below s) (hw : ∀ t, (w t).Below t) : (o.closeWith w).Below s := by
  have hexits := ho.exitsOut hw
  have hjumps := jumpsThrough hw (ho.trace.append hexits).jumps
  have hthrough := onPath hw ho.next
  refine ⟨hthrough.next, ?_⟩
  rw [trace_closeWith]
  exact ((ho.trace.withoutExits.withoutJumps.append hexits.withoutJumps).append hjumps).append
    hthrough.trace

/-- The states in which a region is left for its `finally` block. -/
theorem leaving (ho : o.Below s) (hw : ∀ t, (w t).Below t) (ht : t ∈ o.leaving w) :
    t.Weakens s := by
  have hjumps := (ho.trace.append (ho.exitsOut hw)).jumps
  simp only [Outcome.leaving, List.mem_append, List.mem_map, Option.mem_toList] at ht
  rcases ht with (⟨e, he, rfl⟩ | ht | ht) | ht
  · exact ho.trace.exits e he
  · exact hjumps.broken t ht
  · exact hjumps.continued t ht
  · exact ho.next t ht

end Outcome.Below

namespace Loop

variable {l : Loop} (hbody : ∀ t, (l.body t).Below t)

include hbody

/-- A round of a loop that adds nothing stays below its head. -/
theorem below_round (head : State) : (l.round head).trace.Below head := by
  have htested : (l.round head).tested.Weakens head := .check_left head _
  exact (Trace.Below.ofVerdict _ head).append ((hbody _).trace.withoutJumps.trans htested)

/-- So do all rounds, since no head says more than the one before. -/
theorem below_settle (s : State) : (l.settle s).trace.Below s := by
  induction s using l.settle_induction with
  | done s h =>
    rw [settle_of_same l h]
    exact below_round hbody s
  | again s h ih =>
    rw [settle_of_not_same l h]
    exact (below_round hbody s).withoutExits.append (ih.trans (l.next_weakens s))

/-- A loop that adds nothing stays below its entry. -/
theorem below_walk {orelse : State → Outcome} (horelse : ∀ t, (orelse t).Below t) (endless : Bool)
    (s : State) : (l.walk endless orelse s).Below s := by
  have htested : (l.lastRound s).tested.Weakens s :=
    (State.Weakens.check_left _ _).trans (l.rest_weakens s)
  have hcompleted :
      (if endless then .stop ∅ else orelse (l.settle s).tested : Outcome).Below s := by
    split
    · exact .stop .empty
    · rw [tested_settle]
      exact (horelse _).trans htested
  have hbroken : PathBelow s (l.settle s).broken := by
    rw [broken_settle]
    exact .trans htested (hbody _).trace.jumps.broken
  exact ⟨hcompleted.next.mergePaths hbroken, (below_settle hbody s).append hcompleted.trace⟩

end Loop

/-! ## Shielded walks -/

namespace Scope

variable {m : Mode}

/-- A shielded assignment adds nothing. -/
theorem below_assign (hm : m.shielded = true) (v : Verdict) (attrs : List Name) (s : State) :
    (assign m v attrs s).Below s := by
  unfold assign
  split
  · rw [define, if_pos hm]
    exact .goOn s
  · exact .check v s

theorem below_bindTarget (sc : Scope) (hm : m.shielded = true) (target : Option Target)
    (s : State) : (sc.bindTarget m target s).Below s := by
  cases target with
  | none => exact .goOn s
  | some t => exact below_assign hm _ _ s

/-- What a base defines is not folded into a shielded state. -/
theorem below_judged (hm : m.shielded = true) (call : BaseCall) (v : AttrSet → Verdict)
    (span : Span) (s : State) : (call.judged v m span s).Below s := by
  unfold BaseCall.judged
  refine .andThen (.check _ s) fun t => ?_
  simp only [hm, Bool.not_true, Bool.and_false, BaseCall.fold_false]
  split
  · exact .goOn t
  · exact .check _ t

variable (sc : Scope)

/-- Where it is shielded a walk leaves no state behind that says more than the one before. -/
theorem law_below :
    WalkLaw sc (fun _ => True) fun m _ w => m.shielded = true → ∀ s, (w s).Below s where
  goOn _ _ _ := .goOn
  raise _ _ _ _ := .stop .empty
  exit _ _ _ _ s := .stop (.ofExit (.refl s))
  broken _ _ s := .stop (.ofJumps ⟨.some (.refl s), .none⟩)
  continued _ _ s := .stop (.ofJumps ⟨.none, .some (.refl s)⟩)
  remove _ _ attr _ _ s := ⟨.some (.undefine_left s attr), .ofDeletion attr⟩
  check _ _ v _ s := .check (v s.defined) s
  assign _ _ _ _ attrs hmode hm s := below_assign (hmode.trans hm) _ attrs s
  call _ _ v span target hm s := below_judged hm (sc.baseCall target) v span s
  andThen hw hx hm s := (hw hm s).andThen (hx hm)
  either hw hx hm s := (hw hm s).either (hx hm s)
  loop _ infinite hw hx hm s := Loop.below_walk (hw hm) (hx hm) infinite s
  region hw hx hy _ s := (hw rfl s).region (hx rfl) (hy rfl)
  -- The `finally` block is walked in the mode of the statement, which is shielded here.
  closeWith hw hx hm s := (hw hm s).closeWith (hx hm)

/-- Nothing is added by a shielded statement. -/
theorem below_stmt (st : Stmt) (hm : m.shielded = true) (s : State) : (sc.stmt m st s).Below s :=
  sc.law_below.stmt st m true (fun _ _ => trivial) (by simp) hm s

/-- Nothing is added by a shielded block. -/
theorem below_block (ss : List Stmt) (hm : m.shielded = true) (s : State) :
    (sc.block m ss s).Below s :=
  sc.law_below.block ss m true (fun _ _ => trivial) (by simp) hm s

theorem below_handlers (hs : List Handler) (hm : m.shielded = true) (s : State) :
    (sc.handlers m hs s).Below s :=
  sc.law_below.handlers hs m true (fun _ _ => trivial) (by simp) hm s

/-- The body, the handlers and the `else` block of a `try` statement add nothing. -/
theorem below_region (m : Mode) (body : List Stmt) (hs : List Handler) (orelse : List Stmt)
    (s : State) : (sc.region m body hs orelse s).Below s :=
  (sc.below_block body rfl s).region (sc.below_block orelse rfl) (sc.below_handlers hs rfl)

/-- A `with` statement adds nothing. -/
theorem below_withBlock (m : Mode) (items : List WithItem) (body : List Stmt) (span : Span)
    (s : State) : (sc.stmt m (.withBlock items body span) s).Below s := by
  rw [stmt]
  exact .andThen (.check _ s) fun t => (sc.below_block body rfl t).managed

/-! ## Regions -/

variable {sc} {st : Stmt} {u v : Visit}

/-- What is shielded is walked in shielded mode. -/
theorem Shields.shielded (h : sc.Shields m s st v) : v.mode.shielded = true := by cases h <;> rfl

/-- Each block of a region starts from a state that says no more than the one before the region. -/
theorem Shields.weakens (h : sc.Shields m s st v) : v.state.Weakens s := by
  cases h with
  | tryBody => exact .refl s
  | tryElse ht => exact (sc.below_block _ rfl s).next _ ht
  | handler hh => exact (State.Weakens.check_left _ _).trans (.interrupted_left s _)
  | withBody => exact .check_left s _

/-- All blocks inside a shielded one are shielded too, and entered with no more. -/
theorem Enters.below (h : sc.Enters m s st v) (hm : m.shielded = true) :
    v.mode.shielded = true ∧ v.state.Weakens s := by
  cases h with
  | branch => exact ⟨hm, .check_left s _⟩
  | otherwise => exact ⟨hm, .check_left s _⟩
  | @round _ c head t hst hhead ht =>
    have htested : ((sc.loop m c).round head).tested.Weakens head := .check_left head _
    have hentry := (Loop.weakens_of_mem_heads hhead).trans (.check_left s _)
    exact ⟨hm, ((sc.below_bindTarget hm c.target _).next t ht).trans (htested.trans hentry)⟩
  | @completed _ c hst hend =>
    refine ⟨hm, ?_⟩
    rw [Loop.tested_settle]
    exact (State.Weakens.check_left _ _).trans
      (((sc.loop m c).rest_weakens _).trans (.check_left s _))
  | shielded hv => exact ⟨hv.shielded, hv.weakens⟩
  | final hfinal ht => exact ⟨hm, (sc.below_region m _ _ _ s).leaving (sc.below_block _ hm) ht⟩

/-- A walk that is shielded stays so, and comes to no state that says more. -/
theorem Steps.below (h : sc.Steps u v) (hu : u.mode.shielded = true) :
    v.mode.shielded = true ∧ v.state.Weakens u.state := by
  cases h with
  | on hn => exact ⟨hu, (sc.below_stmt _ hu _).next _ hn⟩
  | into hv => exact hv.below hu

/-- Wherever a shielded walk comes to, it is shielded still and knows no more than at its start. -/
theorem ComesTo.below (h : sc.ComesTo u v) (hu : u.mode.shielded = true) :
    v.mode.shielded = true ∧ v.state.Weakens u.state := by
  induction h with
  | refl => exact ⟨hu, .refl _⟩
  | tail _ hstep ih =>
    obtain ⟨hmode, hstate⟩ := hstep.below ih.1
    exact ⟨hmode, hstate.trans ih.2⟩

/-- Each block that a `try` or `with` statement shields, and all that its walk comes to, starts from
a state that says no more than the one on entry, and leaves none behind that says more. So the
statement, before its `finally` block, says no more than was known before it. -/
theorem shielded_never_contributes (sc : Scope) (m : Mode) (s : State) :
    (∀ st r v, sc.Shields m s st r → sc.ComesTo r v →
      r.state.Weakens s ∧ v.state.Weakens r.state ∧ (sc.walk v).Below v.state) ∧
    (∀ body hs orelse, (sc.region m body hs orelse s).Below s) ∧
    (∀ body hs orelse span, (sc.stmt m (.tryBlock body hs orelse [] span) s).Below s) ∧
    ∀ items body span, (sc.stmt m (.withBlock items body span) s).Below s := by
  refine ⟨fun st r v hr hv => ?_, fun body hs orelse => sc.below_region m body hs orelse s,
    fun body hs orelse span => ?_, fun items body span => sc.below_withBlock m items body span s⟩
  · obtain ⟨hmode, hstate⟩ := hv.below hr.shielded
    exact ⟨hr.weakens, hstate, sc.below_block v.code hmode v.state⟩
  · rw [stmt_tryBlock]
    exact sc.below_region m body hs orelse s

/-- A scope in which the base assigns one attribute. -/
def overAssigningBase : Scope where
  judge := ⟨∅, false⟩
  baseCall _ := .analyzed ⟨0⟩ ⟨.ofList [⟨31⟩], false, .analyzed, none⟩

/-- Runs the base's initializer and a loop that binds an attribute, in each round of which another
is assigned before the loop is left and a third on the way out. -/
def eagerLoop : List Stmt :=
  [.callInit .next [],
    .forLoop (.ofSelf ⟨32⟩) (.var .param ⟨8⟩)
      [.guarded [.setAttr ⟨33⟩ (.literal .none), .breakLoop .empty] [] []
        [.setAttr ⟨34⟩ (.literal .none)]] [] .empty]

/-- Of the same code, what counts at the top does not count in a region, where the walk comes to the
`finally` block with nothing new. -/
theorem shielded_never_contributes_eagerLoop :
    ∃ sc r v, sc = overAssigningBase ∧
      sc.Shields .top ⟨.ofList [⟨30⟩], false⟩ (.guarded eagerLoop [] [] []) r ∧ sc.ComesTo r v ∧
      v.code = [.setAttr ⟨34⟩ (.literal .none)] ∧ v.state.Weakens ⟨.ofList [⟨30⟩], false⟩ ∧
      (sc.block .top eagerLoop ⟨.ofList [⟨30⟩], false⟩).next.map (·.defined.toList) =
        some [⟨30⟩, ⟨31⟩] ∧
      (sc.stmt .top (.guarded eagerLoop [] [] []) ⟨.ofList [⟨30⟩], false⟩).Below
        ⟨.ofList [⟨30⟩], false⟩ := by
  -- The walk comes past the call, into the first round, and out by way of the `finally` block.
  have hcomes : overAssigningBase.ComesTo ⟨.shield .top, eagerLoop, ⟨.ofList [⟨30⟩], false⟩⟩
      ⟨(Mode.shield .top).loop, [.setAttr ⟨34⟩ (.literal .none)], ⟨.ofList [⟨30⟩], false⟩⟩ := by
    refine .head (.on (t := ⟨.ofList [⟨30⟩], false⟩) (by decide +kernel)) ?_
    refine .head (.into (.round (t := ⟨.ofList [⟨30⟩], false⟩) rfl (Loop.mem_heads_self _ _)
      (by decide +kernel))) ?_
    exact .single (.into (.final rfl (by decide +kernel)))
  obtain ⟨hregion, -, htry, -⟩ :=
    shielded_never_contributes overAssigningBase .top ⟨.ofList [⟨30⟩], false⟩
  obtain ⟨hentry, hstate, -⟩ := hregion (.guarded eagerLoop [] [] []) _ _ .tryBody hcomes
  exact ⟨_, _, _, rfl, .tryBody, hcomes, rfl, hstate.trans hentry, by decide +kernel, htry _ _ _ _⟩

end Scope

end DefiniteInit
