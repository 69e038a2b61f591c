import DefiniteInit.Proofs.Credits
import DefiniteInit.Proofs.ShieldedRegions

/-!
# What is recorded of escapes

A state keeps a flag for the receiver's escape, a trace keeps a list of escapes, and the facts of a
class keep both the flag and the first place. Nothing ties the three together but the steps of the
walk.

Once the flag is set on a path it stays, nothing more is counted as assigned there and no more
escapes are noted (`Muted`, `Graph.escape_permanent`). Together with `Outcome.StemsFrom`, by which a
flag that is set has a cause, this gives that of a class with an initializer of its own the flag,
the list and the first place say the same (`CompileUnit.compromised_iff_recorded`).
-/

namespace DefiniteInit

variable {s t : State} {l : List Escape}

/-! ## After an escape -/

/-- After an escape a state leads only to such as say no more. -/
theorem State.LeadsTo.weakens (h : s.LeadsTo l t) (hs : s.escaped = true) : t.Weakens s :=
  ⟨h.shrinks hs, h.stays⟩

/-- A walk by which an escape lasts and that notes no more of them after it. -/
structure Muted (w : State → Outcome) : Prop where
  stems : ∀ s, (w s).StemsFrom s
  silent : ∀ {s}, s.escaped = true → (w s).trace.escapes = []

/-- After an escape no other is noted. -/
theorem Trace.escapes_ofVerdict_of_escaped (v : Verdict) (hs : s.escaped = true) :
    (Trace.ofVerdict v s).escapes = [] := by
  unfold Trace.ofVerdict
  cases v.site? with
  | none => rfl
  | some site => simp only [hs, if_true]; rfl

namespace Muted

variable {w x y : State → Outcome}

theorem goOn : Muted .goOn := ⟨fun s => .goOn (.refl s _), fun _ => rfl⟩

theorem check (v : State → Verdict) : Muted fun s => .check (v s) s :=
  ⟨fun s => .check (v s) s, fun hs => Trace.escapes_ofVerdict_of_escaped _ hs⟩

/-- Walks in turn are muted if each is. -/
theorem andThen (hw : Muted w) (hx : Muted x) : Muted fun s => (w s).andThen x where
  stems s := (hw.stems s).andThen hx.stems
  silent {s} hs := by
    cases hn : (w s).next with
    | none => rw [Outcome.andThen_of_none hn, hw.silent hs]
    | some t =>
      have ht := ((hw.stems s).next t hn).stays hs
      rw [Outcome.andThen_of_some hn, Trace.escapes_append, hw.silent hs, hx.silent ht]
      rfl

/-- Branches are muted if each is. -/
theorem either (hw : Muted w) (hx : Muted x) : Muted fun s => (w s).either (x s) where
  stems s := (hw.stems s).either (hx.stems s)
  silent hs := by rw [Outcome.either, Trace.escapes_append, hw.silent hs, hx.silent hs]; rfl

/-- A `try` statement is muted if its blocks are. -/
theorem region (hw : Muted w) (hx : Muted x) (hy : Muted y) :
    Muted fun s => ((w s).andThen x).either (y (s.interrupted (w s).trace)) where
  stems s := (hw.stems s).region hx.stems (hy.stems _)
  silent {s} hs := by
    have hint := (State.LeadsTo.interrupted s (w s).trace).stays hs
    rw [Outcome.either, Trace.escapes_append, (hw.andThen hx).silent hs, hy.silent hint]
    rfl

theorem assign (m : Mode) (v : State → Verdict) (attrs : List Name) :
    Muted fun s => Scope.assign m (v s) attrs s where
  stems s := Scope.stemsFrom_assign m (v s) attrs s
  silent {s} hs := by
    unfold Scope.assign
    split
    · rfl
    · exact Trace.escapes_ofVerdict_of_escaped _ hs

theorem judged (call : BaseCall) (v : AttrSet → Verdict) (m : Mode) (span : Span) :
    Muted (call.judged v m span) where
  stems s := Scope.stemsFrom_judged call v m span s
  silent {s} hs := by
    have hcheck := (State.LeadsTo.check s (v s.defined)).stays hs
    have hfold := (State.LeadsTo.fold call ((v s.defined).isSafe && !m.shielded)
      (s.check (v s.defined)) []).stays hcheck
    rw [BaseCall.judged, Outcome.andThen_of_some rfl, Trace.escapes_append]
    refine List.append_eq_nil_iff.2 ⟨Trace.escapes_ofVerdict_of_escaped _ hs, ?_⟩
    cases call.escape? span with
    | none => rfl
    | some site => exact Trace.escapes_ofVerdict_of_escaped _ hfold

end Muted

namespace Loop

variable {l : Loop} (hbody : Muted l.body)

include hbody

/-- A round from an escaped head notes nothing. -/
theorem escapes_round_of_escaped {head : State} (hhead : head.escaped = true) :
    (l.round head).trace.escapes = [] := by
  have htested := (State.LeadsTo.check head (l.test head)).stays hhead
  exact List.append_eq_nil_iff.2 ⟨Trace.escapes_ofVerdict_of_escaped _ hhead, hbody.silent htested⟩

/-- The receiver has escaped at every head, so no round notes anything. -/
theorem escapes_settle_of_escaped (head : State) (hhead : head.escaped = true) :
    (l.settle head).trace.escapes = [] := by
  induction head using l.settle_induction with
  | done head h =>
    rw [settle_of_same l h]
    exact escapes_round_of_escaped hbody hhead
  | again head h ih =>
    have hnext := (next_leadsTo hbody.stems head).stays hhead
    rw [settle_of_not_same l h, Trace.escapes_append, ih hnext, List.append_nil]
    exact escapes_round_of_escaped hbody hhead

/-- A loop is muted if its body and its `else` block are. -/
theorem muted_walk {orelse : State → Outcome} (horelse : Muted orelse) (endless : Bool) :
    Muted (l.walk endless orelse) where
  stems := stemsFrom_walk hbody.stems horelse.stems endless
  silent {s} hs := by
    have htested := (tested_leadsTo_walk hbody.stems endless orelse s).stays hs
    rw [← tested_settle] at htested
    rw [walk, Trace.escapes_append, escapes_settle_of_escaped hbody s hs, List.nil_append]
    cases endless with
    | true => rfl
    | false => exact horelse.silent htested

end Loop

namespace Outcome

variable {o : Outcome} {w : State → Outcome} (hw : Muted w)

include hw

/-- An escaped return notes nothing on its way through a `finally` block. -/
theorem escapes_exitThrough_of_escaped {e : Exit} (he : e.state.escaped = true) :
    (exitThrough w e).escapes = [] := by
  unfold exitThrough
  dsimp only
  split
  · exact hw.silent he
  · rw [Trace.escapes_append, hw.silent he]
    rfl

theorem escapes_exitsOut_of_escaped (h : ∀ e ∈ o.trace.exits, e.state.escaped = true) :
    (o.exitsOut w).escapes = [] :=
  exitsOut_induction (P := fun x => x.escapes = []) rfl
    (fun hx hy => List.append_eq_nil_iff.2 ⟨hx, hy⟩)
    fun e he => escapes_exitThrough_of_escaped hw (h e he)

theorem escapes_onPath_of_escaped {p : Option State} (hp : Leads s l p) (hs : s.escaped = true) :
    (onPath w p).trace.escapes = [] := by
  cases p with
  | none => rfl
  | some t => exact hw.silent ((hp t rfl).stays hs)

end Outcome

/-- A region and its `finally` block. -/
theorem Muted.closeWith {w x : State → Outcome} (hw : Muted w) (hx : Muted x) :
    Muted fun s => (w s).closeWith x where
  stems s := (hw.stems s).closeWith hx.stems
  silent {s} hs := by
    -- However the region is left, it is left after the escape, and the block is walked from there.
    have hregion := hw.stems s
    have hexits : ((w s).exitsOut x).escapes = [] :=
      Outcome.escapes_exitsOut_of_escaped hx fun e he => (hregion.trace.exits e he).stays hs
    have hjumps := Outcome.stemFrom_jumps_closeWith hx.stems hregion
    have hbroken := Outcome.escapes_onPath_of_escaped hx hjumps.broken hs
    have hcontinued := Outcome.escapes_onPath_of_escaped hx hjumps.continued hs
    have hthrough := Outcome.escapes_onPath_of_escaped hx hregion.next hs
    rw [Outcome.trace_closeWith]
    simp only [Trace.escapes_append, List.append_eq_nil_iff]
    exact ⟨⟨⟨hw.silent hs, hexits⟩, List.append_eq_nil_iff.2 ⟨hbroken, hcontinued⟩⟩, hthrough⟩

namespace Scope

/-- Every walk is muted. -/
theorem comparison_muted (sc : Scope) : Comparison sc sc (fun _ => True) (fun _ => True)
    (fun _ _ => True) fun w _ => Muted w where
  properties := rfl
  expr _ := trivial
  fixed _ _ := trivial
  inTurn _ _ := trivial
  goOn := .goOn
  raise := ⟨fun _ => .stop .empty, fun _ => rfl⟩
  exit _ := ⟨fun s => .stop (.ofExit (.refl s _)), fun _ => rfl⟩
  broken := ⟨fun s => .stop (.ofJumps ⟨(State.LeadsTo.refl s _).leads, .none⟩), fun _ => rfl⟩
  continued := ⟨fun s => .stop (.ofJumps ⟨.none, (State.LeadsTo.refl s _).leads⟩), fun _ => rfl⟩
  remove attr :=
    ⟨fun s => ⟨(State.LeadsTo.undefine s attr _).leads, .ofDeletion attr⟩, fun _ => rfl⟩
  check {v _} _ := .check fun s => v s.defined
  assign {v _} m attrs _ _ _ := .assign m (fun s => v s.defined) attrs
  call {v _} m span target _ _ := .judged (sc.baseCall target) v m span
  andThen := .andThen
  either := .either
  loop endless _ hw hx := Loop.muted_walk hw hx endless
  region := .region
  closeWith := .closeWith

theorem muted_block (sc : Scope) (m : Mode) (body : List Stmt) : Muted (sc.block m body) :=
  (comparison_muted sc).block body m (fun _ _ => trivial) fun _ _ => trivial

/-- After an escape a walk leaves no state behind that says more than the one it starts from. -/
theorem below_block_of_escaped (sc : Scope) (m : Mode) (body : List Stmt) (hs : s.escaped = true) :
    (sc.block m body s).Below s := by
  have hmuted := sc.muted_block m body
  have hstems := hmuted.stems s
  refine ⟨fun t ht => (hstems.next t ht).weakens hs,
    fun e he => (hstems.trace.exits e he).weakens hs, ?_, ?_, ?_⟩
  · exact ⟨fun t ht => (hstems.trace.leading.broken t ht).weakens hs,
      fun t ht => (hstems.trace.leading.continued t ht).weakens hs⟩
  · exact ⟨fun t ht => (hstems.trace.trailing.broken t ht).weakens hs,
      fun t ht => (hstems.trace.trailing.continued t ht).weakens hs⟩
  · rw [hmuted.silent hs]
    exact nofun

end Scope

/-! ## Summaries -/

theorem Outcome.Below.exits {o : Outcome} (h : o.Below s) : ∀ e ∈ o.exits, e.state.Weakens s := by
  intro e he
  rcases List.mem_append.1 he with he | he
  · exact h.trace.exits e he
  · obtain ⟨t, ht, rfl⟩ := List.mem_map.1 he
    exact h.next t (Option.mem_toList.1 ht)

/-- If the receiver had not escaped at the start, the walk notes an escape if it has at an exit. -/
theorem Outcome.StemsFrom.escapes_ne_nil {o : Outcome} (h : o.StemsFrom s)
    (hs : s.escaped = false) : ∀ e ∈ o.exits, e.state.escaped = true → o.trace.escapes ≠ [] := by
  intro e he hescaped
  have hlead : s.LeadsTo o.trace.escapes e.state := by
    rcases List.mem_append.1 he with he | he
    · exact h.trace.exits e he
    · obtain ⟨t, ht, rfl⟩ := List.mem_map.1 he
      exact h.next t (Option.mem_toList.1 ht)
  exact (hlead.cause hescaped).resolve_left (by simp [hs])

namespace Summary

variable {o : Outcome} {recordSites : Bool}

/-- A summary says that the receiver has escaped if an escape is noted, or if the body completes in
a state that says so. -/
theorem escaped_ofOutcome : (ofOutcome o recordSites).escaped = true ↔
    o.trace.escapes ≠ [] ∨ ∃ e ∈ o.exits, e.state.escaped = true := by
  simp [ofOutcome, ofStates]

/-- From a state without an escape the first of these is enough. -/
theorem escaped_iff_escapes_ne_nil (h : o.StemsFrom s) (hs : s.escaped = false) :
    (ofOutcome o recordSites).escaped = true ↔ o.trace.escapes ≠ [] := by
  rw [escaped_ofOutcome]
  exact or_iff_left_of_imp fun ⟨e, he, hescaped⟩ => h.escapes_ne_nil hs e he hescaped

theorem firstEscape_ofOutcome :
    (ofOutcome o true).firstEscape = o.trace.escapes.head?.map (·.site) := rfl

end Summary

namespace Graph

/-- A walk that starts after an escape ends, wherever it completes, in a state that says so and in
which no more is assigned than at the start, and notes no escape. Likewise, wherever a walk comes to
from a place at which the receiver has escaped, it has escaped there and no more is assigned. -/
theorem escape_permanent (g : Graph) (known : ClassTable Facts) (o : Options) (id : ClassId)
    (body : List Stmt) (entry : State) (hentry : entry.escaped = true) (sc : Scope)
    (hsc : sc = g.scope known o id) (walk : Outcome) (hwalk : walk = sc.block .top body entry)
    (summary : Summary) (hsummary : summary = g.walkBody known o id body entry) :
    (∀ e ∈ walk.exits, e.state.escaped = true ∧ e.state.defined ⊆ entry.defined) ∧
      (∀ t, walk.next = some t → t.escaped = true ∧ t.defined ⊆ entry.defined) ∧
      walk.trace.escapes = [] ∧ summary.defined ⊆ entry.defined ∧ summary.firstEscape = none ∧
      (summary.escaped = true ↔ walk.exits ≠ []) ∧
      ∀ u v, sc.ComesTo u v → u.state.escaped = true →
        v.state.escaped = true ∧ v.state.defined ⊆ u.state.defined ∧
          (sc.walk v).Below v.state ∧ (sc.walk v).trace.escapes = [] := by
  subst hsc hwalk hsummary
  -- Once escaped, a walk gains no attribute and records no escape.
  have hbelow := (g.scope known o id).below_block_of_escaped .top body hentry
  have hsilent := ((g.scope known o id).muted_block .top body).silent hentry
  have hexits : ∀ e ∈ ((g.scope known o id).block .top body entry).exits,
      e.state.escaped = true ∧ e.state.defined ⊆ entry.defined :=
    fun e he => ⟨(hbelow.exits e he).escaped hentry, (hbelow.exits e he).defined⟩
  refine ⟨hexits, fun t ht => ⟨(hbelow.next t ht).escaped hentry, (hbelow.next t ht).defined⟩,
    hsilent, fun a ha => ?_, ?_, ?_, fun u v huv hu => ?_⟩
  · obtain ⟨hne, hall, -⟩ := Summary.mem_defined_ofOutcome.1 ha
    obtain ⟨e, he⟩ := List.exists_mem_of_ne_nil _ hne
    exact (hexits e he).2 a (hall e he)
  · rw [walkBody, Summary.ofOutcome, hsilent]
    simp [Summary.ofStates]
  · rw [walkBody, Summary.escaped_ofOutcome, hsilent]
    constructor
    · rintro (hnil | ⟨e, he, -⟩)
      · exact absurd rfl hnil
      · exact List.ne_nil_of_mem he
    · intro hne
      obtain ⟨e, he⟩ := List.exists_mem_of_ne_nil _ hne
      exact .inr ⟨e, he, (hexits e he).1⟩
  · have hv := huv.includes.leads.weakens hu
    have hvescaped := hv.escaped hu
    exact ⟨hvescaped, hv.defined, Scope.below_block_of_escaped _ _ _ hvescaped,
      (Scope.muted_block _ _ _).silent hvescaped⟩

/-- Runs the base's initializer, assigns, and goes round a loop that deletes an attribute on one way
and leaves by way of a `finally` block on the other. -/
def lateWork : List Stmt :=
  [.callInit .next [], .setAttr ⟨31⟩ (.literal .none),
    .loopOver ⟨9⟩ (.var .param ⟨8⟩)
      [.branch (.var .localVar ⟨9⟩) [.delAttr ⟨30⟩, .run (.callNamed ⟨12⟩ [.receiver])]
        [.guarded [.leave none] [] [] [.setAttr ⟨32⟩ (.literal .none)]]] [],
    .setAttr ⟨33⟩ (.literal .none)]

/-- After an escape the body completes in two places, with the attribute gone, and nothing else
makes a difference. The walk comes past the first assignment with what was known before. -/
theorem escape_permanent_lateWork :
    ∃ sc walk v, sc = scope .single ∅ .default ⟨0⟩ ∧
      walk = sc.block .top lateWork ⟨.ofList [⟨29⟩, ⟨30⟩], true⟩ ∧ walk.exits.length = 2 ∧
      (∀ e ∈ walk.exits, e.state.escaped = true ∧
        e.state.defined ⊆ .ofList [⟨29⟩, ⟨30⟩]) ∧ walk.trace.escapes = [] ∧
      (walkBody .single ∅ .default ⟨0⟩ lateWork
        ⟨.ofList [⟨29⟩, ⟨30⟩], true⟩).escaped = true ∧
      sc.ComesTo ⟨.top, lateWork, ⟨.ofList [⟨29⟩, ⟨30⟩], true⟩⟩ v ∧ v.code = lateWork.drop 2 ∧
      v.state.escaped = true ∧ v.state.defined ⊆ .ofList [⟨29⟩, ⟨30⟩] := by
  have hcomes : (scope .single ∅ .default ⟨0⟩).ComesTo
      ⟨.top, lateWork, ⟨.ofList [⟨29⟩, ⟨30⟩], true⟩⟩
      ⟨.top, lateWork.drop 2, ⟨.ofList [⟨29⟩, ⟨30⟩], true⟩⟩ :=
    .head (.on (t := ⟨.ofList [⟨29⟩, ⟨30⟩], true⟩) (by decide +kernel))
      (.single (.on (by decide +kernel)))
  obtain ⟨hexits, -, hsilent, -, -, hescaped, hlater⟩ :=
    escape_permanent .single ∅ .default ⟨0⟩ lateWork ⟨.ofList [⟨29⟩, ⟨30⟩], true⟩ rfl
      _ rfl _ rfl _ rfl
  obtain ⟨hv, hdefined, -, -⟩ := hlater _ _ hcomes rfl
  exact ⟨_, _, _, rfl, rfl, by decide +kernel, hexits, hsilent, hescaped.2 (by decide +kernel),
    hcomes, rfl, hv, hdefined⟩

/-! ## Classes -/

variable {g : Graph} {known : ClassTable Facts} {o : Options} {id : ClassId}

/-- The facts of a class that has them from its own initializer. -/
theorem factsOf_of_analyzed (h : (g.factsOf known o id).origin = .analyzed) :
    ∃ init, (g.class? id).bind Class.initializer = some init ∧
      ∃ summary, summary = g.walkBody known o id init.body ⟨g.defaultedAttrs id, false⟩ ∧
        g.factsOf known o id =
          ⟨(g.defaultedAttrs id ∪ summary.defined).filter (· ∉ g.deletableAttrs id),
            summary.escaped, .analyzed, summary.firstEscape⟩ := by
  unfold factsOf at h ⊢
  split at h
  · simp [Facts.ofTrait] at h
  · rw [if_neg ‹_›]
    split at h
    · simp [Facts.seeded] at h
    · dsimp only at h ⊢
      unfold initialFacts at h ⊢
      cases hinit : (g.class? id).bind Class.initializer with
      | some init => exact ⟨init, rfl, _, rfl, rfl⟩
      | none =>
        rw [hinit] at h
        dsimp only at h
        split at h
        · simp at h
        · split at h <;> simp at h

end Graph

namespace CompileUnit

/-- If the places of escapes are kept, a class with an initializer of its own is compromised if and
only if it has a first place, which it has if and only if the walk of the initializer notes an
escape, and then it is the place of the first. No path of that walk completes in an escaped state
unless one is noted. -/
theorem compromised_iff_recorded (names : NameTable) (decls : List Declaration) (u : CompileUnit)
    (hbuild : build names decls = .ok u) (hacyclic : u.graph.Acyclic) (o : Options)
    (hrecord : o.recordEscapeSites = true) :
    ∃ report u', u.analyze o = .ok (report, u') ∧ u'.graph = u.graph ∧
      ∀ id ∈ u'.graph.ids, ∃ f, u'.facts.get? id = some f ∧ (f.origin = .analyzed →
        ∃ init walk, (u'.graph.class? id).bind Class.initializer = some init ∧
          walk = (u'.graph.scope u'.facts o id).block .top init.body
            ⟨u'.graph.defaultedAttrs id, false⟩ ∧
          (f.compromised = true ↔ f.firstEscape.isSome = true) ∧
          (f.firstEscape.isSome = true ↔ walk.trace.escapes ≠ []) ∧
          f.firstEscape = walk.trace.escapes.head?.map (·.site) ∧
          ∀ e ∈ walk.exits, e.state.escaped = true → walk.trace.escapes ≠ []) := by
  have hempty : ∀ id ∈ u.graph.ids, u.facts.get? id = none :=
    fun id _ => get?_facts_of_build hbuild id
  refine ⟨_, _, analyze_eq_ok_of_acyclic hempty hacyclic o, rfl, fun id hid =>
    ⟨_, Graph.solves_analyze hacyclic o id hid, fun horigin => ?_⟩⟩
  obtain ⟨init, hinit, summary, rfl, hfacts⟩ := Graph.factsOf_of_analyzed horigin
  have hstems := (u.graph.scope (u.graph.analyze o) o id).stemsFrom_block .top init.body
    ⟨u.graph.defaultedAttrs id, false⟩
  refine ⟨init, _, hinit, rfl, ?_⟩
  rw [hfacts, Graph.walkBody, hrecord]
  dsimp only
  rw [Summary.firstEscape_ofOutcome, Summary.escaped_iff_escapes_ne_nil hstems rfl]
  exact ⟨by simp, by simp, rfl, hstems.escapes_ne_nil rfl⟩

/-- A class that may hand itself over and then fail, one that runs its initializer in a loop under a
handler, and one without an escape. -/
def leaking : List Declaration :=
  [(Declaration.named ⟨20⟩).withInitializer
      ⟨[.branch (.var .param ⟨8⟩)
          [.run (.callNamed ⟨12⟩ [.receiver]), .throwing (.callNamed ⟨13⟩ [])] [],
        .setAttr ⟨30⟩ (.literal .none)], .empty⟩,
    ((Declaration.named ⟨21⟩).addBase ⟨20⟩).withInitializer
      ⟨[.loopWhile (.var .param ⟨8⟩)
          [.guarded [.callInit .next []] [.on none [.pass .empty]] [] []] [],
        .setAttr ⟨31⟩ (.literal .none)], .empty⟩,
    (Declaration.named ⟨22⟩).withInitializer ⟨[.setAttr ⟨32⟩ (.literal .none)], .empty⟩]

/-- The unit of the three classes, before it is analyzed. -/
def leakingUnit : CompileUnit := ⟨.fresh, .ofDeclarations leaking, ∅, ∅⟩

/-- The second class is compromised by the first, as the walk notes in the loop. The third is not.
-/
theorem compromised_iff_recorded_leaking : build .fresh leaking = .ok leakingUnit ∧
    leakingUnit.graph.Acyclic ∧
    ∃ report u', leakingUnit.analyze .default = .ok (report, u') ∧
      (∃ f init walk, u'.facts.get? ⟨1⟩ = some f ∧ f.origin = .analyzed ∧ f.compromised = true ∧
        f.firstEscape.isSome = true ∧ (u'.graph.class? ⟨1⟩).bind Class.initializer = some init ∧
        walk = (u'.graph.scope u'.facts .default ⟨1⟩).block .top init.body
          ⟨u'.graph.defaultedAttrs ⟨1⟩, false⟩ ∧ walk.trace.escapes ≠ []) ∧
      ∃ f, u'.facts.get? ⟨2⟩ = some f ∧ f.origin = .analyzed ∧ f.compromised = false ∧
        f.firstEscape.isSome = false := by
  have hbuild : build .fresh leaking = .ok leakingUnit := rfl
  have hacyclic : leakingUnit.graph.Acyclic := Graph.findCycle?_eq_none_iff.1 (by decide +kernel)
  obtain ⟨report, u', hanalyze, -, hclasses⟩ :=
    compromised_iff_recorded .fresh leaking leakingUnit hbuild hacyclic .default rfl
  obtain ⟨-, -, -, rfl⟩ := analyze_eq_ok_iff.1 hanalyze
  obtain ⟨f, hf, hrecorded⟩ := hclasses ⟨1⟩ (by decide +kernel)
  obtain ⟨f', hf', hrecorded'⟩ := hclasses ⟨2⟩ (by decide +kernel)
  have heq : (⟨∅, true, .analyzed, some ⟨.compromisedBase ⟨0⟩, .empty⟩⟩ : Facts) = f :=
    Option.some.inj (Eq.trans (by decide +kernel) hf)
  have heq' : (⟨.ofList [⟨32⟩], false, .analyzed, none⟩ : Facts) = f' :=
    Option.some.inj (Eq.trans (by decide +kernel) hf')
  subst heq heq'
  obtain ⟨init, walk, hinit, hwalk, hiff, hnoted, -, -⟩ := hrecorded rfl
  obtain ⟨-, -, -, -, hiff', -, -, -⟩ := hrecorded' rfl
  have hfirst := hiff.1 rfl
  refine ⟨hbuild, hacyclic, report, _, hanalyze, ⟨_, init, walk, hf, rfl, rfl, hfirst, hinit, hwalk,
    hnoted.1 hfirst⟩, _, hf', rfl, rfl, ?_⟩
  exact Bool.eq_false_iff.2 fun h => nomatch hiff'.2 h

end CompileUnit

end DefiniteInit
