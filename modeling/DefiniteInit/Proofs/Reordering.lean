import DefiniteInit.Proofs.Contexts
import DefiniteInit.Proofs.UnknownForms

/-!
# The order of attributes and of assignments

A state lists the attributes that are assigned in the order in which they came to be so. Nothing a
walk does depends on that order. From states that say the same it comes to states that say the same,
at the same places and with the same escapes (`Outcome.Alike`, `Scope.comparison_alike`); the rounds
of a loop go in step, since whether its head has settled is asked of sets.

So two assignments one after the other can be swapped where both are sure to count, at whatever
depth they stand (`Graph.independent_assignments_commute`).
-/

namespace DefiniteInit

variable {s s' t t' : State} {p p' q q' : Option State}

/-! ## States and paths -/

/-- The states say the same, in whatever order they list attributes. -/
structure State.Alike (s s' : State) : Prop where
  defined : ∀ a, a ∈ s.defined ↔ a ∈ s'.defined
  escaped : s.escaped = s'.escaped

/-- Both paths have ended, or neither has and their states say the same. -/
abbrev PathAlike : Option State → Option State → Prop := Option.Rel State.Alike

namespace State

/-- States are the same for a loop exactly if they say the same. -/
theorem same_iff_alike : s.same t = true ↔ s.Alike t := by
  rw [same, Bool.and_eq_true, AttrSet.sameMembers_eq_true, beq_iff_eq]
  exact ⟨fun h => ⟨h.1, h.2⟩, fun h => ⟨h.defined, h.escaped⟩⟩

namespace Alike

theorem refl (s : State) : s.Alike s := ⟨fun _ => Iff.rfl, rfl⟩

theorem symm (h : s.Alike s') : s'.Alike s := ⟨fun a => (h.defined a).symm, h.escaped.symm⟩

theorem trans (h : s.Alike t) (h' : t.Alike s') : s.Alike s' :=
  ⟨fun a => (h.defined a).trans (h'.defined a), h.escaped.trans h'.escaped⟩

/-- States that say the same merge into such. -/
theorem merge (h : s.Alike s') (h' : t.Alike t') : (s.merge t).Alike (s'.merge t') where
  defined a := by
    simp only [State.merge, AttrSet.mem_inter]
    exact and_congr (h.defined a) (h'.defined a)
  escaped := by simp only [State.merge, h.escaped, h'.escaped]

theorem check (h : s.Alike s') (v : Verdict) : (s.check v).Alike (s'.check v) := by
  unfold State.check
  split
  · exact h
  · exact ⟨h.defined, rfl⟩

/-- An assignment does the same to both. -/
theorem define (h : s.Alike s') (attr : Name) : (s.define attr).Alike (s'.define attr) := by
  unfold State.define
  rw [h.escaped]
  split
  · exact h
  · refine ⟨fun a => ?_, rfl⟩
    simp only [AttrSet.mem_insert]
    exact or_congr (h.defined a) Iff.rfl

theorem defineAll (h : s.Alike s') (attrs : List Name) :
    (s.defineAll attrs).Alike (s'.defineAll attrs) := by
  induction attrs generalizing s s' with
  | nil => exact h
  | cons attr attrs ih => exact ih (h.define attr)

theorem undefine (h : s.Alike s') (attr : Name) : (s.undefine attr).Alike (s'.undefine attr) where
  defined a := by
    simp only [State.undefine, AttrSet.mem_erase]
    exact and_congr (h.defined a) Iff.rfl
  escaped := h.escaped

/-- Whether a head has settled is asked of sets. -/
theorem same_eq (h : s.Alike s') (h' : t.Alike t') : s.same t = s'.same t' := by
  rw [Bool.eq_iff_iff, same_iff_alike, same_iff_alike]
  exact ⟨fun hst => h.symm.trans (hst.trans h'), fun hst => h.trans (hst.trans h'.symm)⟩

/-- The order in which attributes are assigned makes no difference to what is assigned. -/
theorem define_comm (h : s.Alike s') (a b : Name) :
    ((s.define a).define b).Alike ((s'.define b).define a) := by
  refine ((h.define a).define b).trans ?_
  unfold State.define
  split
  · exact refl s'
  · refine ⟨fun c => ?_, rfl⟩
    simp only [AttrSet.mem_insert]
    exact or_right_comm

end Alike

end State

/-- Paths that say the same meet in such. -/
theorem PathAlike.mergePaths (h : PathAlike p p') (h' : PathAlike q q') :
    PathAlike (mergePaths p q) (mergePaths p' q') := by
  cases h with
  | none => exact h'
  | some hs =>
    cases h' with
    | none => exact .some hs
    | some ht => exact .some (hs.merge ht)

/-- So they do if there is only one of them. -/
theorem State.Alike.mergePath (h : s.Alike s') (h' : PathAlike q q') :
    (s.mergePath q).Alike (s'.mergePath q') := by
  cases h' with
  | none => exact h
  | some ht => exact h.merge ht

/-! ## Traces and outcomes -/

/-- All paths that jump say the same. -/
structure Jumps.Alike (j j' : Jumps) : Prop where
  broken : PathAlike j.broken j'.broken
  continued : PathAlike j.continued j'.continued

/-- The initializer completes at the same place, in states that say the same. -/
structure Exit.Alike (e e' : Exit) : Prop where
  state : e.state.Alike e'.state
  kind : e.kind = e'.kind
  span : e.span = e'.span

/-- The receiver escapes at the same place, with the same attributes assigned. -/
structure Escape.Alike (e e' : Escape) : Prop where
  defined : ∀ a, a ∈ e.defined ↔ a ∈ e'.defined
  site : e.site = e'.site

/-- The same happens on the way, in states that say the same. -/
structure Trace.Alike (x x' : Trace) : Prop where
  exits : List.Forall₂ Exit.Alike x.exits x'.exits
  leading : x.leading.Alike x'.leading
  trailing : x.trailing.Alike x'.trailing
  escapes : List.Forall₂ Escape.Alike x.escapes x'.escapes
  deletions : x.deletions = x'.deletions

/-- Two walks come to the same. -/
structure Outcome.Alike (o o' : Outcome) : Prop where
  next : PathAlike o.next o'.next
  trace : o.trace.Alike o'.trace

/-- From states that say the same the walks come to the same. -/
def WalksAlike (w w' : State → Outcome) : Prop := ∀ ⦃s s'⦄, s.Alike s' → (w s).Alike (w' s')

theorem Jumps.Alike.none : Jumps.none.Alike .none := ⟨.none, .none⟩

/-- Jumps that say the same merge into such. -/
theorem Jumps.Alike.merge {j j' k k' : Jumps} (h : j.Alike j') (h' : k.Alike k') :
    (j.merge k).Alike (j'.merge k') :=
  ⟨h.broken.mergePaths h'.broken, h.continued.mergePaths h'.continued⟩

namespace Trace.Alike

variable {x x' y y' : Trace}

theorem empty : (∅ : Trace).Alike ∅ := ⟨.nil, .none, .none, .nil, rfl⟩

theorem ofExit {e e' : Exit} (h : e.Alike e') : (Trace.ofExit e).Alike (.ofExit e') :=
  { empty with exits := .cons h .nil }

theorem ofJumps {j j' : Jumps} (h : j.Alike j') : (Trace.ofJumps j).Alike (.ofJumps j') :=
  { empty with trailing := h }

theorem ofDeletion (attr : Name) : (Trace.ofDeletion attr).Alike (.ofDeletion attr) :=
  { empty with deletions := rfl }

/-- A verdict is noted alike in states that say the same. -/
theorem ofVerdict (h : s.Alike s') (v : Verdict) :
    (Trace.ofVerdict v s).Alike (.ofVerdict v s') := by
  unfold Trace.ofVerdict
  rw [h.escaped]
  split
  · split
    · exact empty
    · exact { empty with escapes := .cons ⟨h.defined, rfl⟩ .nil }
  · exact empty

/-- Traces that say the same do so one after the other. -/
theorem append (h : x.Alike x') (h' : y.Alike y') : (x ++ y).Alike (x' ++ y') where
  exits := List.rel_append h.exits h'.exits
  leading := h'.leading.merge h.leading
  trailing := h.trailing.merge h'.trailing
  escapes := List.rel_append h.escapes h'.escapes
  deletions := congrArg₂ (· ++ ·) h.deletions h'.deletions

theorem jumps (h : x.Alike x') : x.jumps.Alike x'.jumps := h.leading.merge h.trailing

theorem withoutJumps (h : x.Alike x') : x.withoutJumps.Alike x'.withoutJumps :=
  { h with leading := .none, trailing := .none }

theorem withoutExits (h : x.Alike x') : x.withoutExits.Alike x'.withoutExits :=
  { h with exits := .nil }

end Trace.Alike

/-- An exception finds states that say the same. -/
theorem State.Alike.interrupted (h : s.Alike s') {x x' : Trace} (hx : x.Alike x') :
    (s.interrupted x).Alike (s'.interrupted x') where
  defined a := by
    simp only [State.interrupted, AttrSet.mem_eraseAll, hx.deletions]
    exact and_congr (h.defined a) Iff.rfl
  escaped := by
    have hempty : x.escapes.isEmpty = x'.escapes.isEmpty := by
      rw [Bool.eq_iff_iff, List.isEmpty_iff_length_eq_zero, List.isEmpty_iff_length_eq_zero,
        hx.escapes.length_eq]
    simp only [State.interrupted, h.escaped, hempty]

namespace Outcome.Alike

variable {o o' q q' : Outcome} {w w' : State → Outcome}

theorem goOn (h : s.Alike s') : (Outcome.goOn s).Alike (.goOn s') := ⟨.some h, .empty⟩

theorem stop {x x' : Trace} (h : x.Alike x') : (Outcome.stop x).Alike (.stop x') := ⟨.none, h⟩

theorem check (h : s.Alike s') (v : Verdict) : (Outcome.check v s).Alike (.check v s') :=
  ⟨.some (h.check v), .ofVerdict h v⟩

/-- What follows is walked alike. -/
theorem andThen (h : o.Alike o') (hw : WalksAlike w w') : (o.andThen w).Alike (o'.andThen w') := by
  obtain ⟨next, trace⟩ := o
  obtain ⟨next', trace'⟩ := o'
  obtain ⟨hnext, htrace⟩ := h
  cases hnext with
  | none => exact ⟨.none, htrace⟩
  | some hs => exact ⟨(hw hs).next, htrace.append (hw hs).trace⟩

/-- Branches are walked alike. -/
theorem either (h : o.Alike o') (h' : q.Alike q') : (o.either q).Alike (o'.either q') :=
  ⟨h.next.mergePaths h'.next, h.trace.append h'.trace⟩

/-- A path goes alike through a `finally` block. -/
theorem onPath (h : PathAlike p p') (hw : WalksAlike w w') :
    (onPath w p).Alike (onPath w' p') := by
  cases h with
  | none => exact .stop .empty
  | some hs => exact hw hs

theorem exitThrough {e e' : Exit} (h : e.Alike e') (hw : WalksAlike w w') :
    (exitThrough w e).Alike (exitThrough w' e') := by
  obtain ⟨hnext, htrace⟩ := hw h.state
  simp only [Outcome.exitThrough]
  generalize (w e.state).next = next, (w' e'.state).next = next' at hnext ⊢
  cases hnext with
  | none => exact htrace
  | some hs => exact htrace.append (.ofExit ⟨hs, h.kind, h.span⟩)

/-- Exits go alike through a `finally` block. -/
theorem exitsThrough {exits exits' : List Exit} (h : List.Forall₂ Exit.Alike exits exits')
    (hw : WalksAlike w w') : (exitsThrough w exits).Alike (exitsThrough w' exits') :=
  List.rel_foldl (fun _ _ hx _ _ he => hx.append (exitThrough he hw)) .empty h

/-- So do jumps. -/
theorem jumpsThrough {j j' : Jumps} (h : j.Alike j') (hw : WalksAlike w w') :
    (jumpsThrough w j).Alike (jumpsThrough w' j') := by
  have hbroken := onPath h.broken hw
  have hcontinued := onPath h.continued hw
  have hboth := hbroken.trace.append hcontinued.trace
  exact { hboth with leading := hboth.jumps, trailing := ⟨hbroken.next, hcontinued.next⟩ }

/-- A region and its `finally` block. -/
theorem closeWith (h : o.Alike o') (hw : WalksAlike w w') :
    (o.closeWith w).Alike (o'.closeWith w') := by
  have hexits := exitsThrough h.trace.exits hw
  have hjumps := jumpsThrough (h.trace.append hexits).jumps hw
  have hthrough := onPath h.next hw
  refine ⟨hthrough.next, ?_⟩
  exact ((h.trace.withoutExits.withoutJumps.append hexits.withoutJumps).append hjumps).append
    hthrough.trace

/-- A body that is walked to its end completes at the same places. -/
theorem exits (h : o.Alike o') : List.Forall₂ Exit.Alike o.exits o'.exits := by
  refine List.rel_append h.trace.exits ?_
  obtain ⟨hnext, -⟩ := h
  generalize o.next = next, o'.next = next' at hnext ⊢
  cases hnext with
  | none => exact .nil
  | some hs => exact .cons ⟨hs, rfl, rfl⟩ .nil

end Outcome.Alike

/-! ## Loops -/

namespace Loop

variable {l l' : Loop} (htest : ∀ {s s'}, s.Alike s' → l.test s = l'.test s')
  (hbody : WalksAlike l.body l'.body)

include htest hbody

/-- A round from heads that say the same leaves such heads and traces. -/
theorem alike_round {head head' : State} (h : head.Alike head') :
    (l.round head).tested.Alike (l'.round head').tested ∧
    (l.round head).next.Alike (l'.round head').next ∧
    PathAlike (l.round head).body.trace.jumps.broken (l'.round head').body.trace.jumps.broken ∧
    (l.round head).trace.Alike (l'.round head').trace := by
  have htested : (l.round head).tested.Alike (l'.round head').tested := by
    simp only [round, htest h]
    exact h.check _
  have hround : (l.round head).body.Alike (l'.round head').body := hbody htested
  have hjumps := hround.trace.jumps
  refine ⟨htested, htested.mergePath (hround.next.mergePaths hjumps.continued), hjumps.broken, ?_⟩
  have htesting : (l.round head).testing.Alike (l'.round head').testing := by
    simp only [round, htest h]
    exact .ofVerdict h _
  exact htesting.append hround.trace.withoutJumps

/-- The two loops take the same number of rounds. -/
theorem alike_settle {head head' : State} (h : head.Alike head') :
    (l.settle head).tested.Alike (l'.settle head').tested ∧
    PathAlike (l.settle head).broken (l'.settle head').broken ∧
    (l.settle head).trace.Alike (l'.settle head').trace := by
  induction head using l.settle_induction generalizing head' with
  | done head hsame =>
    obtain ⟨htested, hnext, hbroken, htrace⟩ := alike_round htest hbody h
    have hsame' : (l'.round head').next.same head' = true := hnext.same_eq h ▸ hsame
    rw [settle_of_same l hsame, settle_of_same l' hsame']
    exact ⟨htested, hbroken, htrace⟩
  | again head hsame ih =>
    obtain ⟨-, hnext, -, htrace⟩ := alike_round htest hbody h
    have hsame' : ¬(l'.round head').next.same head' = true := hnext.same_eq h ▸ hsame
    rw [settle_of_not_same l hsame, settle_of_not_same l' hsame']
    obtain ⟨htested, hbroken, hlater⟩ := ih hnext
    exact ⟨htested, hbroken, htrace.withoutExits.append hlater⟩

/-- A loop is walked alike, since its rounds come to rest together. -/
theorem alike_walk {orelse orelse' : State → Outcome} (horelse : WalksAlike orelse orelse')
    (endless : Bool) : WalksAlike (l.walk endless orelse) (l'.walk endless orelse') := by
  intro s s' h
  obtain ⟨htested, hbroken, htrace⟩ := alike_settle htest hbody h
  have hcompleted : (if endless then .stop ∅ else orelse (l.settle s).tested : Outcome).Alike
      (if endless then .stop ∅ else orelse' (l'.settle s').tested) := by
    split
    · exact .stop .empty
    · exact horelse htested
  exact ⟨hcompleted.next.mergePaths hbroken, htrace.append hcompleted.trace⟩

end Loop

/-! ## Verdicts -/

namespace Judge

variable {j : Judge} {d d' : AttrSet}

mutual

/-- Of what is assigned, a verdict asks only whether an attribute is. -/
theorem expr_congr (h : ∀ a, a ∈ d ↔ a ∈ d') : ∀ e : Expr, j.expr d e = j.expr d' e
  | .constant _ _ | .self _ | .unsupported _ | .name _ _ _ | .lambda _ _ => by rw [expr, expr]
  | .attribute value attr _ _ => by
    rw [expr, expr, expr_congr h value]
    simp only [selfRead, h attr]
  | .subscript left right _ | .binary left _ right _ => by
    rw [expr, expr, expr_congr h left, expr_congr h right]
  | .unary _ value _ | .cast value _ | .starred value _ | .bind _ value _ => by
    rw [expr, expr, expr_congr h value]
  | .logic _ values _ | .collection _ values _ => by rw [expr, expr, exprs_congr h values]
  | .compare left ops comparators _ => by
    rw [expr, expr, expr_congr h left, operands_congr h ops comparators]
  | .conditional test body orelse _ => by
    rw [expr, expr, expr_congr h test, expr_congr h body, expr_congr h orelse]
  | .dict es _ => by rw [expr, expr, entries_congr h es]
  | .comprehension _ element value gens _ => by
    rw [expr, expr, generators_congr h gens, expr_congr h element, expr?_congr h value]
  | .call callee args kws _ => by
    rw [expr, expr, expr_congr h callee, exprs_congr h args, keywords_congr h kws]
  | .isInstance value cs _ => by rw [expr, expr, expr_congr h value, classes_congr h cs]

/-- What a judge says depends on which attributes are assigned and not on their order, also for the
parts of an expression. -/
theorem exprs_congr (h : ∀ a, a ∈ d ↔ a ∈ d') : ∀ es : List Expr, j.exprs d es = j.exprs d' es
  | [] => by rw [exprs, exprs]
  | e :: es => by rw [exprs, exprs, expr_congr h e, exprs_congr h es]

theorem expr?_congr (h : ∀ a, a ∈ d ↔ a ∈ d') : ∀ e : Option Expr, j.expr? d e = j.expr? d' e
  | none => by rw [expr?, expr?]
  | some e => by rw [expr?, expr?, expr_congr h e]

theorem operands_congr (h : ∀ a, a ∈ d ↔ a ∈ d') : ∀ (ops : List CompareOp) (es : List Expr),
    j.operands d ops es = j.operands d' ops es
  | _, [] => by rw [operands, operands]
  | ops, e :: es => by rw [operands, operands, expr_congr h e, operands_congr h ops.tail es]

theorem entries_congr (h : ∀ a, a ∈ d ↔ a ∈ d') : ∀ es : List DictEntry,
    j.entries d es = j.entries d' es
  | [] => by rw [entries, entries]
  | ⟨key, value⟩ :: rest => by
    rw [entries, entries, expr?_congr h key, expr_congr h value, entries_congr h rest]

theorem generators_congr (h : ∀ a, a ∈ d ↔ a ∈ d') : ∀ gs : List Generator,
    j.generators d gs = j.generators d' gs
  | [] => by rw [generators, generators]
  | ⟨_, source, filters⟩ :: rest => by
    rw [generators, generators, expr_congr h source, exprs_congr h filters, generators_congr h rest]

theorem keywords_congr (h : ∀ a, a ∈ d ↔ a ∈ d') : ∀ ks : List Keyword,
    j.keywords d ks = j.keywords d' ks
  | [] => by rw [keywords, keywords]
  | ⟨_, value⟩ :: rest => by rw [keywords, keywords, expr_congr h value, keywords_congr h rest]

theorem classes_congr (h : ∀ a, a ∈ d ↔ a ∈ d') : ∀ es : List Expr, j.classes d es = j.classes d' es
  | [] => by rw [classes, classes]
  | e :: es => by rw [classes, classes, expr_congr h e, classes_congr h es]

end

end Judge

/-! ## Bodies -/

/-- A call gives the same to states that say the same. -/
theorem State.Alike.fold (h : s.Alike s') (call : BaseCall) (contributes : Bool) :
    (call.fold contributes s).Alike (call.fold contributes s') := by
  cases call with
  | analyzed _ facts =>
    cases contributes with
    | true => exact h.defineAll _
    | false => exact h
  | inert | missing _ | notABase _ => exact h

namespace Scope

theorem alike_define (h : s.Alike s') (m : Mode) (attrs : List Name) :
    (define m attrs s).Alike (define m attrs s') := by
  unfold define
  split
  · exact h
  · exact h.defineAll attrs

/-- Arguments and call are walked alike. -/
theorem alike_judged (call : BaseCall) {v v' : AttrSet → Verdict} (m : Mode) (span : Span)
    (hv : v s.defined = v' s'.defined) (h : s.Alike s') :
    (call.judged v m span s).Alike (call.judged v' m span s') := by
  unfold BaseCall.judged
  rw [hv]
  refine (Outcome.Alike.check h _).andThen fun t t' ht => ?_
  dsimp only
  split
  · exact .goOn (ht.fold call _)
  · exact .check (ht.fold call _) _

/-- From states that say the same a body is walked alike. -/
theorem comparison_alike (sc : Scope) : Comparison sc sc (fun _ => True) (fun _ => True)
    (fun v v' => ∀ {d d' : AttrSet}, (∀ a, a ∈ d ↔ a ∈ d') → v d = v' d') WalksAlike where
  properties := rfl
  expr e _ _ hd := Judge.expr_congr hd e
  fixed _ _ _ _ _ := rfl
  inTurn hu hv _ _ hd := congrArg₂ Verdict.andThen (hu hd) (hv hd)
  goOn _ _ h := .goOn h
  raise _ _ _ := .stop .empty
  exit _ _ _ h := .stop (.ofExit ⟨h, rfl, rfl⟩)
  broken _ _ h := .stop (.ofJumps ⟨.some h, .none⟩)
  continued _ _ h := .stop (.ofJumps ⟨.none, .some h⟩)
  remove attr _ _ h := ⟨.some (h.undefine attr), .ofDeletion attr⟩
  check hv _ _ h := by
    simp only [hv h.defined]
    exact .check h _
  assign m attrs hv _ _ _ _ h := by
    simp only [hv h.defined, assign]
    split
    · exact .goOn (alike_define h m attrs)
    · exact .check h _
  call m span target hv _ _ _ h := alike_judged (sc.baseCall target) m span (hv h.defined) h
  andThen hw hx _ _ h := (hw h).andThen hx
  either hw hx _ _ h := (hw h).either (hx h)
  loop infinite hv hw hx := Loop.alike_walk (fun h => hv h.defined) hw hx infinite
  region hw hx hy _ _ h := ((hw h).andThen hx).either (hy (h.interrupted (hw h).trace))
  closeWith hw hx _ _ h := (hw h).closeWith hx

variable {sc : Scope} {a b : Name} {e f : Expr}

/-- An assignment that is sure to be safe. -/
theorem stmt_setAttr (m : Mode) (ha : a ∉ sc.judge.properties)
    (he : ∀ d, (sc.judge.expr d e).isSafe = true) (sa se : Span) (s : State) :
    sc.stmt m (.assign [.selfAttr a sa] e se) s = .goOn (define m [a] s) := by
  have hvalue : (sc.judge.value s.defined e).isSafe = true := by
    rw [Judge.isSafe_value]
    exact he s.defined
  rw [stmt, Verdict.isSafe_iff.1 hvalue]
  simp [Judge.targets, Judge.target, ha, assign, Verdict.isSafe, Target.assignedAll,
    Target.assigned]

/-- Two such assignments come to the same in either order. -/
theorem walksAlike_swap (sc : Scope) (m : Mode) (ha : a ∉ sc.judge.properties)
    (hb : b ∉ sc.judge.properties) (he : ∀ d, (sc.judge.expr d e).isSafe = true)
    (hf : ∀ d, (sc.judge.expr d f).isSafe = true) (sa sb se sf : Span) :
    WalksAlike (sc.block m [.assign [.selfAttr a sa] e se, .assign [.selfAttr b sb] f sf])
      (sc.block m [.assign [.selfAttr b sb] f sf, .assign [.selfAttr a sa] e se]) := by
  intro s s' h
  have hcommute : (define m [b] (define m [a] s)).Alike (define m [a] (define m [b] s')) := by
    unfold define
    split
    · exact h
    · exact h.define_comm a b
  simp only [block, stmt_setAttr m ha he, stmt_setAttr m hb hf]
  exact .goOn hcommute

end Scope

/-! ## Summaries -/

/-- The summaries say the same, in whatever order they list attributes. -/
structure Summary.Alike (x x' : Summary) : Prop where
  defined : ∀ a, a ∈ x.defined ↔ a ∈ x'.defined
  escaped : x.escaped = x'.escaped
  exits : x.exits = x'.exits
  firstEscape : x.firstEscape = x'.firstEscape

/-- Summaries of states that say the same say the same. -/
theorem Summary.alike_ofStates {exits exits' escapes escapes' : List State}
    (hexits : List.Forall₂ State.Alike exits exits')
    (hescapes : List.Forall₂ State.Alike escapes escapes') (site : Option EscapeSite) :
    (ofStates exits escapes site).Alike (ofStates exits' escapes' site) where
  defined a := by
    cases hexits with
    | nil => exact Iff.rfl
    | cons hfirst hrest =>
      have hmeet : Relator.LiftFun State.Alike (Relator.LiftFun State.Alike State.Alike)
          State.merge State.merge := fun _ _ hs _ _ ht => hs.merge ht
      exact (List.rel_foldl hmeet hfirst (List.rel_append hrest hescapes)).defined a
  escaped := by
    have hany : exits.any (·.escaped) = exits'.any (·.escaped) := by
      induction hexits with
      | nil => rfl
      | cons h _ ih => rw [List.any_cons, List.any_cons, h.escaped, ih]
    have hempty : escapes.isEmpty = escapes'.isEmpty := by cases hescapes <;> rfl
    simp only [ofStates, hany, hempty]
  exits := hexits.length_eq
  firstEscape := rfl

/-- The first escape is at the same place. -/
theorem Trace.Alike.head?_escapes {x x' : Trace} (h : x.Alike x') :
    x.escapes.head?.map (·.site) = x'.escapes.head?.map (·.site) := by
  obtain ⟨-, -, -, hescapes, -⟩ := h
  generalize x.escapes = escapes, x'.escapes = escapes' at hescapes ⊢
  cases hescapes with
  | nil => rfl
  | cons he _ => exact congrArg some he.site

/-- Outcomes that say the same are summed up alike. -/
theorem Outcome.Alike.summary {o o' : Outcome} (h : o.Alike o') (recordSites : Bool) :
    (Summary.ofOutcome o recordSites).Alike (.ofOutcome o' recordSites) := by
  rw [Summary.ofOutcome, Summary.ofOutcome, h.trace.head?_escapes]
  exact Summary.alike_ofStates (List.rel_map (fun _ _ he => he.state) h.exits)
    (List.rel_map (fun _ _ he => ⟨he.defined, rfl⟩) h.trace.escapes) _

/-- Neither the receiver nor a form that is not known occurs in the expression, nor, if reading one
counts, a module-level variable. -/
def Expr.Indifferent (strict : Bool) (e : Expr) : Prop :=
  ∀ late place c, e.Occurs late place c →
    (∀ span, c ≠ .self span) ∧ (∀ span, c ≠ .unsupported span) ∧
    (strict = true → ∀ n span, c ≠ .name n .global span)

namespace Graph

variable {g : Graph} {known : ClassTable Facts} {o : Options} {id : ClassId}

/-- A value that has nothing to do with the receiver is safe. -/
theorem isSafe_of_indifferent {e : Expr} (h : e.Indifferent o.strictMutableGlobals) (d : AttrSet) :
    ((g.scope known o id).judge.expr d e).isSafe = true := by
  rw [isSafe_iff_occurs]
  intro late place c hc
  obtain ⟨hself, hunsupported, hglobal⟩ := h late place c hc
  exact ⟨fun span h => absurd h (hself span), fun span h => absurd h (hunsupported span),
    fun hstrict n span h => absurd h (hglobal hstrict n span)⟩

theorem not_mem_properties {a : Name} (h : ¬g.HasProperty id a) :
    a ∉ (g.scope known o id).judge.properties := fun ha => h (mem_lineageProperties.1 ha)

/-- Swapping two assignments to attributes that are no properties, at any depth of a body, does not
change what the body comes to if their values have nothing to do with the receiver. Nor does the
order in which the attributes are listed that are assigned at the start. -/
theorem independent_assignments_commute (g : Graph) (known : ClassTable Facts) (o : Options)
    (id : ClassId) (a b : Name) (ha : ¬g.HasProperty id a) (hb : ¬g.HasProperty id b)
    (e f : Expr) (he : e.Indifferent o.strictMutableGlobals)
    (hf : f.Indifferent o.strictMutableGlobals) (sa sb se sf : Span) (entry entry' : State)
    (hentry : entry.same entry' = true) :
    (∀ gap : BodyGap, (g.walkBody known o id
        (gap.fill [.assign [.selfAttr a sa] e se, .assign [.selfAttr b sb] f sf]) entry).Alike
      (g.walkBody known o id
        (gap.fill [.assign [.selfAttr b sb] f sf, .assign [.selfAttr a sa] e se]) entry')) ∧
    ∀ body, (g.walkBody known o id body entry).Alike (g.walkBody known o id body entry') := by
  have hstart := State.same_iff_alike.1 hentry
  have hcompare := (g.scope known o id).comparison_alike
  constructor
  · intro gap
    have hempty : [Stmt.assign [.selfAttr a sa] e se, .assign [.selfAttr b sb] f sf].isEmpty =
        [Stmt.assign [.selfAttr b sb] f sf, .assign [.selfAttr a sa] e se].isEmpty := rfl
    have hswap := (g.scope known o id).walksAlike_swap (gap.mode .top) (not_mem_properties ha)
      (not_mem_properties hb) (isSafe_of_indifferent he) (isSafe_of_indifferent hf) sa sb se sf
    exact (hcompare.block_fill hempty gap .top hswap hstart).summary _
  · intro body
    exact (hcompare.block_self .top body hstart).summary _

/-- A loop that is left in its first round, after two statements. -/
def leftAfter (first second : Stmt) : List Stmt :=
  [.loopWhile (.literal (.bool true)) [first, second, .breakLoop .empty] []]

/-- The attributes are listed in two orders at the start and in two at the end. -/
theorem independent_assignments_commute_leftAfter :
    ∃ (g : Graph) (entry entry' : State) (x y : Stmt), entry.same entry' = true ∧
      x = .setAttr ⟨30⟩ (.var .global ⟨9⟩) ∧ y = .setAttr ⟨31⟩ (.literal .none) ∧
      (g.walkBody ∅ .default ⟨0⟩ (leftAfter x y) entry).defined.toList =
        [⟨32⟩, ⟨33⟩, ⟨30⟩, ⟨31⟩] ∧
      (g.walkBody ∅ .default ⟨0⟩ (leftAfter y x) entry').defined.toList =
        [⟨33⟩, ⟨32⟩, ⟨31⟩, ⟨30⟩] ∧
      (g.walkBody ∅ .default ⟨0⟩ (leftAfter x y) entry).Alike
        (g.walkBody ∅ .default ⟨0⟩ (leftAfter y x) entry') := by
  have hnone : ∀ a, ¬(ofDeclarations [.named ⟨20⟩]).HasProperty ⟨0⟩ a := by
    intro a ha
    have hempty : (ofDeclarations [.named ⟨20⟩]).lineageProperties ⟨0⟩ = ∅ := by decide +kernel
    exact AttrSet.not_mem_empty a (hempty ▸ mem_lineageProperties.2 ha)
  have hvar : (Expr.var .global ⟨9⟩).Indifferent false := by
    refine Expr.forall_occursAt.2 ⟨⟨?_, ?_, ?_⟩, ?_⟩ <;> simp [Expr.var, Expr.parts]
  have hliteral : (Expr.literal .none).Indifferent false := by
    refine Expr.forall_occursAt.2 ⟨⟨?_, ?_, ?_⟩, ?_⟩ <;> simp [Expr.literal, Expr.parts]
  have hsame : State.same ⟨.ofList [⟨32⟩, ⟨33⟩], false⟩ ⟨.ofList [⟨33⟩, ⟨32⟩], false⟩ = true := by
    decide +kernel
  obtain ⟨hswap, -⟩ := independent_assignments_commute (ofDeclarations [.named ⟨20⟩]) ∅ .default
    ⟨0⟩ ⟨30⟩ ⟨31⟩ (hnone _) (hnone _) _ _ hvar hliteral .empty .empty .empty .empty _ _ hsame
  refine ⟨_, _, _, _, _, hsame, rfl, rfl, ?_, ?_, hswap (.inside []
    (.whileBody (.literal (.bool true)) [] .empty) (.between [] [.breakLoop .empty]) [])⟩
  · decide +kernel
  · decide +kernel

end Graph

end DefiniteInit
