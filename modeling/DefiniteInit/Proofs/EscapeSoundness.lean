import DefiniteInit.Proofs.EscapeAccounts
import DefiniteInit.Proofs.ExitSoundness

/-!
# Soundness at the moment of an escape

Whoever gets hold of the receiver during an initializer may look at it then. The summary of
a body counts the states at the escapes that the walk notes, but it notes none where its
state says already that the receiver has escaped, and a state says so as soon as one of the
branches merged in it does. So on another branch a hand-over can go unnoted.
`Scope.missedAll` gives the states in which that happens.

The walk of a body tracks every run of it (`Scope.tracks_block`). At each hand-over the
attributes of the summary are assigned if the run completes in the end; if it does not, those
are that no state of `Scope.missedAll` lacks that tells of the hand-over.
-/

set_option linter.unusedSectionVars false

namespace DefiniteInit

namespace Scope

/-! ## States in which verdicts are overlooked -/

mutual

/-- The states in which verdicts are overlooked as a target is deleted. -/
def missedTarget (sc : Scope) : Target → State → List State
  | .attribute value attr span, s =>
    overlooked (sc.judge.target s.defined (.attribute value attr span)) s
  | .subscript value index span, s =>
    overlooked (sc.judge.target s.defined (.subscript value index span)) s
  | .tuple elements _, s => sc.missedTargets elements s
  | .selfAttr _ _, _ | .self _, _ | .name _ _, _ => []

/-- The states in which verdicts are overlooked as targets are deleted. -/
def missedTargets (sc : Scope) : List Target → State → List State
  | [], _ => []
  | t :: ts, s => sc.missedTarget t s ++ (sc.deleteTarget t s).next.elim [] (sc.missedTargets ts)

end

mutual

/-- The states in which verdicts are overlooked in the walk of a statement. -/
def missed (sc : Scope) (m : Mode) : Stmt → State → List State
  | .assign targets value _, s =>
    overlooked ((sc.judge.value s.defined value).andThen (sc.judge.targets s.defined targets)) s
  | .eval value _, s => overlooked (sc.judge.expr s.defined value) s
  | .ifElse test body orelse _, s =>
    let v := sc.judge.expr s.defined test
    overlooked v s ++ (sc.missedAll m body (s.check v) ++ sc.missedAll m orelse (s.check v))
  | .whileLoop test body orelse _, s =>
    Loop.missed ⟨fun s => sc.judge.expr s.defined test, sc.block m.loop body⟩
      (sc.missedAll m.loop body) (sc.missedAll m orelse) s
  | .forLoop target source body orelse _, s =>
    let v := sc.judge.expr s.defined source
    let bound := fun s => assign m (sc.judge.target s.defined target) target.assigned s
    overlooked v s ++
      Loop.missed ⟨fun _ => .safe, fun s => (bound s).andThen (sc.block m.loop body)⟩
        (fun s => overlooked (sc.judge.target s.defined target) s ++
          (bound s).next.elim [] (sc.missedAll m.loop body))
        (sc.missedAll m orelse) (s.check v)
  | .tryBlock body handlers orelse _ _, s =>
    let attempt := sc.block m.shield body s
    sc.missedAll m.shield body s ++ attempt.next.elim [] (sc.missedAll m.shield orelse) ++
      sc.missedHandlers m.shield handlers (s.interrupted attempt.trace)
  | .withBlock items body _, s =>
    let v := enter sc.judge s.defined items
    overlooked v s ++ sc.missedAll m.shield body (s.check v)
  | .ret value _, s => overlooked (sc.judge.expr? s.defined value) s
  | .raise exception cause _, s =>
    overlooked ((sc.judge.expr? s.defined exception).andThen (sc.judge.expr? s.defined cause)) s
  | .assertion test message _, s =>
    overlooked ((sc.judge.expr s.defined test).andThen (sc.judge.expr? s.defined message)) s
  | .superInit _ args keywords _, s =>
    overlooked ((sc.judge.exprs s.defined args).andThen (sc.judge.keywords s.defined keywords)) s
  | .rebindSelf value span, s =>
    overlooked ((sc.judge.expr s.defined value).andThen (.aliasing .selfRebound span)) s
  | .delete targets _, s => sc.missedTargets targets s
  | .nestedDef _ capturesSelf span, s =>
    overlooked (if capturesSelf then .escape .capturedSelf span else .safe) s
  | .unsupported span, s => overlooked (.escape .unsupported span) s
  | .pass _, _ | .breakLoop _, _ | .continueLoop _, _ => []

/-- The states in which verdicts are overlooked in the walk of a block. -/
def missedAll (sc : Scope) (m : Mode) : List Stmt → State → List State
  | [], _ => []
  | st :: rest, s => sc.missed m st s ++ (sc.stmt m st s).next.elim [] (sc.missedAll m rest)

/-- The states in which verdicts are overlooked in the walk of handlers. -/
def missedHandlers (sc : Scope) (m : Mode) : List Handler → State → List State
  | [], _ => []
  | ⟨type, _, body, _⟩ :: rest, s =>
    let v := sc.judge.expr? s.defined type
    overlooked v s ++ sc.missedAll m body (s.check v) ++ sc.missedHandlers m rest s

end

/-! ## Statements -/

variable {sc : Scope} {m : Mode} {v : Verdict} {b : Behaviour} {s : State}

/-- An assignment tracks what its value and targets hand over. -/
theorem tracks_assign {attrs : List Name} (hb : b.Judged v)
    (hc : Covers Set.univ s (assign m v attrs s) b) :
    Tracks .safe s (assign m v attrs s) (overlooked v s) b := by
  by_cases hv : v.isSafe = true
  · refine .mono (.of_silent (hb.silent hv) hc ?_) (List.nil_subset _)
    rw [assign, if_pos hv]
    refine .goOn ?_
    unfold define
    split
    · exact .refl s _
    · exact .defineAll s attrs _
  · rw [assign, if_neg hv]
    exact .check hb

variable (sc) in
/-- A call known by facts alone hands nothing over that is seen. -/
theorem silent_frozenCalls (target : SuperTarget) : (sc.frozenCalls target).Silent :=
  fun σ r hr => Behaviour.silent_plain σ r hr.1

/-- The arguments of a call are tracked. -/
theorem tracks_superInit (target : SuperTarget) (args : List Expr) (keywords : List Keyword)
    (span : Span) (s : State) : Tracks .safe s (sc.superInit m target args keywords span s)
      (overlooked
        ((sc.judge.exprs s.defined args).andThen (sc.judge.keywords s.defined keywords)) s)
      ((Behaviour.evaluating (Expr.argsHandOver args keywords)).andThen
        (sc.frozenCalls target)) := by
  have hargs := sc.judge.judged_args s.defined args keywords
  unfold superInit
  rw [← List.append_nil (overlooked _ _)]
  refine .check_andThen (.judged_andThen_safe hargs (.of_silent (sc.silent_frozenCalls target)
    (covers_call sc.faithful_frozenCalls target _ span _) ?_))
  dsimp only
  split
  · exact .goOn (.fold _ _ _ _)
  · exact .trans (.fold _ _ _ _) (.check _ _)

variable (sc)

mutual

/-- Deletions are tracked, whatever the target. -/
theorem tracks_deleteTarget : ∀ (t : Target) (s : State),
    Tracks .safe s (sc.deleteTarget t s) (sc.missedTarget t s) t.delete
  | .selfAttr attr span, s => by
    have hcovers := sc.covers_deleteTarget (A := Set.univ) (.selfAttr attr span) s
    rw [deleteTarget, Target.delete] at hcovers ⊢
    rw [missedTarget]
    refine .of_silent (Behaviour.silent_plain.andThen (Behaviour.silent_removes attr)) hcovers ?_
    exact .check_andThen ⟨(State.LeadsTo.undefine _ attr _).leads, .ofDeletion attr⟩
  | .self _, s => by
    rw [deleteTarget, Target.delete, missedTarget]
    exact .of_silent (Behaviour.silent_plain.andThen Behaviour.silent_unbinds)
      (.check Behaviour.grows_unbinding _) (.check _ s)
  | .name _ _, s => by
    rw [deleteTarget, Target.delete, missedTarget]
    exact .goOn Behaviour.silent_plain Behaviour.grows_plain
  | .attribute value _ _, s => by
    rw [deleteTarget, Target.delete, missedTarget, Judge.target]
    exact .check (sc.judge.judged_expr s.defined value)
  | .subscript value index _, s => by
    rw [deleteTarget, Target.delete, missedTarget, Judge.target]
    exact .check
      ((sc.judge.judged_expr s.defined value).andThen (sc.judge.judged_expr s.defined index))
  | .tuple elements _, s => by
    rw [deleteTarget, Target.delete, missedTarget]
    exact tracks_deleteTargets elements s

theorem tracks_deleteTargets : ∀ (ts : List Target) (s : State),
    Tracks .safe s (sc.deleteTargets ts s) (sc.missedTargets ts s) (Target.deleteAll ts)
  | [], s => by
    rw [deleteTargets, Target.deleteAll, missedTargets]
    exact .goOn Behaviour.silent_plain Behaviour.grows_plain
  | t :: ts, s => by
    rw [deleteTargets, Target.deleteAll, missedTargets]
    exact .andThen (tracks_deleteTarget t s) (tracks_deleteTargets ts)

end

/-- A block keeps what is assigned before it. -/
theorem keeps_execAll (inLoop : Bool) (ss : List Stmt) :
    (Stmt.execAll sc.frozenCalls inLoop ss).Keeps :=
  Behaviour.keeps_law.execAll (sc.faithful_frozenCalls (A := Set.univ)).keeps inLoop ss fun _ =>
    Behaviour.keeps_raising

mutual

/-- The walk of a statement tracks all that it hands over, but for what it overlooks. -/
theorem tracks_stmt : ∀ st : Stmt, st.isFinallyFree = true → ∀ (m : Mode) (s : State),
    Tracks .safe s (sc.stmt m st s) (sc.missed m st s) (st.exec sc.frozenCalls m.inLoop)
  | .assign targets value _, _, m, s => by
    rw [stmt, Stmt.exec, missed]
    exact tracks_assign ((sc.judge.judged_value s.defined value).andThen
      (sc.judge.judged_targets s.defined targets)) (covers_assign m _ value targets s)
  | .eval value _, _, m, s => by
    rw [stmt, Stmt.exec, missed]
    exact .check (sc.judge.judged_expr s.defined value)
  | .ifElse test body orelse _, h, m, s => by
    rw [stmt, Stmt.exec, missed]
    rw [Stmt.isFinallyFree, Bool.and_eq_true] at h
    exact .check_andThen (.judged_andThen_safe (sc.judge.judged_expr s.defined test)
      (.either (tracks_block body h.1 m _) (tracks_block orelse h.2 m _)))
  | .whileLoop test body orelse _, h, m, s => by
    rw [stmt, Stmt.exec, missed]
    rw [Stmt.isFinallyFree, Bool.and_eq_true] at h
    exact .loop (fun t => sc.judge.judged_expr t.defined test) (tracks_block body h.1 m.loop)
      (tracks_block orelse h.2 m) s
  | .forLoop target source body orelse _, h, m, s => by
    rw [stmt, Stmt.exec, missed]
    rw [Stmt.isFinallyFree, Bool.and_eq_true] at h
    refine .check_andThen (.judged_andThen_safe (sc.judge.judged_expr s.defined source)
      (.loop (fun _ => .plain _) (fun t => ?_) (tracks_block orelse h.2 m) _))
    have htarget := sc.judge.judged_target t.defined target
    refine .andThen (tracks_assign htarget (.assign htarget.grows ?_ m _))
      (tracks_block body h.1 m.loop)
    exact fun σ r hr hf a ha => Target.mem_attrs_of_bind target hr hf ha
  | .tryBlock body handlers orelse final _, h, m, s => by
    rw [stmt, Stmt.exec, missed]
    simp only [Stmt.isFinallyFree, Bool.and_eq_true] at h
    obtain ⟨⟨⟨hbody, hhandlers⟩, horelse⟩, hfinal⟩ := h
    -- There is no `finally` block, so that the region is all there is.
    simp only [hfinal, if_true]
    exact .region (tracks_block body hbody m.shield s) (sc.keeps_execAll m.inLoop body)
      (tracks_block orelse horelse m.shield) (tracks_handlers handlers hhandlers m.shield _)
  | .withBlock items body _, h, m, s => by
    rw [stmt, Stmt.exec, missed]
    rw [Stmt.isFinallyFree] at h
    exact .check_andThen (.withItems (tracks_block body h m.shield _)
      (sc.keeps_execAll m.inLoop body) sc.judge s.defined items)
  | .ret value span, _, m, s => by
    rw [stmt, Stmt.exec, missed, ← List.append_nil (overlooked _ _)]
    exact .check_andThen (.judged_andThen_safe (sc.judge.judged_expr? s.defined value)
      (.of_silent (Behaviour.silent_jump _) (.exit span) (.stop (.ofExit (.refl _ _)))))
  | .raise exception cause _, _, m, s => by
    rw [stmt, Stmt.exec, missed, ← List.append_nil (overlooked _ _)]
    exact .check_andThen (.judged_andThen (sc.judge.judged_expr? s.defined exception)
      (.judged_andThen_safe (sc.judge.judged_expr? s.defined cause)
        (.of_silent (Behaviour.silent_jump _) .raise (.stop .empty))))
  | .assertion test message _, _, m, s => by
    rw [stmt, Stmt.exec, missed]
    have hmessage := (sc.judge.judged_expr? s.defined message).andThen (.raise .safe)
    rw [Verdict.andThen_safe] at hmessage
    exact .check ((sc.judge.judged_expr s.defined test).andThen (.either (.plain _) hmessage))
  | .superInit target args keywords span, _, m, s => by
    rw [stmt, Stmt.exec, missed]
    exact tracks_superInit target args keywords span s
  | .rebindSelf value _, _, m, s => by
    rw [stmt, Stmt.exec, missed]
    exact .check ((sc.judge.judged_expr s.defined value).andThen (.handing rfl))
  | .delete targets _, _, m, s => by
    rw [stmt, Stmt.exec, missed]
    exact sc.tracks_deleteTargets targets s
  | .nestedDef _ capturesSelf _, _, m, s => by
    rw [stmt, Stmt.exec, missed]
    refine .check ?_
    cases capturesSelf with
    | true => exact .handing rfl
    | false => exact .plain _
  | .pass _, _, m, s => by
    rw [stmt, Stmt.exec, missed]
    exact .goOn Behaviour.silent_plain Behaviour.grows_plain
  | .breakLoop _, _, m, s => by
    rw [stmt, Stmt.exec, missed]
    split
    · exact .of_silent (Behaviour.silent_plain.andThen (Behaviour.silent_jump _))
        (.grows_andThen Behaviour.grows_plain .break_)
        (.stop (.ofJumps ⟨.leads (.refl s _), .none⟩))
    · exact .of_silent Behaviour.silent_plain (.check Behaviour.grows_plain _) (.check _ s)
  | .continueLoop _, _, m, s => by
    rw [stmt, Stmt.exec, missed]
    split
    · exact .of_silent (Behaviour.silent_plain.andThen (Behaviour.silent_jump _))
        (.grows_andThen Behaviour.grows_plain .continue_)
        (.stop (.ofJumps ⟨.none, .leads (.refl s _)⟩))
    · exact .of_silent Behaviour.silent_plain (.check Behaviour.grows_plain _) (.check _ s)
  | .unsupported _, _, m, s => by
    rw [stmt, Stmt.exec, missed]
    exact .check (.handing rfl)

/-- The walk of a block without `finally` blocks shows every hand-over of every run. -/
theorem tracks_block : ∀ ss : List Stmt, Stmt.allFinallyFree ss = true → ∀ (m : Mode) (s : State),
    Tracks .safe s (sc.block m ss s) (sc.missedAll m ss s) (Stmt.execAll sc.frozenCalls m.inLoop ss)
  | [], _, m, s => by
    rw [block, Stmt.execAll, missedAll]
    exact .goOn (Behaviour.silent_jump _) (Behaviour.grows_jump rfl)
  | st :: ss, h, m, s => by
    rw [block, Stmt.execAll, missedAll]
    rw [Stmt.allFinallyFree, Bool.and_eq_true] at h
    exact .andThen (tracks_stmt st h.1 m s) (tracks_block ss h.2 m)

/-- The walk of handlers tracks all that they hand over. -/
theorem tracks_handlers : ∀ hs : List Handler, Stmt.handlersFinallyFree hs = true →
    ∀ (m : Mode) (s : State), Tracks .safe s (sc.handlers m hs s) (sc.missedHandlers m hs s)
      (Stmt.execHandlers sc.frozenCalls m.inLoop hs)
  | [], _, m, s => by
    rw [handlers, Stmt.execHandlers, missedHandlers]
    exact .of_silent (Behaviour.silent_jump _) .raise (.stop .empty)
  | ⟨type, _, body, _⟩ :: rest, h, m, s => by
    rw [handlers, Stmt.execHandlers, missedHandlers]
    rw [Stmt.handlersFinallyFree, Bool.and_eq_true] at h
    exact .handler (sc.judge.judged_expr? s.defined type) (tracks_block body h.1 m _)
      (tracks_handlers rest h.2 m s)

end

end Scope

/-! ## Initializers -/

/-- What is in the summary is known at every escape. -/
theorem Outcome.mem_defined_of_mem_escapes {o : Outcome} {recordSites : Bool} {a : Name}
    {e : Escape}
    (ha : a ∈ (Summary.ofOutcome o recordSites).defined) (he : e ∈ o.trace.escapes) :
    a ∈ e.state.defined :=
  (Summary.mem_defined_ofStates.1 ha).2 e.state (List.mem_append_right _ (List.mem_map_of_mem he))

/-- What the summary says is assigned is assigned at a hand-over that is shown, if the run
completes or no state lacks it in which a verdict is overlooked and that tells of the hand-over. -/
theorem Shown.assigned {s : State} {o : Outcome} {missed : List State} {τ : Set Name} {f : Flow}
    (h : Shown s o missed τ f) {recordSites : Bool} {a : Name}
    (ha : a ∈ (Summary.ofOutcome o recordSites).defined)
    (hcase : f.completes = true ∨ ∀ t ∈ missed, (∀ b ∈ t.defined, b ∈ τ) → a ∈ t.defined) :
    a ∈ τ := by
  rcases h with ⟨e, he, htell⟩ | h
  · exact htell a trivial (Outcome.mem_defined_of_mem_escapes ha he)
  · rcases hcase with hdone | hall
    · obtain ⟨e, he, hmarked⟩ := h.marked.exists_exit hdone
      exact hmarked.tells a trivial (Outcome.mem_defined_of_mem_exits ha he)
    · obtain ⟨t, ht, htell⟩ := h.met
      exact htell a trivial (hall t ht fun b => htell b trivial)

namespace Graph

/-- When the receiver is handed over, for the first time or later, all that the summary of the body
says is assigned is assigned exactly if this holds, in case the run does not complete, of what is
lacking in a state that tells of this hand-over and in which the walk overlooks one. -/
theorem assigned_at_handOver_iff (g : Graph) (known : ClassTable Facts) (o : Options) (id : ClassId)
    (body : List Stmt) (entry : State) (hfree : Stmt.allFinallyFree body = true) (σ : Set Name)
    (r : Ending) (hentry : ∀ a ∈ entry.defined, a ∈ σ) (hrun : (g.scope known o id).run body σ r)
    (τ : Set Name) (hτ : Event.handsOver τ ∈ r.log) :
    (∀ a ∈ (g.walkBody known o id body entry).defined, a ∈ τ) ↔
      (r.flow.completes = false → ∀ a ∈ (g.walkBody known o id body entry).defined,
        (∃ t ∈ (g.scope known o id).missedAll .top body entry,
          (∀ b ∈ t.defined, b ∈ τ) ∧ a ∉ t.defined) → a ∈ τ) := by
  have hshown := ((g.scope known o id).tracks_block body hfree .top entry).shown
    (fun a _ => hentry a) hrun (Scope.unspoiled_run hfree hrun) hτ
  constructor
  · exact fun hsound _ a ha _ => hsound a ha
  · intro hmissed a ha
    by_cases hdone : r.flow.completes = true
    · exact hshown.assigned ha (Or.inl hdone)
    by_cases hall : ∀ t ∈ (g.scope known o id).missedAll .top body entry,
        (∀ b ∈ t.defined, b ∈ τ) → a ∈ t.defined
    · exact hshown.assigned ha (Or.inr hall)
    · push Not at hall
      exact hmissed (by simpa using hdone) a ha hall

/-- One branch assigns an attribute and hands the receiver over, and may return. After both,
the receiver is handed over and an exception raised. -/
def hiddenEscape : List Stmt :=
  [.branch (.var .param ⟨9⟩)
      [.setAttr ⟨1⟩ (.literal .none), .run (.callNamed ⟨10⟩ [.receiver]),
        .branch (.var .param ⟨8⟩) [.leave none] []] [],
    .run (.callNamed ⟨11⟩ [.receiver]), .throwing (.callNamed ⟨12⟩ [])]

theorem defined_hiddenEscape :
    (walkBody .single ∅ .default ⟨0⟩ hiddenEscape .start).defined = .ofList [⟨1⟩] := by
  decide +kernel

theorem missedAll_hiddenEscape :
    (scope .single ∅ .default ⟨0⟩).missedAll .top hiddenEscape .start = [⟨∅, true⟩] := by
  decide +kernel

open Behaviour in
/-- A call gets the receiver. -/
theorem exec_callNamed_receiver (calls : SuperTarget → Behaviour) (f : Name) (σ : Set Name) :
    (Stmt.run (.callNamed f [.receiver])).exec calls false σ ⟨.next, [.handsOver σ], σ⟩ := by
  rw [Stmt.run, Stmt.exec, Expr.exec]
  refine ⟨subset_rfl, rfl, fun e he => ⟨rfl, σ, List.mem_singleton.1 he, subset_rfl, subset_rfl⟩⟩

open Behaviour in
/-- The receiver is handed over after the branches, and the exception raised. -/
theorem raises_hiddenEscape (calls : SuperTarget → Behaviour) (σ : Set Name) :
    Stmt.execAll calls false [.run (.callNamed ⟨11⟩ [.receiver]), .throwing (.callNamed ⟨12⟩ [])] σ
      ⟨.raised, [.handsOver σ] ++ [], σ⟩ := by
  rw [Stmt.execAll, Stmt.execAll]
  refine andThen_append (exec_callNamed_receiver calls ⟨11⟩ σ) (andThen_of_left ?_ (by simp) _)
  rw [Stmt.throwing, Stmt.exec]
  exact andThen_quiet (evaluating_quiet _ rfl _) (andThen_quiet (evaluating_quiet _ rfl _) rfl)

open Behaviour in
/-- The run that passes the branch by. -/
theorem run_hiddenEscape (sc : Scope) : sc.run hiddenEscape ∅ ⟨.raised, [.handsOver ∅], ∅⟩ := by
  rw [Scope.run, hiddenEscape, Stmt.execAll, Stmt.branch, Stmt.exec]
  refine andThen_quiet (andThen_quiet (evaluating_quiet _ rfl _) (Or.inr ?_))
    (raises_hiddenEscape _ ∅)
  rw [Stmt.execAll]
  exact rfl

open Behaviour in
/-- The run that takes the branch and does not return there. -/
theorem run_hiddenEscape_through (sc : Scope) : sc.run hiddenEscape ∅
    ⟨.raised, [.handsOver {⟨1⟩}] ++ ([.handsOver {⟨1⟩}] ++ []), {⟨1⟩}⟩ := by
  have hset := exec_setAttr sc.frozenCalls false ⟨1⟩ (.literal .none) ∅
  rw [insert_empty_eq] at hset
  have hstay : Stmt.execAll sc.frozenCalls false [.branch (.var .param ⟨8⟩) [.leave none] []]
      {⟨1⟩} ⟨.next, [], {⟨1⟩}⟩ := by
    rw [Stmt.execAll, Stmt.branch, Stmt.exec, Stmt.execAll]
    exact andThen_quiet (andThen_quiet (evaluating_quiet _ rfl _) (Or.inr rfl)) rfl
  have hcall := exec_callNamed_receiver sc.frozenCalls ⟨10⟩ {⟨1⟩}
  rw [Scope.run, hiddenEscape, Stmt.execAll, Stmt.branch, Stmt.exec]
  refine andThen_append (andThen_quiet (evaluating_quiet _ rfl _) (Or.inl ?_))
    (raises_hiddenEscape _ {⟨1⟩})
  rw [Stmt.execAll, Stmt.execAll]
  exact andThen_quiet hset (andThen_append hcall hstay)

/-- The second hand-over of the run through the branch is met in the state that lacks the
attribute, but has it assigned. -/
theorem assigned_at_handOver_iff_hiddenEscape :
    ⟨1⟩ ∈ (walkBody .single ∅ .default ⟨0⟩ hiddenEscape .start).defined ∧
      (∃ t ∈ (scope .single ∅ .default ⟨0⟩).missedAll .top hiddenEscape .start,
        (∀ b ∈ t.defined, b ∈ ({⟨1⟩} : Set Name)) ∧ ⟨1⟩ ∉ t.defined) ∧
      ((∀ a ∈ (walkBody .single ∅ .default ⟨0⟩ hiddenEscape .start).defined,
          a ∈ ({⟨1⟩} : Set Name)) ↔
        (Flow.raised.completes = false →
          ∀ a ∈ (walkBody .single ∅ .default ⟨0⟩ hiddenEscape .start).defined,
            (∃ t ∈ (scope .single ∅ .default ⟨0⟩).missedAll .top hiddenEscape .start,
              (∀ b ∈ t.defined, b ∈ ({⟨1⟩} : Set Name)) ∧ a ∉ t.defined) →
            a ∈ ({⟨1⟩} : Set Name))) := by
  refine ⟨by simp [defined_hiddenEscape], by simp [missedAll_hiddenEscape], ?_⟩
  exact assigned_at_handOver_iff .single ∅ .default ⟨0⟩ hiddenEscape .start (by decide) ∅ _
    (by simp [State.start]) (run_hiddenEscape_through _) {⟨1⟩} (by simp)

/-- The first hand-over of the run past the branch comes before the attribute is assigned
that the summary says is assigned. -/
theorem not_assigned_at_handOver_hiddenEscape : ¬∀ σ r,
    (scope .single ∅ .default ⟨0⟩).run hiddenEscape σ r → ∀ before τ after,
      r.log = before ++ .handsOver τ :: after → (∀ ρ, .handsOver ρ ∉ before) →
        ∀ a ∈ (walkBody .single ∅ .default ⟨0⟩ hiddenEscape .start).defined, a ∈ τ := by
  intro h
  have ha := h ∅ _ (run_hiddenEscape _) [] ∅ [] rfl (by simp) ⟨1⟩ (by simp [defined_hiddenEscape])
  simp at ha

end Graph

end DefiniteInit
