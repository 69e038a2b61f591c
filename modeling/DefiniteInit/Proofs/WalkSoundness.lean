import DefiniteInit.Proofs.Accounts
import DefiniteInit.Proofs.Readings

/-!
# Soundness of the walk over a body

The walk of a body accounts for every run of it (`Scope.covers_block`), provided calls of base
initializers do what is known of the bases (`Scope.Faithful`). The proof goes over the
statements: each case puts together the lemmas of `Covers` as the walk puts together its
outcomes.

It is made once for all walks that differ in what becomes of a region and its `finally` block
(`Closing`, `Scope.blockWith`). Such a walk goes with a way to read runs (`Closes`), and accounts
for them as they are read (`Scope.covers_blockWith`). The walk itself goes with runs as they are.
-/

set_option linter.unusedSectionVars false

namespace DefiniteInit

variable {A : Set Name} {s : State} {b : Behaviour}

/-! ## Simple statements -/

/-- A statement without blocks in it that calls no initializer. -/
def Stmt.isSimple : Stmt → Bool
  | .ifElse _ _ _ _ | .whileLoop _ _ _ _ | .forLoop _ _ _ _ _ | .tryBlock _ _ _ _ _
  | .withBlock _ _ _ | .superInit _ _ _ _ => false
  | _ => true

/-- Simple statements have no `finally` block. -/
theorem Stmt.isFinallyFree_of_isSimple {st : Stmt} (h : st.isSimple = true) :
    st.isFinallyFree = true := by
  cases st with
  | ifElse _ _ _ _ | whileLoop _ _ _ _ | forLoop _ _ _ _ _ | tryBlock _ _ _ _ _
  | withBlock _ _ _ | superInit _ _ _ _ => simp [isSimple] at h
  | assign _ _ _ | eval _ _ | ret _ _ | raise _ _ _ | assertion _ _ _ | rebindSelf _ _
  | delete _ _ | nestedDef _ _ _ | pass _ | breakLoop _ | continueLoop _ | unsupported _ =>
    rfl

/-- What calls do makes no difference to simple statements. -/
theorem Stmt.exec_eq_of_isSimple {st : Stmt} (h : st.isSimple = true)
    (calls calls' : SuperTarget → Behaviour) (inLoop : Bool) :
    st.exec calls inLoop = st.exec calls' inLoop := by
  cases st with
  | ifElse _ _ _ _ | whileLoop _ _ _ _ | forLoop _ _ _ _ _ | tryBlock _ _ _ _ _
  | withBlock _ _ _ | superInit _ _ _ _ => simp [isSimple] at h
  | assign _ _ _ | eval _ _ | ret _ _ | raise _ _ _ | assertion _ _ _ | rebindSelf _ _
  | delete _ _ | nestedDef _ _ _ | pass _ | breakLoop _ | continueLoop _ | unsupported _ =>
    rw [exec, exec]

/-! ## Assignments and deletions -/

/-- An assignment adds the attribute that is assigned and no other. -/
theorem State.mem_defined_define {attr a : Name} (h : a ∈ (s.define attr).defined) :
    a ∈ s.defined ∨ a = attr := by
  unfold define at h
  split at h
  · exact Or.inl h
  · exact AttrSet.mem_insert.1 h

theorem State.mem_defined_defineAll {attrs : List Name} {a : Name}
    (h : a ∈ (s.defineAll attrs).defined) : a ∈ s.defined ∨ a ∈ attrs := by
  induction attrs generalizing s with
  | nil => exact Or.inl h
  | cons attr attrs ih =>
    rcases ih (s := s.define attr) h with h | h
    · exact (mem_defined_define h).imp id fun h => List.mem_cons.2 (Or.inl h)
    · exact Or.inr (List.mem_cons_of_mem _ h)

/-- A call adds what the facts of its base say and nothing else. -/
theorem BaseCall.mem_defined_fold {call : BaseCall} {contributes : Bool} {a : Name}
    (h : a ∈ (call.fold contributes s).defined) :
    a ∈ s.defined ∨ ∃ base facts, call = .analyzed base facts ∧ a ∈ facts.alwaysDefined := by
  cases call with
  | analyzed base facts =>
    cases contributes with
    | true => exact (State.mem_defined_defineAll h).imp id fun h => ⟨base, facts, rfl, h⟩
    | false => exact Or.inl h
  | inert | missing _ | notABase _ => exact Or.inl h

namespace Covers

/-- Binding targets, once they are bound, assigns the attributes they name. -/
theorem assign (hb : b.Grows) {attrs : List Name}
    (hattrs : ∀ σ r, b σ r → r.flow = .next → ∀ a ∈ attrs, a ∈ r.attrs) (m : Mode) (v : Verdict) :
    Covers A s (Scope.assign m v attrs s) b := by
  unfold Scope.assign
  split
  · intro σ r hs hr _
    obtain ⟨hsub, hplain, hdel⟩ := hb σ r hr
    refine .of_plain hplain hdel fun hf => ⟨_, rfl, fun a hA ha => ?_⟩
    unfold Scope.define at ha
    split at ha
    · exact hsub (hs a hA ha)
    · exact (State.mem_defined_defineAll ha).elim (fun h => hsub (hs a hA h))
        (hattrs σ r hr hf a)
  · exact check hb v

/-- A deletion is covered by taking the attribute away. -/
theorem undefine (attr : Name) :
    Covers A s ⟨some (s.undefine attr), .ofDeletion attr⟩ (.removes attr) := by
  rintro σ r hs rfl -
  refine ⟨⟨fun _ => ⟨_, rfl, fun a hA ha => ?_⟩, .of_plain rfl⟩, fun a ha => ?_⟩
  · obtain ⟨ha, hne⟩ := AttrSet.mem_erase.1 ha
    exact ⟨hs a hA ha, hne⟩
  · have haa : a = attr := by simpa using ha
    exact List.mem_singleton.2 haa

/-- A return is covered by its state. -/
theorem exit (span : Span) :
    Covers A s (.stop (.ofExit ⟨s, .returned, span⟩)) (.jump .returned) := by
  rintro σ r hs rfl -
  exact ⟨⟨nofun, fun _ => ⟨_, List.mem_singleton_self _, hs⟩, nofun⟩, by simp⟩

/-- A jump is covered by its state. -/
theorem break_ : Covers A s (.stop (.ofJumps ⟨some s, none⟩)) (.jump .broke) := by
  rintro σ r hs rfl -
  exact ⟨⟨nofun, nofun, fun _ => ⟨s, rfl, hs⟩⟩, by simp⟩

theorem continue_ : Covers A s (.stop (.ofJumps ⟨none, some s⟩)) (.jump .continued) := by
  rintro σ r hs rfl -
  exact ⟨⟨nofun, nofun, fun _ => ⟨s, rfl, hs⟩⟩, by simp⟩

/-- Nothing has to be known where an exception is raised. -/
theorem raise : Covers A s (.stop ∅) (.jump .raised) := by
  rintro σ r hs rfl -
  exact .of_plain rfl (by simp) nofun

/-- The managers of a `with` statement, each around the next. -/
theorem withItems {o : Outcome} (hb : Covers A s o b) (hk : b.Keeps) : ∀ items : List WithItem,
    Covers A s ⟨mergePaths o.next (some (s.interrupted o.trace)), o.trace⟩ (WithItem.exec b items)
  | [] => by
    rw [WithItem.exec]
    exact managed (hb.orElse _) hk (.merge_right _ _)
  | ⟨manager, target⟩ :: rest => by
    rw [WithItem.exec]
    refine grows_andThen (Behaviour.grows_evaluating _) (managed ?_ ?_ (.merge_right _ _))
    · exact grows_andThen (Target.grows_bind? target) (withItems hb hk rest)
    · exact Behaviour.keeps_law.andThen (Behaviour.keeps_law.bindTarget? target)
        (Behaviour.keeps_law.withItems hk rest)

end Covers

namespace Scope

variable (sc : Scope)

mutual

/-- Deletions are covered, whatever the target. -/
theorem covers_deleteTarget : ∀ (t : Target) (s : State), Covers A s (sc.deleteTarget t s) t.delete
  | .selfAttr attr _, s => by
    rw [deleteTarget, Target.delete]
    exact .check_andThen (.grows_andThen Behaviour.grows_plain (.undefine attr))
  | .self _, s => by
    rw [deleteTarget, Target.delete]; exact .check Behaviour.grows_unbinding _
  | .name _ _, s => by rw [deleteTarget, Target.delete]; exact .goOn Behaviour.grows_plain
  | .attribute value _ _, s => by
    rw [deleteTarget, Target.delete]; exact .check (Behaviour.grows_evaluating _) _
  | .subscript value index _, s => by
    rw [deleteTarget, Target.delete]
    exact .check ((Behaviour.grows_evaluating _).andThen (Behaviour.grows_evaluating _)) _
  | .tuple elements _, s => by
    rw [deleteTarget, Target.delete]; exact covers_deleteTargets elements s

theorem covers_deleteTargets : ∀ (ts : List Target) (s : State),
    Covers A s (sc.deleteTargets ts s) (Target.deleteAll ts)
  | [], s => by rw [deleteTargets, Target.deleteAll]; exact .goOn Behaviour.grows_plain
  | t :: ts, s => by
    rw [deleteTargets, Target.deleteAll]
    exact .andThen (covers_deleteTarget t s) (covers_deleteTargets ts)

end

/-! ## Calls of base initializers -/

/-- The calls do what is known of the bases, as regards the attributes of `A` : after a call
of an initializer whose facts are known, what they say of `A` is assigned. -/
structure Faithful (A : Set Name) (calls : SuperTarget → Behaviour) : Prop where
  keeps : ∀ t, (calls t).Keeps
  replays : ∀ t, (calls t).Replays
  isPlain : ∀ t σ r, calls t σ r → r.flow.isPlain = true ∧ ∀ a, Event.deletes a ∉ r.log
  gives : ∀ t base facts σ r, sc.baseCall t = .analyzed base facts → calls t σ r →
    r.flow = .next → ∀ a ∈ A, a ∈ facts.alwaysDefined → Unspoiled {a} r.log → a ∈ r.attrs

variable {sc} {calls : SuperTarget → Behaviour}

/-- What is so of some attributes is so of fewer. -/
theorem Faithful.mono {B : Set Name} (h : sc.Faithful A calls) (hB : B ⊆ A) :
    sc.Faithful B calls where
  keeps := h.keeps
  replays := h.replays
  isPlain := h.isPlain
  gives t base facts σ r hcall hr hf a ha := h.gives t base facts σ r hcall hr hf a (hB ha)

/-- After a call, what is known of the base is known of the receiver. -/
theorem Faithful.told_fold (h : sc.Faithful A calls) {t : SuperTarget} {σ : Set Name} {r : Ending}
    (hs : s.Tells A σ) (hr : calls t σ r) (hf : r.flow = .next) (hu : Unspoiled A r.log)
    (contributes : Bool) : (((sc.baseCall t).fold contributes s)).Tells A r.attrs := by
  intro a hA ha
  have hu' : Unspoiled {a} r.log := hu.mono (Set.singleton_subset_iff.2 hA)
  rcases BaseCall.mem_defined_fold ha with ha | ⟨base, facts, hcall, ha⟩
  · exact (h.keeps t σ r hr a (hs a hA ha) hu' ((h.isPlain t σ r hr).2 a)).1
  · exact h.gives t base facts σ r hcall hr hf a hA ha hu'

/-- The walk of the call itself, once its arguments are evaluated. -/
theorem covers_call (h : sc.Faithful A calls) (target : SuperTarget) (contributes : Bool)
    (span : Span) (s : State) : Covers A s
      (match (sc.baseCall target).escape? span with
        | none => .goOn ((sc.baseCall target).fold contributes s)
        | some site => .check (.escapes site) ((sc.baseCall target).fold contributes s))
      (calls target) := by
  intro σ r hs hr hu
  obtain ⟨hplain, hdel⟩ := h.isPlain target σ r hr
  have hfold := fun hf => h.told_fold hs hr hf hu contributes
  split
  · exact .of_plain hplain hdel fun hf => ⟨_, rfl, hfold hf⟩
  · refine .of_plain hplain hdel fun hf => ⟨_, rfl, fun a hA ha => hfold hf a hA ?_⟩
    rwa [State.defined_check] at ha

/-- A call is covered, with its arguments. -/
theorem covers_superInit (h : sc.Faithful A calls) (m : Mode) (target : SuperTarget)
    (args : List Expr) (keywords : List Keyword) (span : Span) (s : State) :
    Covers A s (sc.superInit m target args keywords span s)
      ((Behaviour.evaluating (Expr.argsHandOver args keywords)).andThen (calls target)) := by
  unfold superInit
  exact .check_andThen (.grows_andThen (Behaviour.grows_evaluating _)
    (covers_call h target _ span _))

variable (sc) in
/-- Calls that are known by the facts of the bases alone do what these say. -/
theorem faithful_frozenCalls : sc.Faithful A sc.frozenCalls where
  keeps t σ r hr := Behaviour.keeps_law.plain σ r hr.1
  replays t σ r hr τ := by
    obtain ⟨⟨hsub, -, hflow⟩, hgives⟩ := hr
    refine ⟨⟨r.flow, [], τ ∪ r.attrs⟩, ⟨⟨Set.subset_union_left, rfl, hflow⟩, ?_⟩,
      .of_subset hsub τ⟩
    exact fun hf base facts hcall a ha => Or.inr (hgives hf base facts hcall a ha)
  isPlain t σ r hr := by
    obtain ⟨⟨-, hlog, hflow⟩, -⟩ := hr
    exact ⟨hflow, by simp [hlog]⟩
  gives t base facts σ r hcall hr hf a _ ha _ := hr.2 hf base facts hcall a ha

/-! ## Statements -/

/-- Assigning a value to targets. -/
theorem covers_assign (m : Mode) (v : Verdict) (value : Expr) (targets : List Target) (s : State) :
    Covers A s (assign m v (Target.assignedAll targets) s)
      (value.exec.andThen (Target.bindAll targets)) := by
  refine .assign ((Behaviour.grows_evaluating _).andThen (Target.grows_bindAll targets)) ?_ m v
  intro σ r hr hf a ha
  rcases Behaviour.andThen_cases hr with ⟨r₁, r₂, -, -, h₂, rfl⟩ | ⟨-, hne⟩
  · exact Target.mem_attrs_of_bindAll (r := r₂) targets h₂ hf ha
  · exact absurd hf hne

/-- A handler runs its body or leaves the exception to the next. -/
theorem covers_handler {o p : Outcome} {type : Option Expr} {c d : Behaviour}
    (ho : Covers A s o ((Expr.exec? type).andThen c)) (hp : Covers A s p d) :
    Covers A s (o.either p) ((Expr.exec? type).andThen (.either c d)) :=
  (Covers.either ho (.grows_andThen (Behaviour.grows_evaluating _) hp)).of_imp
    fun _ _ h => Behaviour.andThen_either h

variable (calls)

/-- The walk of a simple statement accounts for every run of it. -/
theorem covers_stmt_of_isSimple {st : Stmt} (hst : st.isSimple = true) (m : Mode) (s : State) :
    Covers A s (sc.stmt m st s) (st.exec calls m.inLoop) := by
  cases st with
  | assign targets value _ =>
    rw [stmt, Stmt.exec]
    exact covers_assign m _ value targets s
  | eval value _ =>
    rw [stmt, Stmt.exec]
    exact .check (Behaviour.grows_evaluating _) _
  | ret value span =>
    rw [stmt, Stmt.exec]
    exact .check_andThen (.grows_andThen (Behaviour.grows_evaluating _) (.exit span))
  | raise exception cause _ =>
    rw [stmt, Stmt.exec]
    exact .check_andThen (.grows_andThen (Behaviour.grows_evaluating _)
      (.grows_andThen (Behaviour.grows_evaluating _) .raise))
  | assertion test message _ =>
    rw [stmt, Stmt.exec]
    exact .check ((Behaviour.grows_evaluating _).andThen (Behaviour.grows_plain.either
      ((Behaviour.grows_evaluating _).andThen (Behaviour.grows_jump rfl)))) _
  | rebindSelf value _ =>
    rw [stmt, Stmt.exec]
    exact .check ((Behaviour.grows_evaluating _).andThen Behaviour.grows_handing) _
  | delete targets _ =>
    rw [stmt, Stmt.exec]
    exact sc.covers_deleteTargets targets s
  | nestedDef _ capturesSelf _ =>
    rw [stmt, Stmt.exec]
    refine .check ?_ _
    split
    · exact Behaviour.grows_handing
    · exact Behaviour.grows_plain
  | pass _ =>
    rw [stmt, Stmt.exec]
    exact .goOn Behaviour.grows_plain
  | breakLoop _ =>
    rw [stmt, Stmt.exec]
    split
    · exact .grows_andThen Behaviour.grows_plain .break_
    · exact .check Behaviour.grows_plain _
  | continueLoop _ =>
    rw [stmt, Stmt.exec]
    split
    · exact .grows_andThen Behaviour.grows_plain .continue_
    · exact .check Behaviour.grows_plain _
  | unsupported _ =>
    rw [stmt, Stmt.exec]
    exact .check Behaviour.grows_handing _
  | ifElse _ _ _ _ | whileLoop _ _ _ _ | forLoop _ _ _ _ _ | tryBlock _ _ _ _ _
  | withBlock _ _ _ | superInit _ _ _ _ => simp [Stmt.isSimple] at hst

end Scope

/-! ## Walks with other `finally` blocks -/

/-- What is made of a region entered in a state, and of its `finally` block. -/
abbrev Closing := Outcome → State → (State → Outcome) → Outcome

namespace Scope

mutual

/-- Walks a statement, with `finally` blocks as `close` says. -/
def stmtWith (sc : Scope) (close : Closing) (m : Mode) : Stmt → State → Outcome
  | .ifElse test body orelse _, s =>
    (Outcome.check (sc.judge.expr s.defined test) s).andThen fun s =>
      (sc.blockWith close m body s).either (sc.blockWith close m orelse s)
  | .whileLoop test body orelse _, s =>
    Loop.walk ⟨fun s => sc.judge.expr s.defined test, sc.blockWith close m.loop body⟩
      test.alwaysTrue (sc.blockWith close m orelse) s
  | .forLoop target source body orelse _, s =>
    (Outcome.check (sc.judge.expr s.defined source) s).andThen <|
      Loop.walk
        ⟨fun _ => .safe, fun s =>
          (assign m (sc.judge.target s.defined target) target.assigned s).andThen
            (sc.blockWith close m.loop body)⟩
        false (sc.blockWith close m orelse)
  | .tryBlock body handlers orelse final _, s =>
    let attempt := sc.blockWith close m.shield body s
    let handled := sc.handlersWith close m.shield handlers (s.interrupted attempt.trace)
    let region := (attempt.andThen (sc.blockWith close m.shield orelse)).either handled
    if final.isEmpty then region else close region s (sc.blockWith close m final)
  | .withBlock items body _, s =>
    (Outcome.check (enter sc.judge s.defined items) s).andThen fun s =>
      let o := sc.blockWith close m.shield body s
      ⟨mergePaths o.next (some (s.interrupted o.trace)), o.trace⟩
  | st, s => sc.stmt m st s

/-- Walks statements one after the other in this way. -/
def blockWith (sc : Scope) (close : Closing) (m : Mode) : List Stmt → State → Outcome
  | [], s => .goOn s
  | st :: rest, s => (sc.stmtWith close m st s).andThen (sc.blockWith close m rest)

/-- Walks the handlers of a `try` statement in this way. -/
def handlersWith (sc : Scope) (close : Closing) (m : Mode) : List Handler → State → Outcome
  | [], _ => .stop ∅
  | ⟨type, _, body, _⟩ :: rest, s =>
    ((Outcome.check (sc.judge.expr? s.defined type) s).andThen (sc.blockWith close m body)).either
      (sc.handlersWith close m rest s)

end

variable (sc : Scope) {close : Closing}

mutual

/-- The walk of a statement is the same if it has no `finally` blocks, or if they are walked as
they are. -/
theorem stmtWith_eq_stmt : ∀ (st : Stmt)
    (_ : st.isFinallyFree = false → ∀ o s w, close o s w = o.closeWith w) (m : Mode) (s : State),
    sc.stmtWith close m st s = sc.stmt m st s
  | .ifElse test body orelse _, h, m, s => by
    have hbody := blockWith_eq_block body fun hf => h (by simp [Stmt.isFinallyFree, hf])
    have horelse := blockWith_eq_block orelse fun hf => h (by simp [Stmt.isFinallyFree, hf])
    rw [stmtWith, stmt, funext (hbody m), funext (horelse m)]
  | .whileLoop test body orelse _, h, m, s => by
    have hbody := blockWith_eq_block body fun hf => h (by simp [Stmt.isFinallyFree, hf])
    have horelse := blockWith_eq_block orelse fun hf => h (by simp [Stmt.isFinallyFree, hf])
    rw [stmtWith, stmt, funext (hbody m.loop), funext (horelse m)]
  | .forLoop target source body orelse _, h, m, s => by
    have hbody := blockWith_eq_block body fun hf => h (by simp [Stmt.isFinallyFree, hf])
    have horelse := blockWith_eq_block orelse fun hf => h (by simp [Stmt.isFinallyFree, hf])
    rw [stmtWith, stmt, funext (hbody m.loop), funext (horelse m)]
  | .tryBlock body handlers orelse final _, h, m, s => by
    have hbody := blockWith_eq_block body fun hf => h (by simp [Stmt.isFinallyFree, hf])
    have hhandlers := handlersWith_eq_handlers handlers fun hf =>
      h (by simp [Stmt.isFinallyFree, hf])
    have horelse := blockWith_eq_block orelse fun hf => h (by simp [Stmt.isFinallyFree, hf])
    rw [stmtWith, stmt, hbody, hhandlers, funext (horelse m.shield)]
    split
    · rfl
    -- Only a statement with a final block is closed, and there the two closings agree by
    -- hypothesis.
    · have hclose := h (by simp_all [Stmt.isFinallyFree])
      rw [hclose, funext (blockWith_eq_block final (fun _ => hclose) m)]
  | .withBlock items body _, h, m, s => by
    have hbody := blockWith_eq_block body fun hf => h (by simp [Stmt.isFinallyFree, hf])
    rw [stmtWith, stmt, funext (hbody m.shield)]
  | .assign _ _ _, _, m, s | .eval _ _, _, m, s | .ret _ _, _, m, s | .raise _ _ _, _, m, s
  | .assertion _ _ _, _, m, s | .superInit _ _ _ _, _, m, s | .rebindSelf _ _, _, m, s
  | .delete _ _, _, m, s | .nestedDef _ _ _, _, m, s | .pass _, _, m, s | .breakLoop _, _, m, s
  | .continueLoop _, _, m, s | .unsupported _, _, m, s => by
    rw [stmtWith] <;> exact nofun

/-- The same for blocks. -/
theorem blockWith_eq_block : ∀ (ss : List Stmt)
    (_ : Stmt.allFinallyFree ss = false → ∀ o s w, close o s w = o.closeWith w) (m : Mode)
    (s : State), sc.blockWith close m ss s = sc.block m ss s
  | [], _, m, s => by rw [blockWith, block]
  | st :: ss, h, m, s => by
    have hst := stmtWith_eq_stmt st fun hf => h (by simp [Stmt.allFinallyFree, hf])
    have hss := blockWith_eq_block ss fun hf => h (by simp [Stmt.allFinallyFree, hf])
    rw [blockWith, block, hst, funext (hss m)]

/-- The same for lists of handlers. -/
theorem handlersWith_eq_handlers : ∀ (hs : List Handler)
    (_ : Stmt.handlersFinallyFree hs = false → ∀ o s w, close o s w = o.closeWith w) (m : Mode)
    (s : State), sc.handlersWith close m hs s = sc.handlers m hs s
  | [], _, m, s => by rw [handlersWith, handlers]
  | ⟨type, _, body, _⟩ :: rest, h, m, s => by
    have hbody := blockWith_eq_block body fun hf => h (by simp [Stmt.handlersFinallyFree, hf])
    have hrest := handlersWith_eq_handlers rest fun hf =>
      h (by simp [Stmt.handlersFinallyFree, hf])
    rw [handlersWith, handlers, funext (hbody m), hrest]

end

end Scope

/-! ## Walks that go with a reading -/

open Behaviour

/-- The walk of `finally` blocks by `close` accounts for runs read by `h`, in which the blocks run
as `fin` says. -/
structure Closes (close : Closing) (h : Behaviour → Behaviour)
    (fin : Behaviour → Flow → Behaviour) :
    Prop extends Reading h where
  final : ∀ b c, h (b.bind (final c)) = (h b).bind (fin (h c))
  raising : ∀ {P : Behaviour → Prop}, Law P → P raising → P (h raising)
  covers : ∀ {A s o w b c}, Covers A s o b → b.Keeps → (∀ B ⊆ A, ∀ s', Covers B s' (w s') c) →
    c.Replays → Covers A s (close o s w) (b.bind (fin c))

/-- The walk itself goes with runs as they are. -/
theorem closes_closeWith : Closes (fun o _ w => o.closeWith w) id Behaviour.final where
  toReading := reading_id
  final _ _ := rfl
  raising _ h := h
  covers hb _ hw hc := hb.closeWith hw hc

namespace Closes

variable {close : Closing} {h : Behaviour → Behaviour} {fin : Behaviour → Flow → Behaviour}
  {calls : SuperTarget → Behaviour} (C : Closes close h fin)

include C

/-- What is read of a block keeps attributes if what is read of the calls does. -/
theorem keeps_execAll (hcalls : ∀ t, (h (calls t)).Keeps) (inLoop : Bool) (ss : List Stmt) :
    (h (Stmt.execAll calls inLoop ss)).Keeps :=
  (C.law keeps_law).execAll hcalls inLoop ss fun _ => C.raising keeps_law keeps_raising

/-- The same for lists of handlers. -/
theorem keeps_execHandlers (hcalls : ∀ t, (h (calls t)).Keeps) (inLoop : Bool)
    (hs : List Handler) : (h (Stmt.execHandlers calls inLoop hs)).Keeps :=
  (C.law keeps_law).execHandlers hcalls inLoop hs fun _ => C.raising keeps_law keeps_raising

/-- Blocks replay, as they are read, when the calls in them do. -/
theorem replays_execAll (hcalls : ∀ t, (h (calls t)).Replays) (inLoop : Bool) (ss : List Stmt) :
    (h (Stmt.execAll calls inLoop ss)).Replays :=
  (C.law replays_law).execAll hcalls inLoop ss fun _ => C.raising replays_law replays_raising

end Closes

namespace Scope

variable (sc : Scope)

/-- A frozen call logs nothing. -/
theorem frozenCalls_quiet (t : SuperTarget) (σ : Set Name) (r : Ending)
    (hr : sc.frozenCalls t σ r) :
    r.log = [] := hr.1.2.1

variable {close : Closing} {h : Behaviour → Behaviour} {fin : Behaviour → Flow → Behaviour}
  (C : Closes close h fin)

include C

/-- A frozen call reads as itself, for there is nothing in it to hush. -/
theorem read_frozenCalls (t : SuperTarget) : h (sc.frozenCalls t) = sc.frozenCalls t :=
  C.quiet (sc.frozenCalls_quiet t)

/-- So frozen calls stay faithful, however they are read. -/
theorem faithful_read_frozenCalls : sc.Faithful A fun t => h (sc.frozenCalls t) := by
  rw [funext (sc.read_frozenCalls C)]
  exact sc.faithful_frozenCalls

/-- Statements without `finally` blocks are read as they are. -/
theorem read_exec {st : Stmt} (hfree : st.isFinallyFree = true) (inLoop : Bool) :
    h (st.exec sc.frozenCalls inLoop) = st.exec sc.frozenCalls inLoop :=
  C.fixes.exec (sc.read_frozenCalls C) inLoop st (by simp [hfree])

/-- Simple statements are walked and read as they are. -/
theorem covers_stmtWith_of_isSimple {calls : SuperTarget → Behaviour} {st : Stmt}
    (hst : st.isSimple = true) (m : Mode) (s : State) :
    Covers A s (sc.stmtWith close m st s) (h (st.exec calls m.inLoop)) := by
  have hfree := Stmt.isFinallyFree_of_isSimple hst
  rw [sc.stmtWith_eq_stmt st (by simp [hfree]),
    Stmt.exec_eq_of_isSimple hst calls sc.frozenCalls, sc.read_exec C hfree]
  exact covers_stmt_of_isSimple sc.frozenCalls hst m s

variable (calls : SuperTarget → Behaviour)

mutual

/-- The walk covers the runs of a statement, as they are read: one case for each form that has
blocks in it, and the rest as for the walk itself. -/
theorem covers_stmtWith : ∀ (st : Stmt) (A : Set Name), sc.Faithful A (fun t => h (calls t)) →
    ∀ (m : Mode) (s : State),
      Covers A s (sc.stmtWith close m st s) (h (st.exec calls m.inLoop))
  | .ifElse test body orelse _, A, F, m, s => by
    rw [stmtWith, Stmt.exec, C.andThen, C.either, Expr.exec, C.evaluating]
    exact .check_andThen (.grows_andThen (grows_evaluating _)
      (.either (covers_blockWith body A F m _) (covers_blockWith orelse A F m _)))
  | .whileLoop test body orelse _, A, F, m, s => by
    rw [stmtWith, Stmt.exec, C.looping, Expr.exec, C.evaluating]
    exact .loop (grows_evaluating _) (covers_blockWith body A F m.loop)
      (covers_blockWith orelse A F m)
  | .forLoop target source body orelse _, A, F, m, s => by
    rw [stmtWith, Stmt.exec, C.andThen, C.looping, C.andThen, Expr.exec, C.evaluating, C.plain,
      C.fixes.bindTarget]
    refine .check_andThen (.grows_andThen (grows_evaluating _)
      (.loop grows_plain (fun s' => ?_) (covers_blockWith orelse A F m)))
    exact .andThen (.assign (Target.grows_bind target)
      (fun σ r hr hf a ha => Target.mem_attrs_of_bind target hr hf ha) m _)
      (covers_blockWith body A F m.loop)
  | .tryBlock body handlers orelse final _, A, F, m, s => by
    have hbody := C.keeps_execAll F.keeps m.inLoop body
    -- Body, handlers and `else` branch are one region; the final block, if there is one, closes it.
    have hregion := Covers.region (covers_blockWith body A F m.shield s) hbody
      (covers_blockWith orelse A F m.shield) (covers_handlersWith handlers A F m.shield _)
    rw [stmtWith, Stmt.exec]
    split
    · rw [C.bind_handling]
      exact hregion
    · rw [C.final, C.bind_handling]
      refine C.covers hregion ?_ (fun B hB => covers_blockWith final B (F.mono hB) m)
        (C.replays_execAll F.replays m.inLoop final)
      exact keeps_law.bind hbody (keeps_law.handling
        (C.keeps_execHandlers F.keeps m.inLoop handlers)
        (C.keeps_execAll F.keeps m.inLoop orelse))
  | .withBlock items body _, A, F, m, s => by
    rw [stmtWith, Stmt.exec, C.withItems]
    exact .check_andThen (.withItems (covers_blockWith body A F m.shield _)
      (C.keeps_execAll F.keeps m.inLoop body) items)
  | .superInit target args keywords span, A, F, m, s => by
    rw [sc.stmtWith_eq_stmt _ (by simp [Stmt.isFinallyFree]), stmt, Stmt.exec, C.andThen,
      C.evaluating]
    exact covers_superInit F m target args keywords span s
  | .assign _ _ _, A, _, m, s | .eval _ _, A, _, m, s | .ret _ _, A, _, m, s
  | .raise _ _ _, A, _, m, s | .assertion _ _ _, A, _, m, s | .rebindSelf _ _, A, _, m, s
  | .delete _ _, A, _, m, s | .nestedDef _ _ _, A, _, m, s | .pass _, A, _, m, s
  | .breakLoop _, A, _, m, s | .continueLoop _, A, _, m, s | .unsupported _, A, _, m, s =>
    sc.covers_stmtWith_of_isSimple C rfl m s

/-- The walk of a block accounts for every run of it as it is read. -/
theorem covers_blockWith : ∀ (ss : List Stmt) (A : Set Name), sc.Faithful A (fun t => h (calls t)) →
    ∀ (m : Mode) (s : State),
      Covers A s (sc.blockWith close m ss s) (h (Stmt.execAll calls m.inLoop ss))
  | [], A, _, m, s => by
    rw [blockWith, Stmt.execAll, C.jump]
    exact .goOn (grows_jump rfl)
  | st :: ss, A, F, m, s => by
    rw [blockWith, Stmt.execAll, C.andThen]
    exact .andThen (covers_stmtWith st A F m s) (covers_blockWith ss A F m)

/-- The same for lists of handlers. -/
theorem covers_handlersWith : ∀ (hs : List Handler) (A : Set Name),
    sc.Faithful A (fun t => h (calls t)) → ∀ (m : Mode) (s : State),
      Covers A s (sc.handlersWith close m hs s) (h (Stmt.execHandlers calls m.inLoop hs))
  | [], A, _, m, s => by
    rw [handlersWith, Stmt.execHandlers, C.jump]
    exact .raise
  | ⟨type, _, body, _⟩ :: rest, A, F, m, s => by
    rw [handlersWith, Stmt.execHandlers, C.andThen, C.either, Expr.exec?, C.evaluating]
    refine covers_handler ?_ (covers_handlersWith rest A F m s)
    exact .check_andThen (.grows_andThen (grows_evaluating _) (covers_blockWith body A F m _))

end

omit C in
/-- The walk of a block accounts for every run of it. -/
theorem covers_block (ss : List Stmt) (A : Set Name) (F : sc.Faithful A calls) (m : Mode)
    (s : State) : Covers A s (sc.block m ss s) (Stmt.execAll calls m.inLoop ss) := by
  have hcovers := sc.covers_blockWith closes_closeWith calls ss A F m s
  rwa [sc.blockWith_eq_block ss fun _ _ _ _ => rfl] at hcovers

end Scope

end DefiniteInit
