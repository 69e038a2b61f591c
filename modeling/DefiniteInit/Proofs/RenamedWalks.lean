import DefiniteInit.Proofs.Comparisons
import DefiniteInit.Proofs.Renaming
import DefiniteInit.Proofs.Settling
import DefiniteInit.Facts.OfClass

/-!
# Walks under other names

A walk comes upon the name of a class only where a call of its initializer lets the receiver escape,
and does nothing with it but note it. So where calls run the same initializers under other names,
a body is walked alike and the escapes are noted with the names changed (`Scope.block_rename`).

The judge of expressions knows no classes at all (`Judge.base?_expr`).
-/

namespace DefiniteInit

variable {σ : ClassId ≃ ClassId}

/-! ## Escapes and verdicts -/

/-- The reason with the class renamed. -/
def EscapeReason.rename (σ : ClassId ≃ ClassId) : EscapeReason → EscapeReason
  | .compromisedBase base => .compromisedBase (σ base)
  | .unanalyzedBase base => .unanalyzedBase (σ base)
  | reason => reason

/-- The place of an escape with the class renamed. -/
def EscapeSite.rename (σ : ClassId ≃ ClassId) (site : EscapeSite) : EscapeSite :=
  { site with reason := site.reason.rename σ }

/-- Only an escape to a base names a class. -/
theorem EscapeSite.rename_eq_self {site : EscapeSite} (h : site.reason.base? = none) :
    site.rename σ = site := by
  obtain ⟨reason, span⟩ := site
  cases reason with
  | compromisedBase _ | unanalyzedBase _ => simp [EscapeReason.base?] at h
  | _ => rfl

namespace Verdict

/-- The verdict with the class renamed. -/
def rename (σ : ClassId ≃ ClassId) : Verdict → Verdict
  | .safe => .safe
  | .escapes site => .escapes (site.rename σ)
  | .aliases site => .aliases (site.rename σ)

@[simp]
theorem isSafe_rename (v : Verdict) : (v.rename σ).isSafe = v.isSafe := by cases v <;> rfl

theorem site?_rename (v : Verdict) : (v.rename σ).site? = v.site?.map (EscapeSite.rename σ) := by
  cases v <;> rfl

/-- The first of two verdicts that is no good is the same under the new names. -/
theorem rename_andThen (u v : Verdict) :
    (u.andThen v).rename σ = (u.rename σ).andThen (v.rename σ) := by
  cases u <;> rfl

/-- A verdict that names no class stays as it is. -/
theorem rename_eq_self {v : Verdict} (h : v.base? = none) : v.rename σ = v := by
  cases v with
  | safe => rfl
  | escapes site => exact congrArg escapes (EscapeSite.rename_eq_self h)
  | aliases site => exact congrArg aliases (EscapeSite.rename_eq_self h)

/-- Two verdicts that name no class make one that names none. -/
theorem base?_andThen {u v : Verdict} (hu : u.base? = none) (hv : v.base? = none) :
    (u.andThen v).base? = none := by
  cases u with
  | safe => exact hv
  | escapes _ | aliases _ => exact hu

theorem base?_ite {c : Prop} [Decidable c] {u v : Verdict} (hu : u.base? = none)
    (hv : v.base? = none) : (if c then u else v).base? = none := by
  split
  · exact hu
  · exact hv

end Verdict

namespace Judge

variable {j : Judge} {d : AttrSet}

open Verdict

mutual

/-- No verdict on an expression lays an escape to a class. -/
theorem base?_expr : ∀ e : Expr, (j.expr d e).base? = none
  | .constant _ _ | .self _ | .unsupported _ => by rw [expr]; rfl
  -- In each form the verdict is put together from those of the parts, or has a reason of its own,
  -- and none of these reasons names a class.
  | .name _ _ _ => by
    rw [expr]
    exact base?_ite rfl rfl
  | .attribute value _ _ _ => by
    rw [expr]
    exact base?_ite (base?_ite rfl (base?_ite rfl rfl)) (base?_expr value)
  | .subscript left right _ | .binary left _ right _ => by
    rw [expr]
    exact base?_andThen (base?_expr left) (base?_expr right)
  | .unary _ value _ | .cast value _ | .starred value _ => by
    rw [expr]
    exact base?_expr value
  | .logic _ values _ | .collection _ values _ => by
    rw [expr]
    exact base?_exprs values
  | .compare left ops comparators _ => by
    rw [expr]
    exact base?_andThen (base?_ite rfl (base?_expr left)) (base?_operands ops comparators)
  | .conditional test body orelse _ => by
    rw [expr]
    exact base?_andThen (base?_expr test) (base?_andThen (base?_expr body) (base?_expr orelse))
  | .dict es _ => by
    rw [expr]
    exact base?_entries es
  | .comprehension _ element value gens _ => by
    rw [expr]
    exact base?_ite (base?_ite rfl rfl) (base?_andThen (base?_generators gens)
      (base?_andThen (base?_expr element) (base?_expr? value)))
  | .call callee args kws _ => by
    rw [expr]
    split
    · rfl
    · exact base?_andThen (base?_ite rfl (base?_expr callee))
        (base?_andThen (base?_exprs args) (base?_keywords kws))
  | .isInstance value cs _ => by
    rw [expr]
    exact base?_andThen (base?_ite rfl (base?_expr value)) (base?_classes cs)
  | .lambda _ _ => by
    rw [expr]
    exact base?_ite rfl rfl
  | .bind _ value _ => by
    rw [expr]
    exact base?_ite rfl (base?_expr value)

/-- Nor do the verdicts on lists of expressions. -/
theorem base?_exprs : ∀ es : List Expr, (j.exprs d es).base? = none
  | [] => by rw [exprs]; rfl
  | e :: es => by
    rw [exprs]
    exact base?_andThen (base?_expr e) (base?_exprs es)

theorem base?_expr? : ∀ e : Option Expr, (j.expr? d e).base? = none
  | none => by rw [expr?]; rfl
  | some e => by
    rw [expr?]
    exact base?_expr e

theorem base?_operands : ∀ (ops : List CompareOp) (es : List Expr),
    (j.operands d ops es).base? = none
  | _, [] => by rw [operands]; rfl
  | ops, e :: es => by
    rw [operands]
    exact base?_andThen (base?_ite rfl (base?_expr e)) (base?_operands ops.tail es)

theorem base?_entries : ∀ es : List DictEntry, (j.entries d es).base? = none
  | [] => by rw [entries]; rfl
  | ⟨key, value⟩ :: rest => by
    rw [entries]
    exact base?_andThen (base?_expr? key) (base?_andThen (base?_expr value) (base?_entries rest))

theorem base?_generators : ∀ gs : List Generator, (j.generators d gs).base? = none
  | [] => by rw [generators]; rfl
  | ⟨_, source, filters⟩ :: rest => by
    rw [generators]
    exact base?_andThen (base?_expr source)
      (base?_andThen (base?_exprs filters) (base?_generators rest))

theorem base?_keywords : ∀ ks : List Keyword, (j.keywords d ks).base? = none
  | [] => by rw [keywords]; rfl
  | ⟨_, value⟩ :: rest => by
    rw [keywords]
    exact base?_andThen (base?_expr value) (base?_keywords rest)

theorem base?_classes : ∀ es : List Expr, (j.classes d es).base? = none
  | [] => by rw [classes]; rfl
  | e :: es => by
    rw [classes]
    exact base?_andThen (base?_ite rfl (base?_expr e)) (base?_classes es)

end

end Judge

/-! ## Traces and outcomes -/

/-- The escape with the class renamed. -/
def Escape.rename (σ : ClassId ≃ ClassId) (e : Escape) : Escape :=
  { e with site := e.site.rename σ }

/-- The trace with classes renamed. -/
def Trace.rename (σ : ClassId ≃ ClassId) (t : Trace) : Trace :=
  { t with escapes := t.escapes.map (Escape.rename σ) }

/-- The outcome with classes renamed. -/
def Outcome.rename (σ : ClassId ≃ ClassId) (o : Outcome) : Outcome :=
  { o with trace := o.trace.rename σ }

namespace Trace

/-- What happens in turn is renamed in turn. -/
theorem rename_append (t u : Trace) : (t ++ u).rename σ = t.rename σ ++ u.rename σ := by
  show Trace.mk _ _ _ _ _ = Trace.mk _ _ _ _ _
  rw [escapes_append, List.map_append]
  rfl

theorem rename_ofVerdict (v : Verdict) (s : State) :
    (ofVerdict v s).rename σ = ofVerdict (v.rename σ) s := by
  unfold ofVerdict
  rw [Verdict.site?_rename]
  cases v.site? with
  | none => rfl
  | some site => cases s.escaped <;> rfl

end Trace

/-- An exception finds the same attributes assigned: names of classes do not matter to it. -/
theorem State.interrupted_rename (s : State) (t : Trace) :
    s.interrupted (t.rename σ) = s.interrupted t := by
  simp [State.interrupted, Trace.rename]

namespace Outcome

variable {w w' : State → Outcome}

/-- A verdict under new names is noted under the new names. -/
theorem rename_check (v : Verdict) (s : State) :
    (check v s).rename σ = check (v.rename σ) s := by
  simp only [check, rename, Trace.rename_ofVerdict, State.check, Verdict.isSafe_rename]

/-- Walks in turn are the same under the new names if each is. -/
theorem rename_andThen (o : Outcome) (hw : ∀ s, w' s = (w s).rename σ) :
    (o.andThen w).rename σ = (o.rename σ).andThen w' := by
  obtain ⟨next, trace⟩ := o
  cases next with
  | none => rfl
  | some s => simp only [andThen, rename, hw, Trace.rename_append]

/-- Walks of two branches are the same under the new names if each is. -/
theorem rename_either (o p : Outcome) :
    (o.either p).rename σ = (o.rename σ).either (p.rename σ) := by
  simp only [either, rename, Trace.rename_append]

end Outcome

/-! ## Loops -/

/-- The round with classes renamed. -/
def Round.rename (σ : ClassId ≃ ClassId) (r : Round) : Round :=
  { r with testing := r.testing.rename σ, body := r.body.rename σ }

/-- What a loop comes to with classes renamed. -/
def Settled.rename (σ : ClassId ≃ ClassId) (x : Settled) : Settled :=
  { x with trace := x.trace.rename σ }

theorem Round.trace_rename (r : Round) : (r.rename σ).trace = r.trace.rename σ :=
  (Trace.rename_append r.testing r.body.trace.withoutJumps).symm

namespace Loop

variable {l l' : Loop} (htest : ∀ s, l'.test s = (l.test s).rename σ)
  (hbody : ∀ s, l'.body s = (l.body s).rename σ)

include htest hbody

/-- A round of a loop leaves the same head under the new names. -/
theorem round_rename (head : State) : l'.round head = (l.round head).rename σ := by
  simp only [round, Round.rename, htest, hbody, State.check, Verdict.isSafe_rename,
    Trace.rename_ofVerdict]

/-- A loop comes to rest at the same head, by induction along its rounds. -/
theorem settle_rename (head : State) : l'.settle head = (l.settle head).rename σ := by
  have hround : ∀ head, l'.round head = (l.round head).rename σ := round_rename htest hbody
  -- States have no names of classes in them, so both loops come to rest after as many rounds.
  induction head using l.settle_induction with
  | done head h =>
    have h' : (l'.round head).next.same head = true := by rwa [hround]
    rw [settle_of_same l h, settle_of_same l' h', hround, Round.trace_rename]
    rfl
  | again head h ih =>
    have h' : ¬(l'.round head).next.same head = true := by rwa [hround]
    have hnext : (l'.round head).next = (l.round head).next := by rw [hround]; rfl
    rw [settle_of_not_same l h, settle_of_not_same l' h', hnext, ih, hround, Round.trace_rename]
    simp only [Settled.rename, Trace.rename_append]
    rfl

/-- A loop is walked alike under the new names. -/
theorem walk_rename {w w' : State → Outcome} (hw : ∀ s, w' s = (w s).rename σ) (infinite : Bool)
    (s : State) : l'.walk infinite w' s = (l.walk infinite w s).rename σ := by
  have hcompleted : (if infinite then .stop ∅ else w' (l.settle s).tested : Outcome) =
      (if infinite then .stop ∅ else w (l.settle s).tested : Outcome).rename σ := by
    split
    · rfl
    · exact hw _
  simp only [walk, settle_rename htest hbody]
  show Outcome.mk _ _ = Outcome.mk _ _
  simp only [Settled.rename, hcompleted, Trace.rename_append]
  rfl

end Loop

/-! ## `finally` blocks -/

namespace Outcome

variable {w w' : State → Outcome} (hw : ∀ s, w' s = (w s).rename σ)

include hw

/-- An exit takes the same way through a `finally` block. -/
theorem exitThrough_rename (e : Exit) : exitThrough w' e = (exitThrough w e).rename σ := by
  unfold exitThrough
  rw [hw]
  cases hn : (w e.state).next with
  | none => simp only [rename, hn]
  | some s => simp only [rename, hn, Trace.rename_append]; rfl

/-- So do several, one after the other. -/
theorem exitsThrough_rename (exits : List Exit) :
    exitsThrough w' exits = (exitsThrough w exits).rename σ := by
  have hfold : ∀ t : Trace, exits.foldl (fun t e => t ++ exitThrough w' e) (t.rename σ) =
      (exits.foldl (fun t e => t ++ exitThrough w e) t).rename σ := by
    induction exits with
    | nil => exact fun _ => rfl
    | cons e exits ih =>
      intro t
      rw [List.foldl_cons, List.foldl_cons, exitThrough_rename hw, ← Trace.rename_append, ih]
  exact hfold ∅

theorem onPath_rename (p : Option State) : onPath w' p = (onPath w p).rename σ := by
  cases p with
  | none => rfl
  | some s => exact hw s

/-- Jumps take the same way through a `finally` block. -/
theorem jumpsThrough_rename (j : Jumps) : jumpsThrough w' j = (jumpsThrough w j).rename σ := by
  simp only [jumpsThrough, onPath_rename hw, rename, ← Trace.rename_append]
  rfl

/-- A region and its `finally` block are walked alike under the new names. -/
theorem closeWith_rename (o : Outcome) : (o.rename σ).closeWith w' = (o.closeWith w).rename σ := by
  have hjumps : ((o.rename σ).trace ++ (exitsThrough w o.trace.exits).rename σ).jumps =
      (o.trace ++ exitsThrough w o.trace.exits).jumps := rfl
  have hexits : exitsThrough w' (o.rename σ).trace.exits =
      (exitsThrough w o.trace.exits).rename σ := exitsThrough_rename hw o.trace.exits
  have hthrough : onPath w' (o.rename σ).next = (onPath w o.next).rename σ :=
    onPath_rename hw o.next
  simp only [closeWith, hexits, hjumps, hthrough, jumpsThrough_rename hw]
  show Outcome.mk _ _ = Outcome.mk _ _
  simp only [Trace.rename_append]
  rfl

end Outcome

/-! ## Bodies -/

/-- Where the facts come from, with the base renamed. -/
def Origin.rename (σ : ClassId ≃ ClassId) : Origin → Origin
  | .inherited base => .inherited (σ base)
  | origin => origin

/-- The facts with classes renamed. -/
def Facts.rename (σ : ClassId ≃ ClassId) (f : Facts) : Facts :=
  { f with
    origin := f.origin.rename σ
    firstEscape := f.firstEscape.map (EscapeSite.rename σ) }

namespace BaseCall

/-- The call with the base renamed. -/
def rename (σ : ClassId ≃ ClassId) : BaseCall → BaseCall
  | .analyzed base facts => .analyzed (σ base) (facts.rename σ)
  | .inert => .inert
  | .missing base => .missing (σ base)
  | .notABase name => .notABase name

/-- A call gives the same attributes under the new names. -/
theorem fold_rename (call : BaseCall) : (call.rename σ).fold = call.fold := by cases call <;> rfl

/-- A call that lets the receiver escape does so under the new names. -/
theorem escape?_rename (call : BaseCall) (span : Span) :
    (call.rename σ).escape? span = (call.escape? span).map (EscapeSite.rename σ) := by
  cases call with
  | analyzed base facts =>
    obtain ⟨alwaysDefined, compromised, origin, firstEscape⟩ := facts
    cases compromised <;> rfl
  | inert | missing _ | notABase _ => rfl

/-- The arguments and the call are walked alike under the new names. -/
theorem judged_rename (call : BaseCall) {v v' : AttrSet → Verdict}
    (hv : ∀ d, v' d = (v d).rename σ) (m : Mode) (span : Span) (s : State) :
    (call.rename σ).judged v' m span s = (call.judged v m span s).rename σ := by
  unfold judged
  rw [Outcome.rename_andThen (Outcome.check (v s.defined) s) fun _ => rfl, Outcome.rename_check, hv]
  congr 1
  funext t
  rw [escape?_rename, fold_rename, Verdict.isSafe_rename]
  cases call.escape? span with
  | none => rfl
  | some site => exact (Outcome.rename_check (.escapes site) _).symm

end BaseCall

namespace Scope

theorem rename_assign (m : Mode) (v : Verdict) (attrs : List Name) (s : State) :
    assign m (v.rename σ) attrs s = (assign m v attrs s).rename σ := by
  unfold assign
  rw [Verdict.isSafe_rename]
  split
  · rfl
  · exact (Outcome.rename_check v s).symm

/-- Walks under old and new names differ in the names of the classes alone. -/
theorem comparison_rename {sc sc' : Scope} (hjudge : sc'.judge = sc.judge)
    (hcall : ∀ t, sc'.baseCall t = (sc.baseCall t).rename σ) :
    Comparison sc sc' (fun _ => True) (fun _ => True)
      (fun v v' => ∀ d, v' d = (v d).rename σ) fun w w' => ∀ s, w' s = (w s).rename σ where
  properties := by rw [hjudge]
  expr e d := by rw [hjudge, Verdict.rename_eq_self (Judge.base?_expr e)]
  fixed v hv _ := (Verdict.rename_eq_self hv).symm
  inTurn hu hv d := by simp only [hu, hv, Verdict.rename_andThen]
  goOn _ := rfl
  raise _ := rfl
  exit _ _ := rfl
  broken _ := rfl
  continued _ := rfl
  remove _ _ := rfl
  check hv s := by simp only [hv, Outcome.rename_check]
  assign m attrs hv _ _ s := by simp only [hv, rename_assign]
  call m span target hv _ s := by rw [hcall, BaseCall.judged_rename _ hv]
  andThen hw hx s := by simp only [hw, Outcome.rename_andThen _ hx]
  either hw hx s := by simp only [hw, hx, Outcome.rename_either]
  loop infinite hv hw hx := Loop.walk_rename (fun s => hv s.defined) hw hx infinite
  -- The handlers start where an exception leaves the body, which is the same state in both.
  region {w _ _ _ _ _} hw hx hy s := by
    have hinterrupted : s.interrupted ((w s).rename σ).trace = s.interrupted (w s).trace :=
      s.interrupted_rename (w s).trace
    simp only [hw, hy, hinterrupted, Outcome.rename_either, Outcome.rename_andThen _ hx]
  closeWith hw hx s := by simp only [hw, Outcome.closeWith_rename hx]

/-- A body is walked alike under the new names. -/
theorem block_rename {sc sc' : Scope} (hjudge : sc'.judge = sc.judge)
    (hcall : ∀ t, sc'.baseCall t = (sc.baseCall t).rename σ) (m : Mode) (ss : List Stmt)
    (s : State) : sc'.block m ss s = (sc.block m ss s).rename σ :=
  (comparison_rename hjudge hcall).block ss m (fun _ _ => trivial) (fun _ _ => trivial) s

end Scope

/-- The summary of a walk with classes renamed. -/
theorem Summary.ofOutcome_rename (o : Outcome) (recordSites : Bool) :
    ofOutcome (o.rename σ) recordSites = { ofOutcome o recordSites with
      firstEscape := (ofOutcome o recordSites).firstEscape.map (EscapeSite.rename σ) } := by
  have hexits : (o.rename σ).exits = o.exits := rfl
  have hstates : (o.rename σ).trace.escapes.map (·.state) = o.trace.escapes.map (·.state) := by
    simp [Outcome.rename, Trace.rename, Function.comp_def, Escape.rename, Escape.state]
  have hfirst : (o.rename σ).trace.escapes.head?.map (·.site) =
      (o.trace.escapes.head?.map (·.site)).map (EscapeSite.rename σ) := by
    simp only [Outcome.rename, Trace.rename, List.head?_map, Option.map_map]
    rfl
  unfold ofOutcome
  rw [hexits, hstates, hfirst]
  cases recordSites <;> rfl

end DefiniteInit
