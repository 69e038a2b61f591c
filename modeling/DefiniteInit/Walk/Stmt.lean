import DefiniteInit.BaseCall
import DefiniteInit.Walk.Finally
import DefiniteInit.Walk.Loop

/-!
# The walk over a body

`Scope.stmt` and `Scope.block` walk statements from a state, path by path. An assignment to
an attribute of the receiver counts when everything it evaluates is safe, and when no
`try` or `with` statement shields it: code in a shielded region may be left at any point, so
it is walked for what it lets escape or deletes, and nothing it assigns counts.
-/

namespace DefiniteInit

/-- What a walk takes into account of the class that is initialised. -/
structure Scope where
  /-- What its expressions are judged by. -/
  judge : Judge
  /-- What calls of its bases' initializers run. -/
  baseCall : SuperTarget → BaseCall

/-- The surroundings of a statement. -/
structure Mode where
  /-- Inside a region that may be left at any point. -/
  shielded : Bool
  /-- Inside a loop. -/
  inLoop : Bool
deriving DecidableEq

namespace Mode

/-- The body of an initializer. -/
def top : Mode := ⟨false, false⟩

/-- A region that may be left at any point. -/
def shield (m : Mode) : Mode := { m with shielded := true }

/-- The body of a loop. -/
def loop (m : Mode) : Mode := { m with inLoop := true }

end Mode

namespace Scope

/-- Defines the attributes that targets name, where assignments count. -/
def define (m : Mode) (attrs : List Name) (s : State) : State :=
  if m.shielded then s else s.defineAll attrs

/-- Binds targets to a value that has been judged. -/
def assign (m : Mode) (v : Verdict) (attrs : List Name) (s : State) : Outcome :=
  if v.isSafe then .goOn (define m attrs s) else .check v s

mutual

/-- Deletes a target. -/
def deleteTarget (sc : Scope) : Target → State → Outcome
  | .selfAttr attr span, s =>
    (Outcome.check (sc.judge.target s.defined (.selfAttr attr span)) s).andThen fun s =>
      ⟨some (s.undefine attr), .ofDeletion attr⟩
  | .self span, s => .check (.aliasing .selfRebound span) s
  | .name _ _, s => .goOn s
  | .attribute value attr span, s =>
    .check (sc.judge.target s.defined (.attribute value attr span)) s
  | .subscript value index span, s =>
    .check (sc.judge.target s.defined (.subscript value index span)) s
  | .tuple elements _, s => sc.deleteTargets elements s

/-- Deletes targets one after the other. -/
def deleteTargets (sc : Scope) : List Target → State → Outcome
  | [], s => .goOn s
  | t :: ts, s => (sc.deleteTarget t s).andThen (sc.deleteTargets ts)

end

/-- The verdict on a context manager, which is told when the block is entered and left. -/
def manager (j : Judge) (defined : AttrSet) (e : Expr) : Verdict :=
  if e.isSelfAlias then .escape .contextManager e.span else j.expr defined e

/-- The verdict on entering a `with` statement. -/
def enter (j : Judge) (defined : AttrSet) : List WithItem → Verdict
  | [] => .safe
  | ⟨e, target⟩ :: rest =>
    (manager j defined e).andThen
      (((target.map (j.target defined)).getD .safe).andThen (enter j defined rest))

/-- A call of a base's initializer. -/
def superInit (sc : Scope) (m : Mode) (target : SuperTarget) (args : List Expr)
    (keywords : List Keyword) (span : Span) (s : State) : Outcome :=
  let verdict := (sc.judge.exprs s.defined args).andThen (sc.judge.keywords s.defined keywords)
  let call := sc.baseCall target
  (Outcome.check verdict s).andThen fun s =>
    let s := call.fold (verdict.isSafe && !m.shielded) s
    match call.escape? span with
    | none => .goOn s
    | some site => .check (.escapes site) s

mutual

/-- Walks a statement. -/
def stmt (sc : Scope) (m : Mode) : Stmt → State → Outcome
  | .assign targets value _, s =>
    assign m ((sc.judge.value s.defined value).andThen (sc.judge.targets s.defined targets))
      (Target.assignedAll targets) s
  | .eval value _, s => .check (sc.judge.expr s.defined value) s
  | .ifElse test body orelse _, s =>
    (Outcome.check (sc.judge.expr s.defined test) s).andThen fun s =>
      (sc.block m body s).either (sc.block m orelse s)
  | .whileLoop test body orelse _, s =>
    Loop.walk ⟨fun s => sc.judge.expr s.defined test, sc.block m.loop body⟩
      test.alwaysTrue (sc.block m orelse) s
  | .forLoop target source body orelse _, s =>
    (Outcome.check (sc.judge.expr s.defined source) s).andThen <|
      Loop.walk
        ⟨fun _ => .safe, fun s =>
          (assign m (sc.judge.target s.defined target) target.assigned s).andThen
            (sc.block m.loop body)⟩
        false (sc.block m orelse)
  | .tryBlock body handlers orelse final _, s =>
    let attempt := sc.block m.shield body s
    let handled := sc.handlers m.shield handlers (s.interrupted attempt.trace)
    let region := (attempt.andThen (sc.block m.shield orelse)).either handled
    if final.isEmpty then region else region.closeWith (sc.block m final)
  | .withBlock items body _, s =>
    (Outcome.check (enter sc.judge s.defined items) s).andThen fun s =>
      let o := sc.block m.shield body s
      -- The manager may swallow an exception raised anywhere in the body.
      ⟨mergePaths o.next (some (s.interrupted o.trace)), o.trace⟩
  | .ret value span, s =>
    (Outcome.check (sc.judge.expr? s.defined value) s).andThen fun s =>
      .stop (.ofExit ⟨s, .returned, span⟩)
  | .raise exception cause _, s =>
    (Outcome.check ((sc.judge.expr? s.defined exception).andThen
      (sc.judge.expr? s.defined cause)) s).andThen fun _ => .stop ∅
  | .assertion test message _, s =>
    .check ((sc.judge.expr s.defined test).andThen (sc.judge.expr? s.defined message)) s
  | .superInit target args keywords span, s => sc.superInit m target args keywords span s
  | .rebindSelf value span, s =>
    .check ((sc.judge.expr s.defined value).andThen (.aliasing .selfRebound span)) s
  | .delete targets _, s => sc.deleteTargets targets s
  | .nestedDef _ capturesSelf span, s =>
    .check (if capturesSelf then .escape .capturedSelf span else .safe) s
  | .pass _, s => .goOn s
  | .breakLoop span, s =>
    if m.inLoop then .stop (.ofJumps ⟨some s, none⟩) else .check (.escape .strayJump span) s
  | .continueLoop span, s =>
    if m.inLoop then .stop (.ofJumps ⟨none, some s⟩) else .check (.escape .strayJump span) s
  | .unsupported span, s => .check (.escape .unsupported span) s

/-- Walks statements one after the other, as far as a path leads. -/
def block (sc : Scope) (m : Mode) : List Stmt → State → Outcome
  | [], s => .goOn s
  | st :: rest, s => (sc.stmt m st s).andThen (sc.block m rest)

/-- Walks the handlers of a `try` statement, any of which may be the one that runs. -/
def handlers (sc : Scope) (m : Mode) : List Handler → State → Outcome
  | [], _ => .stop ∅
  | ⟨type, _, body, _⟩ :: rest, s =>
    ((Outcome.check (sc.judge.expr? s.defined type) s).andThen (sc.block m body)).either
      (sc.handlers m rest s)

end

end Scope

end DefiniteInit
