import DefiniteInit.Facts.OfClass
import DefiniteInit.Proofs.Comparisons
import DefiniteInit.Proofs.Settling

/-!
# Walks that keep a ledger

A walk can be made with the books open. What happens on the way is entered in a `Ledger` where it
happens, and what is to be known of the code around, such as the loops to jump out of, is read off
the ledger. `Scope.keepStmt` and `Scope.keepBlock` walk in this way. They put the exits and the
jumps aside before the region of a `try` statement and put them back after it, cut the exits back
before each round of a loop, and find out by marks what a region let escape or deleted.

`Ledger.post` enters a whole trace at once. It enters one trace after another as it does both put
together (`Ledger.post_append`).
-/

namespace DefiniteInit

/-- A path that comes back to the head of a loop and changes the state there makes it weaker. -/
theorem State.slack_mergePath_check_lt {head : State} {v : Verdict} {p : Option State}
    (h : ¬((head.check v).mergePath p).same head = true) :
    ((head.check v).mergePath p).slack < head.slack := by
  have hround : (Loop.round ⟨fun _ => v, fun _ => ⟨p, ∅⟩⟩ head).next =
      (head.check v).mergePath p := congrArg _ (mergePaths_none_right p)
  rw [← hround] at h ⊢
  exact Loop.slack_next_lt h

/-! ## The ledger -/

/-- The books of a walk under way. -/
@[ext]
structure Ledger where
  /-- Where the initializer has returned. -/
  exits : List Exit
  /-- The jumps out of each loop around, those of the innermost first. -/
  loops : List Jumps
  /-- How many regions around may be left at any point: as many as there are `try` and `with`
  statements around. -/
  shielded : Nat
  /-- How many escapes there were, over all rounds of loops. -/
  escapes : Nat
  /-- The states in which they were. -/
  escapeStates : List State
  /-- The attributes deleted. -/
  deletions : List Name
  /-- The first escape, if it is kept. -/
  firstEscape : Option EscapeSite
deriving DecidableEq

namespace Ledger

/-- Before a body is walked. -/
def blank : Ledger := ⟨[], [], 0, 0, [], [], none⟩

/-- The depth of regions as a number of 32 bits. -/
def shieldedWord (b : Ledger) : UInt32 := .ofNat b.shielded

/-- The number of escapes as a number of 32 bits. -/
def escapesWord (b : Ledger) : UInt32 := .ofNat b.escapes

/-- The surroundings the ledger tells of. -/
def mode (b : Ledger) : Mode := ⟨b.shielded != 0, !b.loops.isEmpty⟩

/-- Enters a verdict passed in a state; only the first escape on a path is one. -/
def noteVerdict (record : Bool) (v : Verdict) (s : State) (b : Ledger) : Ledger :=
  match v.site? with
  | none => b
  | some site =>
    if s.escaped then b
    else
      { b with
        escapes := b.escapes + 1
        escapeStates := b.escapeStates ++ [⟨s.defined, true⟩]
        firstEscape := if record && b.firstEscape.isNone then some site else b.firstEscape }

/-- Enters places where the initializer completes. -/
def noteExits (exits : List Exit) (b : Ledger) : Ledger := { b with exits := b.exits ++ exits }

/-- Enters jumps out of the innermost loop. -/
def noteJumps (jumps : Jumps) (b : Ledger) : Ledger :=
  { b with loops := b.loops.modifyHead (·.merge jumps) }

/-- Enters the deletion of an attribute. -/
def noteDeletion (attr : Name) (b : Ledger) : Ledger :=
  { b with deletions := b.deletions ++ [attr] }

/-- Replaces the exits. -/
def setExits (exits : List Exit) (b : Ledger) : Ledger := { b with exits }

/-- Replaces the jumps out of the innermost loop. -/
def setTop (jumps : Jumps) (b : Ledger) : Ledger :=
  { b with loops := b.loops.modifyHead fun _ => jumps }

end Ledger

/-- A walk that keeps a ledger. -/
abbrev Keeper (α : Type) : Type := StateM Ledger α

namespace Keeper

variable {α : Type} (record : Bool)

/-- Passes a verdict. -/
def check (v : Verdict) (s : State) : Keeper State := do
  modify (Ledger.noteVerdict record v s)
  return s.check v

/-- Passes the verdicts on several things in turn, and says whether all are safe. -/
def checkEach (judge : AttrSet → α → Verdict) : List α → State → Keeper (Bool × State)
  | [], s => return (true, s)
  | x :: xs, s => do
    let checked ← check record (judge s.defined x) s
    let rest ← checkEach judge xs checked
    return ((judge s.defined x).isSafe && rest.1, rest.2)

/-- Goes on with a path, unless it has ended. -/
def onPath (walk : State → Keeper (Option State)) : Option State → Keeper (Option State)
  | none => return none
  | some s => walk s

/-- Walks in a region that may be left at any point. -/
def shielding (x : Keeper α) : Keeper α := do
  modify fun b => { b with shielded := b.shielded + 1 }
  let a ← x
  modify fun b => { b with shielded := b.shielded - 1 }
  return a

/-- Walks in a loop, and takes the jumps out of it. -/
def framed (x : Keeper α) : Keeper (α × Jumps) := do
  modify fun b => { b with loops := .none :: b.loops }
  let a ← x
  let b ← get
  set { b with loops := b.loops.tail }
  return (a, b.loops.head?.getD .none)

/-- The state in which an exception may leave a region entered in state `s`. The marks say how many
escapes and deletions there were then. -/
def interrupted (s : State) (escapes deletions : Nat) : Keeper State := do
  let b ← get
  return (b.deletions.drop deletions).foldl State.undefine
    { s with escaped := s.escaped || b.escapes != escapes }

/-- One round of a loop: the test, the binding of the loop variable and the body, with the jumps it
makes. -/
def round (test : State → Verdict) (bind : State → Keeper State)
    (body : State → Keeper (Option State)) (head : State) : Keeper (Option State × Jumps) := do
  let tested ← check record (test head) head
  let bound ← bind tested
  framed (body bound)

/-- Walks round after round until the state at the head stays as it is. Each round begins with the
exits there were before the loop. -/
def rounds (test : State → Verdict) (bind : State → Keeper State)
    (body : State → Keeper (Option State)) (mark : Nat) (head : State) :
    Keeper (State × Jumps) := do
  modify fun b => b.setExits (b.exits.take mark)
  let ended ← round record test bind body head
  let tested := head.check (test head)
  let next := tested.mergePath (mergePaths ended.1 ended.2.continued)
  if next.same head then return (tested, ended.2)
  else rounds test bind body mark next
termination_by head.slack
decreasing_by exact State.slack_mergePath_check_lt ‹_›

/-- Walks a loop. -/
def loop (test : State → Verdict) (bind : State → Keeper State)
    (body : State → Keeper (Option State)) (infinite : Bool)
    (orelse : State → Keeper (Option State)) (entry : State) : Keeper (Option State) := do
  let before ← get
  let settled ← rounds record test bind body before.exits.length entry
  let completed ← (if infinite then pure none else orelse settled.1)
  return mergePaths completed settled.2.broken

/-- Replaces the exits, and gives those there were. -/
def swapExits (exits : List Exit) : Keeper (List Exit) := do
  let b ← get
  set (b.setExits exits)
  return b.exits

/-- Takes the jumps out of the innermost loop, if there is one. -/
def takeJumps : Keeper (Option Jumps) := do
  let b ← get
  set (b.setTop .none)
  return b.loops.head?

/-- Sends returns through the last block of a `try` statement. -/
def passExits (final : State → Keeper (Option State)) : List Exit → Keeper Unit
  | [] => return ()
  | e :: es => do
    let next ← final e.state
    modify (Ledger.noteExits (next.toList.map fun s => { e with state := s }))
    passExits final es

/-- Sends the jumps of the region through the last block, and puts those of before back. -/
def passJumps (final : State → Keeper (Option State)) : Option Jumps → Keeper Unit
  | none => return ()
  | some outer => do
    let inner ← takeJumps
    let broken ← onPath final (inner.getD .none).broken
    let continued ← onPath final (inner.getD .none).continued
    modify (Ledger.noteJumps outer)
    modify (Ledger.noteJumps ⟨broken, continued⟩)

/-- Walks the region of a `try` statement. -/
def region (body orelse : State → Keeper (Option State))
    (handlers : State → Option State → Keeper (Option State)) (s : State) :
    Keeper (Option State) := do
  let before ← get
  let completed ← body s
  let raised ← interrupted s before.escapes before.deletions.length
  let merged ← onPath orelse completed
  handlers raised merged

/-- Walks the body of a `with` statement. The manager may swallow an exception raised in it. -/
def managed (body : State → Keeper (Option State)) (s : State) : Keeper (Option State) := do
  let before ← get
  let completed ← shielding (body s)
  let suppressed ← interrupted s before.escapes before.deletions.length
  return mergePaths completed (some suppressed)

/-- Walks a region that has no last block. -/
def leaving (region : State → Keeper (Option State)) (s : State) : Keeper (Option State) := do
  let outerExits ← swapExits []
  let merged ← region s
  let innerExits ← swapExits outerExits
  modify (Ledger.noteExits innerExits)
  return merged

/-- Walks a region and its last block. What was in the books is put aside for the region. -/
def closing (region final : State → Keeper (Option State)) (s : State) :
    Keeper (Option State) := do
  let outerExits ← swapExits []
  let outerJumps ← takeJumps
  let merged ← region s
  let innerExits ← swapExits outerExits
  passExits final innerExits
  passJumps final outerJumps
  onPath final merged

end Keeper

namespace Scope

variable (sc : Scope) (record : Bool)

mutual

/-- Defines what a target names, where assignments count. -/
def keepTarget : Target → State → Keeper State
  | .selfAttr attr _, s => do
    let b ← get
    return if b.shielded = 0 then s.define attr else s
  | .tuple elements _, s => keepTargets elements s
  | .self _, s | .name _ _, s | .attribute _ _ _, s | .subscript _ _ _, s => return s

/-- Defines what targets name, one after the other. -/
def keepTargets : List Target → State → Keeper State
  | [], s => return s
  | t :: ts, s => do
    let defined ← keepTarget t s
    keepTargets ts defined

end

/-- Defines what targets name, if all they were checked for is safe. -/
def keepBound (targets : List Target) (checked : Bool × State) : Keeper State :=
  if checked.1 then keepTargets targets checked.2 else return checked.2

/-- Binds the variable of a loop. -/
def keepBinding (target : Target) (s : State) : Keeper State := do
  let checked ← Keeper.checkEach record sc.judge.target [target] s
  keepBound [target] checked

mutual

/-- Deletes a target. -/
def keepDeletion : Target → State → Keeper State
  | .selfAttr attr span, s => do
    let checked ← Keeper.check record (sc.judge.target s.defined (.selfAttr attr span)) s
    modify (Ledger.noteDeletion attr)
    return checked.undefine attr
  | .self span, s => Keeper.check record (.aliasing .selfRebound span) s
  | .name _ _, s => return s
  | .attribute value attr span, s =>
    Keeper.check record (sc.judge.target s.defined (.attribute value attr span)) s
  | .subscript value index span, s =>
    Keeper.check record (sc.judge.target s.defined (.subscript value index span)) s
  | .tuple elements _, s => keepDeletions elements s

/-- Deletes targets one after the other. -/
def keepDeletions : List Target → State → Keeper State
  | [], s => return s
  | t :: ts, s => do
    let deleted ← keepDeletion t s
    keepDeletions ts deleted

end

/-- Enters a `with` statement, manager by manager. -/
def keepItems : List WithItem → State → Keeper State
  | [], s => return s
  | ⟨e, target⟩ :: rest, s => do
    let checked ← Keeper.check record (manager sc.judge s.defined e) s
    let bound ← Keeper.checkEach record sc.judge.target target.toList checked
    keepItems rest bound.2

/-- A call of a base's initializer. -/
def keepCall (target : SuperTarget) (args : List Expr) (keywords : List Keyword) (span : Span)
    (s : State) : Keeper State := do
  let checked ← Keeper.checkEach record sc.judge.expr (args ++ keywords.map Keyword.value) s
  let b ← get
  let folded := (sc.baseCall target).fold (checked.1 && b.shielded == 0) checked.2
  match (sc.baseCall target).escape? span with
  | none => return folded
  | some site => Keeper.check record (.escapes site) folded

/-- A jump out of the innermost loop. Where there is none it counts as an escape. -/
def keepJump (jumps : Jumps) (span : Span) (s : State) : Keeper (Option State) := do
  let b ← get
  if b.loops.isEmpty then some <$> Keeper.check record (.escape .strayJump span) s
  else do
    modify (Ledger.noteJumps jumps)
    return none

mutual

/-- Walks a statement and keeps a ledger. -/
def keepStmt : Stmt → State → Keeper (Option State)
  | .assign targets value _, s => do
    let valued ← Keeper.check record (sc.judge.value s.defined value) s
    let checked ← Keeper.checkEach record sc.judge.target targets valued
    some <$> keepBound targets ((sc.judge.value s.defined value).isSafe && checked.1, checked.2)
  | .eval value _, s => some <$> Keeper.check record (sc.judge.expr s.defined value) s
  | .ifElse test body orelse _, s => do
    let tested ← Keeper.check record (sc.judge.expr s.defined test) s
    let completed ← keepBlock body tested
    let otherwise ← keepBlock orelse tested
    return mergePaths completed otherwise
  | .whileLoop test body orelse _, s =>
    Keeper.loop record (fun s => sc.judge.expr s.defined test) pure (keepBlock body)
      test.alwaysTrue (keepBlock orelse) s
  | .forLoop target source body orelse _, s => do
    let checked ← Keeper.check record (sc.judge.expr s.defined source) s
    Keeper.loop record (fun _ => .safe) (sc.keepBinding record target) (keepBlock body)
      false (keepBlock orelse) checked
  | .tryBlock body handlers orelse final _, s =>
    let region s := Keeper.shielding
      (Keeper.region (keepBlock body) (keepBlock orelse) (keepHandlers handlers) s)
    if final.isEmpty then Keeper.leaving region s else Keeper.closing region (keepBlock final) s
  | .withBlock items body _, s => do
    let entered ← sc.keepItems record items s
    Keeper.managed (keepBlock body) entered
  | .ret value span, s => do
    let checked ← Keeper.checkEach record sc.judge.expr value.toList s
    modify (Ledger.noteExits [⟨checked.2, .returned, span⟩])
    return none
  | .raise exception cause _, s => do
    let _ ← Keeper.checkEach record sc.judge.expr (exception.toList ++ cause.toList) s
    return none
  | .assertion test message _, s => do
    let checked ← Keeper.checkEach record sc.judge.expr (test :: message.toList) s
    return some checked.2
  | .superInit target args keywords span, s =>
    some <$> sc.keepCall record target args keywords span s
  | .rebindSelf value span, s => do
    let checked ← Keeper.check record (sc.judge.expr s.defined value) s
    some <$> Keeper.check record (.aliasing .selfRebound span) checked
  | .delete targets _, s => some <$> sc.keepDeletions record targets s
  | .nestedDef _ capturesSelf span, s =>
    some <$> Keeper.check record (if capturesSelf then .escape .capturedSelf span else .safe) s
  | .pass _, s => return some s
  | .breakLoop span, s => keepJump record ⟨some s, none⟩ span s
  | .continueLoop span, s => keepJump record ⟨none, some s⟩ span s
  | .unsupported span, s => some <$> Keeper.check record (.escape .unsupported span) s

/-- Walks statements one after the other, as far as a path leads, and keeps a ledger. -/
def keepBlock : List Stmt → State → Keeper (Option State)
  | [], s => return some s
  | st :: rest, s => do
    let next ← keepStmt st s
    Keeper.onPath (keepBlock rest) next

/-- Walks the handlers of a `try` statement from the state in which an exception leaves its body,
and merges them with the paths before. -/
def keepHandlers : List Handler → State → Option State → Keeper (Option State)
  | [], _, merged => return merged
  | ⟨type, _, body, _⟩ :: rest, raised, merged => do
    let checked ← Keeper.checkEach record sc.judge.expr type.toList raised
    let handled ← keepBlock body checked.2
    keepHandlers rest raised (mergePaths merged handled)

end

end Scope

/-! ## What a trace says, entered in a ledger -/

namespace Ledger

/-- Enters all that a trace says. -/
def post (record : Bool) (b : Ledger) (t : Trace) : Ledger where
  exits := b.exits ++ t.exits
  loops := b.loops.modifyHead fun top => (t.leading.merge top).merge t.trailing
  shielded := b.shielded
  escapes := b.escapes + t.escapes.length
  escapeStates := b.escapeStates ++ t.escapes.map Escape.state
  deletions := b.deletions ++ t.deletions
  firstEscape := b.firstEscape.or (if record then t.escapes.head?.map (·.site) else none)

variable {record : Bool} {b : Ledger}

theorem modifyHead_eq_self {f : Jumps → Jumps} (h : ∀ j, f j = j) (loops : List Jumps) :
    loops.modifyHead f = loops := by
  cases loops with
  | nil => rfl
  | cons top below => rw [List.modifyHead_cons, h]

/-- A trace that notes no escape. -/
theorem post_of_escapes_eq_nil {t : Trace} (h : t.escapes = []) : b.post record t =
    { b with
      exits := b.exits ++ t.exits
      loops := b.loops.modifyHead fun top => (t.leading.merge top).merge t.trailing
      deletions := b.deletions ++ t.deletions } := by
  simp [post, h]

/-- Where nothing has happened nothing is entered. -/
@[simp]
theorem post_empty : b.post record ∅ = b := by
  rw [post_of_escapes_eq_nil rfl]
  exact Ledger.ext (List.append_nil _) (modifyHead_eq_self Jumps.merge_none _) rfl rfl rfl
    (List.append_nil _) rfl

/-- What happens in turn is entered in turn. -/
theorem post_append (x y : Trace) : b.post record (x ++ y) = (b.post record x).post record y := by
  refine Ledger.ext (List.append_assoc ..).symm ?_ rfl ?_ ?_ (List.append_assoc ..).symm ?_
  · show b.loops.modifyHead _ = (b.loops.modifyHead _).modifyHead _
    cases b.loops with
    | nil => rfl
    | cons top below =>
      show (((y.leading.merge x.leading).merge top).merge (x.trailing.merge y.trailing)) :: _ = _
      simp only [Jumps.merge_assoc, List.modifyHead_cons]
  · simp [post, Nat.add_assoc]
  · simp [post]
  · cases record with
    | false => simp [post]
    | true => simp [post, Option.or_assoc, Option.map_or]

theorem shielded_post (t : Trace) : (b.post record t).shielded = b.shielded := rfl

/-- The mode of the walk depends on frames and shields, which a trace leaves as they are. -/
@[simp]
theorem mode_post (t : Trace) : (b.post record t).mode = b.mode := by
  show (⟨b.shielded != 0, !(b.loops.modifyHead _).isEmpty⟩ : Mode) = b.mode
  cases hloops : b.loops <;> simp [mode, hloops]

/-- Entries leave the walk in its surroundings. -/
theorem mode_post_of_mode {m : Mode} (record : Bool) (h : b.mode = m) (t : Trace) :
    (b.post record t).mode = m := (mode_post t).trans h

@[simp]
theorem mode_setExits (exits : List Exit) : (b.setExits exits).mode = b.mode := rfl

theorem setExits_exits (b : Ledger) : b.setExits b.exits = b := rfl

@[simp]
theorem mode_setTop (jumps : Jumps) : (b.setTop jumps).mode = b.mode := by
  show (⟨b.shielded != 0, !(b.loops.modifyHead _).isEmpty⟩ : Mode) = b.mode
  cases hloops : b.loops <;> simp [mode, hloops]

/-- A verdict is entered as its trace. -/
theorem noteVerdict_eq (v : Verdict) (s : State) :
    b.noteVerdict record v s = b.post record (.ofVerdict v s) := by
  unfold noteVerdict Trace.ofVerdict
  split
  · rw [‹v.site? = none›, post_empty]
  · rw [‹v.site? = some _›]
    dsimp only
    split
    · rw [post_empty]
    · refine Ledger.ext (List.append_nil _).symm (modifyHead_eq_self Jumps.merge_none _).symm rfl
        rfl rfl (List.append_nil _).symm ?_
      cases record <;> cases hfirst : b.firstEscape <;> simp [post, hfirst]

theorem noteExits_eq (exits : List Exit) :
    b.noteExits exits = b.post record { (∅ : Trace) with exits } := by
  rw [post_of_escapes_eq_nil rfl]
  exact Ledger.ext rfl (modifyHead_eq_self Jumps.merge_none _).symm rfl rfl rfl
    (List.append_nil _).symm rfl

/-- A jump is entered as its trace. -/
theorem noteJumps_eq (jumps : Jumps) : b.noteJumps jumps = b.post record (.ofJumps jumps) := by
  rw [post_of_escapes_eq_nil rfl]
  exact Ledger.ext (List.append_nil _).symm rfl rfl rfl rfl (List.append_nil _).symm rfl

theorem noteDeletion_eq (attr : Name) :
    b.noteDeletion attr = b.post record (.ofDeletion attr) := by
  rw [post_of_escapes_eq_nil rfl]
  exact Ledger.ext (List.append_nil _).symm (modifyHead_eq_self Jumps.merge_none _).symm rfl rfl rfl
    rfl rfl

end Ledger

end DefiniteInit
