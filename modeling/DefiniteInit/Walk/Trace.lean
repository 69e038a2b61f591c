import DefiniteInit.State
import DefiniteInit.Verdict

/-!
# What a walk leaves behind

Walking a statement from a state gives an `Outcome`: the state after it, if a path runs
through to its end, and a `Trace` of all that happened on the way. Outcomes are put one
after the other by `Outcome.andThen` and side by side by `Outcome.either`.

A trace keeps
* the places where the initializer returns, with their states;
* the states in which a path leaves the enclosing loop, or goes on to its next round,
  merged over all such paths (`Jumps`);
* the state at every escape, since code that saw the receiver there may hold it even if
  the path later raises;
* the attributes deleted.

Two jumps are merged with the earlier on the left, and the left operand of a merge
fixes the order in which attributes are listed. The exception is a jump made by a `finally`
block that is run because of a jump: it comes before all jumps of the loop so far. So a
trace keeps those apart (`leading`).
-/

namespace DefiniteInit

/-- How the initializer completes. -/
inductive ExitKind where
  /-- By a return statement. -/
  | returned
  /-- By running through to its end. -/
  | fellThrough
deriving DecidableEq

/-- A place where the initializer completes. -/
structure Exit where
  state : State
  kind : ExitKind
  span : Span
deriving DecidableEq

/-- An escape, with what was surely assigned when it happened. -/
structure Escape where
  defined : AttrSet
  site : EscapeSite
deriving DecidableEq

/-- The state of the path at the escape. -/
def Escape.state (e : Escape) : State := ⟨e.defined, true⟩

/-- The paths that leave a round of a loop early. -/
structure Jumps where
  /-- Those that leave the loop. -/
  broken : Option State
  /-- Those that go on to the next round. -/
  continued : Option State
deriving DecidableEq

namespace Jumps

/-- No such paths. -/
def none : Jumps := ⟨.none, .none⟩

/-- The paths of both. -/
def merge (a b : Jumps) : Jumps :=
  ⟨mergePaths a.broken b.broken, mergePaths a.continued b.continued⟩

@[simp]
theorem none_merge (a : Jumps) : none.merge a = a := rfl

@[simp]
theorem merge_none (a : Jumps) : a.merge none = a := by
  cases a; simp [merge, none]

end Jumps

/-- What happened during a walk. -/
structure Trace where
  /-- Where the initializer returned. -/
  exits : List Exit
  /-- Jumps that come before those made earlier. -/
  leading : Jumps
  /-- Jumps that come after those made earlier. -/
  trailing : Jumps
  /-- The escapes, in the order in which they were met. -/
  escapes : List Escape
  /-- The attributes deleted. -/
  deletions : List Name
deriving DecidableEq

namespace Trace

/-- Nothing happened. -/
def empty : Trace := ⟨[], .none, .none, [], []⟩

instance : EmptyCollection Trace := ⟨empty⟩

instance : Inhabited Trace := ⟨∅⟩

/-- First what one trace says, then what the other does. -/
def append (t u : Trace) : Trace where
  exits := t.exits ++ u.exits
  leading := u.leading.merge t.leading
  trailing := t.trailing.merge u.trailing
  escapes := t.escapes ++ u.escapes
  deletions := t.deletions ++ u.deletions

instance : Append Trace := ⟨append⟩

/-- All jumps. -/
def jumps (t : Trace) : Jumps := t.leading.merge t.trailing

/-- The trace without its jumps, for the code around the loop they belong to. -/
def withoutJumps (t : Trace) : Trace := { t with leading := .none, trailing := .none }

/-- The trace without its exits. -/
def withoutExits (t : Trace) : Trace := { t with exits := [] }

/-- A return. -/
def ofExit (e : Exit) : Trace := { (∅ : Trace) with exits := [e] }

/-- Jumps out of a round of a loop. -/
def ofJumps (j : Jumps) : Trace := { (∅ : Trace) with trailing := j }

/-- The deletion of an attribute. -/
def ofDeletion (attr : Name) : Trace := { (∅ : Trace) with deletions := [attr] }

/-- A verdict passed in a state; only the first escape on a path is one. -/
def ofVerdict (v : Verdict) (s : State) : Trace :=
  match v.site? with
  | some site => if s.escaped then ∅ else { (∅ : Trace) with escapes := [⟨s.defined, site⟩] }
  | none => ∅

end Trace

namespace State

/-- The state after a verdict. -/
def check (s : State) (v : Verdict) : State := if v.isSafe then s else s.escape

@[simp]
theorem defined_check (s : State) (v : Verdict) : (s.check v).defined = s.defined := by
  unfold check; split <;> rfl

theorem slack_check_le (s : State) (v : Verdict) : (s.check v).slack ≤ s.slack := by
  unfold check
  split
  · exact Nat.le_refl _
  · simp [slack, escape]

/-- A verdict that leaves as much slack changes nothing. -/
theorem check_eq_self_of_slack_le {s : State} {v : Verdict} (h : s.slack ≤ (s.check v).slack) :
    s.check v = s := by
  unfold check at h ⊢
  split
  · rfl
  · rename_i hv
    rw [if_neg hv] at h
    cases hs : s.escaped with
    | true => rw [escape, ← hs]
    | false =>
      have hslack : s.slack = s.defined.size + 1 := by rw [slack, hs]; rfl
      have hescape : s.escape.slack = s.defined.size := rfl
      omega

/-- The state in which an exception may leave a region entered in state `s`: whatever the
region lets escape or deletes, it may have done so. -/
def interrupted (s : State) (region : Trace) : State :=
  ⟨s.defined.eraseAll region.deletions, s.escaped || !region.escapes.isEmpty⟩

end State

/-- What walking a statement comes to. -/
structure Outcome where
  /-- The state after it, if a path runs through to its end. -/
  next : Option State
  /-- What happened on the way. -/
  trace : Trace
deriving DecidableEq

namespace Outcome

/-- Goes on in a state. -/
def goOn (s : State) : Outcome := ⟨some s, ∅⟩

/-- Does not go on. -/
def stop (t : Trace) : Outcome := ⟨none, t⟩

instance : Inhabited Outcome := ⟨stop ∅⟩

/-- Passes a verdict. -/
def check (v : Verdict) (s : State) : Outcome := ⟨some (s.check v), .ofVerdict v s⟩

/-- Goes on with a walk from the state reached. -/
def andThen (o : Outcome) (walk : State → Outcome) : Outcome :=
  match o.next with
  | none => o
  | some s =>
    let p := walk s
    ⟨p.next, o.trace ++ p.trace⟩

/-- One walk or the other. -/
def either (o p : Outcome) : Outcome := ⟨mergePaths o.next p.next, o.trace ++ p.trace⟩

/-- The places where a body that is walked to its end completes, the end included. -/
def exits (o : Outcome) : List Exit :=
  o.trace.exits ++ o.next.toList.map fun s => ⟨s, .fellThrough, .empty⟩

/-- A walk from a path that may have ended. -/
def onPath (walk : State → Outcome) : Option State → Outcome
  | none => stop ∅
  | some s => walk s

end Outcome

end DefiniteInit
